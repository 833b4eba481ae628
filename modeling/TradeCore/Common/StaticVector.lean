import TradeCore.Common.Exec
/-!
# `StaticVector<T, Capacity>` (`common/static_vector.hpp`)

The elements in use, never more than the capacity. The write of `push_back` behind a full vector is
`Fault.outOfBounds`.
-/

namespace TradeCore

structure StaticVector (α : Type) (capacity : Nat) where
  data : List α
  size_le : data.length ≤ capacity

namespace StaticVector

variable {α : Type} {capacity : Nat}

/-- A vector without elements (`size_{0}`). -/
def empty : StaticVector α capacity := ⟨[], Nat.zero_le _⟩

/-- `push_back` (`static_vector.hpp:21`). -/
def pushBack (v : StaticVector α capacity) (val : α) : Exec (StaticVector α capacity) := do
  tradecoreAssert (v.data.length < capacity) "size_ < Capacity"
  if h : v.data.length < capacity then return ⟨v.data ++ [val], by simpa using h⟩
  else Exec.fail .outOfBounds

theorem pushBack_ok (v : StaticVector α capacity) (val : α) (h : v.data.length < capacity) :
    v.pushBack val = pure ⟨v.data ++ [val], by simpa using h⟩ := by
  simp [pushBack, h]

/-- What a `push_back` behind a full vector ends in. -/
def fullFault : Build → Fault
  | .debug => .assertFailed "size_ < Capacity"
  | .release => .outOfBounds

theorem pushBack_full {v : StaticVector α capacity} (h : ¬ v.data.length < capacity) (val : α) (b : Build) :
    v.pushBack val b = .error (fullFault b) := by
  unfold pushBack
  rw [dif_neg h, decide_eq_false h]
  cases b <;> rfl

theorem pushBack_data {v v' : StaticVector α capacity} {val : α} {b : Build} (h : v.pushBack val b = .ok v') :
    v'.data = v.data ++ [val] := by
  by_cases hlt : v.data.length < capacity
  · rw [pushBack_ok v val hlt, Exec.pure_apply] at h
    cases h
    rfl
  · rw [pushBack_full hlt] at h
    cases h

end StaticVector

end TradeCore
