import Mathlib
/-!
# Runs of the C++ code: builds, assertions, faults

| here | there |
| --- | --- |
| `Build`            | the `NDEBUG` switch of `assert.hpp:23-34` |
| `tradecoreAssert`  | `TRADECORE_ASSERT(cond)` (`assert.hpp:24`): checked in a debug build, not evaluated in a release build |
| `Fault`            | what a run ends in when it does not return |
| `kInvalidPoolIndex`| `constants.hpp:25` |

A function of the source is an `Exec` value: for each build, a result or a fault. The call of `OrderBook::verify`
after a mutation is left out of both builds (the function itself is in `OrderBookVerifier.lean`), so
`Build.debug` is the build with every `TRADECORE_ASSERT` and with `verify()` compiled out.

A statement `f x = pure y` says that in either build no assertion of `f` fires, no access is out of
bounds, every loop ends, and the result is `y`.
-/

namespace TradeCore

/-- `uint32_t` pool index. -/
abbrev Index := UInt32

/-- `kInvalidPoolIndex = static_cast<uint32_t>(-1)` (`constants.hpp:25`). -/
def kInvalidPoolIndex : Index := 0xFFFFFFFF

inductive Fault where
  /-- `TRADECORE_ASSERT(expr)` failed: `assert_fail` prints `expr` and aborts (`assert.hpp:9`). -/
  | assertFailed (expr : String)
  /-- An access outside an array or through a null pointer. -/
  | outOfBounds
  /-- A loop or a recursion that never ends. -/
  | diverges
deriving DecidableEq, Repr

/-- `NDEBUG` undefined or defined. -/
inductive Build where
  | debug
  | release
deriving DecidableEq, Repr

/-- A computation of the source, run in a given build. -/
abbrev Exec := ReaderT Build (Except Fault)

namespace Exec

/-- The run ends in fault `e`. -/
def fail {α : Type} (e : Fault) : Exec α := fun _ => .error e

@[simp] theorem fail_apply {α : Type} (e : Fault) (b : Build) : (fail e : Exec α) b = .error e := rfl

@[simp] theorem pure_apply {α : Type} (x : α) (b : Build) : (pure x : Exec α) b = .ok x := rfl

theorem bind_apply {α β : Type} (m : Exec α) (f : α → Exec β) (b : Build) :
    (m >>= f) b = (m b >>= fun x => f x b) := rfl

/-- A run that returns from a sequence returned from its first part. -/
theorem bind_eq_ok {α β : Type} {m : Exec α} {f : α → Exec β} {b : Build} {y : β} :
    (m >>= f) b = .ok y ↔ ∃ x, m b = .ok x ∧ f x b = .ok y := by
  rw [bind_apply]
  cases h : m b with
  | error e => simp [bind, Except.bind]
  | ok x => simp [bind, Except.bind]

/-- A sequence goes on from what its first part returned. -/
theorem bind_of_ok {α β : Type} {m : Exec α} {f : α → Exec β} {b : Build} {x : α} (h : m b = .ok x) : (m >>= f) b = f x b := by
  rw [bind_apply, h]
  rfl

/-- A fault of the first part is the fault of the sequence. -/
theorem bind_eq_error {α β : Type} {m : Exec α} {f : α → Exec β} {b : Build} {e : Fault} (h : m b = .error e) :
    (m >>= f) b = .error e := by
  rw [bind_apply, h]
  rfl

theorem pure_inj {α : Type} {x y : α} (h : (pure x : Exec α) = pure y) : x = y := by
  have := congrFun h .debug
  simpa using this

/-- Runs that are equal up to what is read of their results end in the same fault, or both return. -/
theorem eq_of_map_eq {α β γ : Type} {m : Exec α} {m' : Exec β} {f : α → γ} {f' : β → γ} (h : f <$> m = f' <$> m') (b : Build) :
    (∃ e, m b = .error e ∧ m' b = .error e) ∨ ∃ x y, m b = .ok x ∧ m' b = .ok y ∧ f x = f' y := by
  have hb : f <$> m b = f' <$> m' b := congrFun h b
  cases hm : m b with
  | error e =>
    cases hm' : m' b with
    | error e' =>
      rw [hm, hm'] at hb
      cases hb
      exact Or.inl ⟨e, rfl, rfl⟩
    | ok y =>
      rw [hm, hm'] at hb
      cases hb
  | ok x =>
    cases hm' : m' b with
    | error e' =>
      rw [hm, hm'] at hb
      cases hb
    | ok y =>
      rw [hm, hm'] at hb
      exact Or.inr ⟨x, y, rfl, rfl, Except.ok.inj hb⟩

theorem error_of_map_eq {α β γ : Type} {m : Exec α} {m' : Exec β} {f : α → γ} {f' : β → γ} (h : f <$> m = f' <$> m') {b : Build}
    {e : Fault} (hm : m' b = .error e) : m b = .error e := by
  rcases eq_of_map_eq h b with ⟨e', h1, h2⟩ | ⟨x, y, -, h2, -⟩
  · rw [hm] at h2
    cases h2
    exact h1
  · rw [hm] at h2
    cases h2

theorem ok_of_map_eq {α β γ : Type} {m : Exec α} {m' : Exec β} {f : α → γ} {f' : β → γ} (h : f <$> m = f' <$> m') {b : Build}
    {y : β} (hm : m' b = .ok y) : ∃ x, m b = .ok x ∧ f x = f' y := by
  rcases eq_of_map_eq h b with ⟨e', -, h2⟩ | ⟨x, y', h1, h2, h3⟩
  · rw [hm] at h2
    cases h2
  · rw [hm] at h2
    cases h2
    exact ⟨x, h1, h3⟩

/-- What the debug build returns, for a caller that looks first whether `p`. -/
def checked {α : Type} (p : Prop) [Decidable p] (m : Exec α) : Option α := if p then (m .debug).toOption else none

theorem checked_eq_some {α : Type} {p : Prop} [Decidable p] {m : Exec α} {x : α} : m.checked p = some x ↔ p ∧ m .debug = .ok x := by
  unfold checked
  cases m .debug <;> simp [Except.toOption]

end Exec

/-- `TRADECORE_ASSERT(cond)` for a condition that itself runs code (`assert.hpp:24`). -/
def tradecoreAssertM (cond : Exec Bool) (expr : String) : Exec Unit := fun b =>
  match b with
  | .debug => do
    if (← cond .debug) then return () else throw (.assertFailed expr)
  | .release => return ()

/-- `TRADECORE_ASSERT(cond)` (`assert.hpp:24`). -/
def tradecoreAssert (cond : Bool) (expr : String) : Exec Unit := tradecoreAssertM (pure cond) expr

@[simp] theorem tradecoreAssertM_true (e : String) : tradecoreAssertM (pure true) e = pure () := by
  funext b; cases b <;> rfl

@[simp] theorem tradecoreAssert_true (e : String) : tradecoreAssert true e = pure () :=
  tradecoreAssertM_true e

/-- In a release build an assertion is not there. -/
@[simp] theorem tradecoreAssertM_release (c : Exec Bool) (e : String) :
    tradecoreAssertM c e .release = .ok () := rfl

@[simp] theorem tradecoreAssert_release (c : Bool) (e : String) :
    tradecoreAssert c e .release = .ok () := rfl

end TradeCore
