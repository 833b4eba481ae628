import TradeCore.Lib.Traces
import TradeCore.Memory.ObjectPoolProofs
import TradeCore.Orderbook.Records
/-!
# Runs of an object pool

A client allocates slots, writes to the objects it was given, releases them in any order, or resets the pool. `live`
are the slots that were handed out and not released since.

| here | there |
| --- | --- |
| `SlotLayout`       | `slots_`: its address and `sizeof(Slot)` |
| `SlotLayout.atIdx` | `at` (`object_pool.hpp:92`), the address it returns |
| `SlotLayout.indexOf` | `index_of` (`object_pool.hpp:87`): a pointer difference, cast to `Index` |
| `PoolEvent.allocate` | `allocate()` and `allocate(args...)` (`object_pool.hpp:29`, `:42`), by the object they construct |
| `PoolEvent.write`  | any change of an object, its destructor included |

A write gives the object any value at all, so it may leave anything where the free-list link of the slot was. `pool_safe`
holds after every run all the same: the links that count lie in free slots.
-/

namespace TradeCore

open LinkedList ObjectPool

/-! ## Pointers -/

/-- `Slot` is never empty, so `sizeof(Slot)` is positive. -/
structure SlotLayout where
  base : ℕ
  slotSize : ℕ
  pos : 0 < slotSize

namespace SlotLayout

/-- `&slots_[idx].object`, the address of the slot: a union and its members have one address. -/
def atIdx (layout : SlotLayout) (cap : PoolCapacity) (idx : Index) : Exec ℕ := do
  tradecoreAssert (idx.toNat < cap.size) "idx < Capacity"
  if idx.toNat < cap.size then return layout.base + idx.toNat * layout.slotSize else Exec.fail .outOfBounds

/-- `slot_ptr - slots_.data()`. -/
def offset (layout : SlotLayout) (ptr : ℕ) : ℤ := ((ptr : ℤ) - layout.base) / layout.slotSize

def indexOf (layout : SlotLayout) (ptr : ℕ) : Index := UInt32.ofInt (layout.offset ptr)

variable (layout : SlotLayout) {cap : PoolCapacity} {idx : Index}

theorem atIdx_eq (h : Valid cap idx) : layout.atIdx cap idx = pure (layout.base + idx.toNat * layout.slotSize) := by
  have h' : idx.toNat < cap.size := h
  simp [atIdx, h']

theorem offset_slot (n : ℕ) : layout.offset (layout.base + n * layout.slotSize) = n := by
  have hpos := layout.pos
  have hdiff : ((layout.base + n * layout.slotSize : ℕ) : ℤ) - layout.base = n * layout.slotSize := by
    push_cast
    ring
  unfold offset
  rw [hdiff]
  exact Int.mul_ediv_cancel _ (by omega)

/-- **`index_of` undoes `at`.** -/
theorem indexOf_slot (idx : Index) : layout.indexOf (layout.base + idx.toNat * layout.slotSize) = idx := by
  have hlt : idx.toNat < 2 ^ 32 := idx.toNat_lt
  have hmod : ((idx.toNat : ℤ) % 2 ^ 32).toNat = idx.toNat := by
    rw [Int.emod_eq_of_lt (by omega) (by exact_mod_cast hlt), Int.toNat_natCast]
  unfold indexOf UInt32.ofInt
  rw [layout.offset_slot, hmod]
  exact UInt32.ofNat_toNat

end SlotLayout

/-! ## Events -/

inductive PoolEvent (α : Type) where
  | allocate (init : α)
  | deallocate (idx : Index)
  | write (idx : Index) (f : α → α)
  | reset

/-- A pool and the slots its client holds. -/
structure HeldPool (α : Type) (cap : PoolCapacity) where
  pool : ObjectPool α cap
  live : Finset Index

variable {α : Type} [Overlay α] {cap : PoolCapacity}

/-- One event. A client writes to and releases what it holds, nothing else. -/
inductive PoolStep : HeldPool α cap → PoolEvent α → HeldPool α cap → Prop where
  | allocated {st : HeldPool α cap} {init : α} {i : Index} {pool' : ObjectPool α cap} {b : Build} :
      st.pool.allocate init b = .ok (some i, pool') → PoolStep st (.allocate init) ⟨pool', insert i st.live⟩
  | exhausted {st : HeldPool α cap} {init : α} {pool' : ObjectPool α cap} {b : Build} :
      st.pool.allocate init b = .ok (none, pool') → PoolStep st (.allocate init) ⟨pool', st.live⟩
  | deallocate {st : HeldPool α cap} {i : Index} {pool' : ObjectPool α cap} {b : Build} :
      i ∈ st.live → st.pool.deallocate i b = .ok pool' → PoolStep st (.deallocate i) ⟨pool', st.live.erase i⟩
  | write {st : HeldPool α cap} {i : Index} {f : α → α} :
      i ∈ st.live → PoolStep st (.write i f) ⟨st.pool.modify i f, st.live⟩
  | reset {st : HeldPool α cap} : PoolStep st .reset ⟨st.pool.reset, ∅⟩

def poolSystem (α : Type) [Overlay α] (cap : PoolCapacity) : TransitionSystem (HeldPool α cap) (PoolEvent α) where
  init st := ∃ slots, st = ⟨ObjectPool.new slots, ∅⟩
  step := PoolStep

variable {st st' : HeldPool α cap} {ev : PoolEvent α} {trace : List (PoolEvent α)}

theorem PoolStep.ok (h : PoolStep st ev st') (hst : st.pool.PoolOk st.live) : st'.pool.PoolOk st'.live := by
  cases h with
  | allocated hrun =>
    rcases Nat.lt_or_ge st.live.card cap.size with hlt | hge
    · obtain ⟨i, pool', e, -, -, hok, -⟩ := hst.allocate_ok hlt _
      rw [e, Exec.pure_apply] at hrun
      cases hrun
      exact hok
    · rw [hst.allocate_full (Nat.le_antisymm hst.card_le hge), Exec.pure_apply] at hrun
      cases hrun
  | exhausted hrun =>
    rcases Nat.lt_or_ge st.live.card cap.size with hlt | hge
    · obtain ⟨i, pool', e, -⟩ := hst.allocate_ok hlt _
      rw [e, Exec.pure_apply] at hrun
      cases hrun
    · rw [hst.allocate_full (Nat.le_antisymm hst.card_le hge), Exec.pure_apply] at hrun
      cases hrun
      exact hst
  | deallocate hi hrun =>
    obtain ⟨pool', e, hok, -⟩ := hst.deallocate_ok hi
    rw [e, Exec.pure_apply] at hrun
    cases hrun
    exact hok
  | write hi => exact hst.modify hi _
  | reset => exact reset_ok _

theorem pool_trace_ok (h : (poolSystem α cap).Trace trace st) : st.pool.PoolOk st.live := by
  refine h.invariant (fun _ st => st.pool.PoolOk st.live) ?_ fun _ _ _ _ hst hstep => PoolStep.ok hstep hst
  rintro st ⟨slots, rfl⟩
  exact new_ok slots

/-! ## Safety -/

/-- What the state of a pool owes its client. -/
structure PoolSafe (pool : ObjectPool α cap) (live : Finset Index) : Prop where
  /-- The free list ends, and has no slot twice; it and the held slots share no slot and are all the slots. -/
  free : ∃ free : List Index, Path pool.link pool.freeHead free kInvalidPoolIndex ∧ free.Nodup ∧
    Disjoint free.toFinset live ∧ free.toFinset ∪ live = allSlots cap
  allocate : ∀ init, ∃ r pool', pool.allocate init = pure (r, pool') ∧ (∀ i, r = some i → Valid cap i ∧ i ∉ live) ∧
    (r = none ↔ live.card = cap.size)
  deallocate : ∀ i ∈ live, ∃ pool', pool.deallocate i = pure pool'
  count : pool.activeCount = live.card
  /-- `index_of(at(i))` is `i`, and `at(index_of(ptr))` is `ptr`. -/
  pointers : ∀ layout : SlotLayout, ∀ i ∈ live, ∃ ptr, layout.atIdx cap i = pure ptr ∧ layout.indexOf ptr = i ∧
    layout.atIdx cap (layout.indexOf ptr) = pure ptr

theorem ObjectPool.PoolOk.safe (h : st.pool.PoolOk st.live) : PoolSafe st.pool st.live where
  free := by
    obtain ⟨free, hpath, hnodup, hmem⟩ := h.list
    refine ⟨free, hpath, hnodup, ?_, ?_⟩
    · rw [Finset.disjoint_left]
      intro i hi
      exact ((hmem i).1 (List.mem_toFinset.1 hi)).2
    · ext i
      rw [Finset.mem_union, List.mem_toFinset, hmem, mem_allSlots]
      constructor
      · rintro (⟨hv, -⟩ | hi)
        · exact hv
        · exact h.valid i hi
      · intro hv
        by_cases hi : i ∈ st.live
        · exact Or.inr hi
        · exact Or.inl ⟨hv, hi⟩
  allocate init := by
    rcases Nat.lt_or_ge st.live.card cap.size with hlt | hge
    · obtain ⟨i, pool', e, hv, hi, -⟩ := h.allocate_ok hlt init
      refine ⟨some i, pool', e, ?_, ?_⟩
      · rintro j hj
        cases hj
        exact ⟨hv, hi⟩
      · constructor
        · nofun
        · intro hfull
          omega
    · have hfull := Nat.le_antisymm h.card_le hge
      exact ⟨none, st.pool, h.allocate_full hfull init, nofun, fun _ => hfull, fun _ => rfl⟩
  deallocate i hi := by
    obtain ⟨pool', e, -⟩ := h.deallocate_ok hi
    exact ⟨pool', e⟩
  count := h.count
  pointers layout i hi := by
    have hptr := layout.atIdx_eq (h.valid i hi)
    refine ⟨_, hptr, layout.indexOf_slot i, ?_⟩
    rw [layout.indexOf_slot]
    exact hptr

/-- **Object pool safety**, after every run of allocations, releases, writes and resets. -/
theorem pool_safe (h : (poolSystem α cap).Trace trace st) : PoolSafe st.pool st.live := (pool_trace_ok h).safe

/-- A pool of two orders. -/
def twoOrders : PoolCapacity := ⟨2, by decide, by decide⟩

theorem pool_safe_released : ∃ st : HeldPool Order twoOrders, (poolSystem Order twoOrders).Trace
    [.allocate Order.zero, .write 0 fun o => { o with orderId := 7 }, .deallocate 0] st ∧ PoolSafe st.pool st.live := by
  have hnew : (poolSystem Order twoOrders).Trace [] ⟨ObjectPool.new fun _ => Order.zero, ∅⟩ := .init ⟨_, rfl⟩
  obtain ⟨pool, hpool⟩ : ∃ pool, (ObjectPool.new fun _ => Order.zero : ObjectPool Order twoOrders).allocate Order.zero .release =
    .ok (some 0, pool) := ⟨_, rfl⟩
  have hallocate := hnew.step (PoolStep.allocated hpool)
  have hwrite := hallocate.step (PoolStep.write (f := fun o => { o with orderId := 7 }) (Finset.mem_insert_self _ _))
  have hdeallocate := hwrite.step (PoolStep.deallocate (b := .release) (Finset.mem_insert_self _ _) rfl)
  exact ⟨_, hdeallocate, pool_safe hdeallocate⟩

end TradeCore
