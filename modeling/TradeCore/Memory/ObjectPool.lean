import TradeCore.Common.Exec
/-!
# `ObjectPool<T, Capacity>` (`memory/object_pool.hpp`)

| here | there |
| --- | --- |
| `PoolCapacity`         | the template argument `Capacity`, as an `Index = uint32_t` can address it beside `kInvalidPoolIndex` |
| `Overlay`              | `union Slot { T object; Index next_free; }` (`object_pool.hpp:109`): the link lies over the first four bytes of the object |
| `ObjectPool.reset`     | `reset` (`object_pool.hpp:70`), run by the constructor |
| `ObjectPool.allocate`  | `allocate` (`object_pool.hpp:29`): the slot's index for the pointer, `none` for `nullptr` |
| `ObjectPool.deallocate`| `deallocate` (`object_pool.hpp:54`) |
| `ObjectPool.get`       | `at` (`object_pool.hpp:92`) and a read through the pointer it returns |
| `ObjectPool.modify`    | a write through a pointer already obtained |

A `T*` into the pool is its slot index (`index_of` and `at` are the two conversions), so `index_of`
is the identity here. `OrderPool` and `PriceLevelPool` forward to this class; their `at` makes the
same assertion once more.
-/

namespace TradeCore

/-- `std::size_t Capacity`: at least one slot (`reset` writes `slots_[Capacity - 1]`), and every slot
index is a `uint32_t` other than `kInvalidPoolIndex`. -/
structure PoolCapacity where
  size : Nat
  pos : 0 < size
  lt : size < 2 ^ 32

/-- The union `Slot`: the free-list link shares the storage of the object. -/
class Overlay (α : Type) where
  nextFree : α → Index
  setNextFree : Index → α → α
  nextFree_set : ∀ (i : Index) (a : α), nextFree (setNextFree i a) = i

attribute [simp] Overlay.nextFree_set

structure ObjectPool (α : Type) (cap : PoolCapacity) where
  slots : Index → α
  freeHead : Index
  activeCount : Nat

namespace ObjectPool

variable {α : Type} {cap : PoolCapacity}

/-- `at(idx)` and the object it points to (`object_pool.hpp:92`). -/
def get (pool : ObjectPool α cap) (idx : Index) : Exec α := do
  tradecoreAssert (idx.toNat < cap.size) "idx < Capacity"
  if idx.toNat < cap.size then return pool.slots idx else Exec.fail .outOfBounds

/-- A write through a pointer to slot `idx`. -/
def modify (pool : ObjectPool α cap) (idx : Index) (f : α → α) : ObjectPool α cap :=
  { pool with slots := Function.update pool.slots idx (f (pool.slots idx)) }

/-- `at(idx)->... = ...`. -/
def update (pool : ObjectPool α cap) (idx : Index) (f : α → α) : Exec (ObjectPool α cap) := do
  let _ ← pool.get idx
  return pool.modify idx f

section
variable [Overlay α]

/-- `reset` (`object_pool.hpp:70`): every slot links to the next one, the last one to nothing. -/
def reset (pool : ObjectPool α cap) : ObjectPool α cap :=
  { slots := fun i =>
      if i.toNat < cap.size - 1 then Overlay.setNextFree (i + 1) (pool.slots i)
      else if i.toNat = cap.size - 1 then Overlay.setNextFree kInvalidPoolIndex (pool.slots i)
      else pool.slots i
    freeHead := 0
    activeCount := 0 }

/-- The constructor: `slots_` is left uninitialised, so its first contents are an argument. -/
def new (slots : Index → α) : ObjectPool α cap := reset ⟨slots, 0, 0⟩

/-- `allocate` (`object_pool.hpp:29`); `init` is the freshly constructed `T{}`. -/
def allocate (pool : ObjectPool α cap) (init : α) : Exec (Option Index × ObjectPool α cap) :=
  if pool.freeHead = kInvalidPoolIndex then return (none, pool)
  else if pool.freeHead.toNat < cap.size then
    return (some pool.freeHead,
      { slots := Function.update pool.slots pool.freeHead init
        freeHead := Overlay.nextFree (pool.slots pool.freeHead)
        activeCount := pool.activeCount + 1 })
  else Exec.fail .outOfBounds

/-- `deallocate` (`object_pool.hpp:54`); the pointer is never null here. -/
def deallocate (pool : ObjectPool α cap) (idx : Index) : Exec (ObjectPool α cap) := do
  tradecoreAssert (idx.toNat < cap.size) "offset >= 0 && static_cast<std::size_t>(offset) < Capacity"
  if idx.toNat < cap.size then
    return { slots := Function.update pool.slots idx (Overlay.setNextFree pool.freeHead (pool.slots idx))
             freeHead := idx
             activeCount := pool.activeCount - 1 }
  else Exec.fail .outOfBounds

end

/-! ## Slots -/

/-- `idx` is the index of a slot. -/
def Valid (cap : PoolCapacity) (idx : Index) : Prop := idx.toNat < cap.size

instance (idx : Index) : Decidable (Valid cap idx) := inferInstanceAs (Decidable (_ < _))

theorem Valid.ne_invalid {idx : Index} (h : Valid cap idx) : idx ≠ kInvalidPoolIndex := by
  rintro rfl
  have h1 := cap.lt
  have h2 : kInvalidPoolIndex.toNat = 4294967295 := rfl
  unfold Valid at h
  omega

theorem get_eq (pool : ObjectPool α cap) {idx : Index} (h : Valid cap idx) :
    pool.get idx = pure (pool.slots idx) := by
  have h' : idx.toNat < cap.size := h
  simp [get, h']

theorem get_of_not_valid (pool : ObjectPool α cap) {idx : Index} (h : ¬ Valid cap idx) (b : Build) (a : α) :
    pool.get idx b ≠ .ok a := by
  have h' : ¬ idx.toNat < cap.size := h
  unfold get
  rw [if_neg h', ne_eq, Exec.bind_eq_ok]
  simp

@[simp] theorem modify_freeHead (pool : ObjectPool α cap) (i : Index) (f : α → α) :
    (pool.modify i f).freeHead = pool.freeHead := rfl

@[simp] theorem modify_activeCount (pool : ObjectPool α cap) (i : Index) (f : α → α) :
    (pool.modify i f).activeCount = pool.activeCount := rfl

theorem modify_slots (pool : ObjectPool α cap) (i j : Index) (f : α → α) :
    (pool.modify i f).slots j = if j = i then f (pool.slots i) else pool.slots j := by
  simp [modify, Function.update_apply]

@[simp] theorem modify_slots_self (pool : ObjectPool α cap) (i : Index) (f : α → α) :
    (pool.modify i f).slots i = f (pool.slots i) := by
  simp [modify]

theorem modify_slots_of_ne (pool : ObjectPool α cap) {i j : Index} (h : j ≠ i) (f : α → α) :
    (pool.modify i f).slots j = pool.slots j := by
  simp [modify, h]

theorem update_eq (pool : ObjectPool α cap) {idx : Index} (h : Valid cap idx) (f : α → α) :
    pool.update idx f = pure (pool.modify idx f) := by
  simp [update, get_eq _ h]

end ObjectPool

end TradeCore
