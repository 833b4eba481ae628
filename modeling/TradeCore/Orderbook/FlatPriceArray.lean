import TradeCore.Common.Exec
/-!
# `FlatPriceArray<MaxTicks>` (`orderbook/flat_price_array.hpp`): the dense price window

| here | there |
| --- | --- |
| `setAnchor`        | `set_anchor` (`flat_price_array.hpp:25`) |
| `priceToIndex`     | `price_to_index` (`flat_price_array.hpp:59`), `SIZE_MAX` for a price below the anchor |
| `find`             | `find` (`flat_price_array.hpp:30`): nothing outside the window |
| `insert`, `remove` | `insert`, `remove` (`flat_price_array.hpp:36`, `:43`): the window is asserted, then the array is indexed |
| `rescan`           | the loop of `update_bbo_remove` (`flat_price_array.hpp:77`) |
| `bestIndex`, `bestPrice` | `best_index`, `best_price` (`flat_price_array.hpp:50`, `:54`) |

`level_indices_` is a function; an index at or above `MaxTicks` is `Fault.outOfBounds`.
-/

namespace TradeCore

structure FlatPriceArray (maxTicks : Nat) where
  levelIndices : Nat → Index
  anchorPrice : UInt32
  tickSize : UInt32
  /-- A `size_t` that starts as `kInvalidPoolIndex`. -/
  bestIdx : Nat

namespace FlatPriceArray

variable {maxTicks : Nat}

def new : FlatPriceArray maxTicks := ⟨fun _ => kInvalidPoolIndex, 0, 1, kInvalidPoolIndex.toNat⟩

/-- `std::numeric_limits<std::size_t>::max()`. -/
def sizeMax : Nat := 2 ^ 64 - 1

def priceToIndex (a : FlatPriceArray maxTicks) (price : UInt32) : Nat :=
  if price < a.anchorPrice then sizeMax else ((price - a.anchorPrice) / a.tickSize).toNat

/-- `is_better` (`flat_price_array.hpp:89`): higher, whatever the side. -/
def isBetter (a b : Nat) : Bool := a > b

def find (a : FlatPriceArray maxTicks) (price : UInt32) : Index :=
  if a.priceToIndex price ≥ maxTicks then kInvalidPoolIndex else a.levelIndices (a.priceToIndex price)

/-- `update_bbo_insert` (`flat_price_array.hpp:64`). -/
def updateBboInsert (a : FlatPriceArray maxTicks) (idx : Nat) : FlatPriceArray maxTicks :=
  if a.bestIdx = kInvalidPoolIndex.toNat ∨ isBetter idx a.bestIdx then { a with bestIdx := idx } else a

/-- The best occupied tick, looked for from tick 0 on. -/
def rescan (a : FlatPriceArray maxTicks) : Nat :=
  (List.range maxTicks).foldl (fun best i =>
    if a.levelIndices i ≠ kInvalidPoolIndex then
      if best = kInvalidPoolIndex.toNat ∨ isBetter i best then i else best
    else best) kInvalidPoolIndex.toNat

/-- `update_bbo_remove` (`flat_price_array.hpp:70`). -/
def updateBboRemove (a : FlatPriceArray maxTicks) (idx : Nat) : FlatPriceArray maxTicks :=
  if idx = a.bestIdx then { a with bestIdx := a.rescan } else a

/-- `level_indices_[idx] = v`. -/
def setIndex (a : FlatPriceArray maxTicks) (idx : Nat) (v : Index) : Exec (FlatPriceArray maxTicks) := do
  tradecoreAssert (idx < maxTicks) "idx < MaxTicks"
  if idx < maxTicks then return { a with levelIndices := Function.update a.levelIndices idx v }
  else Exec.fail .outOfBounds

def insert (a : FlatPriceArray maxTicks) (price : UInt32) (levelPoolIdx : Index) : Exec (FlatPriceArray maxTicks) := do
  let idx := a.priceToIndex price
  let a ← a.setIndex idx levelPoolIdx
  return a.updateBboInsert idx

def remove (a : FlatPriceArray maxTicks) (price : UInt32) : Exec (FlatPriceArray maxTicks) := do
  let idx := a.priceToIndex price
  let a ← a.setIndex idx kInvalidPoolIndex
  return a.updateBboRemove idx

def setAnchor (a : FlatPriceArray maxTicks) (anchorPrice tickSize : UInt32) : FlatPriceArray maxTicks :=
  { a with anchorPrice := anchorPrice, tickSize := tickSize }

def bestIndex (a : FlatPriceArray maxTicks) : Index :=
  if a.bestIdx = kInvalidPoolIndex.toNat then kInvalidPoolIndex else a.levelIndices a.bestIdx

def bestPrice (a : FlatPriceArray maxTicks) : UInt32 :=
  if a.bestIdx = kInvalidPoolIndex.toNat then 0 else UInt32.ofNat (a.anchorPrice.toNat + a.bestIdx * a.tickSize.toNat)

/-! ## What the operations do to the ticks -/

/-- The array of a `BookSide`: nobody moves the anchor or the tick size. -/
def Direct (a : FlatPriceArray maxTicks) : Prop := a.anchorPrice = 0 ∧ a.tickSize = 1

variable {a : FlatPriceArray maxTicks} {price : UInt32}

theorem Direct.priceToIndex_eq (h : a.Direct) (price : UInt32) : a.priceToIndex price = price.toNat := by
  unfold FlatPriceArray.priceToIndex
  have h0 : ¬ price < a.anchorPrice := by
    rw [h.1, UInt32.lt_iff_toNat_lt]
    simp
  rw [if_neg h0, h.1, h.2]
  simp

theorem direct_new : (new : FlatPriceArray maxTicks).Direct := ⟨rfl, rfl⟩

theorem Direct.find_eq (h : a.Direct) (price : UInt32) :
    a.find price = if price.toNat < maxTicks then a.levelIndices price.toNat else kInvalidPoolIndex := by
  unfold FlatPriceArray.find
  rw [h.priceToIndex_eq]
  by_cases hlt : price.toNat < maxTicks
  · rw [if_neg (by omega), if_pos hlt]
  · rw [if_pos (by omega), if_neg hlt]

/-- **Inside the window** `insert` writes the tick of the price and nothing else. -/
theorem Direct.insert_ok (h : a.Direct) (hp : price.toNat < maxTicks) (v : Index) :
    ∃ a', a.insert price v = pure a' ∧ a'.Direct ∧ a'.levelIndices = Function.update a.levelIndices price.toNat v := by
  unfold FlatPriceArray.insert setIndex
  simp only [h.priceToIndex_eq, hp, decide_true, tradecoreAssert_true, pure_bind, if_true]
  refine ⟨_, rfl, ?_, ?_⟩ <;> unfold updateBboInsert <;> split
  · exact h
  · exact h
  · rfl
  · rfl

/-- **Inside the window** `remove` frees the tick of the price. -/
theorem Direct.remove_ok (h : a.Direct) (hp : price.toNat < maxTicks) :
    ∃ a', a.remove price = pure a' ∧ a'.Direct ∧
      a'.levelIndices = Function.update a.levelIndices price.toNat kInvalidPoolIndex := by
  unfold FlatPriceArray.remove setIndex
  simp only [h.priceToIndex_eq, hp, decide_true, tradecoreAssert_true, pure_bind, if_true]
  refine ⟨_, rfl, ?_, ?_⟩ <;> unfold updateBboRemove <;> split
  · exact h
  · exact h
  · rfl
  · rfl

/-- **Outside the window** `insert` does not return, in either build. -/
theorem Direct.insert_outside (h : a.Direct) (hp : maxTicks ≤ price.toNat) (v : Index) (b : Build)
    (a' : FlatPriceArray maxTicks) : a.insert price v b ≠ .ok a' := by
  unfold FlatPriceArray.insert setIndex
  have hlt : ¬ price.toNat < maxTicks := by omega
  simp only [h.priceToIndex_eq, hlt, if_false, ne_eq, Exec.bind_eq_ok, Exec.fail_apply]
  simp

end FlatPriceArray

end TradeCore
