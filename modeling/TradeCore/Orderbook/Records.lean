import TradeCore.Memory.ObjectPool
/-!
# The records of the book: `Order`, `AVLNode`, `PriceLevel`, `BookUpdate`, `AVLStatistics`

Only the fields some function of the model reads or writes are kept. Of `Order` (`order.hpp:18`) that
leaves out `qty`, `filled_qty`, `prev_in_level`, `symbol`, `order_type`, `state`, `flags`; of
`BookUpdate` (`book_update.hpp:21`) `remaining_qty` and `flags`.
-/

namespace TradeCore

/-- `struct Order` (`order.hpp:18`). -/
structure Order where
  orderId : UInt64
  timestampNs : UInt64
  price : UInt32
  remainingQty : UInt32
  nextInLevel : Index
  side : UInt8
deriving DecidableEq, Repr

/-- `T{}` of `allocate` (`object_pool.hpp:38`). -/
def Order.zero : Order := ⟨0, 0, 0, 0, 0, 0⟩

/-- `order_id` is the first field: the link takes its low half (little-endian). -/
instance : Overlay Order where
  nextFree o := o.orderId.toUInt32
  setNextFree i o := { o with orderId := (o.orderId &&& 0xFFFFFFFF00000000) ||| i.toUInt64 }
  nextFree_set i o := by
    simp only [UInt64.toUInt32_or, UInt64.toUInt32_and, UInt32.toUInt32_toUInt64]
    have : (0xFFFFFFFF00000000 : UInt64).toUInt32 = 0 := by decide
    rw [this]
    simp

/-- `struct AVLNode` (`price_level.hpp:8`). -/
structure AVLNode where
  left : Index
  right : Index
  parent : Index
  height : Int
deriving DecidableEq, Repr

/-- `struct PriceLevel` (`price_level.hpp:16`). -/
structure PriceLevel where
  price : UInt32
  totalQty : UInt32
  orderCount : UInt32
  headOrderIdx : Index
  tailOrderIdx : Index
  node : AVLNode
  side : UInt8
deriving DecidableEq, Repr

/-- `T{}` of `allocate` (`object_pool.hpp:38`), with the member initialisers of `AVLNode`. -/
def PriceLevel.zero : PriceLevel :=
  ⟨0, 0, 0, 0, 0, ⟨kInvalidPoolIndex, kInvalidPoolIndex, kInvalidPoolIndex, 1⟩, 0⟩

/-- `price` is the first field: the link lies over it. -/
instance : Overlay PriceLevel where
  nextFree l := l.price
  setNextFree i l := { l with price := i }
  nextFree_set _ _ := rfl

/-- `OrderPool` (`order_pool.hpp:14`), a forwarding wrapper. -/
abbrev OrderPool := ObjectPool Order

/-- `PriceLevelPool` (`price_level_pool.hpp:13`), a forwarding wrapper. -/
abbrev PriceLevelPool := ObjectPool PriceLevel

/-- `enum class UpdateType : uint8_t` (`book_update.hpp:9`). -/
inductive UpdateType where
  | addOrder
  | modifyOrder
  | cancelOrder
  | deleteOrder
  | executeOrder
  | executeOrderWithPrice
  | trade
  | systemEvent
deriving DecidableEq, Repr

/-- The enumerator's value. -/
def UpdateType.toByte : UpdateType → UInt8
  | addOrder => 1
  | modifyOrder => 2
  | cancelOrder => 3
  | deleteOrder => 4
  | executeOrder => 5
  | executeOrderWithPrice => 6
  | trade => 7
  | systemEvent => 8

/-- `struct BookUpdate` (`book_update.hpp:21`). `type` is the byte as it stands in memory, which need
not be an enumerator's value (`BookUpdateValidator` tests that). -/
structure BookUpdate where
  type : UInt8
  side : UInt8
  symbol : UInt16
  price : UInt32
  qty : UInt32
  timestampNs : UInt64
  orderId : UInt64
  matchId : UInt64
deriving DecidableEq, Repr

/-- `BookUpdate{}`. -/
def BookUpdate.zero : BookUpdate := ⟨0, 0, 0, 0, 0, 0, 0, 0⟩

/-- `struct AVLStatistics` (`avl_statistics.hpp:9`). `average_depth` is never updated and left out;
`levels_destroyed` is bumped by `BookSide::remove_level` (`book_side.hpp:76`), though the struct does not declare it. -/
structure AVLStatistics where
  llRotations : UInt64
  rrRotations : UInt64
  lrRotations : UInt64
  rlRotations : UInt64
  insertions : UInt64
  deletions : UInt64
  levelsCreated : UInt64
  levelsRecycled : UInt64
  levelsDestroyed : UInt64
  treeHeight : UInt32
  maximumHeight : UInt32
deriving DecidableEq, Repr

/-- The member initialisers. -/
def AVLStatistics.zero : AVLStatistics := ⟨0, 0, 0, 0, 0, 0, 0, 0, 0, 0, 0⟩

end TradeCore
