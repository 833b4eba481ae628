import TradeCore.Orderbook.FlatHashMap
import TradeCore.Orderbook.BookSide
import TradeCore.Parser.BookUpdateValidator
/-!
# `OrderBook<MaxOrders, MaxLevels>` (`orderbook/order_book.hpp`)

| here | there |
| --- | --- |
| `addOrder`            | `add_order` (`order_book.hpp:37`) |
| `cancelOrder`         | `cancel_order` (`order_book.hpp:89`); `execute_order` forwards to it |
| `deleteOrder`         | `delete_order` (`order_book.hpp:118`) |
| `replaceOrder`        | `replace_order` (`order_book.hpp:134`) |
| `modifyOrder`         | `modify_order` (`order_book.hpp:147`) |
| `deleteOrderInternal` | `delete_order_internal` (`order_book.hpp:176`) |
| `dispatch`            | `dispatch` (`order_book.hpp:25`) and its table |

A pointer to an order or a level is its slot index; what is read through it later is read from the
current pool. `verify()` is left out of both builds. The table names an enumerator `ReplaceOrder` that
`UpdateType` does not have: `replaceOrder` is modelled, its row of the table is not.
-/

namespace TradeCore

inductive Side where
  | bid
  | ask
deriving DecidableEq, Repr

def Side.flip : Side → Side
  | bid => ask
  | ask => bid

/-- The `side_` of the two `BookSide`s (`order_book.hpp:241`). -/
def Side.toByte : Side → UInt8
  | bid => 0
  | ask => 1

/-- `(side == 0) ? bids_ : asks_`. -/
def sideOf (b : UInt8) : Side := if b = 0 then .bid else .ask

structure OrderBook (maxOrders maxLevels : PoolCapacity) where
  orderPool : OrderPool maxOrders
  levelPool : PriceLevelPool maxLevels
  orderMap : FlatHashMap
  bids : BookSide
  asks : BookSide
  stats : AVLStatistics

namespace OrderBook

variable {maxOrders maxLevels : PoolCapacity}

/-- The constructor; the pools' memory holds anything. -/
def new (orders : Index → Order) (levels : Index → PriceLevel) : OrderBook maxOrders maxLevels where
  orderPool := ObjectPool.new orders
  levelPool := ObjectPool.new levels
  orderMap := FlatHashMap.new maxOrders.size
  bids := BookSide.new 0
  asks := BookSide.new 1
  stats := AVLStatistics.zero

def side (book : OrderBook maxOrders maxLevels) : Side → BookSide
  | .bid => book.bids
  | .ask => book.asks

def setSide (book : OrderBook maxOrders maxLevels) (s : Side) (v : BookSide) : OrderBook maxOrders maxLevels :=
  match s with
  | .bid => { book with bids := v }
  | .ask => { book with asks := v }

/-- Step 1 of `add_order`: find or create the level. -/
def findOrCreateLevel (book : OrderBook maxOrders maxLevels) (s : Side) (price : UInt32) :
    Exec (Index × OrderBook maxOrders maxLevels) := do
  let levelIdx ← (book.side s).findByPrice book.levelPool price
  if levelIdx = kInvalidPoolIndex then
    let (levelIdx, pool) ← (book.side s).createLevel price book.levelPool
    tradecoreAssert (levelIdx ≠ kInvalidPoolIndex) "level_idx != kInvalidPoolIndex"
    let _ ← pool.get levelIdx
    let (side, pool, stats) ← (book.side s).insertLevel levelIdx pool book.stats
    return (levelIdx, { book with levelPool := pool, stats := stats }.setSide s side)
  else
    let _ ← book.levelPool.get levelIdx
    return (levelIdx, book)

/-- Step 4 of `add_order`: the level's FIFO and aggregates. -/
def linkOrder (book : OrderBook maxOrders maxLevels) (levelIdx orderIdx : Index) (qty : UInt32) :
    Exec (OrderBook maxOrders maxLevels) := do
  let lvl := book.levelPool.slots levelIdx
  let book ← if lvl.tailOrderIdx ≠ kInvalidPoolIndex then do
      let orders ← book.orderPool.update lvl.tailOrderIdx ({ · with nextInLevel := orderIdx })
      pure { book with orderPool := orders }
    else pure { book with levelPool := book.levelPool.modify levelIdx ({ · with headOrderIdx := orderIdx }) }
  return { book with levelPool := book.levelPool.modify levelIdx fun l =>
    { l with tailOrderIdx := orderIdx, totalQty := l.totalQty + qty, orderCount := l.orderCount + 1 } }

def addOrder (book : OrderBook maxOrders maxLevels) (update : BookUpdate) : Exec (OrderBook maxOrders maxLevels) := do
  tradecoreAssert (update.qty > 0) "update.qty > 0"
  tradecoreAssert (update.price > 0) "update.price > 0"
  tradecoreAssertM (do return !(← book.orderMap.contains update.orderId)) "!order_map_.contains(update.order_id)"
  let (levelIdx, book) ← book.findOrCreateLevel (sideOf update.side) update.price
  let (order, orders) ← book.orderPool.allocate Order.zero
  tradecoreAssert order.isSome "order != nullptr"
  match order with
  | none => Exec.fail .outOfBounds
  | some orderIdx =>
    let orders := orders.modify orderIdx fun o =>
      { o with
        orderId := update.orderId, price := update.price, remainingQty := update.qty
        timestampNs := update.timestampNs, nextInLevel := kInvalidPoolIndex, side := update.side }
    let (inserted, orderMap) ← book.orderMap.insert update.orderId orderIdx
    tradecoreAssert inserted "inserted"
    { book with orderPool := orders, orderMap := orderMap }.linkOrder levelIdx orderIdx update.qty

/-- The search loop of `delete_order_internal`: the order in front of `orderIdx` takes over its link, and
becomes the tail when there is nothing behind. -/
def unlinkLoop (orderIdx next : Index) : Nat → OrderPool maxOrders → Index → Index → Exec (OrderPool maxOrders × Index)
  | 0, _, _, _ => Exec.fail .diverges
  | fuel + 1, pool, tail, curr =>
    if curr ≠ kInvalidPoolIndex then do
      let o ← pool.get curr
      if o.nextInLevel = orderIdx then
        return (pool.modify curr ({ · with nextInLevel := next }), if next = kInvalidPoolIndex then curr else tail)
      else unlinkLoop orderIdx next fuel pool tail o.nextInLevel
    else return (pool, tail)

/-- Unlink an order from the FIFO of its level. -/
def unlinkOrder (book : OrderBook maxOrders maxLevels) (orderIdx levelIdx : Index) :
    Exec (OrderBook maxOrders maxLevels) := do
  let order := book.orderPool.slots orderIdx
  let lvl := book.levelPool.slots levelIdx
  if lvl.headOrderIdx = orderIdx then
    return { book with levelPool := book.levelPool.modify levelIdx fun l =>
      { l with
        headOrderIdx := order.nextInLevel
        tailOrderIdx := if order.nextInLevel = kInvalidPoolIndex then kInvalidPoolIndex else l.tailOrderIdx } }
  else
    let (orders, tail) ← unlinkLoop orderIdx order.nextInLevel (maxOrders.size + 1) book.orderPool
      lvl.tailOrderIdx lvl.headOrderIdx
    return { book with
      orderPool := orders, levelPool := book.levelPool.modify levelIdx ({ · with tailOrderIdx := tail }) }

def deleteOrderInternal (book : OrderBook maxOrders maxLevels) (orderIdx : Index) (s : Side) (levelIdx : Index) :
    Exec (OrderBook maxOrders maxLevels) := do
  let (_, orderMap) ← book.orderMap.erase (book.orderPool.slots orderIdx).orderId
  let book ← { book with orderMap := orderMap }.unlinkOrder orderIdx levelIdx
  let levels := book.levelPool.modify levelIdx fun l => { l with orderCount := l.orderCount - 1 }
  let orders ← book.orderPool.deallocate orderIdx
  let book := { book with orderPool := orders, levelPool := levels }
  if (levels.slots levelIdx).orderCount = 0 then
    let (side, levels, stats) ← (book.side s).removeAndDestroyLevel levelIdx levels book.stats
    return { book with levelPool := levels, stats := stats }.setSide s side
  else return book

def cancelOrder (book : OrderBook maxOrders maxLevels) (update : BookUpdate) :
    Exec (OrderBook maxOrders maxLevels) := do
  let orderIdx ← book.orderMap.find update.orderId
  tradecoreAssert (orderIdx ≠ FlatHashMap.kEmpty) "order_idx != FlatHashMap::kEmpty"
  let order ← book.orderPool.get orderIdx
  tradecoreAssert (update.qty ≤ order.remainingQty) "update.qty <= order->remaining_qty"
  let orders := book.orderPool.modify orderIdx fun o => { o with remainingQty := o.remainingQty - update.qty }
  let s := sideOf order.side
  let levelIdx ← (book.side s).findByPrice book.levelPool order.price
  tradecoreAssert (levelIdx ≠ kInvalidPoolIndex) "level_idx != kInvalidPoolIndex"
  let _ ← book.levelPool.get levelIdx
  let levels := book.levelPool.modify levelIdx fun l => { l with totalQty := l.totalQty - update.qty }
  let book := { book with orderPool := orders, levelPool := levels }
  if (orders.slots orderIdx).remainingQty = 0 then book.deleteOrderInternal orderIdx s levelIdx
  else return book

/-- `execute_order` (`order_book.hpp:112`). -/
def executeOrder (book : OrderBook maxOrders maxLevels) (update : BookUpdate) : Exec (OrderBook maxOrders maxLevels) :=
  book.cancelOrder update

def deleteOrder (book : OrderBook maxOrders maxLevels) (update : BookUpdate) :
    Exec (OrderBook maxOrders maxLevels) := do
  let orderIdx ← book.orderMap.find update.orderId
  tradecoreAssert (orderIdx ≠ FlatHashMap.kEmpty) "order_idx != FlatHashMap::kEmpty"
  let order ← book.orderPool.get orderIdx
  let s := sideOf order.side
  let levelIdx ← (book.side s).findByPrice book.levelPool order.price
  tradecoreAssert (levelIdx ≠ kInvalidPoolIndex) "level_idx != kInvalidPoolIndex"
  let _ ← book.levelPool.get levelIdx
  let levels := book.levelPool.modify levelIdx fun l => { l with totalQty := l.totalQty - order.remainingQty }
  { book with levelPool := levels }.deleteOrderInternal orderIdx s levelIdx

def replaceOrder (book : OrderBook maxOrders maxLevels) (update : BookUpdate) :
    Exec (OrderBook maxOrders maxLevels) := do
  let book ← book.deleteOrder update
  book.addOrder { update with orderId := update.matchId }

def modifyOrder (book : OrderBook maxOrders maxLevels) (update : BookUpdate) :
    Exec (OrderBook maxOrders maxLevels) := do
  let orderIdx ← book.orderMap.find update.orderId
  tradecoreAssert (orderIdx ≠ FlatHashMap.kEmpty) "order_idx != FlatHashMap::kEmpty"
  let order ← book.orderPool.get orderIdx
  if update.qty < order.remainingQty then
    -- keeps its place in the queue
    book.cancelOrder { update with qty := order.remainingQty - update.qty }
  else if update.qty > order.remainingQty then
    -- goes to the tail
    let book ← book.deleteOrder update
    book.addOrder { update with price := order.price, side := order.side }
  else return book

/-- What the dispatch table holds for a type byte; `none` is `ignore_update`. -/
def dispatchTable (type : UInt8) :
    Option (OrderBook maxOrders maxLevels → BookUpdate → Exec (OrderBook maxOrders maxLevels)) :=
  if type = UpdateType.addOrder.toByte then some addOrder
  else if type = UpdateType.cancelOrder.toByte then some cancelOrder
  else if type = UpdateType.executeOrder.toByte then some executeOrder
  else if type = UpdateType.deleteOrder.toByte then some deleteOrder
  else if type = UpdateType.modifyOrder.toByte then some modifyOrder
  else none

def dispatch (book : OrderBook maxOrders maxLevels) (update : BookUpdate) : Exec (OrderBook maxOrders maxLevels) :=
  match dispatchTable update.type with
  | some handler => handler book update
  | none => return book

end OrderBook

end TradeCore
