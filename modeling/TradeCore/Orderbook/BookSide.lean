import TradeCore.Orderbook.AvlTree
import TradeCore.Orderbook.FlatPriceArray
/-!
# `BookSide<MaxLevels>` (`orderbook/book_side.hpp`): the price levels of one side

| here | there |
| --- | --- |
| `createLevel`           | `create_level` (`book_side.hpp:29`) |
| `insertLevel`           | `insert_level` (`book_side.hpp:49`) |
| `removeLevel`           | `remove_level` (`book_side.hpp:64`) |
| `destroyLevel`          | `destroy_level` (`book_side.hpp:88`), its checks in a debug build only |
| `findByPrice`           | `find_by_price` (`book_side.hpp:126`): dense array first, then the tree |

The side does not own the pool and the statistics: they come in and go out.
-/

namespace TradeCore

/-- `BestBid` and `BestAsk` (`book_snapshot.hpp:10`). -/
structure BestQuote where
  price : UInt32 := 0
  qty : UInt32 := 0
  orderCount : UInt32 := 0
  valid : Bool := false
deriving DecidableEq, Repr

structure BookSide where
  avlRoot : Index
  bboIdx : Index
  levelCount : Nat
  side : UInt8
  denseLevels : FlatPriceArray 10000

namespace BookSide

variable {cap : PoolCapacity}

def new (side : UInt8) : BookSide := ⟨kInvalidPoolIndex, kInvalidPoolIndex, 0, side, FlatPriceArray.new⟩

def createLevel (s : BookSide) (price : UInt32) (pool : PriceLevelPool cap) : Exec (Index × PriceLevelPool cap) := do
  let (lvl, pool) ← pool.allocate PriceLevel.zero
  match lvl with
  | none => return (kInvalidPoolIndex, pool)
  | some idx => return (idx, pool.modify idx fun l =>
      { l with
        price := price, totalQty := 0, orderCount := 0
        headOrderIdx := kInvalidPoolIndex, tailOrderIdx := kInvalidPoolIndex
        node := ⟨kInvalidPoolIndex, kInvalidPoolIndex, kInvalidPoolIndex, 1⟩, side := s.side })

/-- `update_bbo_on_insert` (`book_side.hpp:155`). -/
def updateBboOnInsert (s : BookSide) (pool : PriceLevelPool cap) (newIdx : Index) : Exec BookSide := do
  if s.bboIdx = kInvalidPoolIndex then return { s with bboIdx := newIdx }
  else
    let n ← pool.get newIdx
    let b ← pool.get s.bboIdx
    if s.side = 0 then
      return if n.price > b.price then { s with bboIdx := newIdx } else s
    else
      return if n.price < b.price then { s with bboIdx := newIdx } else s

def insertLevel (s : BookSide) (idx : Index) (pool : PriceLevelPool cap) (stats : AVLStatistics) :
    Exec (BookSide × PriceLevelPool cap × AVLStatistics) := do
  let lvl ← pool.get idx
  let dense ← s.denseLevels.insert lvl.price idx
  let (pool, root, stats) ← avl.insert pool s.avlRoot idx stats
  let stats := { stats with levelsCreated := stats.levelsCreated + 1 }
  let s ← updateBboOnInsert { s with denseLevels := dense, avlRoot := root, levelCount := s.levelCount + 1 } pool idx
  let stats ← avl.updateStatsHeight pool s.avlRoot stats
  return (s, pool, stats)

def removeLevel (s : BookSide) (idx : Index) (pool : PriceLevelPool cap) (stats : AVLStatistics) :
    Exec (BookSide × PriceLevelPool cap × AVLStatistics) := do
  tradecoreAssert (s.levelCount > 0) "level_count_ > 0"
  let lvl ← pool.get idx
  let dense ← s.denseLevels.remove lvl.price
  let wasBbo : Bool := idx = s.bboIdx
  let (pool, root, stats) ← avl.remove pool s.avlRoot idx stats
  let s : BookSide := { s with denseLevels := dense, avlRoot := root, levelCount := s.levelCount - 1 }
  let stats := { stats with levelsDestroyed := stats.levelsDestroyed + 1 }
  let bbo ← if wasBbo then
      if s.side = 0 then avl.findMax pool s.avlRoot else avl.findMin pool s.avlRoot
    else pure s.bboIdx
  let stats ← avl.updateStatsHeight pool s.avlRoot stats
  return ({ s with bboIdx := bbo }, pool, stats)

def destroyLevel (idx : Index) (pool : PriceLevelPool cap) (stats : AVLStatistics) :
    Exec (PriceLevelPool cap × AVLStatistics) := do
  let check (f : PriceLevel → Bool) : Exec Bool := do
    let lvl ← pool.get idx
    return f lvl
  tradecoreAssertM (check (·.orderCount = 0)) "lvl->order_count == 0"
  tradecoreAssertM (check (·.totalQty = 0)) "lvl->total_qty == 0"
  tradecoreAssertM (check (·.headOrderIdx = kInvalidPoolIndex)) "lvl->head_order_idx == kInvalid"
  tradecoreAssertM (check (·.tailOrderIdx = kInvalidPoolIndex)) "lvl->tail_order_idx == kInvalid"
  tradecoreAssertM (check (·.node.left = kInvalidPoolIndex)) "lvl->node.left == kInvalid"
  tradecoreAssertM (check (·.node.right = kInvalidPoolIndex)) "lvl->node.right == kInvalid"
  let _ ← pool.get idx
  let pool ← pool.deallocate idx
  return (pool, { stats with levelsRecycled := stats.levelsRecycled + 1 })

/-- `remove_and_destroy_level` (`book_side.hpp:105`). -/
def removeAndDestroyLevel (s : BookSide) (idx : Index) (pool : PriceLevelPool cap) (stats : AVLStatistics) :
    Exec (BookSide × PriceLevelPool cap × AVLStatistics) := do
  let (s, pool, stats) ← s.removeLevel idx pool stats
  let (pool, stats) ← destroyLevel idx pool stats
  return (s, pool, stats)

def findByPrice (s : BookSide) (pool : PriceLevelPool cap) (price : UInt32) : Exec Index :=
  let denseIdx := s.denseLevels.find price
  if denseIdx ≠ kInvalidPoolIndex then return denseIdx
  else avl.find pool s.avlRoot price

/-- `has_bbo` (`book_side.hpp:115`). -/
def hasBbo (s : BookSide) : Bool := s.bboIdx ≠ kInvalidPoolIndex

/-- `bbo_level` (`book_side.hpp:120`), `none` for the null pointer. -/
def bboLevel (s : BookSide) (pool : PriceLevelPool cap) : Exec (Option PriceLevel) := do
  if s.bboIdx = kInvalidPoolIndex then return none
  else
    let l ← pool.get s.bboIdx
    return some l

def bestQuote (s : BookSide) (pool : PriceLevelPool cap) : Exec BestQuote := do
  if s.bboIdx = kInvalidPoolIndex then return {}
  else
    let lvl ← pool.get s.bboIdx
    return { price := lvl.price, qty := lvl.totalQty, orderCount := lvl.orderCount, valid := true }

/-- `best_bid` (`book_side.hpp:139`). -/
def bestBid (s : BookSide) (pool : PriceLevelPool cap) : Exec BestQuote := do
  tradecoreAssert (s.side = 0) "side_ == 0"
  s.bestQuote pool

/-- `best_ask` (`book_side.hpp:146`). -/
def bestAsk (s : BookSide) (pool : PriceLevelPool cap) : Exec BestQuote := do
  tradecoreAssert (s.side = 1) "side_ == 1"
  s.bestQuote pool

end BookSide

end TradeCore
