import TradeCore.Orderbook.OrderBook
/-!
# `LiquidityAnalyzer` (`matching/liquidity_analyzer.hpp`)

| here | there |
| --- | --- |
| `scanTree`     | `scan_tree` (`liquidity_analyzer.hpp:34`): `remaining` goes in and out |
| `hasLiquidity` | `has_liquidity` (`liquidity_analyzer.hpp:11`) |

The two branches of `scan_tree` differ in which child they visit first.
-/

namespace TradeCore

/-- `std::min`. -/
def stdMin (a b : UInt32) : UInt32 := if b < a then b else a

namespace LiquidityAnalyzer

variable {maxOrders maxLevels cap : PoolCapacity}

def scanTree (side : UInt8) (pool : PriceLevelPool cap) : Nat → Index → UInt32 → Exec (UInt32 × UInt32)
  | 0, _, _ => Exec.fail .diverges
  | fuel + 1, nodeIdx, remaining =>
    if nodeIdx = kInvalidPoolIndex ∨ remaining = 0 then return (0, remaining)
    else do
      let node ← pool.get nodeIdx
      let first := if side = 0 then node.node.right else node.node.left
      let second := if side = 0 then node.node.left else node.node.right
      let (found, remaining) ← scanTree side pool fuel first remaining
      if remaining = 0 then return (found, remaining)
      else
        let take := stdMin node.totalQty remaining
        if remaining - take = 0 then return (found + take, remaining - take)
        else
          let (more, remaining) ← scanTree side pool fuel second (remaining - take)
          return (found + take + more, remaining)

def hasLiquidity (book : OrderBook maxOrders maxLevels) (incomingSide : UInt8) (qty : UInt32) : Exec Bool := do
  let opposite := book.side (sideOf incomingSide).flip
  if opposite.avlRoot = kInvalidPoolIndex then return false
  else
    let (found, _) ← scanTree opposite.side book.levelPool (maxLevels.size + 1) opposite.avlRoot qty
    return found ≥ qty

end LiquidityAnalyzer

end TradeCore
