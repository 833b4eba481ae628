import TradeCore.Matching.LiquidityAnalyzer
import TradeCore.Matching.RiskPipeline
/-!
# `MatchingEngine<MaxOrders, MaxLevels, RiskPipelineType>` (`matching/matching_engine.hpp`)

| here | there |
| --- | --- |
| `matchOrder`    | `match` (`matching_engine.hpp:44`) |
| `matchCore`     | `match_core` (`matching_engine.hpp:106`), its outer loop |
| `sweepLevel`    | the inner loop of `match_core` |
| `verifyMatch`   | `TRADECORE_VERIFY_MATCH` (`matching_engine.hpp:15`) |
| `verifyExecution` | `TRADECORE_VERIFY_EXECUTION` (`matching_engine.hpp:24`) |
| `getTimestamp`  | `get_timestamp` (`matching_engine.hpp:157`) |

The steady clock is a function: what it shows at the first reading, the second, and so on; the engine counts
its readings. The inner loop visits each order of a level at most once and the outer loop each level, which
bounds their fuel.
-/

namespace TradeCore

structure MatchingEngine (maxOrders maxLevels : PoolCapacity) where
  book : OrderBook maxOrders maxLevels
  riskPipeline : RiskPipeline
  nextTradeId : UInt64
  clock : Nat → UInt64
  readings : Nat

/-- What the loops of `match_core` work on: the engine, `incoming` and `result.trades`. -/
structure MatchState (maxOrders maxLevels : PoolCapacity) where
  engine : MatchingEngine maxOrders maxLevels
  incoming : OrderAction
  trades : Trades

namespace MatchingEngine

variable {maxOrders maxLevels : PoolCapacity}

/-- The constructor (`matching_engine.hpp:41`). -/
def new (riskPipeline : RiskPipeline) (clock : Nat → UInt64) (orders : Index → Order) (levels : Index → PriceLevel) :
    MatchingEngine maxOrders maxLevels :=
  ⟨OrderBook.new orders levels, riskPipeline, 1, clock, 0⟩

def getTimestamp (engine : MatchingEngine maxOrders maxLevels) : UInt64 × MatchingEngine maxOrders maxLevels :=
  (engine.clock engine.readings, { engine with readings := engine.readings + 1 })

def verifyMatch (t : Trade) (incoming : OrderAction) (resting : Order) : Exec Unit := do
  tradecoreAssert (t.quantity ≤ incoming.qty) "(t).quantity <= (incoming).qty"
  tradecoreAssert (t.quantity ≤ resting.remainingQty) "(t).quantity <= (resting_order)->remaining_qty"
  tradecoreAssert (t.price = resting.price) "(t).price == (resting_order)->price"
  tradecoreAssert (t.aggressorOrderId = incoming.orderId) "(t).aggressor_order_id == (incoming).order_id"
  tradecoreAssert (t.restingOrderId = resting.orderId) "(t).resting_order_id == (resting_order)->order_id"

def sweepLevel : Nat → MatchState maxOrders maxLevels → Index → Exec (MatchState maxOrders maxLevels)
  | 0, _, _ => Exec.fail .diverges
  | fuel + 1, st, currIdx =>
    if currIdx ≠ kInvalidPoolIndex ∧ st.incoming.qty > 0 then do
      let resting ← st.engine.book.orderPool.get currIdx
      let fillQty := stdMin st.incoming.qty resting.remainingQty
      let engine := { st.engine with nextTradeId := st.engine.nextTradeId + 1 }
      let (timestamp, engine) := engine.getTimestamp
      let t : Trade :=
        { tradeId := st.engine.nextTradeId, aggressorOrderId := st.incoming.orderId, restingOrderId := resting.orderId
          price := resting.price, quantity := fillQty, timestampNs := timestamp }
      verifyMatch t st.incoming resting
      let trades ← st.trades.pushBack t
      let incoming := { st.incoming with qty := st.incoming.qty - fillQty }
      let execUpd := { BookUpdate.zero with
        type := UpdateType.executeOrder.toByte, orderId := resting.orderId, qty := fillQty, price := t.price
        matchId := t.tradeId }
      -- the link is read before the order may be freed
      let currIdx := resting.nextInLevel
      let book ← engine.book.executeOrder execUpd
      sweepLevel fuel ⟨{ engine with book := book }, incoming, trades⟩ currIdx
    else return st

/-- `best_level->price` is out of reach of the limit. -/
def outOfReach (incoming : OrderAction) (price : UInt32) : Bool :=
  if incoming.side = 0 then price > incoming.price else price < incoming.price

def matchCore (isMarket : Bool) : Nat → MatchState maxOrders maxLevels → Exec (MatchState maxOrders maxLevels)
  | 0, _ => Exec.fail .diverges
  | fuel + 1, st =>
    let opposite := st.engine.book.side (sideOf st.incoming.side).flip
    if st.incoming.qty > 0 ∧ opposite.hasBbo then do
      let best ← opposite.bboLevel st.engine.book.levelPool
      match best with
      | none => Exec.fail .outOfBounds
      | some bestLevel =>
        if !isMarket && outOfReach st.incoming bestLevel.price then return st
        else
          let st ← sweepLevel (maxOrders.size + 1) st bestLevel.headOrderIdx
          matchCore isMarket fuel st
    else return st

def verifyExecution (trades : Trades) (initialQty : UInt32) (incoming : OrderAction) (book : OrderBook maxOrders maxLevels) :
    Exec Unit := do
  tradecoreAssert ((trades.data.map Trade.quantity).sum + incoming.qty = initialQty)
    "total_filled + (remaining).qty == (initial_qty)"
  if incoming.qty > 0 ∧ incoming.type = .limit then
    tradecoreAssert (book.bids.hasBbo || book.asks.hasBbo) "(book_).bids().has_bbo() || (book_).asks().has_bbo()"

/-- The update that puts what remains of a limit order into the book. -/
def restUpdate (remaining : OrderAction) (timestamp : UInt64) : BookUpdate :=
  { BookUpdate.zero with
    type := UpdateType.addOrder.toByte, side := remaining.side, price := remaining.price, qty := remaining.qty
    orderId := remaining.orderId, timestampNs := timestamp }

/-- Step 5 of `match`. -/
def statusOf (remaining : OrderAction) (trades : Trades) : ExecutionStatus :=
  if trades.data.isEmpty then
    if remaining.type = .ioc ∨ remaining.type = .fok then .rejectedInvalid else .accepted
  else if remaining.qty = 0 then .filled
  else .partiallyFilled

/-- Steps 4 and 5 of `match` and its final check: what remains of a limit order goes into the book. -/
def settle (initialQty : UInt32) (st : MatchState maxOrders maxLevels) :
    Exec (ExecutionResult × MatchingEngine maxOrders maxLevels) := do
  let engine ← if st.incoming.qty > 0 ∧ st.incoming.type = .limit then do
      let (timestamp, engine) := st.engine.getTimestamp
      let book ← engine.book.addOrder (restUpdate st.incoming timestamp)
      pure { engine with book := book }
    else pure st.engine
  verifyExecution st.trades initialQty st.incoming engine.book
  return (⟨statusOf st.incoming st.trades, st.trades⟩, engine)

/-- Steps 3 to 5 of `match`. -/
def execute (engine : MatchingEngine maxOrders maxLevels) (action : OrderAction) :
    Exec (ExecutionResult × MatchingEngine maxOrders maxLevels) := do
  let st ← matchCore (action.type = .market) (maxLevels.size + 1) ⟨engine, action, StaticVector.empty⟩
  settle action.qty st

def matchOrder (engine : MatchingEngine maxOrders maxLevels) (action : OrderAction) :
    Exec (ExecutionResult × MatchingEngine maxOrders maxLevels) := do
  if (RiskPipeline.evaluate engine.riskPipeline action).ok = false then
    return (⟨.rejectedRisk, StaticVector.empty⟩, engine)
  else if action.type = .fok then
    if ← LiquidityAnalyzer.hasLiquidity engine.book action.side action.qty then engine.execute action
    else return (⟨.rejectedInvalid, StaticVector.empty⟩, engine)
  else engine.execute action

end MatchingEngine

end TradeCore
