import TradeCore.Common.StaticVector
/-!
# The records of the matching engine

`OrderAction` and `OrderType` (`matching/order_action.hpp`), `Trade` (`matching/trade.hpp`), `ExecutionStatus` and
`ExecutionResult` (`matching/execution_result.hpp`). `client_id` of `OrderAction` is left out: the engine and the rules of
`risk_pipeline.hpp` do not read it.
-/

namespace TradeCore

inductive OrderType where
  | limit
  | market
  | ioc
  | fok
deriving DecidableEq, Repr

/-- `struct OrderAction` (`order_action.hpp:14`): side 0 buys, any other side sells. -/
structure OrderAction where
  orderId : UInt64
  price : UInt32
  qty : UInt32
  side : UInt8
  type : OrderType
deriving DecidableEq, Repr

/-- `struct Trade` (`trade.hpp:8`). -/
structure Trade where
  tradeId : UInt64
  aggressorOrderId : UInt64
  restingOrderId : UInt64
  price : UInt32
  quantity : UInt32
  timestampNs : UInt64
deriving DecidableEq, Repr

/-- `enum class ExecutionStatus` (`execution_result.hpp:8`). -/
inductive ExecutionStatus where
  | accepted
  | rejectedRisk
  | rejectedInvalid
  | filled
  | partiallyFilled
deriving DecidableEq, Repr

/-- `kMaxTradesPerMatch` (`execution_result.hpp:20`). -/
def kMaxTradesPerMatch : Nat := 1000

abbrev Trades := StaticVector Trade kMaxTradesPerMatch

/-- `struct ExecutionResult` (`execution_result.hpp:16`). -/
structure ExecutionResult where
  status : ExecutionStatus
  trades : Trades

end TradeCore
