import TradeCore.Matching.MatchingEngine
import TradeCore.Parser.ItchParser
/-!
# `ReplayEngine<MaxOrders, MaxLevels, RiskPipelineType>` (`replay/replay_engine.hpp`)

| here | there |
| --- | --- |
| `MemoryDataSource`  | `MemoryDataSource` (`replay_engine.hpp:24`) |
| `MetricsRegistry`   | the counters of `MetricsRegistry` (`metrics_registry.hpp:9`) that `run` writes |
| `runLoop`           | the loop of `run` (`replay_engine.hpp:56`) |
| `step`              | `step` (`replay_engine.hpp:119`) |
| `stepAll`           | `while (engine.step());` |

Both drivers call `ITCHParser::parse` without a context and compare the type of what it returns with an `Unknown` that
`UpdateType` does not declare: the empty optional is that update. The playback clock only waits, and is left out with
the latency histograms. Each turn of a loop takes a payload, which bounds the fuel.
-/

namespace TradeCore

structure MemoryDataSource where
  payloads : List (List Byte)
  idx : ℕ
deriving DecidableEq, Repr

namespace MemoryDataSource

/-- `next_payload`; the empty payload is the end of the data. -/
def nextPayload (source : MemoryDataSource) : List Byte × MemoryDataSource :=
  match source.payloads[source.idx]? with
  | none => ([], source)
  | some payload => (payload, { source with idx := source.idx + 1 })

/-- The payloads still to come. -/
def rest (source : MemoryDataSource) : List (List Byte) := source.payloads.drop source.idx

end MemoryDataSource

structure MetricsRegistry where
  messagesProcessed : UInt64 := 0
  ordersProcessed : UInt64 := 0
  tradesGenerated : UInt64 := 0
  riskRejects : UInt64 := 0
deriving DecidableEq, Repr

/-- After a call of the matcher. -/
def MetricsRegistry.recordMatch (registry : MetricsRegistry) (result : ExecutionResult) : MetricsRegistry :=
  { registry with
    ordersProcessed := registry.ordersProcessed + 1
    tradesGenerated := registry.tradesGenerated + UInt64.ofNat result.trades.data.length
    riskRejects := if result.status = .rejectedRisk then registry.riskRejects + 1 else registry.riskRejects }

/-- After a message. -/
def MetricsRegistry.recordMessage (registry : MetricsRegistry) : MetricsRegistry :=
  { registry with messagesProcessed := registry.messagesProcessed + 1 }

/-- `registry_` is `none` where the pointer is null. `messages_processed_` is a number here, where the `size_t` of the source wraps
around at 2^64. -/
structure ReplayEngine (maxOrders maxLevels : PoolCapacity) where
  source : MemoryDataSource
  matcher : MatchingEngine maxOrders maxLevels
  registry : Option MetricsRegistry
  messagesProcessed : ℕ

namespace ReplayEngine

variable {maxOrders maxLevels : PoolCapacity} (host : Host)

/-- `ITCHParser::parse(payload)`; `none` is the `Unknown` update. -/
def parse (payload : List Byte) : Exec (Option BookUpdate) := do
  let (update, _) ← ITCHParser.parse host Statistics.zero payload
  return update

/-- An Add Order message as a limit order. -/
def actionOf (update : BookUpdate) : OrderAction :=
  { orderId := update.orderId, price := update.price, qty := update.qty, side := update.side, type := .limit }

def runLoop (maxMessages : ℕ) : ℕ → ReplayEngine maxOrders maxLevels → Exec (ReplayEngine maxOrders maxLevels)
  | 0, _ => Exec.fail .diverges
  | fuel + 1, engine =>
    if engine.messagesProcessed < maxMessages then
      let (payload, source) := engine.source.nextPayload
      let engine := { engine with source := source }
      if payload = [] then return engine
      else do
        match ← parse host payload with
        -- not counted
        | none => runLoop maxMessages fuel engine
        | some update =>
          let engine ← if update.type = UpdateType.addOrder.toByte then do
              let (result, matcher) ← engine.matcher.matchOrder (actionOf update)
              pure { engine with matcher := matcher, registry := engine.registry.map fun r => r.recordMatch result }
            else do
              let book ← engine.matcher.book.dispatch update
              pure { engine with matcher := { engine.matcher with book := book } }
          runLoop maxMessages fuel
            { engine with
              registry := engine.registry.map MetricsRegistry.recordMessage
              messagesProcessed := engine.messagesProcessed + 1 }
    else return engine

def run (maxMessages : ℕ) (engine : ReplayEngine maxOrders maxLevels) : Exec (ReplayEngine maxOrders maxLevels) :=
  runLoop host maxMessages (engine.source.rest.length + 1) engine

def step (engine : ReplayEngine maxOrders maxLevels) : Exec (Bool × ReplayEngine maxOrders maxLevels) :=
  let (payload, source) := engine.source.nextPayload
  let engine := { engine with source := source }
  if payload = [] then return (false, engine)
  else do
    let engine ← match ← parse host payload with
      | none => pure engine
      | some update =>
        if update.type = UpdateType.addOrder.toByte then do
          let (_, matcher) ← engine.matcher.matchOrder (actionOf update)
          pure { engine with matcher := matcher }
        else do
          let book ← engine.matcher.book.dispatch update
          pure { engine with matcher := { engine.matcher with book := book } }
    return (true, { engine with messagesProcessed := engine.messagesProcessed + 1 })

def stepLoop : ℕ → ReplayEngine maxOrders maxLevels → Exec (ReplayEngine maxOrders maxLevels)
  | 0, _ => Exec.fail .diverges
  | fuel + 1, engine => do
    let (more, engine) ← engine.step host
    if more then stepLoop fuel engine else return engine

def stepAll (engine : ReplayEngine maxOrders maxLevels) : Exec (ReplayEngine maxOrders maxLevels) :=
  stepLoop host (engine.source.rest.length + 1) engine

end ReplayEngine

end TradeCore
