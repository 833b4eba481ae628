import TradeCore.Replay.ReplayEngine
import TradeCore.Telemetry.Histogram
/-!
# `run` with its clock and its latencies (`replay/replay_engine.hpp`, `replay/replay_clock.hpp`)

| here | there |
| --- | --- |
| `ReplayClock`, `waitUntil` | `ReplayClock` (`replay_clock.hpp:17`), `wait_until` (`replay_clock.hpp:22`) |
| `spin`            | its loop (`replay_clock.hpp:47`) |
| `Telemetry`       | what `run` writes of a `MetricsRegistry` (`metrics_registry.hpp:9`) |
| `getTimeNs`       | `get_time_ns` (`latency_tracker.hpp:23`), `current_system_ns` (`replay_clock.hpp:53`) |
| `timedLoop`       | the loop of `run` (`replay_engine.hpp:56`), with every reading of the clock |

`ReplayEngine.lean` leaves the clock and the histograms out. The steady clock is a function: what it shows at its first
reading, the second, and so on; the matcher has its own readings (`MatchingEngine.lean`). The division by `factor_` is in
floating point and a parameter here. A wait that takes more than `patience` readings is one that does not end.
-/

namespace TradeCore

inductive PlaybackMode where
  | realTime
  | accelerated
  | maxThroughput
  | singleStep
deriving DecidableEq, Repr

/-- `scale` is `static_cast<uint64_t>(static_cast<double>(elapsed) / factor_)`. -/
structure ReplayClock where
  mode : PlaybackMode
  scale : UInt64 → UInt64
  firstMessageTs : UInt64
  startTimeNs : UInt64

namespace ReplayClock

/-- The constructor. -/
def new (mode : PlaybackMode) (scale : UInt64 → UInt64) : ReplayClock := ⟨mode, scale, 0, 0⟩

/-- Read the clock until it shows the target: how many readings there have been then. -/
def spin (now : ℕ → UInt64) (target : UInt64) : ℕ → ℕ → Exec ℕ
  | 0, _ => Exec.fail .diverges
  | patience + 1, readings => if now readings < target then spin now target patience (readings + 1) else return readings + 1

/-- `elapsed_message_time`, and the time to wait for. -/
def targetSystemTime (clock : ReplayClock) (messageTimestampNs : UInt64) : UInt64 :=
  let elapsedMessageTime := messageTimestampNs - clock.firstMessageTs
  let elapsedMessageTime := if clock.mode = .accelerated then clock.scale elapsedMessageTime else elapsedMessageTime
  clock.startTimeNs + elapsedMessageTime

def waitUntil (now : ℕ → UInt64) (patience : ℕ) (clock : ReplayClock) (readings : ℕ) (messageTimestampNs : UInt64) :
    Exec (ReplayClock × ℕ) :=
  if clock.mode = .maxThroughput ∨ clock.mode = .singleStep then return (clock, readings)
  else if clock.firstMessageTs = 0 then
    return ({ clock with firstMessageTs := messageTimestampNs, startTimeNs := now readings }, readings + 1)
  else if messageTimestampNs ≤ clock.firstMessageTs then return (clock, readings)
  else do
    let readings ← spin now (clock.targetSystemTime messageTimestampNs) patience readings
    return (clock, readings)

end ReplayClock

structure Telemetry where
  parserLatency : Histogram 10000
  matcherLatency : Histogram 10000
  endToEndLatency : Histogram 50000
  counters : MetricsRegistry

/-- The histograms and the counters as they are declared. -/
def Telemetry.new : Telemetry := ⟨.new, .new, .new, {}⟩

/-- A `ReplayEngine` with its clock; `readings` counts how often the steady clock has been read. -/
structure TimedReplay (maxOrders maxLevels : PoolCapacity) where
  source : MemoryDataSource
  matcher : MatchingEngine maxOrders maxLevels
  registry : Option Telemetry
  clock : ReplayClock
  readings : ℕ
  messagesProcessed : ℕ

namespace TimedReplay

variable {maxOrders maxLevels : PoolCapacity} (host : Host) (now : ℕ → UInt64) (patience : ℕ)

/-- The constructor, on a source that has all its payloads. -/
def new (payloads : List (List Byte)) (matcher : MatchingEngine maxOrders maxLevels) (registry : Option Telemetry)
    (mode : PlaybackMode) (scale : UInt64 → UInt64) : TimedReplay maxOrders maxLevels :=
  ⟨⟨payloads, 0⟩, matcher, registry, .new mode scale, 0, 0⟩

def getTimeNs (engine : TimedReplay maxOrders maxLevels) : UInt64 × TimedReplay maxOrders maxLevels :=
  (now engine.readings, { engine with readings := engine.readings + 1 })

/-- `if (registry_) registry_->latency.record(get_time_ns() - start)`, and what else is written there. -/
def recordLatency (engine : TimedReplay maxOrders maxLevels) (write : UInt64 → Telemetry → Telemetry) (start : UInt64) :
    TimedReplay maxOrders maxLevels :=
  match engine.registry with
  | none => engine
  | some telemetry =>
    let (stop, engine) := engine.getTimeNs now
    { engine with registry := some (write (stop - start) telemetry) }

def recordParse (ns : UInt64) (t : Telemetry) : Telemetry := { t with parserLatency := t.parserLatency.record ns }

def recordMatch (result : ExecutionResult) (ns : UInt64) (t : Telemetry) : Telemetry :=
  { t with matcherLatency := t.matcherLatency.record ns, counters := t.counters.recordMatch result }

def recordMessage (ns : UInt64) (t : Telemetry) : Telemetry :=
  { t with endToEndLatency := t.endToEndLatency.record ns, counters := t.counters.recordMessage }

/-- Steps 2 to 4 of `run`: wait, then match an added order or dispatch any other update. -/
def play (engine : TimedReplay maxOrders maxLevels) (update : BookUpdate) : Exec (TimedReplay maxOrders maxLevels) := do
  let (clock, readings) ← engine.clock.waitUntil now patience engine.readings update.timestampNs
  let engine := { engine with clock := clock, readings := readings }
  if update.type = UpdateType.addOrder.toByte then do
    let (startMatch, engine) := engine.getTimeNs now
    let (result, matcher) ← engine.matcher.matchOrder (ReplayEngine.actionOf update)
    return recordLatency now { engine with matcher := matcher } (recordMatch result) startMatch
  else do
    let book ← engine.matcher.book.dispatch update
    return { engine with matcher := { engine.matcher with book := book } }

def timedLoop (maxMessages : ℕ) : ℕ → TimedReplay maxOrders maxLevels → Exec (TimedReplay maxOrders maxLevels)
  | 0, _ => Exec.fail .diverges
  | fuel + 1, engine =>
    if engine.messagesProcessed < maxMessages then
      let (payload, source) := engine.source.nextPayload
      let engine := { engine with source := source }
      if payload = [] then return engine
      else do
        let (startE2e, engine) := engine.getTimeNs now
        let (startParse, engine) := engine.getTimeNs now
        let update ← ReplayEngine.parse host payload
        let engine := engine.recordLatency now recordParse startParse
        match update with
        | none => timedLoop maxMessages fuel engine
        | some update =>
          let engine ← engine.play now patience update
          let engine := engine.recordLatency now recordMessage startE2e
          timedLoop maxMessages fuel { engine with messagesProcessed := engine.messagesProcessed + 1 }
    else return engine

def run (maxMessages : ℕ) (engine : TimedReplay maxOrders maxLevels) : Exec (TimedReplay maxOrders maxLevels) :=
  timedLoop host now patience maxMessages (engine.source.rest.length + 1) engine

/-- The replay without its clock and its latencies. -/
def untimed (engine : TimedReplay maxOrders maxLevels) : ReplayEngine maxOrders maxLevels :=
  ⟨engine.source, engine.matcher, engine.registry.map Telemetry.counters, engine.messagesProcessed⟩

end TimedReplay

end TradeCore
