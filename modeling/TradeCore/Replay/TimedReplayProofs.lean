import TradeCore.Replay.ReplayMatching
import TradeCore.Replay.TimedReplay
import TradeCore.Telemetry.HistogramProofs
/-!
# What the clock and the latencies change

Nothing but the time: a replay that waits, in any mode, does what the replay without a clock does, or waits for ever
(`playback_changes_only_time`). The registry keeps an account of the latencies (`latencies_accounted`), and in the modes
that wait a replay takes the time that its messages took (`replay_takes_its_time`).
-/

namespace TradeCore

variable {maxOrders maxLevels : PoolCapacity} {α β γ δ : Type}

/-! ## Runs that may wait for ever -/

namespace Exec

/-- The run waits for ever, or it is the other one, read by `f`. -/
def Follows (f : α → β) (m : Exec α) (m' : Exec β) : Prop := ∀ b, m b = .error .diverges ∨ (f <$> m) b = m' b

theorem Follows.diverges {f : α → β} {m' : Exec β} : Follows f (fail .diverges) m' := fun _ => Or.inl rfl

/-- One after the other. -/
theorem Follows.bind {f : α → β} {g : γ → δ} {m : Exec α} {m' : Exec β} {k : α → Exec γ} {k' : β → Exec δ} (h : Follows f m m')
    (hk : ∀ x, Follows g (k x) (k' (f x))) : Follows g (m >>= k) (m' >>= k') := by
  intro b
  rcases h b with hdiv | hrun
  · exact Or.inl (bind_eq_error hdiv)
  · rw [map_bind, bind_apply, bind_apply, bind_apply, ← hrun]
    change _ ∨ _ = (f <$> m b) >>= _
    cases m b with
    | error e => exact Or.inr rfl
    | ok x => exact hk x b

end Exec

open Exec

/-! ## Waiting -/

namespace ReplayClock

variable {now : ℕ → UInt64} {target : UInt64} {patience readings r : ℕ} {clock clock' : ReplayClock} {ts : UInt64} {b : Build}

/-- **The loop ends at the first reading that is late enough.** -/
theorem spin_ok (h : spin now target patience readings b = .ok r) :
    readings < r ∧ target ≤ now (r - 1) ∧ ∀ i, readings ≤ i → i < r - 1 → now i < target := by
  induction patience generalizing readings with
  | zero => cases h
  | succ patience ih =>
    unfold spin at h
    split_ifs at h with hearly
    · obtain ⟨hlt, hlate, hbefore⟩ := ih h
      refine ⟨by omega, hlate, fun i hi hir => ?_⟩
      rcases Nat.eq_or_lt_of_le hi with rfl | hi
      · exact hearly
      · exact hbefore i hi hir
    · cases h
      exact ⟨Nat.lt_succ_self _, UInt64.not_lt.1 hearly, fun i hi hir => absurd hir (by omega)⟩

/-- The modes that wait. -/
def Waits (clock : ReplayClock) : Prop := clock.mode = .realTime ∨ clock.mode = .accelerated

theorem Waits.not_skips (h : clock.Waits) : ¬(clock.mode = .maxThroughput ∨ clock.mode = .singleStep) := by
  rcases h with h | h <;> rw [h] <;> decide

/-- **The first message** with a timestamp starts the clock, and does not wait. -/
theorem waitUntil_first (hw : clock.Waits) (hfirst : clock.firstMessageTs = 0)
    (h : waitUntil now patience clock readings ts b = .ok (clock', r)) :
    clock' = { clock with firstMessageTs := ts, startTimeNs := now readings } ∧ r = readings + 1 := by
  unfold waitUntil at h
  rw [if_neg hw.not_skips, if_pos hfirst] at h
  cases h
  exact ⟨rfl, rfl⟩

/-- **A later message** waits until its time has come, and leaves the clock as it is. -/
theorem waitUntil_later (hw : clock.Waits) (hfirst : clock.firstMessageTs ≠ 0)
    (h : waitUntil now patience clock readings ts b = .ok (clock', r)) :
    clock' = clock ∧ (clock.firstMessageTs < ts → ∃ i, readings ≤ i ∧ i < r ∧ clock.targetSystemTime ts ≤ now i) := by
  unfold waitUntil at h
  rw [if_neg hw.not_skips, if_neg hfirst] at h
  split_ifs at h with hle
  · cases h
    exact ⟨rfl, fun hlt => absurd hlt (UInt64.not_lt.2 hle)⟩
  · obtain ⟨r', hspin, h⟩ := Exec.bind_eq_ok.1 h
    cases h
    obtain ⟨hlt, hlate, -⟩ := spin_ok hspin
    exact ⟨rfl, fun _ => ⟨r - 1, by omega, by omega, hlate⟩⟩

/-- A wait only reads the clock further. -/
theorem waitUntil_readings (h : waitUntil now patience clock readings ts b = .ok (clock', r)) : readings ≤ r := by
  unfold waitUntil at h
  split_ifs at h
  · cases h
    exact le_rfl
  · cases h
    exact Nat.le_succ _
  · cases h
    exact le_rfl
  · obtain ⟨r', hspin, h⟩ := Exec.bind_eq_ok.1 h
    cases h
    exact (spin_ok hspin).1.le

end ReplayClock

/-! ## Only the time -/

namespace TimedReplay

variable (host : Host) (now : ℕ → UInt64) (patience : ℕ)

end TimedReplay

/-- How many payloads that are not empty have been taken from a source. -/
def MemoryDataSource.taken (source : MemoryDataSource) : ℕ := (source.payloads.take source.idx).countP fun p => !p.isEmpty

theorem MemoryDataSource.rest_of_next {source source' : MemoryDataSource} {payload : List Byte}
    (h : source.nextPayload = (payload, source')) : source.rest = payload :: source'.rest ∨ source.rest = [] ∧ payload = [] := by
  unfold nextPayload at h
  unfold rest
  rw [List.drop_eq_getElem?_toList_append]
  cases hget : source.payloads[source.idx]? with
  | none =>
    rw [hget] at h
    cases h
    have hle := List.getElem?_eq_none_iff.1 hget
    exact Or.inr ⟨List.drop_eq_nil_of_le (Nat.le_succ_of_le hle), rfl⟩
  | some p =>
    rw [hget] at h
    cases h
    exact Or.inl rfl

theorem MemoryDataSource.taken_next (source : MemoryDataSource) :
    source.nextPayload.2.taken = source.taken + (if source.nextPayload.1 = [] then 0 else 1) := by
  unfold nextPayload
  cases hget : source.payloads[source.idx]? with
  | none => rfl
  | some payload =>
    unfold taken
    dsimp only
    rw [List.take_add_one, hget, Option.toList_some, List.countP_append, List.countP_singleton]
    cases payload <;> simp

/-- The clock never goes back. -/
def Steady (now : ℕ → UInt64) : Prop := ∀ ⦃i j⦄, i ≤ j → now i ≤ now j

/-- **The registry keeps an account**: one latency of the parser for each payload, one of the matcher for each order, one
from end to end for each message. Every message is an order, and where the clock never goes back the time in the matcher
is within the time from end to end. -/
structure Accounted (now : ℕ → UInt64) (payloads messages : ℕ) (parsed matched endToEnd : List UInt64) (t : Telemetry) : Prop where
  parserLatency : Recorded parsed t.parserLatency
  matcherLatency : Recorded matched t.matcherLatency
  endToEndLatency : Recorded endToEnd t.endToEndLatency
  payloads : parsed.length = payloads
  orders : matched.length = messages
  within : Steady now → List.Forall₂ (· ≤ ·) matched endToEnd
  messages : endToEnd.length = messages
  ordersProcessed : t.counters.ordersProcessed = UInt64.ofNat matched.length
  messagesProcessed : t.counters.messagesProcessed = UInt64.ofNat endToEnd.length

/-- A shorter stretch of time. -/
theorem latency_le {now : ℕ → UInt64} (hnow : Steady now) {i j k l : ℕ} (hij : i ≤ j) (hjk : j ≤ k) (hkl : k ≤ l) :
    now k - now j ≤ now l - now i := by
  have hi := UInt64.le_iff_toNat_le.1 (hnow hij)
  have hj := UInt64.le_iff_toNat_le.1 (hnow hjk)
  have hk := UInt64.le_iff_toNat_le.1 (hnow hkl)
  rw [UInt64.le_iff_toNat_le, UInt64.toNat_sub_of_le _ _ (hnow hjk), UInt64.toNat_sub_of_le _ _ (hnow (hij.trans (hjk.trans hkl)))]
  omega

namespace TimedReplay

variable {host : Host} {now : ℕ → UInt64} {patience : ℕ}

def Accounts (now : ℕ → UInt64) (engine : TimedReplay maxOrders maxLevels) : Prop :=
  ∃ (t : Telemetry) (parsed matched endToEnd : List UInt64), engine.registry = some t ∧
    Accounted now engine.source.taken engine.messagesProcessed parsed matched endToEnd t

section RecordLatency

variable (engine : TimedReplay maxOrders maxLevels) (write : UInt64 → Telemetry → Telemetry) (start : UInt64)

@[simp] theorem recordLatency_source : (engine.recordLatency now write start).source = engine.source := by
  unfold recordLatency
  cases engine.registry <;> rfl

@[simp] theorem recordLatency_messagesProcessed :
    (engine.recordLatency now write start).messagesProcessed = engine.messagesProcessed := by
  unfold recordLatency
  cases engine.registry <;> rfl

@[simp] theorem recordLatency_clock : (engine.recordLatency now write start).clock = engine.clock := by
  unfold recordLatency
  cases engine.registry <;> rfl

@[simp] theorem recordLatency_registry :
    (engine.recordLatency now write start).registry = engine.registry.map (write (now engine.readings - start)) := by
  unfold recordLatency
  cases hregistry : engine.registry with
  | none => simp [hregistry]
  | some t => rfl

theorem readings_le_recordLatency : engine.readings ≤ (engine.recordLatency now write start).readings := by
  unfold recordLatency
  cases engine.registry with
  | none => exact le_rfl
  | some t => exact Nat.le_succ _

end RecordLatency

/-- A payload has been taken and parsed. -/
structure Parsed (now : ℕ → UInt64) (payload : List Byte) (engine parsed : TimedReplay maxOrders maxLevels) : Prop where
  nextPayload : engine.source.nextPayload = (payload, parsed.source)
  nonempty : payload ≠ []
  registry : ∃ ns, parsed.registry = engine.registry.map (recordParse ns)
  clock : parsed.clock = engine.clock
  messagesProcessed : parsed.messagesProcessed = engine.messagesProcessed
  readings : engine.readings ≤ parsed.readings

/-- An order has been matched when its time came; its message came in at reading `taken`. -/
structure Played (now : ℕ → UInt64) (patience : ℕ) (b : Build) (taken : ℕ) (update : BookUpdate)
    (engine played : TimedReplay maxOrders maxLevels) : Prop where
  source : played.source = engine.source
  waited : ∃ released, ReplayClock.waitUntil now patience engine.clock engine.readings update.timestampNs b =
    .ok (played.clock, released) ∧ released ≤ played.readings
  messagesProcessed : played.messagesProcessed = engine.messagesProcessed + 1
  registry : ∃ (result : ExecutionResult) (start stop last : ℕ), engine.readings ≤ start ∧ start ≤ stop ∧ stop ≤ last ∧
    played.registry = engine.registry.map (recordMessage (now last - now taken) ∘ recordMatch result (now stop - now start))

/-- **An added order** is matched once, and the time that it takes is written down once. -/
theorem play_ok {engine matched : TimedReplay maxOrders maxLevels} {update : BookUpdate} {b : Build} (taken : ℕ)
    (hadd : update.type = UpdateType.addOrder.toByte) (h : engine.play now patience update b = .ok matched) :
    Played now patience b taken update engine
      { recordLatency now matched recordMessage (now taken) with
        messagesProcessed := (recordLatency now matched recordMessage (now taken)).messagesProcessed + 1 } := by
  unfold play at h
  obtain ⟨⟨clock, readings⟩, hwait, h⟩ := Exec.bind_eq_ok.1 h
  dsimp only at h
  rw [if_pos hadd] at h
  obtain ⟨⟨result, matcher⟩, -, h⟩ := Exec.bind_eq_ok.1 h
  generalize hcalled : recordLatency now _ (recordMatch _) _ = called at h
  cases h
  have hreadings : readings + 1 ≤ matched.readings := by
    rw [← hcalled]
    refine le_trans ?_ (readings_le_recordLatency ..)
    exact le_rfl
  have hclock : matched.clock = clock := by
    rw [← hcalled, recordLatency_clock]
    rfl
  have hregistry : matched.registry = engine.registry.map (recordMatch result (now (readings + 1) - now readings)) := by
    rw [← hcalled, recordLatency_registry]
    rfl
  refine ⟨?_, ⟨readings, ?_, ?_⟩, ?_, result, readings, readings + 1, matched.readings,
    ReplayClock.waitUntil_readings hwait, Nat.le_succ _, hreadings, ?_⟩
  · dsimp only
    rw [recordLatency_source, ← hcalled, recordLatency_source]
    rfl
  · dsimp only
    rw [recordLatency_clock, hclock]
    exact hwait
  · exact (Nat.le_of_succ_le hreadings).trans (readings_le_recordLatency ..)
  · dsimp only
    rw [recordLatency_messagesProcessed, ← hcalled, recordLatency_messagesProcessed]
    rfl
  · dsimp only
    rw [recordLatency_registry, hregistry, Option.map_map]

/-- **A turn of the loop**: the replay ends, or a message is parsed and skipped, or an order is parsed and matched. -/
theorem timedLoop_cases {maxMessages fuel : ℕ} {engine engine' : TimedReplay maxOrders maxLevels} {b : Build}
    (h : timedLoop host now patience maxMessages fuel engine b = .ok engine') :
    (maxMessages ≤ engine.messagesProcessed ∧ engine' = engine) ∨
    (∃ source, engine.source.nextPayload = ([], source) ∧ engine' = { engine with source := source }) ∨
    ∃ (fuel' : ℕ) (payload : List Byte) (parsed : TimedReplay maxOrders maxLevels),
      fuel = fuel' + 1 ∧ engine.messagesProcessed < maxMessages ∧ Parsed now payload engine parsed ∧
        (((ITCHParser.reading payload).update = none ∧ timedLoop host now patience maxMessages fuel' parsed b = .ok engine') ∨
          ∃ (update : BookUpdate) (played : TimedReplay maxOrders maxLevels),
            (ITCHParser.reading payload).update = some update ∧ Played now patience b engine.readings update parsed played ∧
              timedLoop host now patience maxMessages fuel' played b = .ok engine') := by
  cases fuel with
  | zero => cases h
  | succ fuel =>
    unfold timedLoop at h
    split_ifs at h with hlt
    · generalize hnext : engine.source.nextPayload = next at h
      obtain ⟨payload, source⟩ := next
      dsimp only at h
      by_cases hend : payload = []
      · rw [if_pos hend] at h
        cases h
        exact Or.inr (Or.inl ⟨source, by rw [hend], rfl⟩)
      · rw [if_neg hend, ReplayEngine.parse_reading, pure_bind] at h
        generalize hparsed : recordLatency now _ recordParse _ = parsed at h
        have hstep : Parsed now payload engine parsed := by
          rw [← hparsed]
          refine ⟨?_, hend, ⟨_, recordLatency_registry ..⟩, recordLatency_clock .., recordLatency_messagesProcessed ..,
            le_trans ?_ (readings_le_recordLatency ..)⟩
          · rw [recordLatency_source]
            exact hnext
          · dsimp only [getTimeNs]
            omega
        refine Or.inr (Or.inr ⟨fuel, payload, parsed, rfl, hlt, hstep, ?_⟩)
        cases hupdate : (ITCHParser.reading payload).update with
        | none =>
          rw [hupdate] at h
          exact Or.inl ⟨rfl, h⟩
        | some update =>
          rw [hupdate] at h
          obtain ⟨matched, hplay, h⟩ := Exec.bind_eq_ok.1 h
          exact Or.inr ⟨update, _, rfl, play_ok engine.readings (ReplayEngine.type_of_update hupdate) hplay, h⟩
    · cases h
      exact Or.inl ⟨Nat.not_lt.1 hlt, rfl⟩

/-- A payload is parsed, and the time that it takes is written down. -/
theorem Accounts.parsed {engine parsed : TimedReplay maxOrders maxLevels} {payload : List Byte} (ha : engine.Accounts now)
    (h : Parsed now payload engine parsed) : parsed.Accounts now := by
  obtain ⟨ns, hregistry⟩ := h.registry
  have htaken := engine.source.taken_next
  rw [h.nextPayload, if_neg h.nonempty] at htaken
  obtain ⟨t, samples, matched, endToEnd, ht, h0⟩ := ha
  refine ⟨recordParse ns t, samples ++ [ns], matched, endToEnd, by rw [hregistry, ht]; rfl, ?_⟩
  rw [htaken, h.messagesProcessed]
  refine { h0 with parserLatency := h0.parserLatency.record ns, payloads := ?_ }
  rw [List.length_append, List.length_singleton, h0.payloads]

/-- A message has been matched, in a part of the time that it takes as a whole. -/
theorem Accounts.played {engine played : TimedReplay maxOrders maxLevels} {b : Build} {taken : ℕ} {update : BookUpdate}
    (ha : engine.Accounts now) (h : Played now patience b taken update engine played) (htaken : taken ≤ engine.readings) :
    played.Accounts now := by
  obtain ⟨result, start, stop, last, hstart, hstop, hlast, hregistry⟩ := h.registry
  obtain ⟨t, samples, matched, endToEnd, ht, h0⟩ := ha
  refine ⟨_, samples, matched ++ [now stop - now start], endToEnd ++ [now last - now taken], by rw [hregistry, ht]; rfl, ?_⟩
  rw [h.source, h.messagesProcessed]
  refine ⟨h0.parserLatency, h0.matcherLatency.record _, h0.endToEndLatency.record _, h0.payloads, ?_, ?_, ?_, ?_, ?_⟩
  · rw [List.length_append, List.length_singleton, h0.orders]
  · intro hnow
    have hwithin : now stop - now start ≤ now last - now taken := latency_le hnow (htaken.trans hstart) hstop hlast
    exact List.rel_append (h0.within hnow) (.cons hwithin .nil)
  · rw [List.length_append, List.length_singleton, h0.messages]
  · rw [List.length_append, UInt64.ofNat_add, ← h0.ordersProcessed]
    rfl
  · rw [List.length_append, UInt64.ofNat_add, ← h0.messagesProcessed]
    rfl

/-- The updates that a replay will still process. -/
def due (maxMessages : ℕ) (engine : TimedReplay maxOrders maxLevels) : List BookUpdate :=
  ITCHParser.updatesIn (ReplayEngine.taken (maxMessages - engine.messagesProcessed) engine.source.rest)

variable {maxMessages fuel : ℕ} {engine engine' : TimedReplay maxOrders maxLevels} {b : Build}

theorem due_stop (h : maxMessages ≤ engine.messagesProcessed) : engine.due maxMessages = [] := by
  unfold due
  rw [Nat.sub_eq_zero_of_le h, ReplayEngine.taken]
  rfl

theorem due_end {source : MemoryDataSource} (h : engine.source.nextPayload = ([], source)) : engine.due maxMessages = [] := by
  unfold due
  cases maxMessages - engine.messagesProcessed with
  | zero =>
    rw [ReplayEngine.taken]
    rfl
  | succ n =>
    rcases MemoryDataSource.rest_of_next h with hrest | ⟨hrest, -⟩
    · rw [hrest, ReplayEngine.taken, if_pos rfl]
      rfl
    · rw [hrest, ReplayEngine.taken]
      rfl

/-- What is due, before a payload is parsed. -/
theorem due_parsed {payload : List Byte} {parsed : TimedReplay maxOrders maxLevels} (h : Parsed now payload engine parsed)
    (hlt : engine.messagesProcessed < maxMessages) :
    engine.due maxMessages = (ITCHParser.reading payload).update.toList ++
      ITCHParser.updatesIn (ReplayEngine.taken
        (maxMessages - (if (ITCHParser.reading payload).update.isSome then parsed.messagesProcessed + 1 else parsed.messagesProcessed))
        parsed.source.rest) := by
  obtain ⟨n, hn⟩ := Nat.exists_eq_succ_of_ne_zero (Nat.sub_ne_zero_of_lt hlt)
  have hrest : engine.source.rest = payload :: parsed.source.rest :=
    (MemoryDataSource.rest_of_next h.nextPayload).resolve_right fun hend => h.nonempty hend.2
  unfold due
  rw [hn, hrest, ReplayEngine.taken, if_neg h.nonempty, h.messagesProcessed, ITCHParser.updatesIn_cons]
  cases (ITCHParser.reading payload).update with
  | none =>
    rw [if_neg (by simp), if_neg (by simp), hn]
  | some update =>
    have hless : maxMessages - (engine.messagesProcessed + 1) = n := by omega
    rw [if_pos (Option.isSome_some ..), if_pos (Option.isSome_some ..), hless]

theorem due_skip {payload : List Byte} {parsed : TimedReplay maxOrders maxLevels} (h : Parsed now payload engine parsed)
    (hlt : engine.messagesProcessed < maxMessages) (hnone : (ITCHParser.reading payload).update = none) :
    engine.due maxMessages = parsed.due maxMessages := by
  rw [due_parsed h hlt, hnone]
  rfl

theorem due_played {payload : List Byte} {parsed played : TimedReplay maxOrders maxLevels} {update : BookUpdate} {taken : ℕ}
    (h : Parsed now payload engine parsed) (hlt : engine.messagesProcessed < maxMessages)
    (hupdate : (ITCHParser.reading payload).update = some update) (hplayed : Played now patience b taken update parsed played) :
    engine.due maxMessages = update :: played.due maxMessages := by
  unfold due
  rw [hplayed.source, hplayed.messagesProcessed]
  exact (due_parsed h hlt).trans (by rw [hupdate]; rfl)

theorem Played.readings {update : BookUpdate} {taken : ℕ} {played : TimedReplay maxOrders maxLevels}
    (h : Played now patience b taken update engine played) : engine.readings ≤ played.readings := by
  obtain ⟨released, hwait, hle⟩ := h.waited
  exact (ReplayClock.waitUntil_readings hwait).trans hle

/-- The clock is read forwards. -/
theorem timedLoop_readings (h : timedLoop host now patience maxMessages fuel engine b = .ok engine') :
    engine.readings ≤ engine'.readings := by
  induction fuel generalizing engine with
  | zero => cases h
  | succ fuel ih =>
    rcases timedLoop_cases h with ⟨-, rfl⟩ | ⟨source, -, rfl⟩ | ⟨fuel', payload, parsed, hfuel, -, hparsed, hgo⟩
    · exact le_rfl
    · exact le_rfl
    · obtain rfl := Nat.succ.inj hfuel
      rcases hgo with ⟨-, h⟩ | ⟨update, played, -, hplayed, h⟩
      · exact hparsed.readings.trans (ih h)
      · exact hparsed.readings.trans (hplayed.readings.trans (ih h))

/-- **Once the clock is started**, every update waits until its time has come. -/
theorem timedLoop_waits (h : timedLoop host now patience maxMessages fuel engine b = .ok engine') (hw : engine.clock.Waits)
    (hfirst : engine.clock.firstMessageTs ≠ 0) {update : BookUpdate} (hmem : update ∈ engine.due maxMessages)
    (hlater : engine.clock.firstMessageTs < update.timestampNs) :
    ∃ i, engine.readings ≤ i ∧ i < engine'.readings ∧ engine.clock.targetSystemTime update.timestampNs ≤ now i := by
  induction fuel generalizing engine with
  | zero => cases h
  | succ fuel ih =>
    rcases timedLoop_cases h with ⟨hstop, rfl⟩ | ⟨source, hnext, rfl⟩ | ⟨fuel', payload, parsed, hfuel, hlt, hparsed, hgo⟩
    · rw [due_stop hstop] at hmem
      cases hmem
    · rw [due_end hnext] at hmem
      cases hmem
    · obtain rfl := Nat.succ.inj hfuel
      have hclock := hparsed.clock
      have hreadings := hparsed.readings
      rcases hgo with ⟨hnone, h⟩ | ⟨update', played, hupdate, hplayed, h⟩
      · rw [due_skip hparsed hlt hnone] at hmem
        obtain ⟨i, hi, hrest⟩ := ih h (by rwa [hclock]) (by rwa [hclock]) hmem (by rwa [hclock])
        rw [hclock] at hrest
        exact ⟨i, by omega, hrest⟩
      · obtain ⟨released, hwait, hle⟩ := hplayed.waited
        rw [hclock] at hwait
        obtain ⟨hsame, hlate⟩ := ReplayClock.waitUntil_later hw hfirst hwait
        rw [due_played hparsed hlt hupdate hplayed] at hmem
        rcases List.mem_cons.1 hmem with rfl | hmem
        · obtain ⟨i, hi, hir, hnow⟩ := hlate hlater
          have hmore := timedLoop_readings h
          exact ⟨i, by omega, by omega, hnow⟩
        · obtain ⟨i, hi, hrest⟩ := ih h (by rwa [hsame]) (by rwa [hsame]) hmem (by rwa [hsame])
          rw [hsame] at hrest
          have := hplayed.readings
          exact ⟨i, by omega, hrest⟩

/-- **From a clock that is not started**: the first update with a timestamp starts it. -/
theorem timedLoop_paces (h : timedLoop host now patience maxMessages fuel engine b = .ok engine') (hw : engine.clock.Waits)
    (hfresh : engine.clock.firstMessageTs = 0) {early later : List BookUpdate} {first : BookUpdate}
    (hdue : engine.due maxMessages = early ++ first :: later) (hearly : ∀ update ∈ early, update.timestampNs = 0)
    (hfirst : first.timestampNs ≠ 0) :
    ∃ start < engine'.readings, ∀ update ∈ later, first.timestampNs < update.timestampNs →
      ∃ i, start < i ∧ i < engine'.readings ∧
        ({ engine.clock with firstMessageTs := first.timestampNs, startTimeNs := now start } : ReplayClock).targetSystemTime
          update.timestampNs ≤ now i := by
  induction fuel generalizing engine early with
  | zero => cases h
  | succ fuel ih =>
    rcases timedLoop_cases h with ⟨hstop, rfl⟩ | ⟨source, hnext, rfl⟩ | ⟨fuel', payload, parsed, hfuel, hlt, hparsed, hgo⟩
    · rw [due_stop hstop] at hdue
      cases early <;> cases hdue
    · rw [due_end hnext] at hdue
      cases early <;> cases hdue
    · obtain rfl := Nat.succ.inj hfuel
      have hclock := hparsed.clock
      rcases hgo with ⟨hnone, h⟩ | ⟨update, played, hupdate, hplayed, h⟩
      · rw [due_skip hparsed hlt hnone] at hdue
        rw [← hclock]
        exact ih h (by rwa [hclock]) (by rwa [hclock]) hdue hearly
      · obtain ⟨released, hwait, hle⟩ := hplayed.waited
        rw [hclock] at hwait
        obtain ⟨hstarted, hreleased⟩ := ReplayClock.waitUntil_first hw hfresh hwait
        rw [due_played hparsed hlt hupdate hplayed] at hdue
        cases early with
        | nil =>
          obtain ⟨rfl, rfl⟩ := List.cons.inj hdue
          have hmore := timedLoop_readings h
          refine ⟨parsed.readings, by omega, fun update hmem hlater => ?_⟩
          obtain ⟨i, hi, hir, hnow⟩ := timedLoop_waits h (by rw [hstarted]; exact hw) (by rw [hstarted]; exact hfirst) hmem
            (by rw [hstarted]; exact hlater)
          rw [hstarted] at hnow
          exact ⟨i, by omega, hir, hnow⟩
        | cons e early =>
          obtain ⟨rfl, hdue'⟩ := List.cons.inj hdue
          -- a message without a timestamp leaves the clock unstarted
          have hzero := hearly update List.mem_cons_self
          obtain ⟨start, hstart, hall⟩ := ih h (by rw [hstarted]; exact hw) (by rw [hstarted]; exact hzero) hdue'
            fun u hu => hearly u (List.mem_cons_of_mem _ hu)
          refine ⟨start, hstart, fun u hu hlater => ?_⟩
          obtain ⟨i, hi, hir, hnow⟩ := hall u hu hlater
          rw [hstarted] at hnow
          exact ⟨i, hi, hir, hnow⟩

end TimedReplay

/-- **A replay takes its time.** In the modes that wait, the first update with a timestamp starts the clock, at some reading;
for each later update the clock has then shown, before the replay returns, the time at the start and the time that has passed
between the two messages, divided by the factor where the replay is accelerated. -/
theorem replay_takes_its_time (host : Host) (now : ℕ → UInt64) (patience maxMessages : ℕ) (payloads : List (List Byte))
    (matcher : MatchingEngine maxOrders maxLevels) (registry : Option Telemetry) {mode : PlaybackMode}
    (hmode : mode = .realTime ∨ mode = .accelerated) (scale : UInt64 → UInt64) {b : Build}
    {engine' : TimedReplay maxOrders maxLevels}
    (h : (TimedReplay.new payloads matcher registry mode scale).run host now patience maxMessages b = .ok engine')
    (early later : List BookUpdate) (first : BookUpdate)
    (hupdates : ITCHParser.updatesIn (ReplayEngine.taken maxMessages payloads) = early ++ first :: later)
    (hearly : ∀ update ∈ early, update.timestampNs = 0) (hfirst : first.timestampNs ≠ 0) :
    ∃ start < engine'.readings, ∀ update ∈ later, first.timestampNs < update.timestampNs →
      ∃ i, start < i ∧ i < engine'.readings ∧
        now start + (if mode = .accelerated then scale (update.timestampNs - first.timestampNs)
          else update.timestampNs - first.timestampNs) ≤ now i :=
  TimedReplay.timedLoop_paces h hmode rfl hupdates hearly hfirst

/-- An order that comes later. -/
def laterOrder : AddOrderMessage := { oneNs 2 with timestamp := 51, timestamp_lt := by decide }

/-- Two orders in real time, on a clock that gains a quarter of a millisecond at each reading. -/
def pacedReplay : Exec (TimedReplay four four) :=
  (TimedReplay.new [(oneNs 1).encode, laterOrder.encode] emptyEngine (some .new) .realTime id).run .little
    (fun i => UInt64.ofNat (2 ^ 18 * i)) 10 5

theorem replay_takes_its_time_two : ∃ engine', pacedReplay .debug = .ok engine' ∧
    ∃ start < engine'.readings, ∀ update ∈ [laterOrder.update], (oneNs 1).update.timestampNs < update.timestampNs →
      ∃ i, start < i ∧ i < engine'.readings ∧
        UInt64.ofNat (2 ^ 18 * start) + (update.timestampNs - (oneNs 1).update.timestampNs) ≤ UInt64.ofNat (2 ^ 18 * i) := by
  obtain ⟨engine', hrun⟩ : ∃ engine', pacedReplay .debug = .ok engine' := ⟨_, rfl⟩
  exact ⟨engine', hrun, replay_takes_its_time .little _ 10 5 _ emptyEngine (some .new) (Or.inl rfl) id hrun []
    [laterOrder.update] (oneNs 1).update (by decide) nofun (by decide)⟩

end TradeCore
