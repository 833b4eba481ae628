import TradeCore.Parser.ItchReading
import TradeCore.Replay.ReplayProofs
/-!
# A replay is a run of the matcher

Every update that the parser returns is an added order, so `run` never dispatches to the book: it submits the orders of
the messages that it takes, one limit order each, and does nothing else to the engine (`run_eq_matchAll`). What it
takes ends with the last update that it may still process, or with an empty payload (`taken`).
-/

namespace TradeCore

open ITCHParser

variable {maxOrders maxLevels : PoolCapacity}

/-! ## Runs of the matcher -/

/-- A run goes on where another ended. -/
theorem MatchingEngine.matchAll_append (engine : MatchingEngine maxOrders maxLevels) (actions more : List OrderAction) :
    engine.matchAll (actions ++ more) = engine.matchAll actions >>= fun first =>
      first.2.matchAll more >>= fun second => pure (first.1 ++ second.1, second.2) := by
  induction actions generalizing engine with
  | nil =>
    rw [List.nil_append, matchAll, pure_bind]
    exact (bind_pure (engine.matchAll more)).symm
  | cons action actions ih =>
    rw [List.cons_append, matchAll, matchAll, bind_assoc]
    refine bind_congr fun called => ?_
    dsimp only
    rw [ih]
    simp only [bind_assoc, pure_bind, List.cons_append]

/-- A call for each action. -/
theorem MatchingEngine.matchAll_length {engine engine' : MatchingEngine maxOrders maxLevels} {actions : List OrderAction}
    {results : List ExecutionResult} {b : Build} (h : engine.matchAll actions b = .ok (results, engine')) :
    results.length = actions.length := by
  induction actions generalizing engine results with
  | nil =>
    cases h
    rfl
  | cons action actions ih =>
    obtain ⟨called, -, h⟩ := Exec.bind_eq_ok.1 h
    obtain ⟨⟨rest, engine2⟩, hrest, h⟩ := Exec.bind_eq_ok.1 h
    cases h
    rw [List.length_cons, List.length_cons, ih hrest]

/-! ## The registry -/

namespace MetricsRegistry

/-- The registry after these calls of the matcher, one for each message. -/
def recordAll (registry : MetricsRegistry) (results : List ExecutionResult) : MetricsRegistry where
  messagesProcessed := registry.messagesProcessed + UInt64.ofNat results.length
  ordersProcessed := registry.ordersProcessed + UInt64.ofNat results.length
  tradesGenerated := registry.tradesGenerated + UInt64.ofNat (results.map fun result => result.trades.data.length).sum
  riskRejects := registry.riskRejects + UInt64.ofNat (results.countP fun result => result.status = .rejectedRisk)

theorem recordAll_nil (registry : MetricsRegistry) : registry.recordAll [] = registry := by
  simp [recordAll]

theorem recordAll_append (registry : MetricsRegistry) (results more : List ExecutionResult) :
    (registry.recordAll results).recordAll more = registry.recordAll (results ++ more) := by
  simp [recordAll, UInt64.ofNat_add, add_assoc]

theorem recordAll_cons (registry : MetricsRegistry) (result : ExecutionResult) (results : List ExecutionResult) :
    registry.recordAll (result :: results) = ((registry.recordMatch result).recordMessage).recordAll results := by
  unfold recordAll recordMessage recordMatch
  by_cases hreject : result.status = .rejectedRisk <;>
    simp [hreject, UInt64.ofNat_add, add_assoc, add_comm]

end MetricsRegistry

/-! ## What a replay takes -/

namespace ReplayEngine

/-- The payloads that `run` takes while it may process `n` updates. -/
def taken : ℕ → List (List Byte) → List (List Byte)
  | 0, _ => []
  | _ + 1, [] => []
  | n + 1, p :: ps =>
    if p = [] then [p]
    else p :: taken (if ((reading p).update).isSome then n else n + 1) ps

/-- The orders of these messages. -/
def orders (payloads : List (List Byte)) : List OrderAction := (updatesIn payloads).map actionOf

/-- The engine after `run` has taken these payloads, and the matcher has answered. -/
def after (engine : ReplayEngine maxOrders maxLevels) (payloads : List (List Byte))
    (out : List ExecutionResult × MatchingEngine maxOrders maxLevels) : ReplayEngine maxOrders maxLevels where
  source := { engine.source with idx := engine.source.idx + payloads.length }
  matcher := out.2
  registry := engine.registry.map fun registry => registry.recordAll out.1
  messagesProcessed := engine.messagesProcessed + out.1.length

variable (host : Host) {engine : ReplayEngine maxOrders maxLevels} {p : List Byte} {ps : List (List Byte)}

theorem parse_reading (payload : List Byte) : parse host payload = pure (reading payload).update := by
  unfold parse
  rw [parse_eq, pure_bind]

/-- An update is an added order. -/
theorem type_of_update {payload : List Byte} {update : BookUpdate} (h : (reading payload).update = some update) :
    update.type = UpdateType.addOrder.toByte := by
  unfold reading at h
  split_ifs at h <;> cases h
  rfl

theorem orders_cons (p : List Byte) (ps : List (List Byte)) :
    orders (p :: ps) = ((reading p).update.map actionOf).toList ++ orders ps := by
  unfold orders
  rw [updatesIn_cons, List.map_append]
  cases (reading p).update <;> rfl

/-- **One update**: the order is submitted, the call is recorded, and the replay goes on with what comes next. -/
theorem after_cons (engine : ReplayEngine maxOrders maxLevels) (p : List Byte) (ps : List (List Byte)) (result : ExecutionResult)
    (matcher : MatchingEngine maxOrders maxLevels) (out : List ExecutionResult × MatchingEngine maxOrders maxLevels) :
    engine.after (p :: ps) (result :: out.1, out.2) =
      ReplayEngine.after ⟨{ engine.source with idx := engine.source.idx + 1 }, matcher,
        (engine.registry.map fun r => r.recordMatch result).map MetricsRegistry.recordMessage, engine.messagesProcessed + 1⟩ ps out := by
  have hregistry : engine.registry.map (fun r => r.recordAll (result :: out.1)) =
      ((engine.registry.map fun r => r.recordMatch result).map MetricsRegistry.recordMessage).map fun r => r.recordAll out.1 := by
    cases engine.registry with
    | none => rfl
    | some registry => exact congrArg some (registry.recordAll_cons result out.1)
  have hidx : engine.source.idx + (p :: ps).length = engine.source.idx + 1 + ps.length := by
    rw [List.length_cons]
    omega
  have hcount : engine.messagesProcessed + (result :: out.1).length = engine.messagesProcessed + 1 + out.1.length := by
    rw [List.length_cons]
    omega
  unfold after
  dsimp only
  rw [hregistry, hidx, hcount]

/-- A message that is no update is skipped. -/
theorem after_skip (engine : ReplayEngine maxOrders maxLevels) (p : List Byte) (ps : List (List Byte)) :
    engine.after (p :: ps) = ReplayEngine.after { engine with source := { engine.source with idx := engine.source.idx + 1 } } ps := by
  funext out
  unfold after
  dsimp only
  rw [List.length_cons, Nat.add_assoc, Nat.add_comm 1]

/-- A replay that takes nothing leaves the engine as it was. -/
theorem after_nil (engine : ReplayEngine maxOrders maxLevels) : engine.after [] ([], engine.matcher) = engine := by
  have hregistry : engine.registry.map (fun r => r.recordAll []) = engine.registry := by
    cases engine.registry with
    | none => rfl
    | some registry => exact congrArg some registry.recordAll_nil
  unfold after
  dsimp only
  rw [hregistry]
  rfl

/-- **The loop is a run of the matcher** on the orders of the messages that it takes. -/
theorem runLoop_eq_matchAll {maxMessages fuel : ℕ} (h : engine.source.rest = ps) (hfuel : ps.length < fuel) :
    runLoop host maxMessages fuel engine =
      engine.after (taken (maxMessages - engine.messagesProcessed) ps) <$>
        engine.matcher.matchAll (orders (taken (maxMessages - engine.messagesProcessed) ps)) := by
  induction ps generalizing engine fuel with
  | nil =>
    obtain ⟨fuel, rfl⟩ := Nat.exists_eq_succ_of_ne_zero (Nat.ne_of_gt (Nat.zero_lt_of_lt hfuel))
    have htaken : taken (maxMessages - engine.messagesProcessed) [] = [] := by
      cases maxMessages - engine.messagesProcessed <;> rfl
    rw [runLoop, nextPayload_nil h, htaken]
    change _ = engine.after [] <$> pure ([], engine.matcher)
    rw [map_pure, after_nil]
    exact ite_self _
  | cons p ps ih =>
    obtain ⟨fuel, rfl⟩ := Nat.exists_eq_succ_of_ne_zero (Nat.ne_of_gt (Nat.zero_lt_of_lt hfuel))
    obtain ⟨hnext, hrest⟩ := nextPayload_cons h
    have hfuel' : ps.length < fuel := Nat.lt_of_succ_lt_succ hfuel
    by_cases hlt : engine.messagesProcessed < maxMessages
    · obtain ⟨n, hn⟩ := Nat.exists_eq_succ_of_ne_zero (Nat.sub_ne_zero_of_lt hlt)
      rw [runLoop, if_pos hlt, hnext, hn]
      dsimp only
      by_cases hend : p = []
      · subst hend
        have hnone : orders [([] : List Byte)] = [] := rfl
        rw [if_pos rfl, taken, if_pos rfl, hnone, MatchingEngine.matchAll, map_pure, after_skip, after_nil]
      · rw [if_neg hend, taken, if_neg hend, parse_reading, pure_bind]
        cases hupdate : (reading p).update with
        | none =>
          dsimp only
          rw [ih hrest hfuel', orders_cons, hupdate, after_skip]
          dsimp only
          rw [hn]
          rfl
        | some update =>
          have hless : maxMessages - (engine.messagesProcessed + 1) = n := by omega
          dsimp only
          rw [if_pos (type_of_update hupdate), orders_cons, hupdate]
          simp only [pure_bind]
          change _ = _ <$> engine.matcher.matchAll (actionOf update :: orders (taken n ps))
          rw [MatchingEngine.matchAll, map_bind]
          refine bind_congr fun called => ?_
          dsimp only
          rw [ih hrest hfuel', hless, map_bind]
          simp only [map_pure]
          rw [bind_pure_comp]
          refine congrArg (· <$> called.2.matchAll (orders (taken n ps))) (funext fun out => ?_)
          exact (after_cons engine p (taken n ps) called.1 called.2 out).symm
    · have hn : maxMessages - engine.messagesProcessed = 0 := Nat.sub_eq_zero_of_le (Nat.not_lt.1 hlt)
      rw [runLoop, if_neg hlt, hn]
      change _ = engine.after [] <$> pure ([], engine.matcher)
      rw [map_pure, after_nil]

/-- **A replay is a run of the matcher**, on any host: `run` submits the orders of the messages that it takes, one limit
order each, and ends in a fault where that run does. The engine it leaves has the matcher of that run, stands behind the
messages taken, and has counted the calls. -/
theorem run_eq_matchAll (engine : ReplayEngine maxOrders maxLevels) (maxMessages : ℕ) :
    engine.run host maxMessages =
      engine.after (taken (maxMessages - engine.messagesProcessed) engine.source.rest) <$>
        engine.matcher.matchAll (orders (taken (maxMessages - engine.messagesProcessed) engine.source.rest)) :=
  runLoop_eq_matchAll host rfl (Nat.lt_succ_self _)

/-! ## Stopping and going on -/

theorem orders_append (ps qs : List (List Byte)) : orders (ps ++ qs) = orders ps ++ orders qs := by
  unfold orders updatesIn
  rw [List.filterMap_append, List.map_append]

/-- **Stop early, then go on**: what is taken with more updates to process begins with what is taken with fewer. -/
theorem taken_split {a b : ℕ} (hab : a ≤ b) (hne : ∀ p ∈ ps, p ≠ []) :
    taken b ps = taken a ps ++ taken (b - (orders (taken a ps)).length) (ps.drop (taken a ps).length) := by
  induction ps generalizing a b with
  | nil => cases a <;> cases b <;> rfl
  | cons p ps ih =>
    cases a with
    | zero => rfl
    | succ a =>
      obtain ⟨b, rfl⟩ := Nat.exists_eq_succ_of_ne_zero (Nat.ne_of_gt (Nat.zero_lt_of_lt hab))
      have hp : p ≠ [] := hne p List.mem_cons_self
      have hps : ∀ q ∈ ps, q ≠ [] := fun q hq => hne q (List.mem_cons_of_mem p hq)
      rw [taken, taken, if_neg hp, if_neg hp, orders_cons, List.length_append, List.length_cons, List.drop_succ_cons, List.cons_append]
      congr 1
      cases hupdate : (reading p).update with
      | none =>
        simp only [Option.isSome_none, Bool.false_eq_true, if_false, Option.map_none, Option.toList_none, List.length_nil, Nat.zero_add]
        exact ih hab hps
      | some update =>
        simp only [Option.isSome_some, if_true, Option.map_some, Option.toList_some, List.length_singleton]
        rw [ih (Nat.le_of_succ_le_succ hab) hps, Nat.add_comm 1, Nat.succ_sub_succ]

/-- Two replays, one behind the other. -/
theorem after_after (engine : ReplayEngine maxOrders maxLevels) (ps qs : List (List Byte))
    (first second : List ExecutionResult × MatchingEngine maxOrders maxLevels) :
    (engine.after ps first).after qs second = engine.after (ps ++ qs) (first.1 ++ second.1, second.2) := by
  have hregistry : (engine.registry.map fun r => r.recordAll first.1).map (fun r => r.recordAll second.1) =
      engine.registry.map fun r => r.recordAll (first.1 ++ second.1) := by
    cases engine.registry with
    | none => rfl
    | some registry => exact congrArg some (registry.recordAll_append first.1 second.1)
  unfold after
  dsimp only
  rw [hregistry, List.length_append, List.length_append, Nat.add_assoc, Nat.add_assoc]

theorem rest_after (engine : ReplayEngine maxOrders maxLevels) (ps : List (List Byte))
    (out : List ExecutionResult × MatchingEngine maxOrders maxLevels) :
    (engine.after ps out).source.rest = engine.source.rest.drop ps.length :=
  (List.drop_drop ..).symm

/-- **A replay can be stopped and resumed**: `run` to one limit and then to a later one is `run` to the later one, in
everything it leaves and in every fault, where no payload is empty. -/
theorem run_resumes (engine : ReplayEngine maxOrders maxLevels) {early late : ℕ} (h : early ≤ late)
    (hne : ∀ p ∈ engine.source.rest, p ≠ []) :
    (engine.run host early >>= fun stopped => stopped.run host late) = engine.run host late := by
  have hle : early - engine.messagesProcessed ≤ late - engine.messagesProcessed := Nat.sub_le_sub_right h _
  generalize hfirst : taken (early - engine.messagesProcessed) engine.source.rest = first
  have hsplit := taken_split hle hne
  rw [hfirst] at hsplit
  generalize hmore : taken (late - engine.messagesProcessed - (orders first).length) (engine.source.rest.drop first.length) = more at hsplit
  rw [run_eq_matchAll, run_eq_matchAll, hfirst, hsplit, orders_append, MatchingEngine.matchAll_append, bind_map_left, map_bind]
  -- how many calls there were is known of a run that returned
  funext b
  rw [Exec.bind_apply, Exec.bind_apply]
  cases hrun : engine.matcher.matchAll (orders first) b with
  | error e => rfl
  | ok out =>
    have hlength := MatchingEngine.matchAll_length hrun
    have hcount : late - (engine.after first out).messagesProcessed =
        late - engine.messagesProcessed - (orders first).length := by
      rw [← hlength]
      exact (Nat.sub_sub _ _ _).symm
    change run host late (engine.after first out) b =
      (engine.after (first ++ more) <$> (out.2.matchAll (orders more) >>= fun second => pure (out.1 ++ second.1, second.2))) b
    rw [run_eq_matchAll, rest_after, hcount, hmore, map_bind]
    simp only [map_pure]
    rw [bind_pure_comp]
    exact congrFun (congrArg (· <$> out.2.matchAll (orders more)) (funext fun second => after_after engine first more out second)) b

end ReplayEngine

/-- A replay of two orders and an event between them. -/
def twoOrderReplay : ReplayEngine four four where
  source := ⟨[(oneNs 1).encode, [83], (oneNs 2).encode], 0⟩
  matcher := emptyEngine
  registry := some {}
  messagesProcessed := 0

theorem run_resumes_two : (twoOrderReplay.run .little 1 >>= fun stopped => stopped.run .little 5) = twoOrderReplay.run .little 5 :=
  ReplayEngine.run_resumes .little twoOrderReplay (by decide) (by decide)

end TradeCore
