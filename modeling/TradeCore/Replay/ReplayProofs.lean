import TradeCore.Matching.ClockFree
import TradeCore.Parser.ItchGrammar
import TradeCore.Replay.ReplayEngine
/-!
# The two replay drivers

`consume` is what both loops do to the matcher: it parses each payload, applies the update and counts the updates.
`runLoop_eq` and `stepLoop_eq` say what a driver reports on top of that. Neither looks at timestamps
(`consume_untimed`), so the drivers agree on two clocks on everything but the number of messages: `run` counts the
updates, `step` the payloads (`replay_drivers_agree_iff`).
-/

namespace TradeCore

variable {maxOrders maxLevels : PoolCapacity}

namespace ReplayEngine

variable (host : Host) {engine : ReplayEngine maxOrders maxLevels} {p : List Byte} {ps : List (List Byte)}

theorem parse_returns (payload : List Byte) : ∃ update, parse host payload = pure update := by
  obtain ⟨⟨update, stats⟩, h⟩ := ITCHParser.parse_returns host Statistics.zero payload
  refine ⟨update, ?_⟩
  unfold parse
  rw [h, pure_bind]

/-- The payload is a book update. -/
def IsUpdate (payload : List Byte) : Prop := ∃ update, parse host payload = pure (some update)

/-! ## What both drivers do -/

/-- One payload: whether it is an update, and the matcher with the update applied. -/
def applyPayload (matcher : MatchingEngine maxOrders maxLevels) (payload : List Byte) :
    Exec (Bool × MatchingEngine maxOrders maxLevels) := do
  match ← parse host payload with
  | none => return (false, matcher)
  | some update =>
    if update.type = UpdateType.addOrder.toByte then do
      let (_, matcher) ← matcher.matchOrder (actionOf update)
      return (true, matcher)
    else do
      let book ← matcher.book.dispatch update
      return (true, { matcher with book := book })

/-- Payload after payload: how many were updates, and the matcher at the end. -/
def consume (matcher : MatchingEngine maxOrders maxLevels) : List (List Byte) → Exec (ℕ × MatchingEngine maxOrders maxLevels)
  | [] => return (0, matcher)
  | payload :: payloads => do
    let (isUpdate, matcher) ← applyPayload host matcher payload
    let (updates, matcher) ← consume matcher payloads
    return (updates + isUpdate.toNat, matcher)

/-- The end of the data, `n` payloads on. -/
def endOf (engine : ReplayEngine maxOrders maxLevels) (n : ℕ) : MemoryDataSource := { engine.source with idx := engine.source.idx + n }

/-- What a driver leaves: the source, the matcher and the number of messages. -/
def view (engine : ReplayEngine maxOrders maxLevels) : MemoryDataSource × MatchingEngine maxOrders maxLevels × ℕ :=
  (engine.source, engine.matcher, engine.messagesProcessed)

/-- The next payload, and what comes after it. -/
theorem nextPayload_cons (h : engine.source.rest = p :: ps) :
    engine.source.nextPayload = (p, { engine.source with idx := engine.source.idx + 1 }) ∧
      ({ engine.source with idx := engine.source.idx + 1 } : MemoryDataSource).rest = ps := by
  unfold MemoryDataSource.rest at h
  have hget : engine.source.payloads[engine.source.idx]? = some p := by
    rw [← List.head?_drop, h]
    rfl
  refine ⟨?_, ?_⟩
  · unfold MemoryDataSource.nextPayload
    rw [hget]
  · unfold MemoryDataSource.rest
    rw [← List.drop_drop, h]
    rfl

theorem nextPayload_nil (h : engine.source.rest = []) : engine.source.nextPayload = ([], engine.source) := by
  have hget : engine.source.payloads[engine.source.idx]? = none := by
    rw [← List.head?_drop]
    unfold MemoryDataSource.rest at h
    rw [h]
    rfl
  unfold MemoryDataSource.nextPayload
  rw [hget]

/-- The end of the data stays where it is while the engine goes on. -/
theorem endOf_next {engine' : ReplayEngine maxOrders maxLevels} (h : engine'.source = { engine.source with idx := engine.source.idx + 1 })
    (n : ℕ) : engine'.endOf n = engine.endOf (n + 1) := by
  unfold endOf
  rw [h]
  dsimp only
  rw [Nat.add_assoc, Nat.add_comm 1]

/-- **The loop of `run`** counts the updates. -/
theorem runLoop_eq {maxMessages : ℕ} (h : engine.source.rest = ps) (hne : ∀ p ∈ ps, p ≠ [])
    (hmax : engine.messagesProcessed + ps.length ≤ maxMessages) : view <$> runLoop host maxMessages (ps.length + 1) engine =
      (fun out => (engine.endOf ps.length, out.2, engine.messagesProcessed + out.1)) <$> consume host engine.matcher ps := by
  induction ps generalizing engine with
  | nil =>
    unfold runLoop consume
    rw [nextPayload_nil h]
    split <;> rfl
  | cons p ps ih =>
    obtain ⟨hnext, hrest⟩ := nextPayload_cons h
    have hlt : engine.messagesProcessed < maxMessages := by
      rw [List.length_cons] at hmax
      omega
    have hstop : p ≠ [] := hne p List.mem_cons_self
    -- the rest of the loop, from an engine with one payload less
    have hloop : ∀ engine' : ReplayEngine maxOrders maxLevels, ∀ n ≤ 1,
        engine'.source = { engine.source with idx := engine.source.idx + 1 } →
        engine'.messagesProcessed = engine.messagesProcessed + n →
        view <$> runLoop host maxMessages (ps.length + 1) engine' =
          (consume host engine'.matcher ps >>= fun out =>
            pure (engine.endOf (ps.length + 1), out.2, engine.messagesProcessed + (out.1 + n))) := by
      intro engine' n hn hsource hcount
      rw [List.length_cons] at hmax
      rw [ih (hsource ▸ hrest) (fun p hp => hne p (List.mem_cons_of_mem _ hp)) (by omega), bind_pure_comp]
      refine congrArg (· <$> consume host engine'.matcher ps) (funext fun out => ?_)
      rw [endOf_next hsource, hcount, Nat.add_assoc, Nat.add_comm n]
    rw [runLoop, if_pos hlt, hnext]
    dsimp only
    rw [if_neg hstop, consume, applyPayload, map_bind, bind_assoc, map_bind]
    refine bind_congr fun update => ?_
    cases update with
    | none =>
      simp only [pure_bind, map_bind, map_pure]
      exact hloop _ 0 (Nat.zero_le _) rfl rfl
    | some update =>
      dsimp only
      by_cases hadd : update.type = UpdateType.addOrder.toByte
      · simp only [if_pos hadd, bind_assoc, pure_bind, map_bind, map_pure]
        exact bind_congr fun called => hloop _ 1 (Nat.le_refl _) rfl rfl
      · simp only [if_neg hadd, bind_assoc, pure_bind, map_bind, map_pure]
        exact bind_congr fun book => hloop _ 1 (Nat.le_refl _) rfl rfl

/-- **The calls of `step`** count the payloads. -/
theorem stepLoop_eq (h : engine.source.rest = ps) (hne : ∀ p ∈ ps, p ≠ []) : view <$> stepLoop host (ps.length + 1) engine =
    (fun out => (engine.endOf ps.length, out.2, engine.messagesProcessed + ps.length)) <$> consume host engine.matcher ps := by
  induction ps generalizing engine with
  | nil =>
    unfold stepLoop step consume
    rw [nextPayload_nil h]
    rfl
  | cons p ps ih =>
    obtain ⟨hnext, hrest⟩ := nextPayload_cons h
    have hstop : p ≠ [] := hne p List.mem_cons_self
    have hloop : ∀ engine' : ReplayEngine maxOrders maxLevels,
        engine'.source = { engine.source with idx := engine.source.idx + 1 } →
        engine'.messagesProcessed = engine.messagesProcessed + 1 →
        view <$> stepLoop host (ps.length + 1) engine' =
          (consume host engine'.matcher ps >>= fun out =>
            pure (engine.endOf (ps.length + 1), out.2, engine.messagesProcessed + (ps.length + 1))) := by
      intro engine' hsource hcount
      rw [ih (hsource ▸ hrest) (fun p hp => hne p (List.mem_cons_of_mem _ hp)), bind_pure_comp]
      refine congrArg (· <$> consume host engine'.matcher ps) (funext fun out => ?_)
      rw [endOf_next hsource, hcount, Nat.add_assoc, Nat.add_comm 1]
    rw [stepLoop, step, hnext]
    dsimp only
    rw [if_neg hstop, consume, applyPayload, bind_assoc, bind_assoc, map_bind, map_bind]
    refine bind_congr fun update => ?_
    cases update with
    | none =>
      simp only [pure_bind, map_bind, map_pure, if_true]
      exact hloop _ rfl rfl
    | some update =>
      dsimp only
      by_cases hadd : update.type = UpdateType.addOrder.toByte
      · simp only [if_pos hadd, bind_assoc, pure_bind, map_bind, map_pure, if_true]
        exact bind_congr fun called => hloop _ rfl rfl
      · simp only [if_neg hadd, bind_assoc, pure_bind, map_bind, map_pure, if_true]
        exact bind_congr fun book => hloop _ rfl rfl

/-- `consume` returns the number of updates. -/
theorem consume_updates {matcher matcher' : MatchingEngine maxOrders maxLevels} {b : Build} {k : ℕ}
    (h : consume host matcher ps b = .ok (k, matcher')) : k ≤ ps.length ∧ (k = ps.length ↔ ∀ p ∈ ps, IsUpdate host p) := by
  induction ps generalizing matcher k with
  | nil =>
    cases h
    simp
  | cons p ps ih =>
    obtain ⟨⟨isUpdate, matcher1⟩, happly, h⟩ := Exec.bind_eq_ok.1 h
    obtain ⟨⟨updates, matcher2⟩, hrest, h⟩ := Exec.bind_eq_ok.1 h
    cases h
    obtain ⟨hle, hiff⟩ := ih hrest
    have hhead : isUpdate = true ↔ IsUpdate host p := by
      obtain ⟨update, hparse⟩ := parse_returns host p
      unfold applyPayload at happly
      unfold IsUpdate
      rw [hparse, pure_bind] at happly
      rw [hparse]
      cases update with
      | none =>
        cases happly
        refine ⟨nofun, ?_⟩
        rintro ⟨update, e⟩
        cases Exec.pure_inj e
      | some update =>
        refine ⟨fun _ => ⟨update, rfl⟩, fun _ => ?_⟩
        dsimp only at happly
        split at happly
        · obtain ⟨_, -, happly⟩ := Exec.bind_eq_ok.1 happly
          cases happly
          rfl
        · obtain ⟨_, -, happly⟩ := Exec.bind_eq_ok.1 happly
          cases happly
          rfl
    rw [List.forall_mem_cons, ← hhead, ← hiff, List.length_cons]
    cases isUpdate with
    | true =>
      refine ⟨Nat.succ_le_succ hle, ?_⟩
      simp [Bool.toNat_true]
    | false =>
      refine ⟨Nat.le_succ_of_le hle, ?_⟩
      simp only [Bool.toNat_false, Bool.false_eq_true, false_and, iff_false]
      omega

/-! ## Without timestamps -/

/-- What is read of a call of the matcher, and of an update of its book, has no timestamps. -/
theorem applyPayload_untimed (matcher : MatchingEngine maxOrders maxLevels) (payload : List Byte) :
    Prod.map id MatchingEngine.untimed <$> applyPayload host matcher payload =
      Prod.map id MatchingEngine.untimed <$> applyPayload host matcher.untimed payload := by
  unfold applyPayload
  rw [map_bind, map_bind]
  refine bind_congr fun update => ?_
  cases update with
  | none => rfl
  | some update =>
    dsimp only
    by_cases hadd : update.type = UpdateType.addOrder.toByte
    · have hread : ∀ m : MatchingEngine maxOrders maxLevels, (Prod.map id MatchingEngine.untimed <$>
          (m.matchOrder (actionOf update) >>= fun called => pure (true, called.2)) : Exec (Bool × MatchingEngine maxOrders maxLevels)) =
            m.untimed.matchOrder (actionOf update) >>= fun called => pure (true, called.2) := by
        intro m
        rw [map_bind, ← m.matchOrder_untimed, bind_map_left]
        rfl
      rw [if_pos hadd, if_pos hadd]
      exact (hread matcher).trans (hread matcher.untimed).symm
    · have hread : ∀ m : MatchingEngine maxOrders maxLevels, (Prod.map id MatchingEngine.untimed <$>
          (m.book.dispatch update >>= fun book => pure (true, { m with book := book })) : Exec (Bool × MatchingEngine maxOrders maxLevels)) =
            m.book.untimed.dispatch update.untimed >>= fun book => pure (true, { m.untimed with book := book }) := by
        intro m
        rw [map_bind, ← m.book.dispatch_untimed, bind_map_left]
        rfl
      rw [if_neg hadd, if_neg hadd]
      exact (hread matcher).trans (hread matcher.untimed).symm

theorem consume_untimed (ps : List (List Byte)) (matcher : MatchingEngine maxOrders maxLevels) :
    Prod.map id MatchingEngine.untimed <$> consume host matcher ps =
      Prod.map id MatchingEngine.untimed <$> consume host matcher.untimed ps := by
  induction ps generalizing matcher with
  | nil => rfl
  | cons p ps ih =>
    -- the rest of the payloads, from the engine without timestamps
    have hread : ∀ m : MatchingEngine maxOrders maxLevels, Prod.map id MatchingEngine.untimed <$> consume host m (p :: ps) =
        (Prod.map id MatchingEngine.untimed <$> applyPayload host m p) >>= fun applied =>
          (Prod.map id MatchingEngine.untimed <$> consume host applied.2 ps) >>= fun out => pure (out.1 + applied.1.toNat, out.2) := by
      intro m
      rw [consume, map_bind, bind_map_left]
      refine bind_congr fun applied => ?_
      change _ = (_ <$> consume host applied.2.untimed ps) >>= _
      rw [← ih, map_bind, bind_map_left]
      rfl
    rw [hread, hread, applyPayload_untimed]

/-! ## Both drivers -/

/-- The engine with another clock in its matcher. -/
def onClock (engine : ReplayEngine maxOrders maxLevels) (clock : ℕ → UInt64) : ReplayEngine maxOrders maxLevels :=
  { engine with matcher := { engine.matcher with clock := clock } }

end ReplayEngine

/-- What both drivers leave: nothing to read, and the same matcher but for its timestamps. -/
structure SameReplay (ran stepped : ReplayEngine maxOrders maxLevels) : Prop where
  source : ran.source = stepped.source
  done : ran.source.rest = []
  matcher : ran.matcher.untimed = stepped.matcher.untimed

/-- **The two drivers agree** but for the number of messages: both end in the same fault, or both take all payloads and
leave the matcher the same up to timestamps. They report the same number exactly where every payload is a book update. -/
theorem replay_drivers_agree_iff (host : Host) (engine : ReplayEngine maxOrders maxLevels) (clock : ℕ → UInt64) (maxMessages : ℕ)
    (b : Build) (hne : ∀ p ∈ engine.source.rest, p ≠ [])
    (hmax : engine.messagesProcessed + engine.source.rest.length ≤ maxMessages) :
    (∃ e, engine.run host maxMessages b = .error e ∧ (engine.onClock clock).stepAll host b = .error e) ∨
      ∃ ran stepped, engine.run host maxMessages b = .ok ran ∧ (engine.onClock clock).stepAll host b = .ok stepped ∧
        SameReplay ran stepped ∧
        (ran.messagesProcessed = stepped.messagesProcessed ↔ ∀ p ∈ engine.source.rest, ReplayEngine.IsUpdate host p) := by
  have hrun : ReplayEngine.view <$> engine.run host maxMessages = _ := ReplayEngine.runLoop_eq host rfl hne hmax
  have hstep : ReplayEngine.view <$> (engine.onClock clock).stepAll host =
      (fun out => (engine.endOf engine.source.rest.length, out.2, engine.messagesProcessed + engine.source.rest.length)) <$>
        ReplayEngine.consume host (engine.onClock clock).matcher engine.source.rest := ReplayEngine.stepLoop_eq host rfl hne
  have hmatch := (ReplayEngine.consume_untimed host engine.source.rest engine.matcher).trans
    (ReplayEngine.consume_untimed host engine.source.rest (engine.onClock clock).matcher).symm
  rcases Exec.eq_of_map_eq hmatch b with ⟨e, hconsume, hconsume'⟩ | ⟨⟨updates, matcher⟩, ⟨_, matcher'⟩, hconsume, hconsume', hout⟩
  · exact Or.inl ⟨e, Exec.error_of_map_eq hrun hconsume, Exec.error_of_map_eq hstep hconsume'⟩
  · obtain ⟨ran, hran, hview⟩ := Exec.ok_of_map_eq hrun hconsume
    obtain ⟨stepped, hstepped, hview'⟩ := Exec.ok_of_map_eq hstep hconsume'
    obtain ⟨hsource, hmatcher, hcount⟩ : ran.source = _ ∧ ran.matcher = matcher ∧ ran.messagesProcessed = _ := by
      simpa only [ReplayEngine.view, Prod.mk.injEq] using hview
    obtain ⟨hsource', hmatcher', hcount'⟩ : stepped.source = _ ∧ stepped.matcher = matcher' ∧ stepped.messagesProcessed = _ := by
      simpa only [ReplayEngine.view, Prod.mk.injEq] using hview'
    refine Or.inr ⟨ran, stepped, hran, hstepped, ⟨hsource.trans hsource'.symm, ?_, ?_⟩, ?_⟩
    · rw [hsource]
      unfold MemoryDataSource.rest ReplayEngine.endOf
      rw [← List.drop_drop]
      exact List.drop_length
    · rw [hmatcher, hmatcher']
      exact (Prod.ext_iff.1 hout).2
    · rw [hcount, hcount', Nat.add_left_cancel_iff]
      exact (ReplayEngine.consume_updates host hconsume).2

/-- A replay of a bid for 100 and an ask for 30 that meets it. -/
def orderReplay : ReplayEngine four four where
  source := ⟨[(oneNs 1).encode, { oneNs 2 with side := .ask, shares := 30, shares_pos := by decide }.encode], 0⟩
  matcher := emptyEngine
  registry := none
  messagesProcessed := 0

theorem replay_drivers_agree_iff_orders : ∃ ran stepped, orderReplay.run .little 2 .debug = .ok ran ∧
    (orderReplay.onClock fun _ => 7).stepAll .little .debug = .ok stepped ∧ SameReplay ran stepped ∧
      ran.matcher.book.queues = [[(1000, [(1, 70)])], []] ∧ ran.messagesProcessed = 2 ∧ stepped.messagesProcessed = 2 := by
  have hqueues : (do return (← orderReplay.run .little 2).matcher.book.queues) .debug = .ok [[(1000, [(1, 70)])], []] := by
    decide +kernel
  have hcount : (do return (← orderReplay.run .little 2).messagesProcessed) .debug = .ok 2 := by decide +kernel
  have hupdates : ∀ p ∈ orderReplay.source.rest, ReplayEngine.IsUpdate .little p := by
    intro p hp
    have hencoded : ∃ m : AddOrderMessage, p = m.encode := by
      rcases List.mem_cons.1 hp with rfl | hp
      · exact ⟨_, rfl⟩
      · exact ⟨_, List.mem_singleton.1 hp⟩
    obtain ⟨m, rfl⟩ := hencoded
    refine ⟨m.update, ?_⟩
    unfold ReplayEngine.parse
    rw [ITCHParser.parse_encode, pure_bind]
  obtain ⟨ran, hrun, hqueues⟩ := Exec.bind_eq_ok.1 hqueues
  rw [Exec.bind_of_ok hrun] at hcount
  rcases replay_drivers_agree_iff .little orderReplay (fun _ => 7) 2 .debug (by decide) (by decide) with
    ⟨e, hrun', -⟩ | ⟨_, stepped, hrun', hstep, hsame, hcounts⟩
  · rw [hrun] at hrun'
    cases hrun'
  · rw [hrun] at hrun'
    cases hrun'
    have htwo := Except.ok.inj hcount
    exact ⟨ran, stepped, hrun, hstep, hsame, Except.ok.inj hqueues, htwo, (hcounts.2 hupdates).symm.trans htwo⟩

/-- A replay of one system event message (`'S'`) into an empty book. -/
def eventReplay : ReplayEngine four four where
  source := ⟨[[83]], 0⟩
  matcher := emptyEngine
  registry := none
  messagesProcessed := 0

/-- `run` does not count the message, `step` does. -/
theorem event_message_counted_once : ∃ ran stepped, eventReplay.run .little (2 ^ 64 - 1) .debug = .ok ran ∧
    eventReplay.stepAll .little .debug = .ok stepped ∧ ran.messagesProcessed = 0 ∧ stepped.messagesProcessed = 1 :=
  ⟨_, _, rfl, rfl, rfl, rfl⟩

end TradeCore
