import TradeCore.Matching.EngineRuns
/-!
# Calls of `match`

`match` is its steps 1 to 3 (`loops`: the risk check, the scan, the matching loops) followed by `settle`
(`matchOrder_eq_loops`). `CallRun rules engine calls` is a run of calls from an empty engine, with what each call
returned. `call_cases` says what one call that returned can have been: a rejection that changed nothing, or a match
that did what the reference matcher does.
-/

namespace TradeCore

open ObjectPool PriceTime

variable {maxOrders maxLevels : PoolCapacity} {engine engine' : MatchingEngine maxOrders maxLevels} {g g' : Shape}
  {action : OrderAction} {result : ExecutionResult}

namespace MatchingEngine

/-! ## The steps of a call -/

/-- Steps 1 to 3 of `match`: rejected with a status, or what the loops left. -/
def loops (engine : MatchingEngine maxOrders maxLevels) (action : OrderAction) :
    Exec (ExecutionStatus ⊕ MatchState maxOrders maxLevels) := do
  let matched := do
    let st ← matchCore (action.type = .market) (maxLevels.size + 1) ⟨engine, action, StaticVector.empty⟩
    return .inr st
  if (RiskPipeline.evaluate engine.riskPipeline action).ok = false then return .inl .rejectedRisk
  else if action.type = .fok then
    if ← LiquidityAnalyzer.hasLiquidity engine.book action.side action.qty then matched
    else return .inl .rejectedInvalid
  else matched

/-- What the call makes of the outcome of its loops. -/
def conclude (engine : MatchingEngine maxOrders maxLevels) (action : OrderAction) :
    ExecutionStatus ⊕ MatchState maxOrders maxLevels → Exec (ExecutionResult × MatchingEngine maxOrders maxLevels)
  | .inl status => return (⟨status, StaticVector.empty⟩, engine)
  | .inr st => settle action.qty st

/-- What is left of the order and goes nowhere when the call ends. -/
def discarded (action : OrderAction) : ExecutionStatus ⊕ MatchState maxOrders maxLevels → UInt32
  | .inl _ => action.qty
  | .inr st => if st.incoming.qty > 0 ∧ st.incoming.type = .limit then 0 else st.incoming.qty

theorem matchOrder_eq_loops (engine : MatchingEngine maxOrders maxLevels) (action : OrderAction) :
    engine.matchOrder action = engine.loops action >>= engine.conclude action := by
  have hmatched : engine.execute action =
      (do
        let st ← matchCore (action.type = .market) (maxLevels.size + 1) ⟨engine, action, StaticVector.empty⟩
        return .inr st) >>= engine.conclude action := by
    unfold execute
    rw [bind_assoc]
    simp only [pure_bind]
    rfl
  unfold matchOrder loops
  split_ifs with hrisk hfok
  · rw [pure_bind]
    rfl
  · rw [bind_assoc]
    refine bind_congr fun enough => ?_
    cases enough with
    | true => exact hmatched
    | false => rfl
  · exact hmatched

/-! ## One call -/

/-- The outcome of the loops of a call that matched. -/
structure Matched (engine : MatchingEngine maxOrders maxLevels) (g : Shape) (action : OrderAction) (result : ExecutionResult)
    (engine' : MatchingEngine maxOrders maxLevels) (g' : Shape) (st : MatchState maxOrders maxLevels) : Prop where
  outcome : Outcome engine g action result engine' g'
  left : st.incoming.qty.toNat = (action.sweep g.abs).2.2
  type : st.incoming.type = action.type

/-- **The two ways of a call that returned.** -/
theorem call_cases (h : Inv engine.book g) {met : ExecutionStatus ⊕ MatchState maxOrders maxLevels}
    (hmet : engine.loops action .debug = .ok met) (hrun : engine.matchOrder action .debug = .ok (result, engine')) :
    (∃ status, met = .inl status ∧ (status = .rejectedRisk ∨ status = .rejectedInvalid) ∧
        result = ⟨status, StaticVector.empty⟩ ∧ engine' = engine) ∨
      (RiskPipeline.evaluate engine.riskPipeline action).ok = true ∧
        ∃ st g', met = .inr st ∧ Matched engine g action result engine' g' st := by
  rw [matchOrder_eq_loops, Exec.bind_apply, hmet] at hrun
  cases met with
  | inl status =>
    have hstatus : status = .rejectedRisk ∨ status = .rejectedInvalid := by
      unfold loops at hmet
      split_ifs at hmet
      · cases hmet
        exact Or.inl rfl
      · obtain ⟨enough, -, hmet⟩ := Exec.bind_eq_ok.1 hmet
        cases enough with
        | true =>
          obtain ⟨st, -, hst⟩ := Exec.bind_eq_ok.1 hmet
          cases hst
        | false =>
          cases hmet
          exact Or.inr rfl
      · obtain ⟨st, -, hst⟩ := Exec.bind_eq_ok.1 hmet
        cases hst
    cases hrun
    exact Or.inl ⟨status, rfl, hstatus, rfl, rfl⟩
  | inr st =>
    have hcore : (RiskPipeline.evaluate engine.riskPipeline action).ok = true ∧
        matchCore (action.type = .market) (maxLevels.size + 1) ⟨engine, action, StaticVector.empty⟩ .debug = .ok st := by
      unfold loops at hmet
      split_ifs at hmet with hrisk
      · cases hmet
      · obtain ⟨enough, -, hmet⟩ := Exec.bind_eq_ok.1 hmet
        cases enough with
        | true =>
          obtain ⟨st', hst', e⟩ := Exec.bind_eq_ok.1 hmet
          cases e
          exact ⟨by simpa using hrisk, hst'⟩
        | false => cases hmet
      · obtain ⟨st', hst', e⟩ := Exec.bind_eq_ok.1 hmet
        cases e
        exact ⟨by simpa using hrisk, hst'⟩
    have hexec : engine.execute action .debug = .ok (result, engine') := by
      unfold execute
      rw [Exec.bind_eq_ok]
      exact ⟨st, hcore.2, hrun⟩
    obtain ⟨g', hout⟩ := execute_debug h hexec
    refine Or.inr ⟨hcore.1, st, g', rfl, ?_⟩
    have hfits : (action.sweep g.abs).1.length ≤ kMaxTradesPerMatch := by
      by_contra hfull
      exact core_overflow h hfull .debug st hcore.2
    obtain ⟨st', g1, e, hswept⟩ := core_spec h hfits
    have hst := hcore.2
    rw [e] at hst
    cases hst
    exact ⟨hout, hswept.swept.left, by rw [hswept.swept.incoming]⟩

end MatchingEngine

/-! ## Runs of calls -/

/-- A call of `match` that returned, with what was left of the order and dropped. -/
structure MatchCall where
  action : OrderAction
  result : ExecutionResult
  discarded : UInt32

/-- The calls made so far on an engine that started empty, none of whose assertions failed. -/
inductive CallRun (rules : RiskPipeline) : MatchingEngine maxOrders maxLevels → List MatchCall → Prop where
  | new (clock : ℕ → UInt64) (orders : Index → Order) (levels : Index → PriceLevel) :
      CallRun rules (MatchingEngine.new rules clock orders levels) []
  | call {engine engine' : MatchingEngine maxOrders maxLevels} {calls : List MatchCall} {action : OrderAction}
      {met : ExecutionStatus ⊕ MatchState maxOrders maxLevels} {result : ExecutionResult} :
      CallRun rules engine calls → engine.loops action .debug = .ok met →
        engine.matchOrder action .debug = .ok (result, engine') →
        CallRun rules engine' (calls ++ [⟨action, result, MatchingEngine.discarded action met⟩])

variable {rules : RiskPipeline} {calls : List MatchCall}

theorem CallRun.reachable (h : CallRun rules engine calls) : EngineReachable engine := by
  induction h with
  | new clock orders levels => exact .new rules clock orders levels
  | call _ _ hrun ih => exact .matched ih hrun

/-- A call that returned has loops that returned. -/
theorem CallRun.next (h : CallRun rules engine calls) (hrun : engine.matchOrder action .debug = .ok (result, engine')) :
    ∃ met : ExecutionStatus ⊕ MatchState maxOrders maxLevels, CallRun rules engine' (calls ++ [⟨action, result, MatchingEngine.discarded action met⟩]) := by
  have hloops := hrun
  rw [MatchingEngine.matchOrder_eq_loops, Exec.bind_eq_ok] at hloops
  obtain ⟨met, hmet, -⟩ := hloops
  exact ⟨met, .call h hmet hrun⟩

/-- The rules of an engine stay. -/
theorem CallRun.rules_eq (h : CallRun rules engine calls) : engine.riskPipeline = rules := by
  induction h with
  | new => rfl
  | call hr hmet hrun ih =>
    obtain ⟨g, hg, -⟩ := hr.reachable.inv
    rcases MatchingEngine.call_cases hg hmet hrun with ⟨_, -, -, -, rfl⟩ | ⟨-, _, _, -, hm⟩
    · exact ih
    · exact hm.outcome.risk.trans ih

/-! ## Two calls that meet -/

/-- Buy 5 at 100, then sell 3 of them, on an empty engine with the given rules. -/
def meeting (rules : RiskPipeline) : Exec (List UInt32) := do
  let engine : MatchingEngine four four :=
    MatchingEngine.new rules (fun _ => 0) (fun _ => Order.zero) fun _ => PriceLevel.zero
  let (_, engine) ← engine.matchOrder buyFive
  let (result, _) ← engine.matchOrder sellThree
  return result.trades.data.map Trade.quantity

theorem meeting_calls {qtys : List UInt32} (h : meeting rules .debug = .ok qtys) :
    ∃ (engine : MatchingEngine four four) (c1 c2 : MatchCall), CallRun rules engine [c1, c2] ∧ c1.action = buyFive ∧
      c2.action = sellThree ∧ c2.result.trades.data.map Trade.quantity = qtys := by
  obtain ⟨⟨r1, e1⟩, h1, h⟩ := Exec.bind_eq_ok.1 h
  obtain ⟨⟨r2, e2⟩, h2, h⟩ := Exec.bind_eq_ok.1 h
  obtain ⟨met1, hrun1⟩ := (CallRun.new (fun _ => 0) (fun _ => Order.zero) fun _ => PriceLevel.zero).next h1
  obtain ⟨met2, hrun2⟩ := hrun1.next h2
  exact ⟨e2, _, _, hrun2, rfl, rfl, Except.ok.inj h⟩

end TradeCore
