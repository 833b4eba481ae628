import TradeCore.Matching.ClockFree
/-!
# The risk rules are a filter

The rules are looked at once, before anything is touched, and nothing else reads them. So an engine with rules is an
engine without, behind a filter: the orders that pass have the answers, trades, trade ids and timestamps that they would
have had if the others had never been sent, and the others are answered with `RejectedRisk` (`risk_rules_are_a_filter`).
-/

namespace TradeCore

variable {maxOrders maxLevels : PoolCapacity}

/-- The order passes every rule. -/
def RiskPipeline.passes (rules : RiskPipeline) (action : OrderAction) : Bool := (RiskPipeline.evaluate rules action).ok

/-- The answers to all orders, from the answers to those that passed. -/
def RiskPipeline.answers (rules : RiskPipeline) : List OrderAction → List ExecutionResult → List ExecutionResult
  | [], _ => []
  | action :: actions, results =>
    if rules.passes action then results.take 1 ++ rules.answers actions (results.drop 1)
    else ⟨.rejectedRisk, StaticVector.empty⟩ :: rules.answers actions results

namespace MatchingEngine

/-- The engine with other rules. -/
def withRules (rules : RiskPipeline) (engine : MatchingEngine maxOrders maxLevels) : MatchingEngine maxOrders maxLevels :=
  { engine with riskPipeline := rules }

variable (rules : RiskPipeline)

def stateWithRules (st : MatchState maxOrders maxLevels) : MatchState maxOrders maxLevels :=
  { st with engine := st.engine.withRules rules }

theorem sweepLevel_rules (fuel : ℕ) (st : MatchState maxOrders maxLevels) (currIdx : Index) :
    stateWithRules rules <$> sweepLevel fuel st currIdx = sweepLevel fuel (stateWithRules rules st) currIdx := by
  induction fuel generalizing st currIdx with
  | zero => rfl
  | succ fuel ih =>
    unfold sweepLevel
    rw [apply_ite (fun m => stateWithRules rules <$> m)]
    refine if_congr Iff.rfl ?_ rfl
    rw [map_bind]
    refine bind_congr fun resting => ?_
    dsimp only
    rw [map_bind]
    refine bind_congr fun _ => ?_
    rw [map_bind]
    refine bind_congr fun trades => ?_
    rw [map_bind]
    exact bind_congr fun book => ih _ _

theorem matchCore_rules (isMarket : Bool) (fuel : ℕ) (st : MatchState maxOrders maxLevels) :
    stateWithRules rules <$> matchCore isMarket fuel st = matchCore isMarket fuel (stateWithRules rules st) := by
  induction fuel generalizing st with
  | zero => rfl
  | succ fuel ih =>
    unfold matchCore
    dsimp only
    rw [apply_ite (fun m => stateWithRules rules <$> m)]
    refine if_congr Iff.rfl ?_ rfl
    rw [map_bind]
    refine bind_congr fun best => ?_
    cases best with
    | none => rfl
    | some bestLevel =>
      dsimp only
      rw [apply_ite (fun m => stateWithRules rules <$> m), map_bind]
      refine if_congr Iff.rfl rfl ?_
      rw [← sweepLevel_rules, bind_map_left]
      exact bind_congr fun st => ih st

theorem settle_rules (initialQty : UInt32) (st : MatchState maxOrders maxLevels) :
    Prod.map id (withRules rules) <$> settle initialQty st = settle initialQty (stateWithRules rules st) := by
  obtain ⟨result, hresult⟩ : ∃ result : ExecutionResult, result = ⟨statusOf st.incoming st.trades, st.trades⟩ := ⟨_, rfl⟩
  -- what is returned for an engine, after the final check
  have hend : ∀ engine : MatchingEngine maxOrders maxLevels,
      Prod.map id (withRules rules) <$> (verifyExecution st.trades initialQty st.incoming engine.book >>=
          fun _ => pure (result, engine)) =
        (verifyExecution st.trades initialQty st.incoming engine.book >>= fun _ => pure (result, engine.withRules rules)) := by
    intro engine
    rw [map_bind]
    exact bind_congr fun _ => rfl
  rw [hresult] at hend
  unfold settle
  dsimp only
  rw [apply_ite (fun m => Prod.map id (withRules rules) <$> m)]
  refine if_congr Iff.rfl ?_ (hend st.engine)
  rw [map_bind]
  exact bind_congr fun book => hend _

theorem execute_rules (engine : MatchingEngine maxOrders maxLevels) (action : OrderAction) :
    Prod.map id (withRules rules) <$> engine.execute action = (engine.withRules rules).execute action := by
  unfold execute
  rw [map_bind]
  change _ = matchCore _ _ (stateWithRules rules ⟨engine, action, StaticVector.empty⟩) >>= _
  rw [← matchCore_rules, bind_map_left]
  exact bind_congr fun st => settle_rules rules action.qty st

/-- **An order that passes both pipelines** has the same answer from both. -/
theorem matchOrder_rules (engine : MatchingEngine maxOrders maxLevels) (action : OrderAction)
    (h : engine.riskPipeline.passes action = true) (hrules : rules.passes action = true) :
    Prod.map id (withRules rules) <$> engine.matchOrder action = (engine.withRules rules).matchOrder action := by
  unfold matchOrder
  change (RiskPipeline.evaluate engine.riskPipeline action).ok = true at h
  change (RiskPipeline.evaluate rules action).ok = true at hrules
  change _ = (if (RiskPipeline.evaluate rules action).ok = false then _ else _)
  have hpass : ¬true = false := Bool.noConfusion
  rw [h, hrules, if_neg hpass, if_neg hpass, apply_ite (fun m => Prod.map id (withRules rules) <$> m), map_bind, execute_rules]
  refine if_congr Iff.rfl (bind_congr fun enough => ?_) rfl
  rw [apply_ite (fun m => Prod.map id (withRules rules) <$> m), execute_rules]
  rfl

theorem matchOrder_rejected (engine : MatchingEngine maxOrders maxLevels) (action : OrderAction)
    (h : engine.riskPipeline.passes action = false) :
    engine.matchOrder action = pure (⟨.rejectedRisk, StaticVector.empty⟩, engine) :=
  if_pos h

/-- The rules of an engine stay. -/
theorem matchOrder_keeps_rules {engine engine' : MatchingEngine maxOrders maxLevels} {action : OrderAction} {result : ExecutionResult}
    {b : Build} (h : engine.matchOrder action b = .ok (result, engine')) : engine'.riskPipeline = engine.riskPipeline := by
  by_cases hpass : engine.riskPipeline.passes action = true
  · -- the call is the call on itself with its own rules
    have hsame := engine.matchOrder_rules engine.riskPipeline action hpass hpass
    have hb : Prod.map id (withRules engine.riskPipeline) <$> engine.matchOrder action b = engine.matchOrder action b :=
      congrFun hsame b
    rw [h] at hb
    exact (congrArg (fun out : ExecutionResult × MatchingEngine maxOrders maxLevels => out.2.riskPipeline) (Except.ok.inj hb)).symm
  · rw [matchOrder_rejected engine action (by simpa using hpass)] at h
    cases h
    rfl

end MatchingEngine

/-- **The risk rules are a filter** in front of an engine without rules: the same answers, faults and engine, for every
run of calls from every engine. -/
theorem risk_rules_are_a_filter (engine : MatchingEngine maxOrders maxLevels) (actions : List OrderAction) :
    engine.matchAll actions =
      (fun out => (engine.riskPipeline.answers actions out.1, out.2.withRules engine.riskPipeline)) <$>
        (engine.withRules []).matchAll (actions.filter engine.riskPipeline.passes) := by
  generalize hrules : engine.riskPipeline = rules
  induction actions generalizing engine with
  | nil =>
    rw [List.filter_nil, MatchingEngine.matchAll, MatchingEngine.matchAll, map_pure, ← hrules]
    rfl
  | cons action actions ih =>
    by_cases hpass : rules.passes action = true
    · have hcall := MatchingEngine.matchOrder_rules [] engine action (by rw [hrules]; exact hpass) rfl
      rw [List.filter_cons_of_pos hpass, MatchingEngine.matchAll, MatchingEngine.matchAll, ← hcall, bind_map_left, map_bind]
      funext b
      rw [Exec.bind_apply, Exec.bind_apply]
      cases hrun : engine.matchOrder action b with
      | error e => rfl
      | ok called =>
        obtain ⟨result, engine1⟩ := called
        have hkeep := (MatchingEngine.matchOrder_keeps_rules hrun).trans hrules
        change (engine1.matchAll actions >>= fun out => pure (result :: out.1, out.2)) b = _
        rw [ih engine1 hkeep, bind_map_left]
        change _ = ((fun out : List ExecutionResult × MatchingEngine maxOrders maxLevels =>
          (rules.answers (action :: actions) out.1, out.2.withRules rules)) <$>
            ((engine1.withRules []).matchAll (actions.filter rules.passes) >>= fun out => pure (result :: out.1, out.2))) b
        rw [map_bind]
        refine congrFun (bind_congr fun out => ?_) b
        rw [map_pure]
        refine congrArg pure (Prod.ext ?_ rfl)
        dsimp only
        rw [RiskPipeline.answers, if_pos hpass]
        rfl
    · have hreject := engine.matchOrder_rejected action (by rw [hrules]; simpa using hpass)
      rw [List.filter_cons_of_neg hpass, MatchingEngine.matchAll, hreject, pure_bind]
      dsimp only
      rw [ih engine hrules, bind_map_left, ← bind_pure_comp]
      refine bind_congr fun out => ?_
      refine congrArg pure (Prod.ext ?_ rfl)
      dsimp only
      rw [RiskPipeline.answers, if_neg hpass]

end TradeCore
