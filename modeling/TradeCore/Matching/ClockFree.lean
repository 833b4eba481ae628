import TradeCore.Matching.EngineCalls
import TradeCore.Orderbook.DigestProofs
import TradeCore.Orderbook.Timestamps
/-!
# The clock

A call of `match` reads the clock for each trade and for the order it leaves in the book. `untimed` is the engine
without timestamps, on a clock that stands at zero: a call on it does what the call on the engine does, less the
timestamps (`matchOrder_untimed`). So two engines on different clocks that start alike stay alike
(`matching_clock_free`).
-/

namespace TradeCore

variable {maxOrders maxLevels : PoolCapacity}

/-! ## Without timestamps -/

namespace StaticVector

variable {α : Type} {capacity : ℕ} (f : α → α)

def map (v : StaticVector α capacity) : StaticVector α capacity := ⟨v.data.map f, by simpa using v.size_le⟩

theorem pushBack_map (v : StaticVector α capacity) (val : α) : map f <$> v.pushBack val = (v.map f).pushBack (f val) := by
  have hlen : (v.map f).data.length = v.data.length := List.length_map f
  by_cases hroom : v.data.length < capacity
  · rw [pushBack_ok v val hroom, pushBack_ok (v.map f) (f val) (hlen ▸ hroom), map_pure]
    simp only [map, List.map_append, List.map_cons, List.map_nil]
  · funext b
    change map f <$> v.pushBack val b = _
    rw [pushBack_full hroom, pushBack_full (hlen ▸ hroom)]
    rfl

end StaticVector

def ExecutionResult.untimed (result : ExecutionResult) : ExecutionResult :=
  { result with trades := result.trades.map Trade.core }

/-- The engine without timestamps, on a clock that stands at zero. -/
def MatchingEngine.untimed (engine : MatchingEngine maxOrders maxLevels) : MatchingEngine maxOrders maxLevels :=
  { engine with book := engine.book.untimed, clock := fun _ => 0 }

def MatchState.untimed (st : MatchState maxOrders maxLevels) : MatchState maxOrders maxLevels :=
  ⟨st.engine.untimed, st.incoming, st.trades.map Trade.core⟩

namespace MatchingEngine

/-! ## The steps of a call -/

theorem sweepLevel_untimed (fuel : ℕ) (st : MatchState maxOrders maxLevels) (currIdx : Index) :
    MatchState.untimed <$> sweepLevel fuel st currIdx = sweepLevel fuel st.untimed currIdx := by
  induction fuel generalizing st currIdx with
  | zero => rfl
  | succ fuel ih =>
    unfold sweepLevel
    rw [apply_ite (fun m => MatchState.untimed <$> m)]
    refine if_congr Iff.rfl ?_ rfl
    change _ = (st.engine.book.orderPool.map Order.untimed).get currIdx >>= _
    rw [map_bind, ObjectPool.get_map, bind_map_left]
    refine bind_congr fun resting => ?_
    dsimp only
    rw [map_bind]
    refine bind_congr fun _ => ?_
    let t : Trade := ⟨st.engine.nextTradeId, st.incoming.orderId, resting.orderId, resting.price,
      stdMin st.incoming.qty resting.remainingQty, st.engine.clock st.engine.readings⟩
    change _ = (st.trades.map Trade.core).pushBack t.core >>= _
    rw [← StaticVector.pushBack_map, map_bind, bind_map_left]
    refine bind_congr fun trades => ?_
    change _ = st.engine.book.untimed.cancelOrder _ >>= _
    rw [← OrderBook.cancelOrder_untimed, map_bind, bind_map_left]
    exact bind_congr fun book => ih _ _

theorem matchCore_untimed (isMarket : Bool) (fuel : ℕ) (st : MatchState maxOrders maxLevels) :
    MatchState.untimed <$> matchCore isMarket fuel st = matchCore isMarket fuel st.untimed := by
  induction fuel generalizing st with
  | zero => rfl
  | succ fuel ih =>
    have hside : st.untimed.engine.book.side = st.engine.book.side := funext st.engine.book.untimed_side
    unfold matchCore
    dsimp only
    rw [apply_ite (fun m => MatchState.untimed <$> m), hside]
    refine if_congr Iff.rfl ?_ rfl
    rw [map_bind]
    refine bind_congr fun best => ?_
    cases best with
    | none => rfl
    | some bestLevel =>
      dsimp only
      rw [apply_ite (fun m => MatchState.untimed <$> m), map_bind, ← sweepLevel_untimed, bind_map_left]
      exact if_congr Iff.rfl rfl (bind_congr fun st => ih st)

theorem settle_untimed (initialQty : UInt32) (st : MatchState maxOrders maxLevels) :
    Prod.map ExecutionResult.untimed untimed <$> settle initialQty st = settle initialQty st.untimed := by
  have hverify : verifyExecution (st.trades.map Trade.core) initialQty st.incoming =
      (verifyExecution st.trades initialQty st.incoming : OrderBook maxOrders maxLevels → Exec Unit) := by
    have hsum : ((st.trades.map Trade.core).data.map Trade.quantity) = st.trades.data.map Trade.quantity :=
      List.map_map
    funext book
    unfold verifyExecution
    rw [hsum]
  have hstatus : statusOf st.incoming (st.trades.map Trade.core) = statusOf st.incoming st.trades := by
    have hempty : (st.trades.map Trade.core).data.isEmpty = st.trades.data.isEmpty := List.isEmpty_map
    unfold statusOf
    rw [hempty]
  -- what is returned for an engine, after the final check
  have hend : ∀ engine : MatchingEngine maxOrders maxLevels,
      Prod.map ExecutionResult.untimed untimed <$> (verifyExecution st.trades initialQty st.incoming engine.book >>=
          fun _ => pure (⟨statusOf st.incoming st.trades, st.trades⟩, engine)) =
        (verifyExecution (st.trades.map Trade.core) initialQty st.incoming engine.untimed.book >>=
          fun _ => pure (⟨statusOf st.incoming (st.trades.map Trade.core), st.trades.map Trade.core⟩, engine.untimed)) := by
    intro engine
    rw [hverify, hstatus, map_bind]
    exact bind_congr fun _ => rfl
  unfold settle
  dsimp only
  rw [apply_ite (fun m => Prod.map ExecutionResult.untimed untimed <$> m)]
  refine if_congr Iff.rfl ?_ ?_
  · change _ = st.engine.book.untimed.addOrder (restUpdate st.incoming (st.engine.clock st.engine.readings)).untimed >>= _
    rw [← OrderBook.addOrder_untimed, map_bind, bind_map_left]
    exact bind_congr fun book => hend _
  · exact hend st.engine

theorem execute_untimed (engine : MatchingEngine maxOrders maxLevels) (action : OrderAction) :
    Prod.map ExecutionResult.untimed untimed <$> engine.execute action = engine.untimed.execute action := by
  unfold execute
  rw [map_bind]
  change _ = matchCore _ _ (MatchState.untimed ⟨engine, action, StaticVector.empty⟩) >>= _
  rw [← matchCore_untimed, bind_map_left]
  exact bind_congr fun st => settle_untimed action.qty st

/-- **A call reads no timestamp.** -/
theorem matchOrder_untimed (engine : MatchingEngine maxOrders maxLevels) (action : OrderAction) :
    Prod.map ExecutionResult.untimed untimed <$> engine.matchOrder action = engine.untimed.matchOrder action := by
  have hscan : LiquidityAnalyzer.hasLiquidity engine.untimed.book action.side action.qty =
      LiquidityAnalyzer.hasLiquidity engine.book action.side action.qty := by
    unfold LiquidityAnalyzer.hasLiquidity
    change _ = (if (engine.book.side _).avlRoot = _ then _ else _)
    rw [show engine.untimed.book.side _ = _ from engine.book.untimed_side _]
    rfl
  unfold matchOrder
  rw [hscan, apply_ite (fun m => Prod.map ExecutionResult.untimed untimed <$> m),
    apply_ite (fun m => Prod.map ExecutionResult.untimed untimed <$> m), map_bind, execute_untimed]
  refine if_congr Iff.rfl rfl (if_congr Iff.rfl (bind_congr fun enough => ?_) rfl)
  rw [apply_ite (fun m => Prod.map ExecutionResult.untimed untimed <$> m), execute_untimed]
  rfl

/-! ## Runs of calls -/

theorem matchAll_untimed (engine : MatchingEngine maxOrders maxLevels) (actions : List OrderAction) :
    Prod.map (List.map ExecutionResult.untimed) untimed <$> engine.matchAll actions = engine.untimed.matchAll actions := by
  induction actions generalizing engine with
  | nil => rfl
  | cons action actions ih =>
    unfold matchAll
    rw [map_bind, ← matchOrder_untimed, bind_map_left]
    refine bind_congr fun called => ?_
    obtain ⟨result, engine⟩ := called
    change _ = engine.untimed.matchAll actions >>= _
    rw [map_bind, ← ih, bind_map_left]
    rfl

end MatchingEngine

/-- Two outcomes of a run that differ in timestamps only. -/
structure SameButTimes (results results' : List ExecutionResult) (engine engine' : MatchingEngine maxOrders maxLevels) : Prop where
  statuses : results.map ExecutionResult.status = results'.map ExecutionResult.status
  trades : results.map (fun r => r.trades.data.map Trade.core) = results'.map fun r => r.trades.data.map Trade.core
  book : engine.book.untimed = engine'.book.untimed
  nextTradeId : engine.nextTradeId = engine'.nextTradeId
  digest : BookDigest.compute engine.book = BookDigest.compute engine'.book

theorem sameButTimes_of_untimed {results results' : List ExecutionResult} {engine engine' : MatchingEngine maxOrders maxLevels}
    (hresults : results.map ExecutionResult.untimed = results'.map ExecutionResult.untimed) (hengine : engine.untimed = engine'.untimed) :
    SameButTimes results results' engine engine' := by
  have hbook := congrArg MatchingEngine.book hengine
  have hnext := congrArg MatchingEngine.nextTradeId hengine
  change engine.book.untimed = engine'.book.untimed at hbook
  refine ⟨?_, ?_, hbook, hnext, ?_⟩
  · have := congrArg (List.map ExecutionResult.status) hresults
    rwa [List.map_map, List.map_map] at this
  · have := congrArg (List.map fun r => r.trades.data) hresults
    rwa [List.map_map, List.map_map] at this
  · unfold BookDigest.compute
    rw [← BookDigest.hashBook_untimed _ _ engine.book, hbook, BookDigest.hashBook_untimed]

/-- **Matching does not depend on the clock**: on two clocks a run ends in the same fault, or in outcomes that differ in
timestamps only. Where no assertion of a debug build fires, the digest is a value. -/
theorem matching_clock_free (rules : RiskPipeline) (orders : Index → Order) (levels : Index → PriceLevel)
    (clock clock' : ℕ → UInt64) (actions : List OrderAction) (b : Build) :
    (∃ e, (MatchingEngine.new rules clock orders levels : MatchingEngine maxOrders maxLevels).matchAll actions b = .error e ∧
        (MatchingEngine.new rules clock' orders levels : MatchingEngine maxOrders maxLevels).matchAll actions b = .error e) ∨
      ∃ results results', ∃ engine engine' : MatchingEngine maxOrders maxLevels,
        (MatchingEngine.new rules clock orders levels).matchAll actions b = .ok (results, engine) ∧
        (MatchingEngine.new rules clock' orders levels).matchAll actions b = .ok (results', engine') ∧
        SameButTimes results results' engine engine' ∧
        (b = .debug → ∃ digest, BookDigest.compute engine.book = pure digest) := by
  have hsame := ((MatchingEngine.new rules clock orders levels : MatchingEngine maxOrders maxLevels).matchAll_untimed actions).trans
    ((MatchingEngine.new rules clock' orders levels : MatchingEngine maxOrders maxLevels).matchAll_untimed actions).symm
  rcases Exec.eq_of_map_eq hsame b with hfault | ⟨⟨results, engine⟩, ⟨results', engine'⟩, hrun, hrun', hout⟩
  · exact Or.inl hfault
  · obtain ⟨hresults, hengine⟩ := Prod.ext_iff.1 hout
    refine Or.inr ⟨results, results', engine, engine', hrun, hrun', sameButTimes_of_untimed hresults hengine, ?_⟩
    rintro rfl
    obtain ⟨g, hg, -⟩ := (MatchingEngine.matchAll_reachable (.new rules clock orders levels) hrun).inv
    exact ⟨_, BookDigest.hashBook_eq _ hg.rep _⟩

end TradeCore
