import TradeCore.Matching.Conservation
import TradeCore.Orderbook.BookChanges
/-!
# What a status says

`match` computes its status from the trades, the type and what is left, apart from the code that puts what is left into
the book or drops it. A rejection leaves no trace in the engine (`rejection_leaves_no_trace`). `StatusTellsFate` says
that the status tells what became of the order; it does, but for a market order that met an empty side
(`status_tells_fate_iff`): that one is reported as accepted and rests nowhere.
-/

namespace TradeCore

open ObjectPool PriceTime

variable {maxOrders maxLevels : PoolCapacity} {engine engine' : MatchingEngine maxOrders maxLevels} {g g' : Shape}
  {action : OrderAction} {result : ExecutionResult} {b : Build}

/-! ## Rejections -/

namespace MatchingEngine

variable {st st' : MatchState maxOrders maxLevels}

theorem pushBack_length {trades trades' : Trades} {t : Trade} (h : trades.pushBack t b = .ok trades') :
    trades.data.length < trades'.data.length := by
  rw [StaticVector.pushBack_data h, List.length_append]
  exact Nat.lt_succ_self _

/-- The inner loop did nothing, or emitted a trade. -/
theorem sweepLevel_trades {fuel : ℕ} {curr : Index} (h : sweepLevel fuel st curr b = .ok st') :
    st' = st ∨ st.trades.data.length < st'.trades.data.length := by
  induction fuel generalizing st curr with
  | zero => cases h
  | succ fuel ih =>
    unfold sweepLevel at h
    split_ifs at h with hgo
    · obtain ⟨resting, -, h⟩ := Exec.bind_eq_ok.1 h
      obtain ⟨_, -, h⟩ := Exec.bind_eq_ok.1 h
      obtain ⟨trades, htrades, h⟩ := Exec.bind_eq_ok.1 h
      obtain ⟨book, -, h⟩ := Exec.bind_eq_ok.1 h
      have hone := pushBack_length htrades
      rcases ih h with rfl | hmore
      · exact Or.inr hone
      · exact Or.inr (Nat.lt_trans hone hmore)
    · cases h
      exact Or.inl rfl

/-- And so did the outer one. -/
theorem matchCore_trades {isMarket : Bool} {fuel : ℕ} (h : matchCore isMarket fuel st b = .ok st') :
    st' = st ∨ st.trades.data.length < st'.trades.data.length := by
  induction fuel generalizing st with
  | zero => cases h
  | succ fuel ih =>
    unfold matchCore at h
    simp only at h
    split_ifs at h with hgo
    · obtain ⟨best, -, h⟩ := Exec.bind_eq_ok.1 h
      cases best with
      | none => cases h
      | some level =>
        simp only at h
        split_ifs at h with hreach
        · cases h
          exact Or.inl rfl
        · obtain ⟨st1, hst1, hrest⟩ := Exec.bind_eq_ok.1 h
          rcases sweepLevel_trades hst1 with rfl | hone
          · exact ih hrest
          · rcases ih hrest with rfl | hmore
            · exact Or.inr hone
            · exact Or.inr (Nat.lt_trans hone hmore)
    · cases h
      exact Or.inl rfl

/-- A status that rejects comes with no trade, of an order that does not rest. -/
theorem statusOf_rejected {remaining : OrderAction} {trades : Trades}
    (h : statusOf remaining trades = .rejectedRisk ∨ statusOf remaining trades = .rejectedInvalid) :
    trades.data = [] ∧ remaining.type ≠ .limit := by
  unfold statusOf at h
  split_ifs at h with hnil htype hqty
  · refine ⟨List.isEmpty_iff.1 hnil, ?_⟩
    rcases htype with ht | ht <;> rw [ht] <;> decide
  all_goals rcases h with h | h <;> cases h

/-- What passed the pre-checks and is rejected after the loops left no trace. -/
theorem execute_rejected (hrun : engine.execute action b = .ok (result, engine'))
    (hrej : result.status = .rejectedRisk ∨ result.status = .rejectedInvalid) : result.trades.data = [] ∧ engine' = engine := by
  obtain ⟨st, hst, hsettle⟩ := Exec.bind_eq_ok.1 hrun
  have hdone : result = ⟨statusOf st.incoming st.trades, st.trades⟩ ∧ (st.incoming.type ≠ .limit → engine' = st.engine) := by
    unfold settle at hsettle
    split_ifs at hsettle with hrest
    · obtain ⟨book, -, hsettle⟩ := Exec.bind_eq_ok.1 hsettle
      obtain ⟨_, -, hsettle⟩ := Exec.bind_eq_ok.1 hsettle
      obtain ⟨_, -, hsettle⟩ := Exec.bind_eq_ok.1 hsettle
      cases hsettle
      exact ⟨rfl, fun htype => absurd hrest.2 htype⟩
    · obtain ⟨last, hlast, hsettle⟩ := Exec.bind_eq_ok.1 hsettle
      obtain ⟨_, -, hsettle⟩ := Exec.bind_eq_ok.1 hsettle
      cases hlast
      cases hsettle
      exact ⟨rfl, fun _ => rfl⟩
  obtain ⟨rfl, hengine⟩ := hdone
  obtain ⟨hnil, htype⟩ := statusOf_rejected hrej
  -- without a trade the loops did nothing
  have hsame : st = ⟨engine, action, StaticVector.empty⟩ := by
    refine (matchCore_trades hst).resolve_right ?_
    rw [hnil]
    exact Nat.not_lt_zero _
  refine ⟨hnil, (hengine htype).trans ?_⟩
  rw [hsame]

end MatchingEngine

/-- **Rejection leaves no trace**: on every engine, in either build, for every action and whatever the risk rules are. -/
theorem rejection_leaves_no_trace (engine engine' : MatchingEngine maxOrders maxLevels) (action : OrderAction) (b : Build)
    (result : ExecutionResult) (hrun : engine.matchOrder action b = .ok (result, engine'))
    (hrej : result.status = .rejectedRisk ∨ result.status = .rejectedInvalid) :
    result.trades.data = [] ∧ engine'.nextTradeId = engine.nextTradeId ∧ engine'.book = engine.book ∧ engine' = engine := by
  have hall : result.trades.data = [] ∧ engine' = engine := by
    unfold MatchingEngine.matchOrder at hrun
    split_ifs at hrun with hrisk hfok
    · cases hrun
      exact ⟨rfl, rfl⟩
    · obtain ⟨enough, -, hrun⟩ := Exec.bind_eq_ok.1 hrun
      cases enough with
      | true => exact MatchingEngine.execute_rejected hrun hrej
      | false =>
        cases hrun
        exact ⟨rfl, rfl⟩
    · exact MatchingEngine.execute_rejected hrun hrej
  obtain ⟨hnil, rfl⟩ := hall
  exact ⟨hnil, rfl, rfl, rfl⟩

/-- Buy 20 at up to 102, all or nothing. -/
def buyTwenty : OrderAction := ⟨4, 102, 20, 0, .fok⟩

/-- There are 9 to buy. -/
theorem rejection_leaves_no_trace_quotes : ∃ engine : MatchingEngine eight eight, ∃ result after, EngineReachable engine ∧
    engine.book.queues = quoteQueues ∧ engine.matchOrder buyTwenty .debug = .ok (result, after) ∧
      result.status = .rejectedInvalid ∧ result.trades.data = [] ∧ after = engine := by
  obtain ⟨engine, result, after, hreach, hq, hcall, hstatus, -⟩ := quotes_then buyTwenty .rejectedInvalid [] quoteQueues
    (by decide +kernel) (by decide +kernel)
  obtain ⟨hnil, -, -, hsame⟩ := rejection_leaves_no_trace _ _ _ _ _ hcall (Or.inr hstatus)
  exact ⟨engine, result, after, hreach, hq, hcall, hstatus, hnil, hsame⟩

/-! ## The fate of an order -/

/-- What the trades of a result sum up to. -/
def ExecutionResult.traded (result : ExecutionResult) : ℕ := (result.trades.data.map fun t => t.quantity.toNat).sum

/-- No order in the book has this id. -/
def OrderBook.Fresh (book : OrderBook maxOrders maxLevels) (id : UInt64) : Prop :=
  ∀ j ∈ book.allOrders, (book.orderPool.slots j).orderId ≠ id

/-- The status of a call against what became of its order: what was traded, and what rests in the book the call left. -/
structure StatusTellsFate (action : OrderAction) (result : ExecutionResult) (book : OrderBook maxOrders maxLevels) : Prop where
  accepted : result.status = .accepted ↔ result.trades.data = [] ∧ book.remaining action.orderId = action.qty.toNat
  filled : result.status = .filled ↔ result.traded = action.qty.toNat ∧ book.remaining action.orderId = 0
  partially : result.status = .partiallyFilled ↔ 0 < result.traded ∧ result.traded < action.qty.toNat
  residual : result.status = .partiallyFilled →
    book.remaining action.orderId = if action.type = .limit then action.qty.toNat - result.traded else 0
  rejected : result.status = .rejectedRisk ∨ result.status = .rejectedInvalid ↔
    result.trades.data = [] ∧ book.remaining action.orderId = 0

/-! ### The four fates -/

section Fates

variable {book : OrderBook maxOrders maxLevels}

theorem ExecutionResult.traded_nil (hnil : result.trades.data = []) : result.traded = 0 := by
  unfold ExecutionResult.traded
  rw [hnil]
  rfl

theorem ExecutionResult.ne_nil (ht : 0 < result.traded) : result.trades.data ≠ [] := by
  intro hnil
  rw [ExecutionResult.traded_nil hnil] at ht
  exact Nat.lt_irrefl 0 ht

/-- Nothing traded, nothing rests. -/
theorem StatusTellsFate.of_rejected (hq : 0 < action.qty.toNat) (hnil : result.trades.data = [])
    (hrests : book.remaining action.orderId = 0) (hs : result.status = .rejectedRisk ∨ result.status = .rejectedInvalid) :
    StatusTellsFate action result book := by
  have h0 := ExecutionResult.traded_nil hnil
  refine ⟨?_, ?_, ?_, ?_, ?_⟩ <;> rcases hs with hs | hs <;> simp only [hs, hnil, h0, hrests, reduceCtorEq, false_iff] <;> simp <;>
    omega

/-- Nothing traded, all of it rests. -/
theorem StatusTellsFate.of_accepted (hq : 0 < action.qty.toNat) (hnil : result.trades.data = [])
    (hrests : book.remaining action.orderId = action.qty.toNat) (hs : result.status = .accepted) :
    StatusTellsFate action result book := by
  have h0 := ExecutionResult.traded_nil hnil
  refine ⟨?_, ?_, ?_, ?_, ?_⟩ <;> simp only [hs, hnil, h0, hrests, reduceCtorEq, false_iff] <;> simp <;> omega

/-- All of it traded. -/
theorem StatusTellsFate.of_filled (hq : 0 < action.qty.toNat) (ht : result.traded = action.qty.toNat)
    (hrests : book.remaining action.orderId = 0) (hs : result.status = .filled) : StatusTellsFate action result book := by
  have hne : result.trades.data ≠ [] := ExecutionResult.ne_nil (by omega)
  refine ⟨?_, ?_, ?_, ?_, ?_⟩ <;> simp only [hs, hne, ht, hrests, reduceCtorEq, false_iff] <;> simp

/-- Some of it traded; the rest of a limit order rests. -/
theorem StatusTellsFate.of_partially (hpos : 0 < result.traded) (hlt : result.traded < action.qty.toNat)
    (hrests : book.remaining action.orderId = if action.type = .limit then action.qty.toNat - result.traded else 0)
    (hs : result.status = .partiallyFilled) : StatusTellsFate action result book := by
  have hne := ExecutionResult.ne_nil hpos
  refine ⟨?_, ?_, ?_, fun _ => hrests, ?_⟩
  · simp only [hs, hne, reduceCtorEq, false_and]
  · simp only [hs, reduceCtorEq, false_iff]
    omega
  · simp only [hs, hpos, hlt, and_self]
  · simp only [hs, hne, reduceCtorEq, false_and, or_self]

end Fates

theorem Rep.fresh {book : OrderBook maxOrders maxLevels} (h : Rep book g) {id : UInt64} (hid : book.Fresh id) :
    ∀ k ∈ ordersOf g.levels, k.id ≠ id := by
  intro k hk
  have hmem : k.slot ∈ book.allOrders := by
    rw [h.allOrders]
    exact List.mem_map.2 ⟨k, hk, rfl⟩
  rw [← h.orderId hk]
  exact hid _ hmem

/-- A fresh id is one that is not live. -/
theorem Rep.fresh_iff {book : OrderBook maxOrders maxLevels} (h : Rep book g) {id : UInt64} : book.Fresh id ↔ ¬ book.Live id := by
  rw [h.live_iff]
  constructor
  · rintro hid ⟨e, he, rfl⟩
    exact h.fresh hid e he rfl
  · rintro hno j hj e
    rw [h.allOrders] at hj
    obtain ⟨k, hk, rfl⟩ := List.mem_map.1 hj
    exact hno ⟨k, hk, (h.orderId hk).symm.trans e⟩

/-- A fresh id rests nowhere. -/
theorem Rep.remaining_fresh {book : OrderBook maxOrders maxLevels} (h : Rep book g) {id : UInt64} (hid : book.Fresh id) :
    book.remaining id = 0 := by
  rw [h.remaining_eq]
  unfold AbstractBook.held
  rw [held_eq_zero (abs_orders_ne (h.fresh hid) .bid), held_eq_zero (abs_orders_ne (h.fresh hid) .ask)]

namespace MatchingEngine

/-- What became of an order that was matched. -/
structure Fate (engine : MatchingEngine maxOrders maxLevels) (g : Shape) (action : OrderAction) (result : ExecutionResult)
    (engine' : MatchingEngine maxOrders maxLevels) : Prop where
  traded : result.traded = ((action.sweep g.abs).1.map Fill.qty).sum
  sum : result.traded + (action.sweep g.abs).2.2 = action.qty.toNat
  nil : result.trades.data = [] ↔ (action.sweep g.abs).1 = []
  zero : result.traded = 0 ↔ (action.sweep g.abs).1 = []
  rests : engine'.book.remaining action.orderId = if action.type = .limit then (action.sweep g.abs).2.2 else 0

theorem Outcome.fate (h : Inv engine.book g) (hfresh : engine.book.Fresh action.orderId)
    (hout : Outcome engine g action result engine' g') : Fate engine g action result engine' := by
  have hsum : ((action.sweep g.abs).1.map Fill.qty).sum + (action.sweep g.abs).2.2 = action.qty.toNat := sweep_sum _ _ _
  have hlt : ((action.sweep g.abs).1.map Fill.qty).sum < UInt32.size := by
    have := action.qty.toNat_lt
    rw [UInt32.size]
    omega
  have htrades : result.trades.data.map Trade.core = tradesOf action.orderId engine.nextTradeId (action.sweep g.abs).1 := hout.trades
  have htraded : result.traded = ((action.sweep g.abs).1.map Fill.qty).sum := by
    rw [← sum_quantities_toNat action.orderId engine.nextTradeId hlt, ← htrades, List.map_map]
    rfl
  have hlen : result.trades.data.length = (action.sweep g.abs).1.length := by
    rw [← length_tradesOf action.orderId engine.nextTradeId, ← htrades, List.length_map]
  refine ⟨htraded, by rw [htraded, hsum], ?_, ?_, ?_⟩
  · rw [← List.length_eq_zero_iff, hlen, List.length_eq_zero_iff]
  · rw [htraded]
    constructor
    · intro h0
      by_contra hne
      obtain ⟨t, ts, hts⟩ := List.exists_cons_of_ne_nil hne
      have hpos : 0 < t.qty := sweep_fill_pos (h.abs_ok action.opposite).positive t (by
        change t ∈ (action.sweep g.abs).1
        rw [hts]
        exact List.mem_cons_self)
      rw [hts, List.map_cons, List.sum_cons] at h0
      omega
    · intro hnil
      rw [hnil]
      rfl
  · -- nothing of a fresh order was there before, and no fill takes from it
    have hbefore : g.abs.held action.orderId = 0 := by
      rw [← h.rep.remaining_eq]
      exact h.rep.remaining_fresh hfresh
    have hside : PriceTime.held action.orderId (g.abs action.opposite) = 0 := by
      have := g.abs.held_eq action.orderId action.opposite
      omega
    have hbalance := sweep_held action.orderId action.takes (g.abs action.opposite) action.qty.toNat
    have hfilled : filled action.orderId (action.sweep g.abs).1 = 0 := by
      change filled action.orderId (PriceTime.sweep action.takes (g.abs action.opposite) action.qty.toNat).1 = 0
      omega
    have hheld := referenceMatch_held g.abs engine.nextTradeId action action.orderId
    rw [hbefore, hfilled, Nat.add_zero, Nat.zero_add] at hheld
    rw [hout.inv.rep.remaining_eq, hout.book, hheld]
    simp only [true_and]

/-- The status of a match that went through, by what its sweep did. -/
theorem Fate.tells (h : Fate engine g action result engine') (hq : 0 < action.qty)
    (hstatus : result.status = referenceStatus g.abs action)
    (hrests : (action.sweep g.abs).1 = [] → action.type ≠ .market) : StatusTellsFate action result engine'.book := by
  have hpos : 0 < action.qty.toNat := UInt32.lt_iff_toNat_lt.1 hq
  have hsum := h.sum
  have hbook := h.rests
  unfold referenceStatus at hstatus
  by_cases hnil : (action.sweep g.abs).1 = []
  · -- no fill: the whole order is left
    have hleft : (action.sweep g.abs).2.2 = action.qty.toNat := by
      have := h.zero.2 hnil
      omega
    simp only [hnil, if_true] at hstatus
    cases htype : action.type with
    | limit =>
      simp only [htype, reduceCtorEq, or_self, if_false] at hstatus
      exact .of_accepted hpos (h.nil.2 hnil) (by rw [hbook, if_pos htype, hleft]) hstatus
    | market => exact absurd htype (hrests hnil)
    | ioc | fok =>
      simp only [htype, reduceCtorEq, true_or, or_true, if_true] at hstatus
      exact .of_rejected hpos (h.nil.2 hnil) (by rw [hbook, htype]; rfl) (Or.inr hstatus)
  · have ht : 0 < result.traded := Nat.pos_of_ne_zero fun h0 => hnil (h.zero.1 h0)
    simp only [hnil, if_false] at hstatus
    by_cases hleft : (action.sweep g.abs).2.2 = 0
    · rw [if_pos hleft] at hstatus
      refine .of_filled hpos (by omega) ?_ hstatus
      rw [hbook, hleft, ite_self]
    · rw [if_neg hleft] at hstatus
      refine .of_partially ht (by omega) ?_ hstatus
      rw [hbook, ← hsum, Nat.add_sub_cancel_left]

end MatchingEngine

/-- A market order that finds nobody on the other side. -/
def UnmetMarket (engine : MatchingEngine maxOrders maxLevels) (action : OrderAction) : Prop :=
  action.type = .market ∧ (RiskPipeline.evaluate engine.riskPipeline action).ok = true ∧
    (engine.book.side (sideOf action.side).flip).hasBbo = false

/-- **The status tells the fate of the order**, of every new order on every reachable engine, unless the order is a market
order that finds nobody on the other side. -/
theorem status_tells_fate_iff (h : EngineReachable engine) (action : OrderAction) (hq : 0 < action.qty)
    (hfresh : engine.book.Fresh action.orderId) (result : ExecutionResult) (engine' : MatchingEngine maxOrders maxLevels)
    (hrun : engine.matchOrder action .debug = .ok (result, engine')) :
    StatusTellsFate action result engine'.book ↔ ¬ UnmetMarket engine action := by
  obtain ⟨g, hg, -⟩ := h.inv
  have hpos : 0 < action.qty.toNat := UInt32.lt_iff_toNat_lt.1 hq
  have hloops := hrun
  rw [MatchingEngine.matchOrder_eq_loops, Exec.bind_eq_ok] at hloops
  obtain ⟨met, hmet, -⟩ := hloops
  rcases MatchingEngine.call_cases hg hmet hrun with ⟨status, rfl, hrej, rfl, rfl⟩ | ⟨hrisk, st, g', rfl, hm⟩
  · -- rejected before the loops: no market order past the risk check is
    refine ⟨fun _ hunmet => ?_, fun _ => ?_⟩
    · unfold MatchingEngine.loops at hmet
      rw [if_neg (by rw [hunmet.2.1]; decide), if_neg (by rw [hunmet.1]; decide)] at hmet
      obtain ⟨st, -, hst⟩ := Exec.bind_eq_ok.1 hmet
      cases hst
    · exact .of_rejected hpos rfl (hg.rep.remaining_fresh hfresh) hrej
  · have hfate := hm.outcome.fate hg hfresh
    refine ⟨fun htells hunmet => ?_, fun hmet => hfate.tells hq hm.outcome.status fun hnil htype => hmet ⟨htype, hrisk, ?_⟩⟩
    · -- nothing to sweep: accepted, and nothing rests
      have hopp : g.abs action.opposite = [] := by
        by_contra hne
        have hbbo := hasBbo_of_ne hg.rep hne
        unfold OrderAction.opposite at hbbo
        rw [hunmet.2.2] at hbbo
        cases hbbo
      have hnil : (action.sweep g.abs).1 = [] := by
        unfold OrderAction.sweep
        rw [hopp]
        rfl
      have hstatus : result.status = .accepted := by
        rw [hm.outcome.status]
        unfold referenceStatus
        simp only [hnil, hunmet.1, if_true, reduceCtorEq, or_self, if_false]
      have hall := (htells.accepted.1 hstatus).2
      rw [hfate.rests, if_neg (by rw [hunmet.1]; decide)] at hall
      omega
    · -- a market order takes any price, so it met none
      refine bbo_empty hg.rep (abs_nil ?_)
      by_contra hne
      obtain ⟨x, ls, hx⟩ := List.exists_cons_of_ne_nil hne
      have htakes : action.takes x.1 = true := by
        unfold OrderAction.takes
        rw [htype]
      have hqueue : x.2 ≠ [] := (hg.abs_ok action.opposite).nonempty x (by
        change x ∈ g.abs (sideOf action.side).flip
        rw [hx]
        exact List.mem_cons_self)
      have hsome : (sweep action.takes (x :: ls) action.qty.toNat).1 ≠ [] :=
        sweep_ne_nil (Nat.pos_iff_ne_zero.1 hpos) htakes hqueue
      rw [← hx] at hsome
      exact hsome hnil

/-- Buy 12 at up to 102. -/
def buyTwelve : OrderAction := ⟨4, 102, 12, 0, .limit⟩

/-- It buys 9 and rests with 3. -/
theorem status_tells_fate_iff_quotes : ∃ engine : MatchingEngine eight eight, ∃ result after, EngineReachable engine ∧
    engine.book.queues = quoteQueues ∧ engine.matchOrder buyTwelve .debug = .ok (result, after) ∧
      result.status = .partiallyFilled ∧ result.traded = 9 ∧ after.book.queues = [[(102, [(4, 3)]), (99, [(3, 2)])], []] ∧
        StatusTellsFate buyTwelve result after.book := by
  obtain ⟨engine, result, after, hreach, hq, hcall, hstatus, htraded, hq'⟩ := quotes_then buyTwelve .partiallyFilled [5, 4]
    [[(102, [(4, 3)]), (99, [(3, 2)])], []] (by decide +kernel) (by decide +kernel)
  have hsum : result.traded = (([5, 4] : List UInt32).map UInt32.toNat).sum := by
    rw [← htraded, List.map_map]
    rfl
  obtain ⟨g, hg, -⟩ := hreach.inv
  have hfresh : engine.book.Fresh buyTwelve.orderId := by
    rw [hg.rep.fresh_iff, hg.rep.live_iff_orders, (OrderBook.abs_of_queues hq).1, (OrderBook.abs_of_queues hq).2]
    decide
  exact ⟨engine, result, after, hreach, hq, hcall, hstatus, hsum, hq',
    (status_tells_fate_iff hreach buyTwelve (by decide) hfresh _ _ hcall).2 fun hunmet => by cases hunmet.1⟩

/-- Sell 3 at any price. -/
def sellMarket : OrderAction := ⟨2, 0, 3, 1, .market⟩

/-- On an empty book it is accepted, trades nothing and rests nowhere. -/
theorem market_accepted_and_gone : ∃ result engine', EngineReachable emptyEngine ∧
    emptyEngine.matchOrder sellMarket .debug = .ok (result, engine') ∧ result.status = .accepted ∧ result.trades.data = [] ∧
      engine'.book.remaining sellMarket.orderId = 0 ∧ ¬ StatusTellsFate sellMarket result engine'.book := by
  obtain ⟨result, engine', hrun, hstatus, hnil, hrests⟩ : ∃ result engine',
      emptyEngine.matchOrder sellMarket .debug = .ok (result, engine') ∧ result.status = .accepted ∧ result.trades.data = [] ∧
        engine'.book.remaining sellMarket.orderId = 0 := ⟨_, _, rfl, rfl, rfl, rfl⟩
  refine ⟨result, engine', .new _ _ _ _, hrun, hstatus, hnil, hrests, fun htells => ?_⟩
  have hall := (htells.accepted.1 hstatus).2
  rw [hrests] at hall
  exact absurd hall (by decide)

end TradeCore
