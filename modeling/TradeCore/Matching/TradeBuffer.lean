import TradeCore.Matching.EngineCalls
import TradeCore.Matching.FillOrKill
/-!
# The trade buffer of a call

A result holds `kMaxTradesPerMatch` trades, and nothing in the engine bounds the fills of a sweep: the check is the
assertion of `push_back`. `Overruns` is a call whose loops end there. `buffer_suffices_iff` says for which books and
actions none do, `crowded` builds a book for which one does.
-/

namespace TradeCore

open ObjectPool PriceTime

variable {maxOrders maxLevels : PoolCapacity} {engine : MatchingEngine maxOrders maxLevels} {g : Shape}
  {action : OrderAction}

/-- A `push_back` of the call finds the result full. -/
def MatchingEngine.Overruns (engine : MatchingEngine maxOrders maxLevels) (action : OrderAction) (b : Build) : Prop :=
  engine.loops action b = .error (StaticVector.fullFault b)

/-- The call is rejected before its loops, or the orders that rest within reach of the action are no more than a
result holds, or the first of them, as many as it holds, cover the action. -/
def FitsBuffer (engine : MatchingEngine maxOrders maxLevels) (action : OrderAction) : Prop :=
  (RiskPipeline.evaluate engine.riskPipeline action).ok = false ∨
    (action.type = .fok ∧ engine.book.restingTotal action.opposite < action.qty.toNat) ∨
    (acceptable engine action).length ≤ kMaxTradesPerMatch ∨
    action.qty.toNat ≤ (((acceptable engine action).take kMaxTradesPerMatch).map Prod.snd).sum

namespace MatchingEngine

/-- How many fills a sweep makes. -/
theorem fills_le_iff (h : Inv engine.book g) (action : OrderAction) :
    (action.sweep g.abs).1.length ≤ kMaxTradesPerMatch ↔ (acceptable engine action).length ≤ kMaxTradesPerMatch ∨
      action.qty.toNat ≤ (((acceptable engine action).take kMaxTradesPerMatch).map Prod.snd).sum := by
  have hlen : (action.sweep g.abs).1.length = touched ((acceptable engine action).map Prod.snd) action.qty.toNat := by
    unfold acceptable
    rw [h.rep.abs_eq]
    exact sweep_length action.takes_mono (h.abs_ok action.opposite).sorted _
  rw [hlen, touched_le_iff, List.length_map, ← List.map_take, or_comm]

/-- The loops of an order that got past the checks. -/
theorem matched_overruns_iff (h : Inv engine.book g) (action : OrderAction) (b : Build) :
    ((do
      let st ← matchCore (action.type = .market) (maxLevels.size + 1) ⟨engine, action, StaticVector.empty⟩
      return .inr st : Exec (ExecutionStatus ⊕ MatchState maxOrders maxLevels)) b =
        .error (StaticVector.fullFault b)) ↔ ¬ (action.sweep g.abs).1.length ≤ kMaxTradesPerMatch := by
  constructor
  · intro hfault hfits
    obtain ⟨st, g', e, -⟩ := core_spec h hfits
    rw [e, pure_bind, Exec.pure_apply] at hfault
    cases hfault
  · intro hfull
    exact Exec.bind_eq_error (core_full h hfull b)

end MatchingEngine

/-- **The buffer of a call is not overrun**, in either build, exactly when its fills fit. -/
theorem buffer_suffices_iff (h : EngineReachable engine) (action : OrderAction) (b : Build) :
    ¬ engine.Overruns action b ↔ FitsBuffer engine action := by
  obtain ⟨g, hg, -⟩ := h.inv
  have hfits := MatchingEngine.fills_le_iff hg action
  have hmatched := not_congr (MatchingEngine.matched_overruns_iff hg action b)
  rw [not_not, hfits] at hmatched
  unfold MatchingEngine.Overruns FitsBuffer MatchingEngine.loops
  by_cases hrisk : (RiskPipeline.evaluate engine.riskPipeline action).ok = false
  · rw [if_pos hrisk]
    exact ⟨fun _ => Or.inl hrisk, fun _ => nofun⟩
  · rw [if_neg hrisk]
    simp only [hrisk, reduceCtorEq, false_or]
    by_cases hfok : action.type = .fok
    · rw [if_pos hfok]
      by_cases hpos : 0 < action.qty
      · rw [LiquidityAnalyzer.hasLiquidity_eq hg.rep _ hpos, pure_bind]
        by_cases hscan : action.qty.toNat ≤ engine.book.restingTotal action.opposite
        · have hscan' : action.qty.toNat ≤ engine.book.restingTotal (sideOf action.side).flip := hscan
          rw [decide_eq_true hscan', if_pos rfl, hmatched]
          simp only [hfok, Nat.not_lt.2 hscan, and_false, false_or]
        · have hscan' : ¬ action.qty.toNat ≤ engine.book.restingTotal (sideOf action.side).flip := hscan
          rw [decide_eq_false hscan', if_neg (by decide)]
          exact ⟨fun _ => Or.inl ⟨hfok, Nat.lt_of_not_le hscan⟩, fun _ => nofun⟩
      · -- nothing to fill
        have h0 : action.qty.toNat = 0 := not_not.1 (mt (pos_iff_toNat _).2 hpos)
        obtain ⟨enough, e, -⟩ := LiquidityAnalyzer.hasLiquidity_spec hg.rep action.side action.qty
        have hright : action.qty.toNat ≤ (((acceptable engine action).take kMaxTradesPerMatch).map Prod.snd).sum := by omega
        rw [e, pure_bind]
        refine ⟨fun _ => Or.inr (Or.inr hright), fun _ => ?_⟩
        cases enough with
        | true => exact hmatched.2 (Or.inr hright)
        | false => nofun
    · rw [if_neg hfok, hmatched]
      simp only [hfok, false_and, false_or]

/-- Buy 7 at up to 102. -/
def buySeven : OrderAction := ⟨4, 102, 7, 0, .limit⟩

/-- It meets both asks, and two fills fit. -/
theorem buffer_suffices_iff_quotes : ∃ engine : MatchingEngine eight eight, ∃ result after, EngineReachable engine ∧
    engine.book.queues = quoteQueues ∧ engine.matchOrder buySeven .debug = .ok (result, after) ∧
      result.trades.data.map Trade.quantity = [5, 2] ∧ ∀ b, ¬ engine.Overruns buySeven b := by
  obtain ⟨engine, result, after, hreach, hq, hcall, -, htraded, -⟩ := quotes_then buySeven .filled [5, 2]
    [[(99, [(3, 2)])], [(102, [(2, 2)])]] (by decide +kernel) (by decide +kernel)
  refine ⟨engine, result, after, hreach, hq, hcall, htraded, fun b => (buffer_suffices_iff hreach buySeven b).2 ?_⟩
  refine Or.inr (Or.inr (Or.inl ?_))
  unfold acceptable
  rw [show engine.book.abs buySeven.opposite = _ from (OrderBook.abs_of_queues hq).2]
  decide

/-! ## A crowded book -/

/-- Pools of 2048 slots. -/
def large : PoolCapacity := ⟨2048, by decide, by decide⟩

/-- Sell 1 at 100, as order `n + 1`. -/
def sellOne (n : ℕ) : OrderAction := ⟨UInt64.ofNat (n + 1), 100, 1, 1, .limit⟩

/-- An engine whose book is `n` asks of 1 at 100. -/
structure Crowded (n : ℕ) (engine : MatchingEngine large large) (g : Shape) : Prop where
  reachable : EngineReachable engine
  rules : engine.riskPipeline = []
  inv : Inv engine.book g
  bids : g .bid = []
  asks : ∃ q, g.abs .ask = live (100, q) ∧ q.length = n ∧ ∀ o ∈ q, o.2 = 1 ∧ o.1.toNat ≤ n

theorem crowded_sellOne {n : ℕ} (hn : n < 1500) {engine : MatchingEngine large large} {g : Shape} (h : Crowded n engine g) :
    Matchable engine (sellOne n) := by
  obtain ⟨q, hasks, hlen, hq⟩ := h.asks
  have hbids : g.abs .bid = [] := by
    unfold Shape.abs
    rw [h.bids]
    rfl
  have hid : (UInt64.ofNat (n + 1)).toNat = n + 1 := UInt64.toNat_ofNat_of_lt' (by rw [UInt64.size]; omega)
  have hlevels : g.levels = g .ask := by
    unfold Shape.levels
    rw [h.bids, List.nil_append]
  have horders : (ordersOf g.levels).map Entry.abs = q := by
    rw [hlevels, ← orders_map_abs, show (g .ask).map Level.abs = g.abs .ask from rfl, hasks, orders_live]
  have hcount : (ordersOf g.levels).length = n := by
    rw [← hlen, ← horders, List.length_map]
  refine ⟨(by decide : (0 : UInt32) < 1), by rw [h.rules]; rfl, nofun, ?_, fun _ => ?_⟩
  · rw [h.inv.rep.abs_eq]
    unfold OrderAction.sweep
    rw [show (sellOne n).opposite = .bid from rfl, hbids, sweep_nil]
    exact Nat.zero_le _
  · refine h.inv.rep.addOk_iff.2 ⟨?_, fun k hk e => ?_, (by decide : (0 : UInt32) < 1), (by decide : (0 : UInt32) < 100),
      ?_, ?_, ?_, ?_⟩
    · intro e
      have := congrArg UInt64.toNat e
      change (UInt64.ofNat (n + 1)).toNat = 0 at this
      omega
    · have hk' : k.abs ∈ q := by
        rw [← horders]
        exact List.mem_map.2 ⟨k, hk, rfl⟩
      have hle : k.id.toNat ≤ n := (hq _ hk').2
      have heq := congrArg UInt64.toNat e
      change k.id.toNat = (UInt64.ofNat (n + 1)).toNat at heq
      omega
    · change (100 : UInt32).toNat < 10000
      decide
    · rw [hcount]
      change n < 2048
      omega
    · rw [h.inv.rep.orders.mapSize, h.inv.rep.orders.capacity, hcount]
      have hcap : FlatHashMap.nextPowerOfTwo large.size = 2048 := by decide
      rw [hcap]
      omega
    · refine Or.inr ?_
      have hone : (g .ask).length ≤ 1 := by
        have : ((g .ask).map Level.abs).length ≤ 1 := by
          rw [show (g .ask).map Level.abs = g.abs .ask from rfl, hasks]
          unfold live
          split <;> simp
        rwa [List.length_map] at this
      rw [hlevels]
      change _ < 2048
      omega

theorem exists_crowded (n : ℕ) (hn : n ≤ 1500) : ∃ engine g, Crowded n engine g := by
  induction n with
  | zero =>
    refine ⟨MatchingEngine.new [] (fun _ => 0) (fun _ => Order.zero) fun _ => PriceLevel.zero, fun _ => [], .new _ _ _ _, rfl,
      inv_new _ _, rfl, [], rfl, rfl, ?_⟩
    simp
  | succ n ih =>
    obtain ⟨engine, g, h⟩ := ih (by omega)
    obtain ⟨q, hasks, hlen, hq⟩ := h.asks
    obtain ⟨result, engine', g', e, hout⟩ := h.inv.matchOrder_spec (crowded_sellOne (by omega) h)
    have hbids : g.abs .bid = [] := by
      unfold Shape.abs
      rw [h.bids]
      rfl
    have hsweep : (sellOne n).sweep g.abs = ([], [], 1) := by
      unfold OrderAction.sweep
      rw [show (sellOne n).opposite = .bid from rfl, hbids]
      rfl
    have hbook : g'.abs = AbstractBook.add (Function.update g.abs .bid []) .ask 100 (UInt64.ofNat (n + 1)) 1 := by
      rw [hout.book]
      unfold referenceMatch
      rw [hsweep]
      rfl
    have hid : (UInt64.ofNat (n + 1)).toNat = n + 1 := UInt64.toNat_ofNat_of_lt' (by rw [UInt64.size]; omega)
    refine ⟨engine', g', .matched h.reachable (congrFun e .debug), hout.risk.trans h.rules, hout.inv, ?_,
      q ++ [(UInt64.ofNat (n + 1), 1)], ?_, by simp [hlen], ?_⟩
    · refine abs_nil ?_
      rw [hbook]
      rfl
    · rw [hbook]
      change PriceTime.add Side.ask.better 100 (UInt64.ofNat (n + 1), 1) (g.abs .ask) = _
      have hadd := add_split (o := (UInt64.ofNat (n + 1), 1)) (A := []) (B := []) (Side.ask.better_irrefl 100) (by simp) (by simp) q
      rw [List.nil_append, List.append_nil] at hadd
      rw [hasks, hadd, live_of_ne (by simp)]
      rfl
    · intro o ho
      rcases List.mem_append.1 ho with ho | ho
      · obtain ⟨h1, h2⟩ := hq o ho
        exact ⟨h1, by omega⟩
      · rw [List.mem_singleton.1 ho]
        exact ⟨rfl, by rw [hid]⟩

/-- Buy 1001 at any price. -/
def buyMany : OrderAction := ⟨5000, 0, 1001, 0, .market⟩

/-- **A market order that fills more than a result holds**, in either build. -/
theorem market_order_overruns : ∃ engine : MatchingEngine large large, EngineReachable engine ∧
    ∀ b, engine.Overruns buyMany b := by
  obtain ⟨engine, g, h⟩ := exists_crowded 1001 (by decide)
  obtain ⟨q, hasks, hlen, hq⟩ := h.asks
  refine ⟨engine, h.reachable, fun b => ?_⟩
  have hacc : acceptable engine buyMany = q := by
    have hall : (live (100, q)).filter (fun l => buyMany.takes l.1) = live (100, q) := List.filter_eq_self.2 fun _ _ => rfl
    unfold acceptable crossingOrders
    rw [h.inv.rep.abs_eq, show buyMany.opposite = .ask from rfl, hasks, hall, orders_live]
  have hone : ∀ n, ((q.take n).map Prod.snd).sum = min n 1001 := by
    intro n
    have hrep : (q.take n).map Prod.snd = List.replicate (min n 1001) 1 := by
      refine List.eq_replicate_iff.2 ⟨by simp [hlen], fun r hr => ?_⟩
      obtain ⟨o, ho, rfl⟩ := List.mem_map.1 hr
      exact (hq o (List.mem_of_mem_take ho)).1
    rw [hrep, List.sum_replicate, smul_eq_mul, Nat.mul_one]
  unfold MatchingEngine.Overruns MatchingEngine.loops
  rw [h.rules, if_neg (by decide), if_neg (by decide), MatchingEngine.matched_overruns_iff h.inv,
    MatchingEngine.fills_le_iff h.inv, hacc, hlen, hone]
  decide

end TradeCore
