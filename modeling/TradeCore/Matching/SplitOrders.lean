import TradeCore.Lib.SplitSweep
import TradeCore.Matching.Priority
import TradeCore.Orderbook.BookCommute
/-!
# An order in two parts

An order that does not rest, an `IOC` or a market order, may as well be sent in two parts, one right after the other: the
book looks the same afterwards, and the trades together take as much from every order, at every price, for as much money
(`two_parts_trade_as_one`). What differs is the trade ids and, where both parts take from one order, the number of
trades.
-/

namespace TradeCore

open PriceTime

variable {maxOrders maxLevels : PoolCapacity} {engine engine' : MatchingEngine maxOrders maxLevels} {g g' : Shape}
  {action : OrderAction} {result : ExecutionResult}

/-- The quantity of some trades, each weighed by its price and its resting order. -/
def Trade.worth (w : UInt32 → UInt64 → ℕ) (trades : List Trade) : ℕ :=
  (trades.map fun t => w t.price t.restingOrderId * t.quantity.toNat).sum

theorem Trade.worth_cons (w : UInt32 → UInt64 → ℕ) (t : Trade) (trades : List Trade) :
    Trade.worth w (t :: trades) = w t.price t.restingOrderId * t.quantity.toNat + Trade.worth w trades := rfl

/-- `whole` is `first` and `second` together, and rests in no part. -/
structure OrderAction.InTwoParts (whole first second : OrderAction) : Prop where
  type : whole.type = .ioc ∨ whole.type = .market
  types : first.type = whole.type ∧ second.type = whole.type
  sides : first.side = whole.side ∧ second.side = whole.side
  prices : first.price = whole.price ∧ second.price = whole.price
  qty : first.qty.toNat + second.qty.toNat = whole.qty.toNat

namespace MatchingEngine

/-- **What the fills of a match weigh**, its trades weigh. -/
theorem Outcome.worth (h : Outcome engine g action result engine' g') (w : UInt32 → UInt64 → ℕ) :
    Trade.worth w result.trades.data = PriceTime.worth w (action.sweep g.abs).1 := by
  have hcore : Trade.worth w result.trades.data = Trade.worth w (result.trades.data.map Trade.core) := by
    unfold Trade.worth
    rw [List.map_map]
    rfl
  have hlt := action.fills_lt g.abs
  rw [hcore, h.trades]
  unfold referenceMatch
  dsimp only
  generalize engine.nextTradeId = n
  generalize (action.sweep g.abs).1 = fs at hlt
  induction fs generalizing n with
  | nil => rfl
  | cons f fs ih =>
    rw [List.map_cons, List.sum_cons] at hlt
    have hf : (UInt32.ofNat f.qty).toNat = f.qty := UInt32.toNat_ofNat_of_lt' (by omega)
    rw [tradesOf, PriceTime.worth_cons, Trade.worth_cons, ih (n + 1) (by omega), hf]

/-- An order that passes the rules and is not fill-or-kill goes straight into the loops. -/
theorem matchOrder_executes (hpass : (RiskPipeline.evaluate engine.riskPipeline action).ok = true) (hfok : action.type ≠ .fok) :
    engine.matchOrder action = engine.execute action := by
  unfold matchOrder
  rw [if_neg (by rw [hpass]; exact Bool.noConfusion), if_neg hfok]

/-- **An order that does not rest** only sweeps the other side. -/
theorem swept_only (h : Inv engine.book g) (hpass : (RiskPipeline.evaluate engine.riskPipeline action).ok = true)
    (htype : action.type = .ioc ∨ action.type = .market) (hrun : engine.matchOrder action .debug = .ok (result, engine')) :
    ∃ g', Outcome engine g action result engine' g' ∧ g'.abs = Function.update g.abs action.opposite (action.sweep g.abs).2.1 := by
  have hfok : action.type ≠ .fok := by rcases htype with h | h <;> rw [h] <;> decide
  have hlimit : action.type ≠ .limit := by rcases htype with h | h <;> rw [h] <;> decide
  rw [matchOrder_executes hpass hfok] at hrun
  obtain ⟨g', hout⟩ := execute_debug h hrun
  refine ⟨g', hout, ?_⟩
  rw [hout.book]
  unfold referenceMatch
  exact if_neg fun hrest => hlimit hrest.2

end MatchingEngine

/-- **Two parts trade as one.** On a reachable engine an order that does not rest, and that passes the risk rules as a
whole and in its two parts, leaves the book as its parts do, one right after the other; and its trades weigh what theirs
do, by any weight of a price and a resting order. -/
theorem two_parts_trade_as_one (h : EngineReachable engine) (whole first second : OrderAction) (hparts : whole.InTwoParts first second)
    (hpass : ∀ action ∈ [whole, first, second], (RiskPipeline.evaluate engine.riskPipeline action).ok = true)
    {r r1 r2 : ExecutionResult} {e e1 e2 : MatchingEngine maxOrders maxLevels} (hwhole : engine.matchOrder whole .debug = .ok (r, e))
    (hfirst : engine.matchOrder first .debug = .ok (r1, e1)) (hsecond : e1.matchOrder second .debug = .ok (r2, e2)) :
    e.book.LooksLike e2.book ∧ ∀ w : UInt32 → UInt64 → ℕ,
      Trade.worth w r.trades.data = Trade.worth w r1.trades.data + Trade.worth w r2.trades.data := by
  obtain ⟨g, hg, -⟩ := h.inv
  obtain ⟨hpw, hp1, hp2⟩ : (RiskPipeline.evaluate engine.riskPipeline whole).ok = true ∧
      (RiskPipeline.evaluate engine.riskPipeline first).ok = true ∧ (RiskPipeline.evaluate engine.riskPipeline second).ok = true :=
    ⟨hpass _ (by simp), hpass _ (by simp), hpass _ (by simp)⟩
  obtain ⟨gw, hout, hbook⟩ := MatchingEngine.swept_only hg hpw hparts.type hwhole
  obtain ⟨g1, hout1, hbook1⟩ := MatchingEngine.swept_only hg hp1 (hparts.types.1 ▸ hparts.type) hfirst
  obtain ⟨g2, hout2, hbook2⟩ := MatchingEngine.swept_only hout1.inv (by rw [hout1.risk]; exact hp2) (hparts.types.2 ▸ hparts.type) hsecond
  -- the parts sweep the side that the whole sweeps, at the same prices
  have hside1 : first.opposite = whole.opposite := by rw [OrderAction.opposite, hparts.sides.1]; rfl
  have hside2 : second.opposite = whole.opposite := by rw [OrderAction.opposite, hparts.sides.2]; rfl
  have htakes1 : first.takes = whole.takes := by
    funext p
    rw [OrderAction.takes, hparts.types.1, hparts.sides.1, hparts.prices.1]
    rfl
  have htakes2 : second.takes = whole.takes := by
    funext p
    rw [OrderAction.takes, hparts.types.2, hparts.sides.2, hparts.prices.2]
    rfl
  have hrest1 : g1.abs whole.opposite = (sweep whole.takes (g.abs whole.opposite) first.qty.toNat).2.1 := by
    rw [hbook1, hside1, Function.update_self, OrderAction.sweep, htakes1, hside1]
  have hadds := fun w => sweep_add w whole.takes (g.abs whole.opposite) first.qty.toNat second.qty.toNat
  rw [hparts.qty, ← hrest1] at hadds
  constructor
  · refine hout.inv.looksLike hout2.inv ?_
    have hbook2' : g2.abs = Function.update g1.abs whole.opposite
        (sweep whole.takes (g1.abs whole.opposite) second.qty.toNat).2.1 := by
      rw [hbook2, OrderAction.sweep, htakes2, hside2]
    rw [hbook, hbook2', OrderAction.sweep, (hadds fun _ _ => 0).rest, hbook1, hside1, Function.update_idem]
  · intro w
    rw [hout.worth, hout1.worth, hout2.worth, OrderAction.sweep, OrderAction.sweep, OrderAction.sweep, htakes1, htakes2, hside1, hside2]
    exact (hadds w).worth

/-- Sell 4 at 100 at once. -/
def sellFour : OrderAction := ⟨5, 100, 4, 1, .ioc⟩

/-- Whether the rules pass a sale of 7, of 3 and of 4, and how many trades the first one and the other two have. -/
def splitSale : Exec (List Bool × ℕ × ℕ) := do
  let (_, engine) ← emptyEngine.matchAll [buyFive, buyBehind]
  let (whole, _) ← engine.matchOrder sellSeven
  let (first, sold) ← engine.matchOrder sellThree
  let (second, _) ← sold.matchOrder sellFour
  return ([sellSeven, sellThree, sellFour].map fun action => (RiskPipeline.evaluate engine.riskPipeline action).ok,
    whole.trades.data.length, (first.trades.data ++ second.trades.data).length)

theorem two_parts_trade_as_one_seven : ∃ (r0 : List ExecutionResult) (r r1 r2 : ExecutionResult) (e0 e e1 e2 : MatchingEngine four four),
    emptyEngine.matchAll [buyFive, buyBehind] .debug = .ok (r0, e0) ∧ e0.matchOrder sellSeven .debug = .ok (r, e) ∧
      e0.matchOrder sellThree .debug = .ok (r1, e1) ∧ e1.matchOrder sellFour .debug = .ok (r2, e2) ∧
      e.book.LooksLike e2.book ∧ r.trades.data.length = 2 ∧ (r1.trades.data ++ r2.trades.data).length = 3 := by
  have hrun : splitSale .debug = .ok ([true, true, true], 2, 3) := rfl
  obtain ⟨⟨r0, e0⟩, h0, hrun⟩ := Exec.bind_eq_ok.1 hrun
  obtain ⟨⟨r, e⟩, h, hrun⟩ := Exec.bind_eq_ok.1 hrun
  obtain ⟨⟨r1, e1⟩, h1, hrun⟩ := Exec.bind_eq_ok.1 hrun
  obtain ⟨⟨r2, e2⟩, h2, hrun⟩ := Exec.bind_eq_ok.1 hrun
  obtain ⟨hrules, hlengths⟩ := Prod.mk.inj (Except.ok.inj hrun)
  obtain ⟨hwhole, hparts⟩ := Prod.mk.inj hlengths
  have hpass : ∀ action ∈ [sellSeven, sellThree, sellFour], (RiskPipeline.evaluate e0.riskPipeline action).ok = true := by
    intro action hmem
    have hok : (RiskPipeline.evaluate e0.riskPipeline action).ok ∈
        [sellSeven, sellThree, sellFour].map fun action => (RiskPipeline.evaluate e0.riskPipeline action).ok :=
      List.mem_map.2 ⟨action, hmem, rfl⟩
    rw [hrules] at hok
    simpa using hok
  have hreach : EngineReachable e0 := MatchingEngine.matchAll_reachable (.new _ _ _ _) h0
  have hlook := (two_parts_trade_as_one hreach sellSeven sellThree sellFour
    ⟨by decide, by decide, by decide, by decide, by decide⟩ hpass h h1 h2).1
  exact ⟨r0, r, r1, r2, e0, e, e1, e2, h0, h, h1, h2, hlook, hwhole, hparts⟩

end TradeCore
