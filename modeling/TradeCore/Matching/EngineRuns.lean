import TradeCore.Matching.EngineSpecs
import TradeCore.Orderbook.BookRuns
/-!
# Runs of the matching engine

`EngineReachable`: the engines that calls of `match` and passive updates of the book lead to from the empty one.
A call of `match` counts when its debug run returns, that is when none of its assertions fails; what it returns
is then the same in a release build.

In every such engine the book is in order and not crossed (`EngineReachable.inv`). That gives the refinement of
the reference matcher (`match_refines_reference`) and the order of the two best prices (`book_never_crosses`).
-/

namespace TradeCore

open ObjectPool PriceTime

variable {maxOrders maxLevels : PoolCapacity} {engine engine' : MatchingEngine maxOrders maxLevels} {g g' : Shape}
  {action : OrderAction} {a : AbstractBook}

/-! ## Books that are not crossed -/

/-- The prices of `a'` are prices of `a`. -/
def PricesIn (a a' : AbstractBook) : Prop := ∀ s, ∀ x ∈ a' s, ∃ y ∈ a s, y.1 = x.1

theorem Uncrossed.of_prices {a' : AbstractBook} (h : Uncrossed a) (hp : PricesIn a a') : Uncrossed a' := by
  intro x hx y hy
  obtain ⟨x', hx', ex⟩ := hp .bid x hx
  obtain ⟨y', hy', ey⟩ := hp .ask y hy
  rw [← ex, ← ey]
  exact h x' hx' y' hy'

theorem adjust_pricesIn (a : AbstractBook) (id : UInt64) (f : ℕ → ℕ) : PricesIn a (a.adjust id f) :=
  fun _ _ hx => adjust_prices hx

/-- An order that is found rests at a listed price of its side. -/
theorem AbstractBook.lookup_price {id : UInt64} {s : Side} {price : UInt32} {r : ℕ}
    (h : a.lookup id = some (s, price, r)) : ∃ x ∈ a s, x.1 = price := by
  unfold AbstractBook.lookup at h
  cases hb : PriceTime.lookup id (a .bid) with
  | some pr =>
    rw [hb] at h
    cases h
    exact PriceTime.lookup_price hb
  | none =>
    rw [hb] at h
    obtain ⟨pr, hpr, he⟩ := Option.map_eq_some_iff.1 h
    cases he
    exact PriceTime.lookup_price hpr

/-- **A modified order stays at its price.** -/
theorem modify_pricesIn (a : AbstractBook) (id : UInt64) (qty : ℕ) : PricesIn a (a.modify id qty) := by
  intro s x hx
  unfold AbstractBook.modify at hx
  cases hl : a.lookup id with
  | none =>
    rw [hl] at hx
    exact ⟨x, hx, rfl⟩
  | some spr =>
    obtain ⟨s', price, r⟩ := spr
    rw [hl] at hx
    simp only at hx
    split_ifs at hx with hlt hgt
    · exact adjust_pricesIn a id _ s x hx
    · by_cases hs : s = s'
      · rw [hs] at hx ⊢
        rw [AbstractBook.add, Function.update_self] at hx
        rcases add_prices _ hx with e | ⟨y, hy, e⟩
        · obtain ⟨y, hy, e'⟩ := AbstractBook.lookup_price hl
          exact ⟨y, hy, e'.trans e.symm⟩
        · obtain ⟨z, hz, e'⟩ := adjust_pricesIn a id _ s' y hy
          exact ⟨z, hz, e'.trans e⟩
      · rw [AbstractBook.add, Function.update_of_ne hs] at hx
        exact adjust_pricesIn a id _ s x hx
    · exact ⟨x, hx, rfl⟩

/-- The updates of a book that add no order of their own. -/
def BookOp.Passive : BookOp → Prop
  | cancel _ | execute _ | delete _ | modify _ => True
  | add _ | replace _ => False

theorem BookOp.Passive.pricesIn {op : BookOp} (hop : op.Passive) (a : AbstractBook) : PricesIn a (op.effect a) := by
  cases op with
  | cancel u => exact adjust_pricesIn a _ _
  | execute u => exact adjust_pricesIn a _ _
  | delete u => exact adjust_pricesIn a _ _
  | modify u => exact modify_pricesIn a _ _
  | add u => exact hop.elim
  | replace u => exact hop.elim

/-- **A match does not cross the book**: a residual limit order found no acceptable price any more. -/
theorem Uncrossed.referenceMatch (h : Uncrossed a) (hsort : (a action.opposite).Pairwise fun x y => action.opposite.better x.1 y.1)
    (id : UInt64) : Uncrossed (referenceMatch a id action).2 := by
  obtain ⟨swept, hswept⟩ : ∃ swept : AbstractBook, swept = Function.update a action.opposite (action.sweep a).2.1 := ⟨_, rfl⟩
  have hin : PricesIn a swept := by
    intro s x hx
    rw [hswept] at hx
    by_cases hs : s = action.opposite
    · rw [hs] at hx ⊢
      rw [Function.update_self] at hx
      have hsub := sweep_prices action.takes (a action.opposite) action.qty.toNat
      obtain ⟨y, hy, e⟩ := List.mem_map.1 (hsub.subset (List.mem_map.2 ⟨x, hx, rfl⟩))
      exact ⟨y, hy, e⟩
    · rw [Function.update_of_ne hs] at hx
      exact ⟨x, hx, rfl⟩
  have huncrossed : Uncrossed swept := h.of_prices hin
  unfold TradeCore.referenceMatch
  simp only [← hswept]
  split_ifs with hrest
  · -- what is left is worse than everything that rests on the other side
    have hres := sweep_residual (action.takes_mono) hsort hrest.1
    have hno : ∀ x ∈ swept action.opposite, action.takes x.1 = false := by
      rw [hswept, Function.update_self]
      exact hres
    unfold OrderAction.takes at hno
    rw [hrest.2] at hno
    intro x hx y hy
    unfold OrderAction.opposite at hno
    cases hside : sideOf action.side with
    | bid =>
      rw [hside] at hx hy hno
      have hy' : y ∈ swept .ask := hy
      rcases add_prices _ (show x ∈ PriceTime.add _ _ _ _ from hx) with e | ⟨x', hx', e⟩
      · rw [e]
        exact UInt32.not_le.1 (of_decide_eq_false (hno y hy'))
      · rw [← e]
        exact huncrossed x' hx' y hy'
    | ask =>
      rw [hside] at hx hy hno
      have hx' : x ∈ swept .bid := hx
      rcases add_prices _ (show y ∈ PriceTime.add _ _ _ _ from hy) with e | ⟨y', hy', e⟩
      · rw [e]
        exact UInt32.not_le.1 (of_decide_eq_false (hno x hx'))
      · rw [← e]
        exact huncrossed x hx' y' hy'
  · exact huncrossed

/-! ## Reachable engines -/

inductive EngineReachable : MatchingEngine maxOrders maxLevels → Prop where
  | new (riskPipeline : RiskPipeline) (clock : ℕ → UInt64) (orders : Index → Order) (levels : Index → PriceLevel) :
      EngineReachable (MatchingEngine.new riskPipeline clock orders levels)
  | matched {engine engine' : MatchingEngine maxOrders maxLevels} {action : OrderAction} {result : ExecutionResult} :
      EngineReachable engine → engine.matchOrder action .debug = .ok (result, engine') → EngineReachable engine'
  | passive {engine : MatchingEngine maxOrders maxLevels} {book : OrderBook maxOrders maxLevels} {op : BookOp} {b : Build} :
      EngineReachable engine → op.Passive → op.Admissible engine.book → op.run engine.book b = .ok book →
        EngineReachable { engine with book := book }

/-- The two ways of a debug run of `match` that returned. -/
theorem matchOrder_debug {result : ExecutionResult} (h : Inv engine.book g)
    (hrun : engine.matchOrder action .debug = .ok (result, engine')) :
    engine' = engine ∨ ∃ g', MatchingEngine.Outcome engine g action result engine' g' := by
  unfold MatchingEngine.matchOrder at hrun
  split_ifs at hrun with hrisk htype
  · rw [Exec.pure_apply] at hrun
    cases hrun
    exact Or.inl rfl
  · obtain ⟨enough, -, hrun⟩ := Exec.bind_eq_ok.1 hrun
    cases enough with
    | true => exact Or.inr (MatchingEngine.execute_debug h hrun)
    | false =>
      cases hrun
      exact Or.inl rfl
  · exact Or.inr (MatchingEngine.execute_debug h hrun)

/-- **Every reachable book is in order and not crossed.** -/
theorem EngineReachable.inv (h : EngineReachable engine) : ∃ g, Inv engine.book g ∧ Uncrossed g.abs := by
  induction h with
  | new riskPipeline clock orders levels =>
    refine ⟨_, inv_new orders levels, ?_⟩
    intro x hx
    cases hx
  | matched _ hrun ih =>
    obtain ⟨g, hg, hun⟩ := ih
    rcases matchOrder_debug hg hrun with rfl | ⟨g', hout⟩
    · exact ⟨g, hg, hun⟩
    · refine ⟨g', hout.inv, ?_⟩
      rw [hout.book]
      exact hun.referenceMatch (hg.abs_ok _).sorted _
  | passive _ hpass hop hrun ih =>
    obtain ⟨g, hg, hun⟩ := ih
    obtain ⟨book', g', e, hinv, ha⟩ := hg.run hop
    rw [e, Exec.pure_apply] at hrun
    cases hrun
    refine ⟨g', hinv, ?_⟩
    rw [ha]
    exact hun.of_prices (hpass.pricesIn _)

/-! ## Runs of calls -/

namespace MatchingEngine

/-- Call after call on the same engine: what each returned, and the engine at the end. -/
def matchAll (engine : MatchingEngine maxOrders maxLevels) :
    List OrderAction → Exec (List ExecutionResult × MatchingEngine maxOrders maxLevels)
  | [] => return ([], engine)
  | action :: actions => do
    let (result, engine) ← engine.matchOrder action
    let (results, engine) ← engine.matchAll actions
    return (result :: results, engine)

theorem matchAll_reachable {engine engine' : MatchingEngine maxOrders maxLevels} (h : EngineReachable engine)
    {actions : List OrderAction} {results : List ExecutionResult}
    (hrun : engine.matchAll actions .debug = .ok (results, engine')) : EngineReachable engine' := by
  induction actions generalizing engine results with
  | nil =>
    cases hrun
    exact h
  | cons action actions ih =>
    obtain ⟨⟨result, engine1⟩, hcall, hrun⟩ := Exec.bind_eq_ok.1 hrun
    obtain ⟨⟨results1, engine2⟩, hrest, hrun⟩ := Exec.bind_eq_ok.1 hrun
    cases hrun
    exact ih (.matched h hcall) hrest

end MatchingEngine

/-! ## Two orders that meet -/

/-- An engine without risk rules on an empty book. -/
def emptyEngine : MatchingEngine four four :=
  MatchingEngine.new [] (fun _ => 0) (fun _ => Order.zero) fun _ => PriceLevel.zero

/-- Buy 5 at 100. -/
def buyFive : OrderAction := ⟨1, 100, 5, 0, .limit⟩

/-! ## Resting orders -/

/-- An engine with room for eight orders. -/
def wideEngine : MatchingEngine eight eight := MatchingEngine.new [] (fun _ => 0) (fun _ => Order.zero) fun _ => PriceLevel.zero

/-- Two asks at two prices, and a bid below them. -/
def quotes : List OrderAction := [⟨1, 101, 5, 1, .limit⟩, ⟨2, 102, 4, 1, .limit⟩, ⟨3, 99, 2, 0, .limit⟩]

def quoteQueues : List (Queues UInt32 UInt64) := [[(99, [(3, 2)])], [(101, [(1, 5)]), (102, [(2, 4)])]]

theorem quotes_rest : ∃ results engine, wideEngine.matchAll quotes .debug = .ok (results, engine) ∧ EngineReachable engine ∧
    engine.book.queues = quoteQueues := by
  have hrun : (do
      let (_, engine) ← wideEngine.matchAll quotes
      return engine.book.queues) .debug = .ok quoteQueues := by decide +kernel
  obtain ⟨⟨results, engine⟩, hquotes, hq⟩ := Exec.bind_eq_ok.1 hrun
  exact ⟨results, engine, hquotes, MatchingEngine.matchAll_reachable (.new _ _ _ _) hquotes, Except.ok.inj hq⟩

/-- One more call, as the checked build shows it: the status, the quantities traded, and the queues it leaves. -/
theorem quotes_then (action : OrderAction) (status : ExecutionStatus) (traded : List UInt32) (queues : List (Queues UInt32 UInt64))
    (hresult : (do
      let (_, engine) ← wideEngine.matchAll quotes
      let (result, _) ← engine.matchOrder action
      return (result.status, result.trades.data.map Trade.quantity)) .debug = .ok (status, traded))
    (hqueues : (do
      let (_, engine) ← wideEngine.matchAll quotes
      let (_, after) ← engine.matchOrder action
      return after.book.queues) .debug = .ok queues) :
    ∃ engine : MatchingEngine eight eight, ∃ result after, EngineReachable engine ∧ engine.book.queues = quoteQueues ∧
      engine.matchOrder action .debug = .ok (result, after) ∧ result.status = status ∧
        result.trades.data.map Trade.quantity = traded ∧ after.book.queues = queues := by
  obtain ⟨results, engine, hquotes, hreach, hq⟩ := quotes_rest
  rw [Exec.bind_of_ok hquotes] at hresult hqueues
  obtain ⟨⟨result, after⟩, hcall, hresult⟩ := Exec.bind_eq_ok.1 hresult
  dsimp only at hqueues
  rw [Exec.bind_of_ok hcall] at hqueues
  obtain ⟨hstatus, htraded⟩ := Prod.mk.inj (Except.ok.inj hresult)
  exact ⟨engine, result, after, hreach, hq, hcall, hstatus, htraded, Except.ok.inj hqueues⟩

/-! ## Price-time priority -/

/-- An action that the engine takes: it passes the risk pipeline and, for a fill-or-kill order, the pre-scan; its fills
fit into a result; a limit order could rest in the book. -/
structure Matchable (engine : MatchingEngine maxOrders maxLevels) (action : OrderAction) : Prop where
  qty : 0 < action.qty
  risk : (RiskPipeline.evaluate engine.riskPipeline action).ok = true
  fok : action.type = .fok → LiquidityAnalyzer.hasLiquidity engine.book action.side action.qty = pure true
  fills : (action.sweep engine.book.abs).1.length ≤ kMaxTradesPerMatch
  limit : action.type = .limit → engine.book.AddOk (MatchingEngine.restUpdate action 0)

/-- `match` on a book in order. -/
theorem Inv.matchOrder_spec (h : Inv engine.book g) (ha : Matchable engine action) :
    ∃ result engine' g', engine.matchOrder action = pure (result, engine') ∧
      MatchingEngine.Outcome engine g action result engine' g' := by
  obtain ⟨result, engine', g', e, hout⟩ :=
    MatchingEngine.execute_spec h (by rw [← h.rep.abs_eq]; exact ha.fills) ha.limit
  refine ⟨result, engine', g', ?_, hout⟩
  unfold MatchingEngine.matchOrder
  rw [if_neg (by simp [ha.risk])]
  by_cases hfok : action.type = .fok
  · rw [if_pos hfok, ha.fok hfok, pure_bind, if_pos rfl, e]
  · rw [if_neg hfok, e]

/-- **`match` refines the reference matcher**: on every reachable engine an action it takes returns, in either build,
with the trades of the reference matcher, timestamps aside, and leaves its book. -/
theorem match_refines_reference (h : EngineReachable engine) (action : OrderAction) (ha : Matchable engine action) :
    ∃ result engine', engine.matchOrder action = pure (result, engine') ∧
      result.trades.data.map Trade.core = (referenceMatch engine.book.abs engine.nextTradeId action).1 ∧
      engine'.book.abs = (referenceMatch engine.book.abs engine.nextTradeId action).2 ∧
      engine'.nextTradeId = engine.nextTradeId + UInt64.ofNat result.trades.data.length ∧
      result.status = referenceStatus engine.book.abs action := by
  obtain ⟨g, hg, -⟩ := h.inv
  obtain ⟨result, engine', g', e, hout⟩ := hg.matchOrder_spec ha
  rw [hg.rep.abs_eq]
  refine ⟨result, engine', e, hout.trades, hout.inv.rep.abs_eq.trans hout.book, ?_, hout.status⟩
  have hlen := congrArg List.length hout.trades
  rw [List.length_map] at hlen
  rw [hout.nextId, hlen]
  exact congrArg (fun n => engine.nextTradeId + UInt64.ofNat n) (length_tradesOf _ _ _).symm

/-- Sell 3 at 100 at once. -/
def sellThree : OrderAction := ⟨2, 100, 3, 1, .ioc⟩

/-- A first order, resting. -/
theorem buyFive_matchable : Matchable emptyEngine buyFive where
  qty := by decide
  risk := rfl
  fok := nofun
  fills := by
    rw [show emptyEngine.book.abs = Shape.abs fun _ => [] from (rep_new _ _).abs_eq]
    decide
  limit _ := new_addOk (by decide) (by decide) (by decide) (by decide) (by decide)

theorem match_refines_reference_two : ∃ r1 e1 r2 e2, emptyEngine.matchOrder buyFive = pure (r1, e1) ∧
    e1.matchOrder sellThree = pure (r2, e2) ∧ r2.trades.data.map Trade.core = [⟨1, 2, 1, 100, 3, 0⟩] ∧
      e2.book.abs .bid = [(100, [(1, 2)])] := by
  have h0 : EngineReachable emptyEngine := .new _ _ _ _
  obtain ⟨r1, e1, hrun1, htrades1, habs1, hid1, -⟩ := match_refines_reference h0 buyFive buyFive_matchable
  have hempty : emptyEngine.book.abs = Shape.abs fun _ => [] := (rep_new _ _).abs_eq
  rw [hempty] at habs1 htrades1
  have h1 : EngineReachable e1 := .matched h0 (congrFun hrun1 .debug)
  have hnone : r1.trades.data.length = 0 := by
    have := congrArg List.length htrades1
    rwa [List.length_map] at this
  have hrisk : e1.riskPipeline = [] := by
    obtain ⟨r, e, g', hrun, hout⟩ := (inv_new (fun _ => Order.zero) (fun _ => PriceLevel.zero)).matchOrder_spec
      buyFive_matchable
    have := Exec.pure_inj (hrun1.symm.trans hrun)
    cases this
    exact hout.risk
  have h2 : Matchable e1 sellThree :=
    ⟨by decide, by rw [hrisk]; rfl, nofun, by rw [habs1]; decide, nofun⟩
  obtain ⟨r2, e2, hrun2, htrades2, habs2, -, -⟩ := match_refines_reference h1 sellThree h2
  refine ⟨r1, e1, r2, e2, hrun1, hrun2, ?_, ?_⟩
  · rw [htrades2, habs1, hid1, hnone]
    decide
  · rw [habs2, habs1, hid1, hnone]
    decide

/-! ## The book never crosses -/

/-- **The best bid stays below the best ask.** -/
theorem book_never_crosses (h : EngineReachable engine) (hbids : engine.book.levelSlots .bid ≠ [])
    (hasks : engine.book.levelSlots .ask ≠ []) :
    ∃ bid ask, engine.book.bids.bboLevel engine.book.levelPool = pure (some bid) ∧
      engine.book.asks.bboLevel engine.book.levelPool = pure (some ask) ∧
      (∀ i ∈ engine.book.levelSlots .bid, (engine.book.levelPool.slots i).price ≤ bid.price) ∧
      (∀ i ∈ engine.book.levelSlots .ask, ask.price ≤ (engine.book.levelPool.slots i).price) ∧
      bid.price < ask.price := by
  obtain ⟨g, hg, hun⟩ := h.inv
  rw [hg.rep.levelSlots, Ne, List.map_eq_nil_iff] at hbids hasks
  -- the last bid and the first ask
  obtain ⟨L, l, hb⟩ := (List.eq_nil_or_concat (g .bid)).resolve_left hbids
  obtain ⟨m, R, ha⟩ := List.exists_cons_of_ne_nil hasks
  rw [List.concat_eq_append] at hb
  have hbest := (bboLevel_eq (s := .bid) (R := []) hg.rep hb rfl).2
  have hbest' := (bboLevel_eq (s := .ask) (L := []) hg.rep ha rfl).2
  have hpl := ((hg.rep.sides .bid).levels l (by rw [hb]; simp)).price
  have hpm := ((hg.rep.sides .ask).levels m (by rw [ha]; simp)).price
  have hsb := hg.rep.sorted .bid
  have hsa := hg.rep.sorted .ask
  rw [hb, List.pairwise_append] at hsb
  rw [ha, List.pairwise_cons] at hsa
  refine ⟨_, _, hbest, hbest', fun i hi => ?_, fun i hi => ?_, ?_⟩
  · rw [hg.rep.levelSlots] at hi
    obtain ⟨k, hk, rfl⟩ := List.mem_map.1 hi
    rw [((hg.rep.sides .bid).levels k hk).price, hpl]
    rw [hb] at hk
    rcases List.mem_append.1 hk with hk | hk
    · exact UInt32.le_of_lt (hsb.2.2 k hk l List.mem_cons_self)
    · rw [List.mem_singleton.1 hk]
      exact UInt32.le_refl _
  · rw [hg.rep.levelSlots] at hi
    obtain ⟨k, hk, rfl⟩ := List.mem_map.1 hi
    rw [((hg.rep.sides .ask).levels k hk).price, hpm]
    rw [ha] at hk
    rcases List.mem_cons.1 hk with rfl | hk
    · exact UInt32.le_refl _
    · exact UInt32.le_of_lt (hsa.1 k hk)
  · rw [hpl, hpm]
    refine hun l.abs ?_ m.abs ?_
    · rw [Shape.abs, Side.mem_bestFirst]
      exact List.mem_map.2 ⟨l, by rw [hb]; simp, rfl⟩
    · rw [Shape.abs, Side.mem_bestFirst]
      exact List.mem_map.2 ⟨m, by rw [ha]; simp, rfl⟩

/-- Sell 5 at 101. -/
def sellFive : OrderAction := ⟨2, 101, 5, 1, .limit⟩

/-- The level slots of both sides after two orders that do not meet. -/
def restingSlots : Exec (List Index × List Index) := do
  let (_, engine) ← emptyEngine.matchOrder buyFive
  let (_, engine) ← engine.matchOrder sellFive
  return (engine.book.levelSlots .bid, engine.book.levelSlots .ask)

theorem book_never_crosses_two : ∃ r1 e1 r2 e2, ∃ bid ask : PriceLevel,
    emptyEngine.matchOrder buyFive .debug = .ok (r1, e1) ∧ e1.matchOrder sellFive .debug = .ok (r2, e2) ∧
      e2.book.bids.bboLevel e2.book.levelPool = pure (some bid) ∧
      e2.book.asks.bboLevel e2.book.levelPool = pure (some ask) ∧ bid.price < ask.price := by
  have hrun : restingSlots .debug = .ok ([0], [1]) := rfl
  obtain ⟨⟨r1, e1⟩, h1, hrun⟩ := Exec.bind_eq_ok.1 hrun
  obtain ⟨⟨r2, e2⟩, h2, hrun⟩ := Exec.bind_eq_ok.1 hrun
  have hslots : (e2.book.levelSlots .bid, e2.book.levelSlots .ask) = ([0], [1]) := Except.ok.inj hrun
  have hbids : e2.book.levelSlots .bid = [0] := congrArg Prod.fst hslots
  have hasks : e2.book.levelSlots .ask = [1] := congrArg Prod.snd hslots
  have hreach : EngineReachable e2 := .matched (.matched (.new _ _ _ _) h1) h2
  obtain ⟨bid, ask, hbid, hask, -, -, hlt⟩ := book_never_crosses hreach (by rw [hbids]; simp) (by rw [hasks]; simp)
  exact ⟨r1, e1, r2, e2, bid, ask, h1, h2, hbid, hask, hlt⟩

end TradeCore
