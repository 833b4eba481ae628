import TradeCore.Matching.EngineRuns
/-!
# Fill or kill

The pre-scan of a fill-or-kill order adds up the quantities of the levels of the opposite side, best price first,
until the order is covered (`scanTree_spec`): it passes when the side as a whole holds enough (`hasLiquidity_eq`).
The sweep that follows stops at the limit price. Orders beyond the limit that the scan counts, and more fills
than a result holds, are where the two part.
-/

namespace TradeCore

open ObjectPool PriceTime Avl Avl.BinTree

variable {maxOrders maxLevels cap : PoolCapacity}

/-! ## The scan -/

/-- What the levels of a side hold, as their rows say. -/
def OrderBook.restingTotal (book : OrderBook maxOrders maxLevels) (s : Side) : ℕ :=
  ((book.levelSlots s).map fun i => (book.levelPool.slots i).totalQty.toNat).sum

namespace LiquidityAnalyzer

/-- `found` is what a total of `total` contributes to `remaining`. -/
def Found (found remaining : UInt32) (total : ℕ) : Prop := found.toNat = min total remaining.toNat

section Found

variable {a b remaining : UInt32} {m n : ℕ}

theorem Found.le (h : Found a remaining m) : a ≤ remaining := by
  unfold Found at h
  rw [UInt32.le_iff_toNat_le]
  omega

/-- What is still missing. -/
theorem Found.toNat_sub (h : Found a remaining m) : (remaining - a).toNat = remaining.toNat - a.toNat :=
  UInt32.toNat_sub_of_le _ _ h.le

/-- **First one part of a side, then another.** -/
theorem Found.add (ha : Found a remaining m) (hb : Found b (remaining - a) n) :
    Found (a + b) remaining (m + n) ∧ remaining - a - b = remaining - (a + b) := by
  have hsub := ha.toNat_sub
  have hlt := remaining.toNat_lt
  unfold Found at *
  have hsum : (a + b).toNat = a.toNat + b.toNat := by
    rw [UInt32.toNat_add]
    exact Nat.mod_eq_of_lt (by omega)
  refine ⟨by omega, ?_⟩
  grind

/-- Nothing is missing: the rest of the side does not count. -/
theorem Found.of_full (ha : Found a remaining m) (h0 : remaining - a = 0) (hmn : m ≤ n) : Found a remaining n := by
  have hsub := ha.toNat_sub
  rw [h0] at hsub
  have hzero : (0 : UInt32).toNat = 0 := rfl
  unfold Found at *
  omega

theorem found_stdMin (q remaining : UInt32) : Found (stdMin q remaining) remaining q.toNat := stdMin_toNat q remaining

end Found

/-- The child that a scan visits first, the one it visits last, and what the tree holds. -/
theorem scan_children {pool : PriceLevelPool cap} {l r : BinTree Index} {i x p : Index} (side : UInt8)
    (h : TreeAt pool (node l i r) x p) : ∃ near far,
      TreeAt pool near (if side = 0 then (pool.slots x).node.right else (pool.slots x).node.left) x ∧
      TreeAt pool far (if side = 0 then (pool.slots x).node.left else (pool.slots x).node.right) x ∧
      near.height < (node l i r).height ∧ far.height < (node l i r).height ∧
      ((node l i r).toList.map fun i => (pool.slots i).totalQty.toNat).sum =
        (near.toList.map fun i => (pool.slots i).totalQty.toNat).sum + (pool.slots x).totalQty.toNat +
          (far.toList.map fun i => (pool.slots i).totalQty.toNat).sum := by
  let d : Dir := if side = 0 then .right else .left
  have hfirst : (if side = 0 then (pool.slots x).node.right else (pool.slots x).node.left) = (pool.node x).child d := by
    by_cases hs : side = 0 <;> simp [d, hs, AVLNode.child, PriceLevelPool.node]
  have hsecond : (if side = 0 then (pool.slots x).node.left else (pool.slots x).node.right) = (pool.node x).child d.flip := by
    by_cases hs : side = 0 <;> simp [d, hs, AVLNode.child, PriceLevelPool.node, Dir.flip]
  obtain ⟨near, far, hnear, hfar, hnearf, hfarf, hlist⟩ := h.children d
  have hvisit : ∀ t : BinTree Index, ((d.visit t.toList).map fun i => (pool.slots i).totalQty.toNat).sum =
      (t.toList.map fun i => (pool.slots i).totalQty.toNat).sum := fun t => ((d.visit_perm _).map _).sum_eq
  rw [hfirst, hsecond]
  refine ⟨near, far, hnear, hfar, hnearf, hfarf, ?_⟩
  rw [← hvisit, hlist, List.map_append, List.map_cons, List.sum_append, List.sum_cons, hvisit, hvisit, Nat.add_assoc]

/-- **`scan_tree`** finds what the tree holds, up to what is asked. -/
theorem scanTree_spec {pool : PriceLevelPool cap} (side : UInt8) : ∀ {t : BinTree Index} {x p : Index} {fuel : ℕ}
    (remaining : UInt32), TreeAt pool t x p → t.height < fuel →
      ∃ found, scanTree side pool fuel x remaining = pure (found, remaining - found) ∧
        Found found remaining (t.toList.map fun i => (pool.slots i).totalQty.toNat).sum
  | _, _, _, 0, _, _, hf => by omega
  | nil, x, _, fuel + 1, remaining, h, _ => by
    have hx : x = kInvalidPoolIndex := h
    refine ⟨0, ?_, by simp [Found]⟩
    unfold scanTree
    rw [if_pos (Or.inl hx), UInt32.sub_zero]
  | node l i r, x, p, fuel + 1, remaining, h, hf => by
    have hx : Valid cap x := by
      obtain ⟨rfl, hh, -⟩ := TreeAt.node_iff.1 h
      exact hh.valid
    by_cases h0 : remaining = 0
    · refine ⟨0, ?_, by simp [Found, h0]⟩
      unfold scanTree
      rw [if_pos (Or.inr h0), UInt32.sub_zero]
    · obtain ⟨near, far, hnear, hfar, hnearf, hfarf, hsum⟩ := scan_children side h
      rw [hsum]
      obtain ⟨a, ea, ha⟩ := scanTree_spec side remaining hnear (show near.height < fuel by omega)
      obtain ⟨htake, hsub⟩ := ha.add (found_stdMin (pool.slots x).totalQty (remaining - a))
      obtain ⟨c, ec, hc⟩ := scanTree_spec side (remaining - (a + stdMin (pool.slots x).totalQty (remaining - a))) hfar
        (show far.height < fuel by omega)
      obtain ⟨hmore, hsub'⟩ := htake.add hc
      unfold scanTree
      rw [if_neg (by rintro (e | e) <;> [exact hx.ne_invalid e; exact h0 e]), get_eq _ hx, pure_bind]
      simp only [ea, pure_bind, hsub, ec]
      split_ifs with hfull hfull'
      · exact ⟨a, rfl, ha.of_full hfull (by omega)⟩
      · exact ⟨_, rfl, htake.of_full hfull' (by omega)⟩
      · exact ⟨_, by rw [hsub'], hmore⟩

/-- **`has_liquidity`** returns, and for an order that asks for something it says whether the whole side holds enough,
whatever the prices. -/
theorem hasLiquidity_spec {book : OrderBook maxOrders maxLevels} {g : Shape} (h : Rep book g) (side : UInt8) (qty : UInt32) :
    ∃ enough, hasLiquidity book side qty = pure enough ∧
      (0 < qty → enough = decide (qty.toNat ≤ book.restingTotal (sideOf side).flip)) := by
  obtain ⟨t, ht, hts, hheight⟩ := h.side_tree (sideOf side).flip
  have htotal : book.restingTotal (sideOf side).flip = (t.toList.map fun i => (book.levelPool.slots i).totalQty.toNat).sum := by
    unfold OrderBook.restingTotal
    rw [h.levelSlots, hts]
  unfold hasLiquidity
  by_cases hroot : (book.side (sideOf side).flip).avlRoot = kInvalidPoolIndex
  · rw [ht.nil_iff.2 hroot] at htotal
    refine ⟨false, by rw [if_pos hroot], fun hqty => ?_⟩
    have hpos := (pos_iff_toNat qty).1 hqty
    rw [htotal, decide_eq_false (by simp only [toList_nil, List.map_nil, List.sum_nil]; omega)]
  · obtain ⟨found, e, hfound⟩ := scanTree_spec (book.side (sideOf side).flip).side qty ht (Nat.lt_succ_of_le hheight)
    refine ⟨decide (found ≥ qty), by rw [if_neg hroot, e, pure_bind], fun _ => ?_⟩
    rw [htotal]
    refine decide_eq_decide.2 ?_
    unfold Found at hfound
    rw [ge_iff_le, UInt32.le_iff_toNat_le]
    omega

theorem hasLiquidity_eq {book : OrderBook maxOrders maxLevels} {g : Shape} (h : Rep book g) (side : UInt8) {qty : UInt32}
    (hqty : 0 < qty) :
    hasLiquidity book side qty = pure (decide (qty.toNat ≤ book.restingTotal (sideOf side).flip)) := by
  obtain ⟨enough, e, henough⟩ := hasLiquidity_spec h side qty
  rw [e, henough hqty]

end LiquidityAnalyzer

/-! ## What the matcher makes of the order -/

/-- The price is no worse than the limit. -/
def OrderAction.NoWorse (action : OrderAction) (price : UInt32) : Prop :=
  if action.side = 0 then price ≤ action.price else action.price ≤ price

theorem OrderAction.noWorse_of_takes {action : OrderAction} (hfok : action.type = .fok) {price : UInt32}
    (h : action.takes price = true) : action.NoWorse price := by
  unfold OrderAction.takes sideOf at h
  unfold OrderAction.NoWorse
  rw [hfok] at h
  by_cases hs : action.side = 0
  · rw [if_pos hs] at h ⊢
    exact of_decide_eq_true h
  · rw [if_neg hs] at h ⊢
    exact of_decide_eq_true h

variable {engine engine' : MatchingEngine maxOrders maxLevels} {g g' : Shape} {action : OrderAction}
  {result : ExecutionResult}

/-- The orders that rest at prices no worse than the limit, in the order they are served. -/
def acceptable (engine : MatchingEngine maxOrders maxLevels) (action : OrderAction) : Queue UInt64 :=
  crossingOrders action.takes (engine.book.abs action.opposite)

/-- Filled as a whole within its limit, or rejected without a trace. -/
def AllOrNothing (engine : MatchingEngine maxOrders maxLevels) (action : OrderAction) (result : ExecutionResult)
    (engine' : MatchingEngine maxOrders maxLevels) : Prop :=
  (result.status = .filled ∧ (result.trades.data.map fun t => t.quantity.toNat).sum = action.qty.toNat ∧
      ∀ t ∈ result.trades.data, action.NoWorse t.price) ∨
    (result.trades.data = [] ∧ (result.status = .rejectedRisk ∨ result.status = .rejectedInvalid) ∧
      engine'.book = engine.book ∧ engine'.nextTradeId = engine.nextTradeId)

/-- The risk pipeline or the scan rejects the order, or nothing rests within its limit, or the orders that do, as
many as a result has room for, cover it. -/
def CoveredOrIdle (engine : MatchingEngine maxOrders maxLevels) (action : OrderAction) : Prop :=
  (RiskPipeline.evaluate engine.riskPipeline action).ok = false ∨
    engine.book.restingTotal action.opposite < action.qty.toNat ∨
    acceptable engine action = [] ∨
    action.qty.toNat ≤ (((acceptable engine action).take kMaxTradesPerMatch).map Prod.snd).sum

namespace MatchingEngine

/-- **No acceptable price**: the loops do nothing, and what is no limit order is gone. -/
theorem execute_idle (h : Inv engine.book g) (hnil : crossingOrders action.takes (g.abs action.opposite) = [])
    (hpos : 0 < action.qty) (htype : action.type ≠ .limit) :
    engine.execute action = pure (⟨statusOf action StaticVector.empty, StaticVector.empty⟩, engine) := by
  have hcore : matchCore (action.type = .market) (maxLevels.size + 1) ⟨engine, action, StaticVector.empty⟩ =
      pure ⟨engine, action, StaticVector.empty⟩ := by
    have hok := h.abs_ok action.opposite
    cases hls : g.abs action.opposite with
    | nil => exact matchCore_done (Or.inr (bbo_empty h.rep (abs_nil hls)))
    | cons x ls =>
      obtain ⟨p, q⟩ := x
      obtain ⟨L, l, R, hg, hfront, hl, -⟩ := abs_cons hls
      rw [hls] at hnil hok
      have hp : l.price = p := congrArg Prod.fst hl
      have hno : accepts (action.type = .market) action l.price = false := by
        rw [accepts_eq_takes, hp]
        exact crossingOrders_eq_nil hok hnil
      have hstart : Inv (⟨engine, action, StaticVector.empty⟩ : MatchState maxOrders maxLevels).engine.book g := h
      rw [matchCore_turn hstart rfl hg hfront hpos, if_pos hno]
  have hno : ¬ (action.qty > 0 ∧ action.type = .limit) := fun hl => htype hl.2
  unfold execute settle verifyExecution
  rw [hcore, pure_bind]
  simp [hno, StaticVector.empty]

/-- A match that went to the end keeps the promise when nothing is left, and breaks it when something was filled and
something is left. -/
theorem Outcome.allOrNothing_iff (h : Outcome engine g action result engine' g') (hfok : action.type = .fok)
    (hsome : (action.sweep g.abs).1 ≠ []) : AllOrNothing engine action result engine' ↔ (action.sweep g.abs).2.2 = 0 := by
  have htrades : result.trades.data.map Trade.core = tradesOf action.orderId engine.nextTradeId (action.sweep g.abs).1 :=
    h.trades
  have hsum : ((action.sweep g.abs).1.map Fill.qty).sum + (action.sweep g.abs).2.2 = action.qty.toNat := sweep_sum _ _ _
  have hstatus := h.status
  unfold referenceStatus at hstatus
  simp only [if_neg hsome] at hstatus
  constructor
  · rintro (⟨hfilled, -⟩ | ⟨hnil, -⟩)
    · by_contra hleft
      rw [if_neg hleft, hfilled] at hstatus
      cases hstatus
    · rw [hnil, List.map_nil] at htrades
      have hlen := congrArg List.length htrades
      rw [length_tradesOf] at hlen
      exact absurd (List.length_eq_zero_iff.1 hlen.symm) hsome
  · intro hleft
    rw [if_pos hleft] at hstatus
    refine Or.inl ⟨hstatus, ?_, fun t ht => ?_⟩
    · have hlt := action.qty.toNat_lt
      have hcore : (result.trades.data.map fun t => t.quantity.toNat) =
          (result.trades.data.map Trade.core).map fun t => t.quantity.toNat := by
        rw [List.map_map]
        rfl
      rw [hcore, htrades, sum_quantities_toNat _ _ (by rw [UInt32.size]; omega)]
      omega
    · have ht' : t.core ∈ result.trades.data.map Trade.core := List.mem_map.2 ⟨t, ht, rfl⟩
      rw [htrades] at ht'
      obtain ⟨f, hf, -, -, e, -⟩ := mem_tradesOf ht'
      refine OrderAction.noWorse_of_takes hfok ?_
      rw [show t.price = f.price from e]
      exact sweep_price _ _ _ f hf

/-- **A sweep that finds something** fills the order or leaves some of it, if its fills fit the result at all. -/
theorem execute_allOrNothing_iff (hg : Inv engine.book g) (hfok : action.type = .fok) (hpos : 0 < action.qty)
    (hnil : crossingOrders action.takes (g.abs action.opposite) ≠ []) (b : Build) :
    (∃ result engine', engine.execute action b = .ok (result, engine') ∧ AllOrNothing engine action result engine') ↔
      (action.sweep g.abs).1.length ≤ kMaxTradesPerMatch ∧ (action.sweep g.abs).2.2 = 0 := by
  have hsome : (action.sweep g.abs).1 ≠ [] := by
    intro hfills
    have hlen := sweep_length action.takes_mono (hg.abs_ok action.opposite).sorted action.qty.toNat
    change (action.sweep g.abs).1.length = _ at hlen
    rw [hfills, List.length_nil, eq_comm, touched_eq_zero ((pos_iff_toNat _).1 hpos), List.map_eq_nil_iff] at hlen
    exact hnil hlen
  have hlimit : action.type ≠ .limit := by
    rw [hfok]
    nofun
  by_cases hfits : (action.sweep g.abs).1.length ≤ kMaxTradesPerMatch
  · obtain ⟨result, engine', g', e, hout⟩ := execute_spec hg hfits fun hl => absurd hl hlimit
    rw [e]
    have hiff := hout.allOrNothing_iff hfok hsome
    constructor
    · rintro ⟨_, _, hrun, hall⟩
      cases hrun
      exact ⟨hfits, hiff.1 hall⟩
    · rintro ⟨-, hleft⟩
      exact ⟨_, _, rfl, hiff.2 hleft⟩
  · -- more fills than the result holds: the match does not return
    refine ⟨?_, fun hw => absurd hw.1 hfits⟩
    rintro ⟨_, _, hrun, -⟩
    obtain ⟨st, hst, -⟩ := Exec.bind_eq_ok.1 hrun
    exact absurd hst (core_overflow hg hfits b st)

end MatchingEngine

/-- **Fill or kill**: in either build the order is filled as a whole or rejected without a trace exactly when the scan
and the sweep agree on it. -/
theorem fok_all_or_nothing_iff (h : EngineReachable engine) (action : OrderAction) (hfok : action.type = .fok)
    (hpos : 0 < action.qty) (b : Build) :
    (∃ result engine', engine.matchOrder action b = .ok (result, engine') ∧ AllOrNothing engine action result engine') ↔
      CoveredOrIdle engine action := by
  obtain ⟨g, hg, -⟩ := h.inv
  have habs : acceptable engine action = crossingOrders action.takes (g.abs action.opposite) := by
    unfold acceptable
    rw [hg.rep.abs_eq]
  unfold CoveredOrIdle MatchingEngine.matchOrder
  by_cases hrisk : (RiskPipeline.evaluate engine.riskPipeline action).ok = false
  · rw [if_pos hrisk]
    exact ⟨fun _ => Or.inl hrisk, fun _ => ⟨_, _, rfl, Or.inr ⟨rfl, Or.inl rfl, rfl, rfl⟩⟩⟩
  · rw [if_neg hrisk, if_pos hfok, LiquidityAnalyzer.hasLiquidity_eq hg.rep _ hpos, pure_bind]
    by_cases hscan : action.qty.toNat ≤ engine.book.restingTotal action.opposite
    · have hscan' : action.qty.toNat ≤ engine.book.restingTotal (sideOf action.side).flip := hscan
      rw [decide_eq_true hscan', if_pos rfl]
      simp only [hrisk, Nat.not_lt.2 hscan, reduceCtorEq, false_or, habs]
      by_cases hnil : crossingOrders action.takes (g.abs action.opposite) = []
      · -- the sweep finds nothing
        have hlimit : action.type ≠ .limit := by
          rw [hfok]
          nofun
        rw [MatchingEngine.execute_idle hg hnil hpos hlimit]
        refine ⟨fun _ => Or.inl hnil, fun _ => ⟨_, _, rfl, Or.inr ⟨rfl, Or.inr ?_, rfl, rfl⟩⟩⟩
        simp [MatchingEngine.statusOf, StaticVector.empty, hfok]
      · have hwhole := sweep_whole_iff (action.takes_mono) (hg.abs_ok action.opposite).sorted action.qty.toNat kMaxTradesPerMatch
        simp only [hnil, false_or]
        rw [← hwhole]
        exact MatchingEngine.execute_allOrNothing_iff hg hfok hpos hnil b
    · have hscan' : ¬ action.qty.toNat ≤ engine.book.restingTotal (sideOf action.side).flip := hscan
      rw [decide_eq_false hscan', if_neg (by decide)]
      exact ⟨fun _ => Or.inr (Or.inl (Nat.lt_of_not_le hscan)),
        fun _ => ⟨_, _, rfl, Or.inr ⟨rfl, Or.inr rfl, rfl, rfl⟩⟩⟩

/-- Sell 50 at 1000. -/
def sellFifty : OrderAction := ⟨1, 1000, 50, 1, .limit⟩

/-- Sell 50 at 2000. -/
def sellFiftyHigher : OrderAction := ⟨2, 2000, 50, 1, .limit⟩

/-- Buy `qty` at 1000, all of it or nothing. -/
def buyAllOrNothing (qty : UInt32) : OrderAction := ⟨3, 1000, qty, 0, .fok⟩

/-- Two asks, and then a fill-or-kill order: the asks it meets and what comes of it. -/
def fokRun (qty : UInt32) : Exec (Queues UInt32 UInt64 × ExecutionStatus × List UInt32) := do
  let (_, engine) ← emptyEngine.matchOrder sellFifty
  let (_, engine) ← engine.matchOrder sellFiftyHigher
  let (result, _) ← engine.matchOrder (buyAllOrNothing qty)
  return (engine.book.abs .ask, result.status, result.trades.data.map Trade.quantity)

theorem fokRun_eq_ok {qty : UInt32} {asks : Queues UInt32 UInt64} {status : ExecutionStatus} {qtys : List UInt32}
    (h : fokRun qty .debug = .ok (asks, status, qtys)) :
    ∃ (engine engine' : MatchingEngine four four) (result : ExecutionResult), EngineReachable engine ∧
      engine.book.abs .ask = asks ∧ engine.matchOrder (buyAllOrNothing qty) .debug = .ok (result, engine') ∧
      result.status = status ∧ result.trades.data.map Trade.quantity = qtys := by
  obtain ⟨⟨r1, e1⟩, h1, h⟩ := Exec.bind_eq_ok.1 h
  obtain ⟨⟨r2, e2⟩, h2, h⟩ := Exec.bind_eq_ok.1 h
  obtain ⟨⟨r3, e3⟩, h3, h⟩ := Exec.bind_eq_ok.1 h
  obtain ⟨hasks, hrest⟩ := Prod.mk.inj (Except.ok.inj h)
  obtain ⟨hstatus, hqtys⟩ := Prod.mk.inj hrest
  exact ⟨e2, e3, r3, .matched (.matched (.new _ _ _ _) h1) h2, hasks, h3, hstatus, hqtys⟩

theorem fok_all_or_nothing_iff_fifty : ∃ (engine engine' : MatchingEngine four four) (result : ExecutionResult),
    EngineReachable engine ∧ engine.matchOrder (buyAllOrNothing 50) .debug = .ok (result, engine') ∧
      AllOrNothing engine (buyAllOrNothing 50) result engine' := by
  obtain ⟨engine, -, -, hreach, hasks, -⟩ :=
    fokRun_eq_ok (show fokRun 50 .debug = .ok ([(1000, [(1, 50)]), (2000, [(2, 50)])], .filled, [50]) from rfl)
  have hcovered : CoveredOrIdle engine (buyAllOrNothing 50) := by
    refine Or.inr (Or.inr (Or.inr ?_))
    unfold acceptable
    rw [show (buyAllOrNothing 50).opposite = .ask from rfl, hasks]
    decide
  obtain ⟨result, engine', hrun, hall⟩ := (fok_all_or_nothing_iff hreach (buyAllOrNothing 50) rfl (by decide) .debug).2 hcovered
  exact ⟨engine, engine', result, hreach, hrun, hall⟩

/-- **A fill-or-kill order filled in part**: the scan counts the ask beyond its limit, the sweep does not reach it. -/
theorem fok_fills_in_part : ∃ (engine engine' : MatchingEngine four four) (result : ExecutionResult),
    EngineReachable engine ∧ engine.matchOrder (buyAllOrNothing 100) .debug = .ok (result, engine') ∧
      result.status = .partiallyFilled ∧ result.trades.data.map Trade.quantity = [50] ∧
      ¬ AllOrNothing engine (buyAllOrNothing 100) result engine' := by
  obtain ⟨engine, engine', result, hreach, -, hrun, hstatus, hqtys⟩ :=
    fokRun_eq_ok (show fokRun 100 .debug = .ok ([(1000, [(1, 50)]), (2000, [(2, 50)])], .partiallyFilled, [50]) from rfl)
  refine ⟨engine, engine', result, hreach, hrun, hstatus, hqtys, ?_⟩
  rintro (⟨hfilled, -⟩ | ⟨hnone, -⟩)
  · rw [hstatus] at hfilled
    cases hfilled
  · rw [hnone] at hqtys
    cases hqtys

end TradeCore
