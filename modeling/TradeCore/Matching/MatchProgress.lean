import TradeCore.Lib.PriceTimeFlow
import TradeCore.Matching.EngineRuns
/-!
# `match_core` ends, and makes progress until it does

`Progress` is the invariant of the steps of `match_core`: the fills made so far and the sweep of what rests now make up
the sweep of the whole call, and at the inner loop the order under `curr_idx` heads a level at an accepted price. Each
step keeps it and lowers `measure`, the orders left on the opposite side and whether quantity is left
(`Progress.step`). So the loops end, with the fills of the sweep, and stop for one of the reasons of `Ended`
(`match_core_terminates`).
-/

namespace TradeCore

open ObjectPool PriceTime

variable {maxOrders maxLevels : PoolCapacity} {engine : MatchingEngine maxOrders maxLevels} {action : OrderAction}
  {g0 g : Shape} {st st' : CoreState maxOrders maxLevels} {fills : List (Fill UInt32 UInt64)}

namespace MatchingEngine

/-- Why the outer loop stops: nothing is left to fill, nothing rests on the opposite side, or its best price is out of
reach of the limit. -/
def Ended (action : OrderAction) (st : CoreState maxOrders maxLevels) : Prop :=
  st.incoming.qty = 0 ∨ (st.engine.book.side action.opposite).hasBbo = false ∨
    action.type ≠ .market ∧ ∃ best, (st.engine.book.side action.opposite).bboLevel st.engine.book.levelPool = pure (some best) ∧
      outOfReach action best.price = true

/-- The sweep of what rests now by what is left of the order. -/
def ahead (action : OrderAction) (g : Shape) (qty : UInt32) : List (Fill UInt32 UInt64) × Queues UInt32 UInt64 × ℕ :=
  PriceTime.sweep action.takes (g.abs action.opposite) qty.toNat

/-- At the inner loop nothing is left to fill, or `curr_idx` is the first order of the best level, whose price is
accepted. -/
def AtPoint (action : OrderAction) (st : CoreState maxOrders maxLevels) (g : Shape) : Prop :=
  match st.point with
  | .outer => True
  | .inner currIdx => st.incoming.qty = 0 ∨ ∃ L l R, g action.opposite = L ++ keep l ++ R ∧ action.opposite.front L R = [] ∧
      action.takes l.price = true ∧ currIdx = headOf l.orders
  | .done => Ended action st ∧ ahead action g st.incoming.qty = ([], g.abs action.opposite, st.incoming.qty.toNat)

structure Progress (engine : MatchingEngine maxOrders maxLevels) (action : OrderAction) (g0 : Shape)
    (st : CoreState maxOrders maxLevels) (g : Shape) (fills : List (Fill UInt32 UInt64)) : Prop where
  inv : Inv st.engine.book g
  own : g action.opposite.flip = g0 action.opposite.flip
  incoming : st.incoming = { action with qty := st.incoming.qty }
  trades : st.trades.map Trade.core = tradesOf action.orderId engine.nextTradeId fills
  nextId : st.engine.nextTradeId = engine.nextTradeId + UInt64.ofNat fills.length
  sweep : action.sweep g0.abs = (fills ++ (ahead action g st.incoming.qty).1, (ahead action g st.incoming.qty).2.1,
    (ahead action g st.incoming.qty).2.2)
  here : AtPoint action st g

/-- A turn of the inner loop begins. -/
def InnerTurn (st : CoreState maxOrders maxLevels) (currIdx : Index) : Prop :=
  st.point = .inner currIdx ∧ currIdx ≠ kInvalidPoolIndex ∧ 0 < st.incoming.qty

/-- Orders that can still be filled from, and whether quantity is left; a turn of the inner loop lowers it by one. -/
def pending (action : OrderAction) (g : Shape) (qty : UInt32) : ℕ :=
  (orders (g.abs action.opposite)).length + (if qty = 0 then 0 else 1)

/-- Where control stands, as a number below three: the inner loop about to stop, the outer loop, a turn. -/
def rank (st : CoreState maxOrders maxLevels) : ℕ :=
  match st.point with
  | .outer => 1
  | .inner currIdx => if currIdx ≠ kInvalidPoolIndex ∧ st.incoming.qty > 0 then 0 else 2
  | .done => 0

def measure (action : OrderAction) (st : CoreState maxOrders maxLevels) (g : Shape) : ℕ :=
  3 * pending action g st.incoming.qty + rank st

/-- What a step emits: a turn of the inner loop one trade, with the order under `curr_idx` and of positive quantity; any
other step none. -/
structure Emits (st st' : CoreState maxOrders maxLevels) : Prop where
  turn : ∀ currIdx, InnerTurn st currIdx → ∃ t resting, st'.trades = st.trades ++ [t] ∧ 0 < t.quantity ∧
    st.engine.book.orderPool.get currIdx = pure resting ∧ t.restingOrderId = resting.orderId
  other : (∀ currIdx, ¬ InnerTurn st currIdx) → st'.trades = st.trades

theorem Emits.of_point {point : CorePoint} (hno : ∀ currIdx, ¬ InnerTurn st currIdx) :
    Emits st { st with point := point } :=
  ⟨fun currIdx h => absurd h (hno currIdx), fun _ => rfl⟩

/-! ## One fill on the queues -/

section Fill

variable {L R : List Level} {l : Level} {es : List Entry} {e : Entry} {qty : UInt32}

/-- **A fill of the oldest order of the best level** is the first fill of what lies ahead. -/
theorem ahead_fill (hg : g action.opposite = L ++ l :: R) (hfront : action.opposite.front L R = []) (hl : l.orders = e :: es)
    (haccepts : action.takes l.price = true) (hpos : 0 < qty) :
    ahead action g qty =
      (⟨l.price, e.id, (stdMin qty e.qty).toNat⟩ ::
        (ahead action (g.set action.opposite (L ++ keep (l.cut [] e es (stdMin qty e.qty)) ++ R)) (qty - stdMin qty e.qty)).1,
        (ahead action (g.set action.opposite (L ++ keep (l.cut [] e es (stdMin qty e.qty)) ++ R)) (qty - stdMin qty e.qty)).2.1,
        (ahead action (g.set action.opposite (L ++ keep (l.cut [] e es (stdMin qty e.qty)) ++ R)) (qty - stdMin qty e.qty)).2.2) := by
  have h0 := (pos_iff_toNat _).1 hpos
  have habs : l.abs = (l.price, e.abs :: es.map Entry.abs) := l.abs_split hl (A := [])
  unfold ahead
  rw [abs_focus hg, abs_set_self, hfront, habs, stdMin_sub, List.map_nil, List.nil_append, List.nil_append]
  by_cases hle : e.qty ≤ qty
  · obtain ⟨hes, hmin⟩ := cut_whole l es hle
    have hlevel : (l.cut [] e es (stdMin qty e.qty)).abs = (l.price, es.map Entry.abs) := by
      unfold Level.abs
      rw [hes]
      rfl
    rw [hlevel, hmin]
    exact sweep_whole h0 haccepts (UInt32.le_iff_toNat_le.1 hle)
  · have hlt := UInt32.not_le.1 hle
    obtain ⟨hes, hmin⟩ := cut_short l es hlt
    have hlevel : (l.cut [] e es (stdMin qty e.qty)).abs = (l.price, (e.id, e.qty.toNat - qty.toNat) :: es.map Entry.abs) := by
      unfold Level.abs
      rw [hes]
      rfl
    rw [hlevel, hmin, Nat.sub_self, sweep_zero, live_cons]
    exact sweep_short h0 haccepts (UInt32.lt_iff_toNat_lt.1 hlt)

/-- It leaves one order less, or nothing to fill. -/
theorem pending_fill (hg : g action.opposite = L ++ l :: R) (hl : l.orders = e :: es) (hpos : 0 < qty) :
    pending action (g.set action.opposite (L ++ keep (l.cut [] e es (stdMin qty e.qty)) ++ R)) (qty - stdMin qty e.qty) <
      pending action g qty := by
  have hne : qty ≠ 0 := fun h => by
    rw [h] at hpos
    exact UInt32.lt_irrefl _ hpos
  have hold : l.abs.2.length = es.length + 1 := by simp [Level.abs, hl]
  unfold pending
  rw [abs_focus hg, abs_set_self, if_neg hne]
  simp only [orders_append, orders_cons, orders_live, List.length_append, hold]
  by_cases hle : e.qty ≤ qty
  · have hnew : (l.cut [] e es (stdMin qty e.qty)).abs.2.length = es.length := by
      simp [Level.abs, (cut_whole l es hle).1]
    rw [hnew]
    split <;> omega
  · have hlt := UInt32.not_le.1 hle
    obtain ⟨hes, hmin⟩ := cut_short l es hlt
    have hnew : (l.cut [] e es (stdMin qty e.qty)).abs.2.length = es.length + 1 := by
      simp [Level.abs, hes]
    have hzero : qty - stdMin qty e.qty = 0 := by
      refine UInt32.toNat_inj.1 ?_
      rw [stdMin_sub, hmin, Nat.sub_self]
      rfl
    rw [hnew, if_pos hzero]
    omega

end Fill

/-! ## The steps -/

namespace Progress

variable (h : Progress engine action g0 st g fills)
include h

theorem side_eq : (sideOf st.incoming.side).flip = action.opposite := by
  rw [h.incoming]
  rfl

/-- Control moves on and nothing else changes. -/
theorem move {point : CorePoint} (hat : AtPoint action { st with point := point } g) :
    Progress engine action g0 { st with point := point } g fills :=
  ⟨h.inv, h.own, h.incoming, h.trades, h.nextId, h.sweep, hat⟩

/-- **At the outer loop**: it stops, or goes to the first order of the best level. -/
theorem outer_step (hp : st.point = .outer) : ∃ point, coreStep (action.type = .market) st = pure { st with point := point } ∧
    AtPoint action { st with point := point } g ∧ rank { st with point := point } = 0 := by
  by_cases hq : st.incoming.qty = 0
  · refine ⟨.done, coreStep_outer_stop hp ?_, ⟨Or.inl hq, ?_⟩, rfl⟩
    · rintro ⟨hpos, -⟩
      rw [hq] at hpos
      exact UInt32.lt_irrefl _ hpos
    · unfold ahead
      simp only [hq]
      exact sweep_zero _ _
  have hpos : 0 < st.incoming.qty := (pos_iff_toNat _).2 fun h0 => hq (UInt32.toNat_inj.1 h0)
  cases hls : g.abs action.opposite with
  | nil =>
    have hempty := bbo_empty h.inv.rep (abs_nil hls)
    refine ⟨.done, coreStep_outer_stop hp ?_, ⟨Or.inr (Or.inl hempty), ?_⟩, rfl⟩
    · rw [h.side_eq, hempty]
      simp
    · unfold ahead
      rw [hls]
      rfl
  | cons x ls =>
    obtain ⟨p, q⟩ := x
    obtain ⟨L, l, R, hg, hfront, hl, -⟩ := abs_cons hls
    have hlp : l.price = p := congrArg Prod.fst hl
    obtain ⟨hhas, hbest⟩ := bboLevel_eq h.inv.rep hg hfront
    have hat := h.inv.rep.level_at hg
    have hhead : (st.engine.book.levelPool.slots l.slot).headOrderIdx = headOf l.orders := hat.queue.head_eq
    have hreach : outOfReach st.incoming = outOfReach action := by
      rw [h.incoming]
      rfl
    have hstep : ∀ point, point = (if !decide (action.type = .market) && outOfReach action p then .done else .inner (headOf l.orders)) →
        coreStep (action.type = .market) st = pure { st with point := point } := by
      rintro _ rfl
      funext b
      rw [← hlp, ← hat.price, ← hreach, ← hhead]
      refine coreStep_best hp ⟨hpos, ?_⟩ ?_
      · rw [h.side_eq]
        exact hhas
      · rw [h.side_eq]
        exact congrFun hbest b
    have htakes : action.takes p = (decide (action.type = .market) || !outOfReach action p) := by
      rw [← accepts_eq_takes]
      rfl
    by_cases hout : (!decide (action.type = .market) && outOfReach action p) = true
    · refine ⟨.done, hstep _ (by rw [if_pos hout]), ⟨Or.inr (Or.inr ?_), ?_⟩, rfl⟩
      · rw [Bool.and_eq_true] at hout
        refine ⟨by simpa using hout.1, _, hbest, ?_⟩
        rw [hat.price, hlp]
        exact hout.2
      · unfold ahead
        rw [hls]
        refine sweep_stop (Or.inr ?_)
        rw [htakes]
        simpa using hout
    · refine ⟨.inner (headOf l.orders), hstep _ (by rw [if_neg hout]), Or.inr ⟨L, l, R, ?_, hfront, ?_, rfl⟩, ?_⟩
      · exact h.inv.focus_keep hg
      · rw [hlp, htakes]
        revert hout
        cases decide (action.type = .market) <;> cases outOfReach action p <;> simp
      · have hwf := h.inv.wf action.opposite l (by rw [hg]; simp)
        obtain ⟨e, es, hes⟩ := List.exists_cons_of_ne_nil hwf.nonempty
        have hv := h.inv.rep.orders.valid (mem_of_focus hg (A := []) (e := e) (B := es) hes)
        unfold rank
        rw [hes]
        exact if_pos ⟨hv.ne_invalid, hpos⟩

/-- **A turn of the inner loop** fills from the oldest order of the best level. -/
theorem fill_step {currIdx : Index} (hturn : InnerTurn st currIdx) : ∃ st' g' f,
    coreStep (action.type = .market) st = pure st' ∧ Progress engine action g0 st' g' (fills ++ [f]) ∧ Emits st st' ∧
      pending action g' st'.incoming.qty < pending action g st.incoming.qty := by
  obtain ⟨hp, hvalid, hpos⟩ := hturn
  have hhere := h.here
  unfold AtPoint at hhere
  rw [hp] at hhere
  obtain h0 | ⟨L, l, R, hg, hfront, haccepts, rfl⟩ := hhere
  · rw [h0] at hpos
    exact absurd hpos (UInt32.lt_irrefl _)
  obtain ⟨e, es, hl⟩ : ∃ e es, l.orders = e :: es := by
    refine List.exists_cons_of_ne_nil fun hnil => hvalid ?_
    rw [hnil]
    rfl
  have hg' : g action.opposite = L ++ l :: R := by
    rw [hg, keep_of_ne (by simp [hl]), List.append_assoc, List.singleton_append]
  obtain ⟨resting, t, book', hstep, h1⟩ := fillStep_ok h.inv hg' hl st.incoming
  have hhead : headOf l.orders = e.slot := by
    rw [hl]
    rfl
  have hrun : coreStep (action.type = .market) st = pure ⟨.inner (headOf es), st.engine.traded book',
      { st.incoming with qty := st.incoming.qty - t.quantity }, st.trades ++ [t]⟩ := by
    rw [coreStep_fill hp ⟨hvalid, hpos⟩, hhead]
    unfold fill
    rw [hstep.get, pure_bind]
    simp only [hstep.trade]
    rw [hstep.check, pure_bind, hstep.execute, pure_bind, hstep.next]
  have hahead := ahead_fill hg' hfront hl haccepts hpos
  have hsweep := h.sweep
  rw [hahead] at hsweep
  refine ⟨_, _, ⟨l.price, e.id, (stdMin st.incoming.qty e.qty).toNat⟩, hrun, ⟨h1, ?_, ?_, ?_, ?_, ?_, ?_⟩, ⟨?_, ?_⟩, ?_⟩
  · rw [Shape.set_flip]
    exact h.own
  · simp only
    rw [h.incoming]
  · rw [List.map_append, h.trades, tradesOf_append, List.map_cons, List.map_nil, hstep.core, ← h.nextId]
    have hid : st.incoming.orderId = action.orderId := by rw [h.incoming]
    simp [tradesOf, hid]
  · change st.engine.nextTradeId + 1 = _
    rw [h.nextId, List.length_append, UInt64.ofNat_add]
    abel
  · rw [hsweep, hstep.qty]
    simp
  · by_cases hle : e.qty ≤ st.incoming.qty
    · refine Or.inr ⟨L, _, R, Shape.set_self _ _ _, hfront, haccepts, ?_⟩
      rw [(cut_whole l es hle).1]
    · refine Or.inl (UInt32.toNat_inj.1 ?_)
      change (st.incoming.qty - t.quantity).toNat = 0
      rw [hstep.qty, stdMin_sub, (cut_short l es (UInt32.not_le.1 hle)).2, Nat.sub_self]
  · rintro _ ⟨hp', -, -⟩
    cases hp.symm.trans hp'
    refine ⟨t, resting, rfl, ?_, hhead ▸ hstep.get, ?_⟩
    · have hwf := h.inv.wf action.opposite l (by rw [hg']; simp)
      have he := (pos_iff_toNat _).1 (hwf.positive e (by rw [hl]; exact List.mem_cons_self))
      have hn := (pos_iff_toNat _).1 hpos
      rw [hstep.qty, pos_iff_toNat, stdMin_toNat]
      omega
    · rw [← hstep.trade]
      rfl
  · exact fun hno => absurd ⟨hp, hvalid, hpos⟩ (hno _)
  · rw [hstep.qty]
    exact pending_fill hg' hl hpos

/-- **A step returns**, keeps the invariant and lowers the measure, up to the end of the loops. -/
theorem step : ∃ st' g' fills', coreStep (action.type = .market) st = pure st' ∧ Progress engine action g0 st' g' fills' ∧
    Emits st st' ∧ (st.point ≠ .done → measure action st' g' < measure action st g) := by
  have hrank : ∀ st : CoreState maxOrders maxLevels, rank st ≤ 2 := by
    intro st
    unfold rank
    split
    · omega
    · split <;> omega
    · omega
  cases hp : st.point with
  | outer =>
    obtain ⟨point, hstep, hat, h0⟩ := h.outer_step hp
    refine ⟨_, g, fills, hstep, h.move hat, .of_point fun currIdx hturn => ?_, fun _ => ?_⟩
    · cases hp.symm.trans hturn.1
    · have h1 : rank st = 1 := by
        unfold rank
        rw [hp]
      unfold measure
      rw [h0, h1]
      exact Nat.lt_succ_self _
  | inner currIdx =>
    by_cases hgo : currIdx ≠ kInvalidPoolIndex ∧ st.incoming.qty > 0
    · obtain ⟨st', g', f, hstep, hprogress, hemits, hlt⟩ := h.fill_step ⟨hp, hgo⟩
      refine ⟨st', g', _, hstep, hprogress, hemits, fun _ => ?_⟩
      have := hrank st'
      unfold measure
      omega
    · refine ⟨_, g, fills, coreStep_inner_stop hp hgo, h.move trivial, .of_point fun currIdx' hturn => ?_, fun _ => ?_⟩
      · cases hp.symm.trans hturn.1
        exact hgo hturn.2
      · have h2 : rank st = 2 := by
          unfold rank
          rw [hp]
          exact if_neg hgo
        unfold measure
        rw [h2]
        exact Nat.lt_succ_self _
  | done =>
    refine ⟨st, g, fills, ?_, h, ⟨fun currIdx hturn => ?_, fun _ => rfl⟩, fun hne => absurd rfl hne⟩
    · unfold coreStep
      rw [hp]
    · cases hp.symm.trans hturn.1

theorem run (n : ℕ) : ∃ st' g' fills', coreRun (action.type = .market) n st = pure st' ∧
    Progress engine action g0 st' g' fills' := by
  induction n generalizing st g fills with
  | zero => exact ⟨st, g, fills, rfl, h⟩
  | succ n ih =>
    obtain ⟨st1, g1, fills1, hstep, h1, -⟩ := h.step
    obtain ⟨st2, g2, fills2, hrun, h2⟩ := ih h1
    exact ⟨st2, g2, fills2, by rw [coreRun, hstep, pure_bind, hrun], h2⟩

/-- **The loops end**: the measure cannot fall for ever. -/
theorem ends : ∃ n st' g' fills', coreRun (action.type = .market) n st = pure st' ∧
    Progress engine action g0 st' g' fills' ∧ st'.point = .done := by
  induction hm : measure action st g using Nat.strong_induction_on generalizing st g fills with
  | _ m ih =>
    by_cases hdone : st.point = .done
    · exact ⟨0, st, g, fills, rfl, h, hdone⟩
    · obtain ⟨st1, g1, fills1, hstep, h1, -, hlt⟩ := h.step
      obtain ⟨n, st2, g2, fills2, hrun, h2, hend⟩ := ih _ (hm ▸ hlt hdone) h1 rfl
      exact ⟨n + 1, st2, g2, fills2, by rw [coreRun, hstep, pure_bind, hrun], h2, hend⟩

/-- **What the loops did when they ended** is the sweep of the call. -/
theorem done_sweep (hp : st.point = .done) : Ended action st ∧
    action.sweep g0.abs = (fills, g.abs action.opposite, st.incoming.qty.toNat) := by
  have hhere := h.here
  unfold AtPoint at hhere
  rw [hp] at hhere
  refine ⟨hhere.1, ?_⟩
  rw [h.sweep, hhere.2, List.append_nil]

/-- The trades but the last are the fills but the last. -/
theorem mem_dropLast {t : Trade} (ht : t ∈ st.trades.dropLast) : ∃ f ∈ fills.dropLast, t.restingOrderId = f.maker ∧
    t.quantity = UInt32.ofNat f.qty := by
  have hcore : t.core ∈ (st.trades.map Trade.core).dropLast := by
    rw [← List.map_dropLast]
    exact List.mem_map.2 ⟨t, ht, rfl⟩
  rw [h.trades, dropLast_tradesOf] at hcore
  obtain ⟨f, hf, -, hmaker, -, hqty⟩ := mem_tradesOf hcore
  exact ⟨f, hf, hmaker, hqty⟩

/-- The makers of the trades. -/
theorem makers : st.trades.map Trade.restingOrderId = fills.map Fill.maker := by
  have hcore : st.trades.map Trade.restingOrderId = (st.trades.map Trade.core).map Trade.restingOrderId := by
    rw [List.map_map]
    rfl
  rw [hcore, h.trades, map_maker_tradesOf]

end Progress

theorem Progress.start (h : Inv engine.book g) (action : OrderAction) :
    Progress engine action g (coreStart engine action) g [] where
  inv := h
  own := rfl
  incoming := rfl
  trades := rfl
  nextId := by simp [coreStart]
  sweep := rfl
  here := trivial

end MatchingEngine

open MatchingEngine

/-- **The loops of `match_core` end, and make progress until they do**: each step returns, a turn of the inner loop emits
one trade of positive quantity, no order is traded twice, and every trade but the last takes all of its order, which is
gone then. -/
theorem match_core_progress (h : EngineReachable engine) (action : OrderAction) :
    (∀ n, ∃ st st', coreRun (action.type = .market) n (coreStart engine action) = pure st ∧
      coreStep (action.type = .market) st = pure st' ∧ Emits st st') ∧
    ∃ n st, coreRun (action.type = .market) n (coreStart engine action) = pure st ∧ st.point = .done ∧ Ended action st ∧
      (st.trades.map Trade.restingOrderId).Nodup ∧
      ∀ t ∈ st.trades.dropLast, engine.book.remainingOf t.restingOrderId = pure t.quantity ∧
        ¬ st.engine.book.Live t.restingOrderId := by
  obtain ⟨g, hg, -⟩ := h.inv
  have hstart := Progress.start hg action
  constructor
  · intro n
    obtain ⟨st, g', fills, hrun, hprogress⟩ := hstart.run n
    obtain ⟨st', -, -, hstep, -, hemits, -⟩ := hprogress.step
    exact ⟨st, st', hrun, hstep, hemits⟩
  · obtain ⟨n, st, g', fills, hrun, hprogress, hp⟩ := hstart.ends
    obtain ⟨hended, hsweep⟩ := hprogress.done_sweep hp
    obtain ⟨hids, hother⟩ := hg.rep.side_ids action.opposite
    have hserves : Serves (orders (g.abs action.opposite)) (action.sweep g.abs).1 (orders (action.sweep g.abs).2.1) :=
      sweep_serves action.takes (g.abs action.opposite) action.qty.toNat
    rw [hsweep] at hserves
    refine ⟨n, st, hrun, hp, hended, ?_, fun t ht => ?_⟩
    · rw [hprogress.makers]
      exact hserves.makers.nodup hids
    · obtain ⟨f, hf, hmaker, hqty⟩ := hprogress.mem_dropLast ht
      obtain ⟨hmem, hgone⟩ := hserves.exhausts hids f hf
      obtain ⟨l, hl, e, he, habs⟩ := mem_orders_abs hmem
      have hid : e.id = f.maker := congrArg Prod.fst habs
      have hq : e.qty.toNat = f.qty := congrArg Prod.snd habs
      have hmem' : e ∈ ordersOf g.levels := mem_ordersOf.2 ⟨l, Shape.mem_levels.2 ⟨_, hl⟩, he⟩
      rw [hmaker, hqty, ← hq, ← hid]
      constructor
      · rw [hg.rep.remainingOf hmem']
        simp
      · rw [hprogress.inv.rep.live_iff]
        rintro ⟨e', he', hid'⟩
        obtain ⟨l', hl', hel'⟩ := mem_ordersOf.1 he'
        obtain ⟨s, hs⟩ := Shape.mem_levels.1 hl'
        rcases Side.eq_or_eq_flip action.opposite s with rfl | rfl
        · refine hgone (List.mem_map.2 ⟨e'.abs, ?_, hid'.trans hid⟩)
          rw [(orders_abs_perm g' _).mem_iff]
          exact List.mem_map.2 ⟨e', mem_ordersOf.2 ⟨l', hs, hel'⟩, rfl⟩
        · rw [hprogress.own] at hs
          exact hother _ hmem e' (mem_ordersOf.2 ⟨l', hs, hel'⟩) (hid'.trans hid)

/-- A sell order that meets a resting bid. -/
theorem match_core_progress_two : ∃ r1 e1 r2 e2, ∃ n, ∃ st : CoreState four four,
    emptyEngine.matchOrder buyFive .debug = .ok (r1, e1) ∧ e1.matchOrder sellFive .debug = .ok (r2, e2) ∧
      e2.book.levelSlots .bid = [0] ∧ coreRun (sellThree.type = .market) n (coreStart e2 sellThree) = pure st ∧
      st.point = .done ∧ Ended sellThree st := by
  have hrun : restingSlots .debug = .ok ([0], [1]) := rfl
  obtain ⟨⟨r1, e1⟩, h1, hrun⟩ := Exec.bind_eq_ok.1 hrun
  obtain ⟨⟨r2, e2⟩, h2, hrun⟩ := Exec.bind_eq_ok.1 hrun
  have hslots : (e2.book.levelSlots .bid, e2.book.levelSlots .ask) = ([0], [1]) := Except.ok.inj hrun
  obtain ⟨n, st, hst, hdone, hended, -⟩ := (match_core_progress (.matched (.matched (.new _ _ _ _) h1) h2) sellThree).2
  exact ⟨r1, e1, r2, e2, n, st, h1, h2, congrArg Prod.fst hslots, hst, hdone, hended⟩

end TradeCore
