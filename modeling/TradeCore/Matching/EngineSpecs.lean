import TradeCore.Matching.MatchProofs
/-!
# `match` against the reference matcher

`referenceMatch` is what a match is for, on the queues of a book alone. `execute_spec` is the engine on a book
that is in order: it returns in either build, with the trades and the queues of the reference matcher.
`execute_debug` reads a debug run backwards: one that returned was of this kind.
-/

namespace TradeCore

open ObjectPool PriceTime

/-- The prices an order takes: any for a market order, else those no worse than its limit. -/
def OrderAction.takes (action : OrderAction) (p : UInt32) : Bool :=
  match action.type, sideOf action.side with
  | .market, _ => true
  | _, .bid => p ≤ action.price
  | _, .ask => action.price ≤ p

/-- The side an order trades with. -/
def OrderAction.opposite (action : OrderAction) : Side := (sideOf action.side).flip

/-- The sweep of an order: fills, what rests on the opposite side, what is left. -/
def OrderAction.sweep (action : OrderAction) (a : AbstractBook) :
    List (Fill UInt32 UInt64) × Queues UInt32 UInt64 × ℕ :=
  PriceTime.sweep action.takes (a action.opposite) action.qty.toNat

/-- The reference matcher: sweep the opposite side, then put what is left of a limit order at the tail of its
price. -/
def referenceMatch (a : AbstractBook) (nextTradeId : UInt64) (action : OrderAction) : List Trade × AbstractBook :=
  let (fills, rest, left) := action.sweep a
  let swept : AbstractBook := Function.update a action.opposite rest
  (tradesOf action.orderId nextTradeId fills,
    if left ≠ 0 ∧ action.type = .limit then swept.add (sideOf action.side) action.price action.orderId left else swept)

/-- The status of the reference matcher. -/
def referenceStatus (a : AbstractBook) (action : OrderAction) : ExecutionStatus :=
  let (fills, _, left) := action.sweep a
  if fills = [] then
    if action.type = .ioc ∨ action.type = .fok then .rejectedInvalid else .accepted
  else if left = 0 then .filled
  else .partiallyFilled

variable {maxOrders maxLevels : PoolCapacity} {engine engine' : MatchingEngine maxOrders maxLevels} {g g' : Shape}
  {action : OrderAction} {st : MatchState maxOrders maxLevels}

theorem accepts_eq_takes (action : OrderAction) :
    MatchingEngine.accepts (action.type = .market) action = action.takes := by
  funext p
  unfold MatchingEngine.accepts MatchingEngine.outOfReach OrderAction.takes sideOf
  have hflip : ∀ a b : UInt32, (!decide (a < b)) = decide (b ≤ a) := by
    intro a b
    by_cases h : a < b
    · simp [h, UInt32.not_le.2 h]
    · simp [h, UInt32.not_lt.1 h]
  cases action.type <;> by_cases hside : action.side = 0 <;> simp [hside, hflip]

theorem OrderAction.takes_mono (action : OrderAction) (p p' : UInt32) (hb : action.opposite.better p p')
    (ha : action.takes p' = true) : action.takes p = true := by
  rw [← accepts_eq_takes] at ha ⊢
  exact MatchingEngine.accepts_mono _ _ _ _ hb ha

namespace MatchingEngine

/-! ## The sweep -/

/-- What the sweep leaves behind. -/
structure Core (engine : MatchingEngine maxOrders maxLevels) (g : Shape) (action : OrderAction)
    (st : MatchState maxOrders maxLevels) (g' : Shape) : Prop where
  swept : Swept ⟨engine, action, StaticVector.empty⟩ st (action.sweep g.abs).1 (action.sweep g.abs).2.2
  inv : Inv st.engine.book g'
  rest : g'.abs = Function.update g.abs action.opposite (action.sweep g.abs).2.1
  own : g' (sideOf action.side) = g (sideOf action.side)
  shrinks : Shrinks g g'

/-- A side has no more prices than the pool has levels. -/
theorem length_abs_lt (h : Inv engine.book g) (s : Side) : (g.abs s).length < maxLevels.size + 1 := by
  have h1 := h.rep.levels.length_le
  have h2 : (g.abs s).length = (g s).length := by
    unfold Shape.abs
    cases s <;> simp [Side.bestFirst]
  have h3 : (g s).length ≤ g.levels.length := by
    unfold Shape.levels
    rw [List.length_append]
    cases s <;> omega
  omega

theorem core_spec (h : Inv engine.book g) (hfits : (action.sweep g.abs).1.length ≤ kMaxTradesPerMatch) :
    ∃ st g', matchCore (action.type = .market) (maxLevels.size + 1) ⟨engine, action, StaticVector.empty⟩ = pure st ∧
      Core engine g action st g' := by
  have hlen := length_abs_lt h action.opposite
  have hsweep : PriceTime.sweep (accepts (action.type = .market) action) (g.abs action.opposite) action.qty.toNat =
      action.sweep g.abs := by
    rw [accepts_eq_takes]
    rfl
  obtain ⟨st, g', e1, hsw, hinv, hrest, hflip, hshrink⟩ :=
    matchCore_spec (action.type = .market) ⟨engine, action, StaticVector.empty⟩ h rfl rfl hlen (by
      change 0 + (PriceTime.sweep (accepts (action.type = .market) action) (g.abs action.opposite) action.qty.toNat).1.length ≤ _
      rw [hsweep, Nat.zero_add]
      exact hfits)
  change Swept _ _ (PriceTime.sweep (accepts (action.type = .market) action) (g.abs action.opposite) action.qty.toNat).1
    (PriceTime.sweep (accepts (action.type = .market) action) (g.abs action.opposite) action.qty.toNat).2.2 at hsw
  change g'.abs action.opposite =
    (PriceTime.sweep (accepts (action.type = .market) action) (g.abs action.opposite) action.qty.toNat).2.1 at hrest
  rw [hsweep] at hsw hrest
  have hown : g' (sideOf action.side) = g (sideOf action.side) := by
    have hff : (sideOf action.side).flip.flip = sideOf action.side := by cases sideOf action.side <;> rfl
    rw [← hff]
    exact hflip
  refine ⟨st, g', e1, ⟨hsw, hinv, ?_, hown, hshrink⟩⟩
  funext s
  rcases Side.eq_or_eq_flip action.opposite s with rfl | rfl
  · rw [Function.update_self, hrest]
  · rw [Function.update_of_ne (by cases action.opposite <;> decide)]
    unfold Shape.abs
    have hff : action.opposite.flip = sideOf action.side := by
      unfold OrderAction.opposite
      cases sideOf action.side <;> rfl
    rw [hff, hown]

/-- The loops run into the end of the result. -/
theorem core_full (h : Inv engine.book g) (hfull : ¬ (action.sweep g.abs).1.length ≤ kMaxTradesPerMatch) (b : Build) :
    matchCore (action.type = .market) (maxLevels.size + 1) ⟨engine, action, StaticVector.empty⟩ b =
      .error (StaticVector.fullFault b) := by
  refine matchCore_overflow _ ⟨engine, action, StaticVector.empty⟩ h rfl rfl (length_abs_lt h action.opposite) ?_ b
  change _ < 0 + (PriceTime.sweep (accepts (action.type = .market) action) (g.abs action.opposite) action.qty.toNat).1.length
  rw [accepts_eq_takes, Nat.zero_add]
  exact Nat.lt_of_not_le hfull

theorem core_overflow (h : Inv engine.book g) (hfull : ¬ (action.sweep g.abs).1.length ≤ kMaxTradesPerMatch) (b : Build)
    (st : MatchState maxOrders maxLevels) :
    matchCore (action.type = .market) (maxLevels.size + 1) ⟨engine, action, StaticVector.empty⟩ b ≠ .ok st := by
  rw [core_full h hfull]
  nofun

/-! ## The residual order and the checks -/

/-- A book that only lost orders of the other side still takes what it would have taken before. -/
theorem rest_fits {book book' : OrderBook maxOrders maxLevels} {u u' : BookUpdate} (h : Inv book g) (h' : Inv book' g')
    (hs : Shrinks g g') (hown : g' (sideOf u.side) = g (sideOf u.side)) (hu : AddFits book g u) (hid : u'.orderId = u.orderId)
    (hq : 0 < u'.qty) (hp : u'.price = u.price) (hside : u'.side = u.side) : AddFits book' g' u' := by
  refine ⟨by rw [hid]; exact hu.id, fun k' hk' e => ?_, hq, by rw [hp]; exact hu.price, by rw [hp]; exact hu.window, ?_, ?_, ?_⟩
  · obtain ⟨k, hk, hkk⟩ := hs.ids k' hk'
    exact hu.fresh k hk (hkk.trans (e.trans hid))
  · have := hs.orders
    have := hu.slot
    omega
  · have h1 := hs.orders
    have h2 := hu.room
    rw [h.rep.orders.mapSize, h.rep.orders.capacity] at h2
    rw [h'.rep.orders.mapSize, h'.rep.orders.capacity]
    omega
  · rw [hside, hown, hp]
    have := hs.levels
    rcases hu.level with hl | hl
    · exact Or.inl hl
    · exact Or.inr (by omega)

theorem sum_quantities (aggressor id : UInt64) (fs : List (Fill UInt32 UInt64)) :
    ((tradesOf aggressor id fs).map Trade.quantity).sum = UInt32.ofNat (fs.map Fill.qty).sum := by
  induction fs generalizing id with
  | nil => rfl
  | cons f fs ih =>
    rw [tradesOf, List.map_cons, List.sum_cons, ih, List.map_cons, List.sum_cons, UInt32.ofNat_add]

/-- **What was traded and what is left make up the order.** -/
theorem Core.sum (h : Core engine g action st g') :
    (st.trades.data.map Trade.quantity).sum + st.incoming.qty = action.qty := by
  have hmap : st.trades.data.map Trade.quantity = (st.trades.data.map Trade.core).map Trade.quantity := by
    rw [List.map_map]
    rfl
  have hnil : (StaticVector.empty : Trades).data = [] := rfl
  rw [hmap, h.swept.trades, hnil, List.map_nil, List.nil_append, sum_quantities]
  have hsum : ((action.sweep g.abs).1.map Fill.qty).sum + (action.sweep g.abs).2.2 = action.qty.toNat := sweep_sum _ _ _
  have hleft : st.incoming.qty = UInt32.ofNat (action.sweep g.abs).2.2 := by
    rw [← h.swept.left, UInt32.ofNat_toNat]
  rw [hleft, ← UInt32.ofNat_add, hsum, UInt32.ofNat_toNat]

theorem verifyExecution_ok {book : OrderBook maxOrders maxLevels} (h : Core engine g action st g')
    (hbbo : st.incoming.qty > 0 ∧ st.incoming.type = .limit → (book.bids.hasBbo || book.asks.hasBbo) = true) :
    verifyExecution st.trades action.qty st.incoming book = pure () := by
  unfold verifyExecution
  rw [h.sum]
  by_cases hl : st.incoming.qty > 0 ∧ st.incoming.type = .limit
  · simp only [decide_true, tradecoreAssert_true, pure_bind, if_pos hl, hbbo hl]
  · simp only [decide_true, tradecoreAssert_true, pure_bind, if_neg hl]

theorem Core.status (h : Core engine g action st g') : statusOf st.incoming st.trades = referenceStatus g.abs action := by
  have htype : st.incoming.type = action.type := by rw [h.swept.incoming]
  have hlen := h.swept.length
  have hnil : (StaticVector.empty : Trades).data = [] := rfl
  simp only [hnil, List.length_nil, Nat.zero_add] at hlen
  have hempty : st.trades.data.isEmpty = true ↔ (action.sweep g.abs).1 = [] := by
    rw [List.isEmpty_iff, ← List.length_eq_zero_iff, hlen, List.length_eq_zero_iff]
  have hqty : st.incoming.qty = 0 ↔ (action.sweep g.abs).2.2 = 0 := by
    rw [← h.swept.left, ← UInt32.toNat_inj]
    rfl
  unfold statusOf referenceStatus
  simp only [hempty, hqty, htype]

/-- What a match that went through to the end returns. -/
structure Outcome (engine : MatchingEngine maxOrders maxLevels) (g : Shape) (action : OrderAction) (result : ExecutionResult)
    (engine' : MatchingEngine maxOrders maxLevels) (g' : Shape) : Prop where
  inv : Inv engine'.book g'
  book : g'.abs = (referenceMatch g.abs engine.nextTradeId action).2
  trades : result.trades.data.map Trade.core = (referenceMatch g.abs engine.nextTradeId action).1
  status : result.status = referenceStatus g.abs action
  nextId : engine'.nextTradeId = engine.nextTradeId + UInt64.ofNat (action.sweep g.abs).1.length
  risk : engine'.riskPipeline = engine.riskPipeline

/-- **Steps 4 and 5**, when a residual limit order fits. -/
theorem settle_spec (h : Core engine g action st g')
    (hfits : st.incoming.qty > 0 ∧ st.incoming.type = .limit →
      AddFits st.engine.book g' (restUpdate st.incoming st.engine.getTimestamp.1)) :
    ∃ result engine' g'', settle action.qty st = pure (result, engine') ∧ Outcome engine g action result engine' g'' := by
  have hcore : st.incoming = { action with qty := st.incoming.qty } := h.swept.incoming
  have htype : st.incoming.type = action.type := by rw [hcore]
  have hleft : st.incoming.qty.toNat = (action.sweep g.abs).2.2 := h.swept.left
  have htrades : st.trades.data.map Trade.core = tradesOf action.orderId engine.nextTradeId (action.sweep g.abs).1 := by
    rw [h.swept.trades]
    rfl
  by_cases hl : st.incoming.qty > 0 ∧ st.incoming.type = .limit
  · -- what remains goes into the book
    obtain ⟨book', g'', e1, h1, ha1⟩ := h.inv.add_run (hfits hl)
    have hside : (restUpdate st.incoming st.engine.getTimestamp.1).side = action.side := by
      change st.incoming.side = _
      rw [hcore]
    have habs : g''.abs = AbstractBook.add (Function.update g.abs action.opposite (action.sweep g.abs).2.1)
        (sideOf action.side) action.price action.orderId (action.sweep g.abs).2.2 := by
      rw [ha1, hside, h.rest]
      change AbstractBook.add _ _ st.incoming.price st.incoming.orderId st.incoming.qty.toNat = _
      rw [hleft, hcore]
    have hne : g''.abs (sideOf action.side) ≠ [] := by
      rw [habs, AbstractBook.add, Function.update_self]
      intro hnil
      have := mem_orders_add (sideOf action.side).better action.price (action.orderId, (action.sweep g.abs).2.2)
        (Function.update g.abs action.opposite (action.sweep g.abs).2.1 (sideOf action.side))
      rw [hnil] at this
      cases this
    have hbbo : (book'.bids.hasBbo || book'.asks.hasBbo) = true := by
      have := hasBbo_of_ne h1.rep hne
      cases hs : sideOf action.side with
      | bid =>
        rw [hs] at this
        exact Bool.or_eq_true_iff.2 (Or.inl this)
      | ask =>
        rw [hs] at this
        exact Bool.or_eq_true_iff.2 (Or.inr this)
    refine ⟨⟨statusOf st.incoming st.trades, st.trades⟩, { st.engine.getTimestamp.2 with book := book' }, g'', ?_,
      ⟨h1, ?_, ?_, h.status, h.swept.nextId, h.swept.risk⟩⟩
    · have hadd : st.engine.getTimestamp.2.book.addOrder (restUpdate st.incoming st.engine.getTimestamp.1) = pure book' := e1
      unfold settle
      rw [if_pos hl]
      simp only [hadd, pure_bind, verifyExecution_ok h fun _ => hbbo]
    · have hpos : (action.sweep g.abs).2.2 ≠ 0 ∧ action.type = .limit := by
        rw [← hleft, ← htype]
        exact ⟨(pos_iff_toNat _).1 hl.1, hl.2⟩
      unfold referenceMatch
      simp only [if_pos hpos]
      exact habs
    · exact htrades
  · refine ⟨⟨statusOf st.incoming st.trades, st.trades⟩, st.engine, g', ?_, ⟨h.inv, ?_, ?_, h.status, h.swept.nextId,
      h.swept.risk⟩⟩
    · unfold settle
      simp only [if_neg hl, pure_bind, verifyExecution_ok h fun hl' => absurd hl' hl]
    · have hno : ¬ ((action.sweep g.abs).2.2 ≠ 0 ∧ action.type = .limit) := by
        rw [← hleft, ← htype, ← pos_iff_toNat]
        exact hl
      unfold referenceMatch
      simp only [if_neg hno]
      exact h.rest
    · exact htrades

/-- **`match` past its pre-checks**, when the result holds the fills and the book takes a limit order. -/
theorem execute_spec (h : Inv engine.book g) (hfits : (action.sweep g.abs).1.length ≤ kMaxTradesPerMatch)
    (hrest : action.type = .limit → engine.book.AddOk (restUpdate action 0)) :
    ∃ result engine' g', engine.execute action = pure (result, engine') ∧ Outcome engine g action result engine' g' := by
  obtain ⟨st, g1, e1, hcore⟩ := core_spec h hfits
  have hin : st.incoming = { action with qty := st.incoming.qty } := hcore.swept.incoming
  obtain ⟨result, engine', g', e2, hout⟩ := settle_spec hcore fun hl => by
    have htype : action.type = .limit := by
      rw [← hl.2, hin]
    have hu := h.rep.addOk_iff.1 (hrest htype)
    refine rest_fits h hcore.inv hcore.shrinks hcore.own hu ?_ hl.1 ?_ ?_
    · change st.incoming.orderId = action.orderId
      rw [hin]
    · change st.incoming.price = action.price
      rw [hin]
    · change st.incoming.side = action.side
      rw [hin]
  exact ⟨result, engine', g', by unfold execute; rw [e1, pure_bind, e2], hout⟩

/-- **A debug run past the pre-checks that returned** did what the reference matcher does. -/
theorem execute_debug {result : ExecutionResult} (h : Inv engine.book g)
    (hrun : engine.execute action .debug = .ok (result, engine')) : ∃ g', Outcome engine g action result engine' g' := by
  have hfits : (action.sweep g.abs).1.length ≤ kMaxTradesPerMatch := by
    by_contra hfull
    obtain ⟨st, hst, -⟩ := Exec.bind_eq_ok.1 hrun
    exact core_overflow h hfull .debug st hst
  obtain ⟨st, g1, e1, hcore⟩ := core_spec h hfits
  unfold execute at hrun
  rw [e1, pure_bind] at hrun
  obtain ⟨result', engine'', g', e2, hout⟩ := settle_spec hcore fun hl => by
    unfold settle at hrun
    rw [if_pos hl] at hrun
    obtain ⟨book', hadd, -⟩ := Exec.bind_eq_ok.1 hrun
    exact hcore.inv.rep.addOk_iff.1 (hcore.inv.rep.addOk_of_debug hadd)
  rw [e2, Exec.pure_apply] at hrun
  cases hrun
  exact ⟨g', hout⟩

end MatchingEngine

end TradeCore
