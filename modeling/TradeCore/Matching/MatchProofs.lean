import TradeCore.Matching.MatchMachine
import TradeCore.Orderbook.BookRuns
/-!
# `match_core` against the reference matcher

Each fill re-enters the book through `execute_order`, which may free the order and its level. One turn of the
inner loop is one step of `PriceTime.fillQueue` (`sweepLevel_step`), the inner loop is `fillQueue`, the outer
loop is `PriceTime.sweep` (`matchCore_spec`). `Swept` says what a stretch of the loops did to the trades, the
incoming order and the trade ids; `Shrinks` what it did to the book as a whole, for the residual order that may
have to be added afterwards. A match with more fills than the result holds ends in the fault of `push_back`
(`matchCore_overflow`).
-/

namespace TradeCore

open ObjectPool PriceTime LinkedList

variable {maxOrders maxLevels : PoolCapacity}

/-! ## Trades -/

/-- A trade, its timestamp aside. -/
def Trade.core (t : Trade) : Trade := { t with timestampNs := 0 }

/-- Fills as trades with consecutive ids, timestamps aside. -/
def tradesOf (aggressor : UInt64) : UInt64 → List (Fill UInt32 UInt64) → List Trade
  | _, [] => []
  | id, f :: fs => ⟨id, aggressor, f.maker, f.price, UInt32.ofNat f.qty, 0⟩ :: tradesOf aggressor (id + 1) fs

theorem tradesOf_append (aggressor id : UInt64) (fs fs' : List (Fill UInt32 UInt64)) :
    tradesOf aggressor id (fs ++ fs') = tradesOf aggressor id fs ++ tradesOf aggressor (id + UInt64.ofNat fs.length) fs' := by
  induction fs generalizing id with
  | nil => simp [tradesOf]
  | cons f fs ih =>
    have hid : id + UInt64.ofNat (f :: fs).length = id + 1 + UInt64.ofNat fs.length := by
      rw [List.length_cons, UInt64.ofNat_add]
      change id + (UInt64.ofNat fs.length + 1) = _
      abel
    rw [List.cons_append, tradesOf, tradesOf, ih, hid, List.cons_append]

theorem length_tradesOf (aggressor id : UInt64) (fs : List (Fill UInt32 UInt64)) :
    (tradesOf aggressor id fs).length = fs.length := by
  induction fs generalizing id with
  | nil => rfl
  | cons f fs ih => simp [tradesOf, ih]

/-- A trade is one of the fills. -/
theorem mem_tradesOf {aggressor id : UInt64} {fs : List (Fill UInt32 UInt64)} {t : Trade}
    (h : t ∈ tradesOf aggressor id fs) : ∃ f ∈ fs, t.aggressorOrderId = aggressor ∧ t.restingOrderId = f.maker ∧
      t.price = f.price ∧ t.quantity = UInt32.ofNat f.qty := by
  induction fs generalizing id with
  | nil => cases h
  | cons f fs ih =>
    rw [tradesOf] at h
    rcases List.mem_cons.1 h with rfl | h
    · exact ⟨f, List.mem_cons_self, rfl, rfl, rfl, rfl⟩
    · obtain ⟨f', hf', e⟩ := ih h
      exact ⟨f', List.mem_cons_of_mem f hf', e⟩

theorem map_maker_tradesOf (aggressor id : UInt64) (fs : List (Fill UInt32 UInt64)) :
    (tradesOf aggressor id fs).map Trade.restingOrderId = fs.map Fill.maker := by
  induction fs generalizing id with
  | nil => rfl
  | cons f fs ih => rw [tradesOf, List.map_cons, List.map_cons, ih]

theorem dropLast_tradesOf (aggressor id : UInt64) (fs : List (Fill UInt32 UInt64)) :
    (tradesOf aggressor id fs).dropLast = tradesOf aggressor id fs.dropLast := by
  induction fs generalizing id with
  | nil => rfl
  | cons f fs ih =>
    cases fs with
    | nil => rfl
    | cons f' fs =>
      have ih' := ih (id + 1)
      rw [tradesOf] at ih'
      rw [tradesOf, tradesOf, List.dropLast_cons_cons, ih', List.dropLast_cons_cons, tradesOf]

/-- The quantities of trades as numbers. -/
theorem sum_quantities_toNat (aggressor id : UInt64) {fs : List (Fill UInt32 UInt64)}
    (hlt : (fs.map Fill.qty).sum < UInt32.size) :
    ((tradesOf aggressor id fs).map fun t => t.quantity.toNat).sum = (fs.map Fill.qty).sum := by
  induction fs generalizing id with
  | nil => rfl
  | cons f fs ih =>
    rw [List.map_cons, List.sum_cons] at hlt
    have hf : (UInt32.ofNat f.qty).toNat = f.qty := UInt32.toNat_ofNat_of_lt' (by omega)
    rw [tradesOf, List.map_cons, List.sum_cons, ih _ (by omega), List.map_cons, List.sum_cons, hf]

/-- The fills `fills` were made, `left` is left. -/
structure Swept (st st' : MatchState maxOrders maxLevels) (fills : List (Fill UInt32 UInt64)) (left : ℕ) : Prop where
  trades : st'.trades.data.map Trade.core =
    st.trades.data.map Trade.core ++ tradesOf st.incoming.orderId st.engine.nextTradeId fills
  left : st'.incoming.qty.toNat = left
  incoming : st'.incoming = { st.incoming with qty := st'.incoming.qty }
  nextId : st'.engine.nextTradeId = st.engine.nextTradeId + UInt64.ofNat fills.length
  risk : st'.engine.riskPipeline = st.engine.riskPipeline

namespace Swept

variable {st st' st'' : MatchState maxOrders maxLevels} {fs fs' : List (Fill UInt32 UInt64)} {n n' : ℕ}

theorem refl (st : MatchState maxOrders maxLevels) : Swept st st [] st.incoming.qty.toNat where
  trades := by simp [tradesOf]
  left := rfl
  incoming := rfl
  nextId := by simp
  risk := rfl

theorem trans (h : Swept st st' fs n) (h' : Swept st' st'' fs' n') : Swept st st'' (fs ++ fs') n' where
  trades := by
    have hid : st'.incoming.orderId = st.incoming.orderId := by rw [h.incoming]
    rw [h'.trades, h.trades, hid, h.nextId, tradesOf_append, List.append_assoc]
  left := h'.left
  incoming := by rw [h'.incoming, h.incoming]
  nextId := by
    rw [h'.nextId, h.nextId, List.length_append, UInt64.ofNat_add]
    abel
  risk := h'.risk.trans h.risk

theorem length (h : Swept st st' fs n) : st'.trades.data.length = st.trades.data.length + fs.length := by
  have := congrArg List.length h.trades
  rwa [List.length_map, List.length_append, List.length_map, length_tradesOf] at this

theorem side_eq (h : Swept st st' fs n) : st'.incoming.side = st.incoming.side := by rw [h.incoming]

end Swept

/-! ## A book that only lost orders -/

/-- No order and no level is new. -/
structure Shrinks (g g' : Shape) : Prop where
  ids : ∀ k' ∈ ordersOf g'.levels, ∃ k ∈ ordersOf g.levels, k.id = k'.id
  orders : (ordersOf g'.levels).length ≤ (ordersOf g.levels).length
  levels : g'.levels.length ≤ g.levels.length

namespace Shrinks

variable {g g' g'' : Shape} {s : Side} {L R : List Level} {l : Level} {A B : List Entry} {e : Entry}

theorem refl (g : Shape) : Shrinks g g := ⟨fun k hk => ⟨k, hk, rfl⟩, le_rfl, le_rfl⟩

theorem trans (h : Shrinks g g') (h' : Shrinks g' g'') : Shrinks g g'' where
  ids k'' hk'' := by
    obtain ⟨k', hk', e'⟩ := h'.ids k'' hk''
    obtain ⟨k, hk, e⟩ := h.ids k' hk'
    exact ⟨k, hk, e.trans e'⟩
  orders := h'.orders.trans h.orders
  levels := h'.levels.trans h.levels

theorem cut (hg : g s = L ++ l :: R) (hl : l.orders = A ++ e :: B) (n : UInt32) :
    Shrinks g (g.set s (L ++ keep (l.cut A e B n) ++ R)) := by
  have hX : g s = L ++ [l] ++ R := by simpa using hg
  have hold := Shape.levels_focus hX
  have hnew := Shape.levels_perm g s L (keep (l.cut A e B n)) R
  have hkeep : ordersOf (keep (l.cut A e B n)) = A ++ (if n = e.qty then [] else [{ e with qty := e.qty - n }]) ++ B := by
    rw [ordersOf_keep]
    rfl
  have hordold := ordersOf_perm hold
  have hordnew := ordersOf_perm hnew
  rw [ordersOf_append, ordersOf_cons, ordersOf_nil, List.append_nil, hl] at hordold
  rw [ordersOf_append, hkeep] at hordnew
  refine ⟨fun k' hk' => ?_, ?_, ?_⟩
  · have hk := hordnew.mem_iff.1 hk'
    rcases List.mem_append.1 hk with hk | hk
    · rcases Level.mem_cut hk with ⟨rfl, -⟩ | hk
      · exact ⟨e, hordold.mem_iff.2 (by simp), rfl⟩
      · exact ⟨k', hordold.mem_iff.2 (List.mem_append_left _ hk), rfl⟩
    · exact ⟨k', hordold.mem_iff.2 (List.mem_append_right _ hk), rfl⟩
  · rw [hordnew.length_eq, hordold.length_eq]
    simp only [List.length_append, List.length_cons]
    split <;> simp only [List.length_nil, List.length_cons] <;> omega
  · have := length_keep (l.cut A e B n)
    rw [hnew.length_eq, hold.length_eq]
    simp only [List.length_append, List.length_cons, List.length_nil]
    omega

end Shrinks

/-! ## The inner loop -/

theorem stdMin_toNat (a b : UInt32) : (stdMin a b).toNat = min a.toNat b.toNat := by
  unfold stdMin
  by_cases h : b < a
  · rw [if_pos h]
    have := UInt32.lt_iff_toNat_lt.1 h
    omega
  · rw [if_neg h]
    have := UInt32.le_iff_toNat_le.1 (UInt32.not_lt.1 h)
    omega

theorem stdMin_le_left (a b : UInt32) : stdMin a b ≤ a := by
  rw [UInt32.le_iff_toNat_le, stdMin_toNat]
  exact Nat.min_le_left _ _

theorem stdMin_le_right (a b : UInt32) : stdMin a b ≤ b := by
  rw [UInt32.le_iff_toNat_le, stdMin_toNat]
  exact Nat.min_le_right _ _

theorem pos_iff_toNat (a : UInt32) : 0 < a ↔ a.toNat ≠ 0 := by
  rw [UInt32.lt_iff_toNat_lt]
  exact Nat.pos_iff_ne_zero

/-- The link to the first order of a queue. -/
def headOf (es : List Entry) : Index := (es.map Entry.slot).head?.getD kInvalidPoolIndex

namespace MatchingEngine

section Inner

variable {st : MatchState maxOrders maxLevels} {g : Shape} {s : Side} {L R : List Level} {l : Level} {es : List Entry}
  {e : Entry} {fuel : ℕ}

/-- A trade made from the orders it joins passes the check. -/
theorem verifyMatch_ok {incoming : OrderAction} {resting : Order} {id timestamp : UInt64} :
    verifyMatch ⟨id, incoming.orderId, resting.orderId, resting.price, stdMin incoming.qty resting.remainingQty, timestamp⟩
      incoming resting = pure () := by
  simp [verifyMatch, stdMin_le_left, stdMin_le_right]

theorem sweepLevel_done (fuel : ℕ) (st : MatchState maxOrders maxLevels) (curr : Index)
    (h : curr = kInvalidPoolIndex ∨ st.incoming.qty = 0) : sweepLevel (fuel + 1) st curr = pure st := by
  have hno : ¬ (curr ≠ kInvalidPoolIndex ∧ st.incoming.qty > 0) := by
    rintro ⟨h1, h2⟩
    rcases h with h | h
    · exact h1 h
    · rw [h] at h2
      exact UInt32.lt_irrefl _ h2
  unfold sweepLevel
  rw [if_neg hno]

/-- What the body of the inner loop meets and does when it comes to the order `e` in front of `es`. -/
structure FillStep (engine : MatchingEngine maxOrders maxLevels) (incoming : OrderAction) (price : UInt32) (e : Entry)
    (es : List Entry) (resting : Order) (t : Trade) (book' : OrderBook maxOrders maxLevels) : Prop where
  get : engine.book.orderPool.get e.slot = pure resting
  trade : fillTrade engine incoming resting = t
  check : verifyMatch t incoming resting = pure ()
  execute : engine.book.executeOrder (execUpdate t) = pure book'
  next : resting.nextInLevel = headOf es
  qty : t.quantity = stdMin incoming.qty e.qty
  core : t.core = ⟨engine.nextTradeId, incoming.orderId, e.id, price, stdMin incoming.qty e.qty, 0⟩

/-- **One fill**: the oldest order of a level, as far as it goes. -/
theorem fillStep_ok {engine : MatchingEngine maxOrders maxLevels} (h : Inv engine.book g) (hg : g s = L ++ l :: R)
    (hl : l.orders = e :: es) (incoming : OrderAction) :
    ∃ resting t book', FillStep engine incoming l.price e es resting t book' ∧
      Inv book' (g.set s (L ++ keep (l.cut [] e es (stdMin incoming.qty e.qty)) ++ R)) := by
  have hl' : l.orders = [] ++ e :: es := hl
  have hat := h.rep.level_at hg
  obtain ⟨⟨hid, hprice, hqty, -, -⟩, -⟩ := hat.orders e (by rw [hl]; simp)
  have hnext : (engine.book.orderPool.slots e.slot).nextInLevel = headOf es := by
    have hq := hat.queue
    rw [hl] at hq
    exact hq.2.head_eq
  obtain ⟨t, ht⟩ : ∃ t, fillTrade engine incoming (engine.book.orderPool.slots e.slot) = t := ⟨_, rfl⟩
  have hfill : t.quantity = stdMin incoming.qty e.qty := by
    rw [← ht, ← hqty]
    rfl
  have hmaker : (execUpdate t).orderId = e.id := by
    rw [← hid, ← ht]
    rfl
  have hle : (execUpdate t).qty ≤ e.qty := by
    change t.quantity ≤ e.qty
    rw [hfill]
    exact stdMin_le_right _ _
  obtain ⟨book', e1, h1, -⟩ := h.cancel_spec hg hl' hmaker hle
  refine ⟨_, t, book', ⟨get_eq _ (h.rep.orders.valid (mem_of_focus hg hl')), ht, ?_, e1, hnext, hfill, ?_⟩, ?_⟩
  · rw [← ht]
    exact verifyMatch_ok
  · rw [← hid, ← hprice, ← hqty, ← ht]
    rfl
  · change Inv book' (g.set s (L ++ keep (l.cut [] e es t.quantity) ++ R)) at h1
    rwa [hfill] at h1

theorem stdMin_sub (a b : UInt32) : (a - stdMin a b).toNat = a.toNat - (stdMin a b).toNat :=
  UInt32.toNat_sub_of_le _ _ (stdMin_le_left _ _)

/-- **One turn of the inner loop**: the oldest order is filled as far as it goes, or the result is full. -/
theorem sweepLevel_step (h : Inv st.engine.book g) (hg : g s = L ++ l :: R) (hl : l.orders = e :: es)
    (hpos : 0 < st.incoming.qty) (fuel : ℕ) :
    (st.trades.data.length < kMaxTradesPerMatch → ∃ st1,
      sweepLevel (fuel + 1) st e.slot = sweepLevel fuel st1 (headOf es) ∧
      Inv st1.engine.book (g.set s (L ++ keep (l.cut [] e es (stdMin st.incoming.qty e.qty)) ++ R)) ∧
      Swept st st1 [⟨l.price, e.id, (stdMin st.incoming.qty e.qty).toNat⟩]
        (st.incoming.qty.toNat - (stdMin st.incoming.qty e.qty).toNat)) ∧
    (¬ st.trades.data.length < kMaxTradesPerMatch → ∀ b,
      sweepLevel (fuel + 1) st e.slot b = .error (StaticVector.fullFault b)) := by
  have hl' : l.orders = [] ++ e :: es := hl
  have hv := h.rep.orders.valid (mem_of_focus hg hl')
  obtain ⟨resting, t, book', hstep, h1⟩ := fillStep_ok h hg hl st.incoming
  rw [sweepLevel_go ⟨hv.ne_invalid, hpos⟩, hstep.get, pure_bind, hstep.trade, hstep.check, pure_bind, hstep.execute, hstep.next]
  constructor
  · intro hroom
    refine ⟨⟨st.engine.traded book', { st.incoming with qty := st.incoming.qty - t.quantity },
      ⟨st.trades.data ++ [t], by simpa using hroom⟩⟩, ?_, h1, ⟨?_, ?_, rfl, rfl, rfl⟩⟩
    · rw [StaticVector.pushBack_ok _ _ hroom, pure_bind, pure_bind]
    · simp [tradesOf, hstep.core]
    · rw [hstep.qty]
      exact stdMin_sub _ _
  · intro hfull b
    exact Exec.bind_eq_error (StaticVector.pushBack_full hfull t b)

/-- The oldest order does not survive a fill of all that remains of it. -/
theorem cut_whole (l : Level) (es : List Entry) {qty : UInt32} (hle : e.qty ≤ qty) :
    (l.cut [] e es (stdMin qty e.qty)).orders = es ∧ (stdMin qty e.qty).toNat = e.qty.toNat := by
  have hmin : stdMin qty e.qty = e.qty := by
    refine UInt32.toNat_inj.1 ?_
    rw [stdMin_toNat]
    exact Nat.min_eq_right (UInt32.le_iff_toNat_le.1 hle)
  refine ⟨?_, by rw [hmin]⟩
  simp [Level.cut, hmin]

/-- Any other fill leaves it at the front. -/
theorem cut_short (l : Level) (es : List Entry) {qty : UInt32} (hlt : qty < e.qty) :
    (l.cut [] e es (stdMin qty e.qty)).orders.map Entry.abs = (e.id, e.qty.toNat - qty.toNat) :: es.map Entry.abs ∧
      (stdMin qty e.qty).toNat = qty.toNat := by
  have hlt' := UInt32.lt_iff_toNat_lt.1 hlt
  have hmin : stdMin qty e.qty = qty := by
    refine UInt32.toNat_inj.1 ?_
    rw [stdMin_toNat]
    exact Nat.min_eq_left (Nat.le_of_lt hlt')
  refine ⟨?_, by rw [hmin]⟩
  have hne : qty ≠ e.qty := fun e' => by
    rw [e'] at hlt
    exact UInt32.lt_irrefl _ hlt
  simp [Level.cut, hmin, hne, Entry.abs, UInt32.toNat_sub_of_le _ _ (UInt32.le_of_lt hlt)]

/-- **The inner loop is `fillQueue`**, as long as the result holds the fills. -/
theorem sweepLevel_spec (h : Inv st.engine.book g) (hg : g s = L ++ keep l ++ R) (hl : l.orders = es) (hf : es.length < fuel)
    (hfits : st.trades.data.length + (fillQueue l.price (es.map Entry.abs) st.incoming.qty.toNat).1.length ≤
      kMaxTradesPerMatch) :
    ∃ st' l', sweepLevel fuel st (headOf es) = pure st' ∧
      Swept st st' (fillQueue l.price (es.map Entry.abs) st.incoming.qty.toNat).1
        (fillQueue l.price (es.map Entry.abs) st.incoming.qty.toNat).2.2 ∧
      Inv st'.engine.book (g.set s (L ++ keep l' ++ R)) ∧
      l'.abs = (l.price, (fillQueue l.price (es.map Entry.abs) st.incoming.qty.toNat).2.1) ∧
      Shrinks g (g.set s (L ++ keep l' ++ R)) := by
  have hstay : g.set s (L ++ keep l ++ R) = g := by rw [← hg, Shape.set_eq_self]
  induction es generalizing st g l fuel with
  | nil =>
    obtain ⟨fuel, rfl⟩ := Nat.exists_eq_succ_of_ne_zero (by omega : fuel ≠ 0)
    refine ⟨st, l, sweepLevel_done _ _ _ (Or.inl rfl), Swept.refl st, by rwa [hstay], by simp [Level.abs, hl], ?_⟩
    rw [hstay]
    exact Shrinks.refl g
  | cons e es ih =>
    obtain ⟨fuel, rfl⟩ := Nat.exists_eq_succ_of_ne_zero (by omega : fuel ≠ 0)
    rw [List.length_cons] at hf
    have hg' : g s = L ++ l :: R := by
      rw [hg, keep_of_ne (by simp [hl]), List.append_assoc, List.singleton_append]
    have hhead : headOf (e :: es) = e.slot := rfl
    rw [List.map_cons] at hfits ⊢
    by_cases hz : st.incoming.qty.toNat = 0
    · have hz' : st.incoming.qty = 0 := UInt32.toNat_inj.1 hz
      rw [hz, fillQueue_zero]
      refine ⟨st, l, sweepLevel_done _ _ _ (Or.inr hz'), ?_, by rwa [hstay], by simp [Level.abs, hl], ?_⟩
      · have := Swept.refl st
        rwa [hz] at this
      · rw [hstay]
        exact Shrinks.refl g
    · have hstep := (sweepLevel_step h hg' hl ((pos_iff_toNat _).2 hz) fuel).1
      have hshrink : Shrinks g _ := Shrinks.cut (A := []) hg' hl (stdMin st.incoming.qty e.qty)
      by_cases hlt : st.incoming.qty < e.qty
      · -- the order absorbs what is left
        have hlt' := UInt32.lt_iff_toNat_lt.1 hlt
        have hfq : fillQueue l.price (e.abs :: es.map Entry.abs) st.incoming.qty.toNat = _ :=
          fillQueue_short hz (show st.incoming.qty.toNat < e.abs.2 from hlt')
        rw [hfq] at hfits ⊢
        simp only [List.length_cons, List.length_nil] at hfits
        obtain ⟨st1, e1, h1, hsw⟩ := hstep (by omega)
        obtain ⟨habs, hmin⟩ := cut_short l es hlt
        rw [hmin, Nat.sub_self] at hsw
        obtain ⟨fuel, rfl⟩ := Nat.exists_eq_succ_of_ne_zero (by omega : fuel ≠ 0)
        refine ⟨st1, _, ?_, hsw, h1, ?_, hshrink⟩
        · rw [hhead, e1]
          exact sweepLevel_done _ _ _ (Or.inr (UInt32.toNat_inj.1 hsw.left))
        · exact Prod.ext rfl habs
      · -- the order is used up
        have hle := UInt32.not_lt.1 hlt
        have hle' := UInt32.le_iff_toNat_le.1 hle
        have hfq : fillQueue l.price (e.abs :: es.map Entry.abs) st.incoming.qty.toNat = _ :=
          fillQueue_whole hz (show e.abs.2 ≤ st.incoming.qty.toNat from hle')
        rw [hfq] at hfits ⊢
        simp only [List.length_cons] at hfits
        obtain ⟨st1, e1, h1, hsw⟩ := hstep (by omega)
        obtain ⟨hes, hmin⟩ := cut_whole l es hle
        rw [hmin] at hsw
        have hlen := hsw.length
        have hqty : st1.incoming.qty.toNat = st.incoming.qty.toNat - e.qty.toNat := hsw.left
        obtain ⟨st2, l2, e2, hsw2, h2, habs2, hshrink2⟩ := ih h1 (Shape.set_self _ _ _) hes (show es.length < fuel by omega)
          (by
            rw [hqty, hlen]
            simp only [List.length_cons, List.length_nil]
            have : (l.cut [] e es (stdMin st.incoming.qty e.qty)).price = l.price := rfl
            rw [this]
            change _ + (fillQueue l.price (es.map Entry.abs) (st.incoming.qty.toNat - e.abs.2)).1.length ≤ _
            omega) (by rw [Shape.set_set])
        rw [hqty] at hsw2 habs2
        rw [Shape.set_set] at h2 hshrink2
        exact ⟨st2, l2, by rw [hhead, e1, e2], hsw.trans hsw2, h2, habs2, hshrink.trans hshrink2⟩

/-- **A queue with more fills than the result holds** ends in the fault of `push_back`. -/
theorem sweepLevel_overflow (h : Inv st.engine.book g) (hg : g s = L ++ keep l ++ R) (hl : l.orders = es) (hf : es.length < fuel)
    (hfull : kMaxTradesPerMatch <
      st.trades.data.length + (fillQueue l.price (es.map Entry.abs) st.incoming.qty.toNat).1.length) (b : Build) :
    sweepLevel fuel st (headOf es) b = .error (StaticVector.fullFault b) := by
  have hsize := st.trades.size_le
  induction es generalizing st g l fuel with
  | nil =>
    simp only [List.map_nil, fillQueue_nil, List.length_nil] at hfull
    omega
  | cons e es ih =>
    obtain ⟨fuel, rfl⟩ := Nat.exists_eq_succ_of_ne_zero (by omega : fuel ≠ 0)
    rw [List.length_cons] at hf
    have hg' : g s = L ++ l :: R := by
      rw [hg, keep_of_ne (by simp [hl]), List.append_assoc, List.singleton_append]
    have hhead : headOf (e :: es) = e.slot := rfl
    rw [List.map_cons] at hfull
    have hz : st.incoming.qty.toNat ≠ 0 := by
      intro hz
      rw [hz, fillQueue_zero] at hfull
      simp only [List.length_nil] at hfull
      omega
    obtain ⟨hstep, hstop⟩ := sweepLevel_step h hg' hl ((pos_iff_toNat _).2 hz) fuel
    rw [hhead]
    by_cases hroom : st.trades.data.length < kMaxTradesPerMatch
    · have hle : e.qty ≤ st.incoming.qty := by
        by_contra hlt
        have hlt' := UInt32.lt_iff_toNat_lt.1 (UInt32.not_le.1 hlt)
        have hfq : fillQueue l.price (e.abs :: es.map Entry.abs) st.incoming.qty.toNat = _ :=
          fillQueue_short hz (show st.incoming.qty.toNat < e.abs.2 from hlt')
        rw [hfq] at hfull
        simp only [List.length_cons, List.length_nil] at hfull
        omega
      have hfq : fillQueue l.price (e.abs :: es.map Entry.abs) st.incoming.qty.toNat = _ :=
        fillQueue_whole hz (show e.abs.2 ≤ st.incoming.qty.toNat from UInt32.le_iff_toNat_le.1 hle)
      rw [hfq] at hfull
      simp only [List.length_cons] at hfull
      obtain ⟨st1, e1, h1, hsw⟩ := hstep hroom
      obtain ⟨hes, hmin⟩ := cut_whole l es hle
      rw [hmin] at hsw
      have hlen := hsw.length
      have hqty : st1.incoming.qty.toNat = st.incoming.qty.toNat - e.qty.toNat := hsw.left
      rw [e1]
      refine ih h1 (Shape.set_self _ _ _) hes (Nat.lt_of_succ_lt_succ hf) ?_ st1.trades.size_le
      rw [hqty, hlen]
      simp only [List.length_cons, List.length_nil]
      change _ < _ + (fillQueue l.price (es.map Entry.abs) (st.incoming.qty.toNat - e.abs.2)).1.length
      omega
    · exact hstop hroom b

end Inner

/-! ## The outer loop -/

/-- The prices an incoming order trades at. -/
def accepts (isMarket : Bool) (incoming : OrderAction) (price : UInt32) : Bool := isMarket || !outOfReach incoming price

theorem accepts_of_swept {st st' : MatchState maxOrders maxLevels} {fs : List (Fill UInt32 UInt64)} {n : ℕ}
    (h : Swept st st' fs n) (isMarket : Bool) : accepts isMarket st'.incoming = accepts isMarket st.incoming := by
  rw [h.incoming]
  rfl

/-- A better price is accepted whenever a worse one is. -/
theorem accepts_mono (isMarket : Bool) (incoming : OrderAction) (p p' : UInt32)
    (hb : (sideOf incoming.side).flip.better p p') (ha : accepts isMarket incoming p' = true) :
    accepts isMarket incoming p = true := by
  cases isMarket with
  | true => rfl
  | false =>
    unfold accepts outOfReach at *
    by_cases hside : incoming.side = 0
    · have hb' : p < p' := by
        rw [hside] at hb
        exact hb
      simp only [hside, if_true, Bool.false_or, Bool.not_eq_true', decide_eq_false_iff_not, UInt32.not_lt, gt_iff_lt] at ha ⊢
      exact UInt32.le_trans (UInt32.le_of_lt hb') ha
    · have hb' : p' < p := by
        unfold sideOf at hb
        rw [if_neg hside] at hb
        exact hb
      simp only [hside, if_false, Bool.false_or, Bool.not_eq_true', decide_eq_false_iff_not, UInt32.not_lt] at ha ⊢
      exact UInt32.le_trans ha (UInt32.le_of_lt hb')

section Outer

variable {st : MatchState maxOrders maxLevels} {g : Shape} {s : Side} {L R : List Level} {l : Level}
  {book : OrderBook maxOrders maxLevels} {ls : Queues UInt32 UInt64} {fuel : ℕ} {isMarket : Bool}

/-- The loop ends with nothing to fill or nothing to fill from. -/
theorem matchCore_done (h : st.incoming.qty = 0 ∨ (st.engine.book.side (sideOf st.incoming.side).flip).hasBbo = false) :
    matchCore isMarket (fuel + 1) st = pure st := by
  have hno : ¬ (st.incoming.qty > 0 ∧ (st.engine.book.side (sideOf st.incoming.side).flip).hasBbo) := by
    rintro ⟨h1, h2⟩
    rcases h with h | h
    · rw [h] at h1
      exact UInt32.lt_irrefl _ h1
    · rw [h] at h2
      cases h2
  unfold matchCore
  rw [if_neg hno]

/-- **One turn of the outer loop**, at the best level. -/
theorem matchCore_turn (h : Inv st.engine.book g) (hs : s = (sideOf st.incoming.side).flip) (hg : g s = L ++ l :: R)
    (hfront : s.front L R = []) (hpos : 0 < st.incoming.qty) (isMarket : Bool) (fuel : ℕ) :
    matchCore isMarket (fuel + 1) st =
      if accepts isMarket st.incoming l.price = false then pure st
      else sweepLevel (maxOrders.size + 1) st (headOf l.orders) >>= matchCore isMarket fuel := by
  obtain ⟨hhas, hbest⟩ := bboLevel_eq h.rep hg hfront
  rw [hs] at hhas hbest
  have hat := h.rep.level_at hg
  have hgo : st.incoming.qty > 0 ∧ (st.engine.book.side (sideOf st.incoming.side).flip).hasBbo := ⟨hpos, hhas⟩
  have hhead : (st.engine.book.levelPool.slots l.slot).headOrderIdx = headOf l.orders := hat.queue.head_eq
  rw [matchCore, if_pos hgo, hbest, pure_bind]
  simp only [hat.price, hhead]
  unfold accepts
  cases isMarket <;> cases outOfReach st.incoming l.price <;> rfl

/-- **The outer loop is `sweep`**, as long as the result holds the fills. -/
theorem matchCore_spec (isMarket : Bool) (st : MatchState maxOrders maxLevels) (h : Inv st.engine.book g)
    (hs : s = (sideOf st.incoming.side).flip) (hls : g.abs s = ls)
    (hf : ls.length < fuel)
    (hfits : st.trades.data.length + (sweep (accepts isMarket st.incoming) ls st.incoming.qty.toNat).1.length ≤
      kMaxTradesPerMatch) :
    ∃ st' g', matchCore isMarket fuel st = pure st' ∧
      Swept st st' (sweep (accepts isMarket st.incoming) ls st.incoming.qty.toNat).1
        (sweep (accepts isMarket st.incoming) ls st.incoming.qty.toNat).2.2 ∧
      Inv st'.engine.book g' ∧ g'.abs s = (sweep (accepts isMarket st.incoming) ls st.incoming.qty.toNat).2.1 ∧
      g' s.flip = g s.flip ∧ Shrinks g g' := by
  induction ls generalizing st g fuel with
  | nil =>
    obtain ⟨fuel, rfl⟩ := Nat.exists_eq_succ_of_ne_zero (by omega : fuel ≠ 0)
    have hempty := bbo_empty h.rep (abs_nil hls)
    rw [hs] at hempty
    exact ⟨st, g, matchCore_done (Or.inr hempty), Swept.refl st, h, hls, rfl, Shrinks.refl g⟩
  | cons x ls ih =>
    obtain ⟨p, q⟩ := x
    obtain ⟨fuel, rfl⟩ := Nat.exists_eq_succ_of_ne_zero (by omega : fuel ≠ 0)
    rw [List.length_cons] at hf
    by_cases hz : st.incoming.qty.toNat = 0
    · rw [hz, sweep_zero]
      have hsw := Swept.refl st
      rw [hz] at hsw
      exact ⟨st, g, matchCore_done (Or.inl (UInt32.toNat_inj.1 hz)), hsw, h, hls, rfl, Shrinks.refl g⟩
    · obtain ⟨L, l, R, hg, hfront, hl, hback⟩ := abs_cons hls
      have hp : l.price = p := congrArg Prod.fst hl
      have hq : l.orders.map Entry.abs = q := congrArg Prod.snd hl
      have hturn := matchCore_turn h hs hg hfront ((pos_iff_toNat _).2 hz) isMarket fuel
      by_cases ha : accepts isMarket st.incoming p = true
      · rw [sweep_cons hz ha] at hfits ⊢
        simp only [List.length_append] at hfits
        rw [hp, if_neg (by simp [ha])] at hturn
        have hlen : l.orders.length < maxOrders.size + 1 := Nat.lt_succ_of_le (h.rep.queue_length_le hg)
        have hg' := h.focus_keep hg
        obtain ⟨st1, l1, e1, hsw1, h1, habs1, hshrink1⟩ := sweepLevel_spec h hg' rfl hlen (by rw [hp, hq]; omega)
        rw [hp, hq] at hsw1 habs1
        rw [e1, pure_bind] at hturn
        have hrest : (g.set s (L ++ keep l1 ++ R)).abs s = live (p, (fillQueue p q st.incoming.qty.toNat).2.1) ++ ls := by
          rw [abs_set_self, hfront, habs1, hback]
          rfl
        have hlen1 := hsw1.length
        have hacc := accepts_of_swept hsw1 isMarket
        have hside : s = (sideOf st1.incoming.side).flip := by rw [hsw1.side_eq, hs]
        by_cases hq' : (fillQueue p q st.incoming.qty.toNat).2.1 = []
        · -- the price is used up: on to the next one
          rw [hq', live_nil, List.nil_append] at hrest
          rw [hq', live_nil, List.nil_append]
          obtain ⟨st2, g2, e2, hsw2, h2, habs2, hflip2, hshrink2⟩ := ih _ h1 hside hrest (show ls.length < fuel by omega)
            (by rw [hacc, hsw1.left, hlen1]; omega)
          rw [hacc, hsw1.left] at hsw2 habs2
          rw [Shape.set_flip] at hflip2
          exact ⟨st2, g2, by rw [hturn, e2], hsw1.trans hsw2, h2, habs2, hflip2, hshrink1.trans hshrink2⟩
        · -- something rests at this price, so nothing is left to fill
          have h0 := (fillQueue_stop p q st.incoming.qty.toNat).resolve_left hq'
          have hdone : matchCore isMarket fuel st1 = pure st1 := by
            obtain ⟨fuel, rfl⟩ := Nat.exists_eq_succ_of_ne_zero (by omega : fuel ≠ 0)
            exact matchCore_done (Or.inl (UInt32.toNat_inj.1 (hsw1.left.trans h0)))
          rw [h0, sweep_zero, List.append_nil]
          rw [h0] at hsw1
          exact ⟨st1, _, by rw [hturn, hdone], hsw1, h1, hrest, Shape.set_flip _ _ _, hshrink1⟩
      · have ha' : accepts isMarket st.incoming p = false := by simpa using ha
        rw [sweep_stop (Or.inr ha')]
        refine ⟨st, g, ?_, Swept.refl st, h, hls, rfl, Shrinks.refl g⟩
        rw [hturn, hp, if_pos ha']

/-- **A match with more fills than the result holds** ends in the fault of `push_back`. -/
theorem matchCore_overflow (isMarket : Bool) (st : MatchState maxOrders maxLevels) (h : Inv st.engine.book g)
    (hs : s = (sideOf st.incoming.side).flip) (hls : g.abs s = ls) (hf : ls.length < fuel)
    (hfull : kMaxTradesPerMatch <
      st.trades.data.length + (sweep (accepts isMarket st.incoming) ls st.incoming.qty.toNat).1.length) (b : Build) :
    matchCore isMarket fuel st b = .error (StaticVector.fullFault b) := by
  have hsize := st.trades.size_le
  induction ls generalizing st g fuel with
  | nil =>
    simp only [sweep_nil, List.length_nil] at hfull
    omega
  | cons x ls ih =>
    obtain ⟨p, q⟩ := x
    obtain ⟨fuel, rfl⟩ := Nat.exists_eq_succ_of_ne_zero (by omega : fuel ≠ 0)
    rw [List.length_cons] at hf
    have hgo : st.incoming.qty.toNat ≠ 0 ∧ accepts isMarket st.incoming p = true := by
      by_contra hno
      rw [not_and_or, not_not, Bool.not_eq_true] at hno
      rw [sweep_stop hno] at hfull
      simp only [List.length_nil] at hfull
      omega
    obtain ⟨hz, ha⟩ := hgo
    obtain ⟨L, l, R, hg, hfront, hl, hback⟩ := abs_cons hls
    have hp : l.price = p := congrArg Prod.fst hl
    have hq : l.orders.map Entry.abs = q := congrArg Prod.snd hl
    have hturn := matchCore_turn h hs hg hfront ((pos_iff_toNat _).2 hz) isMarket fuel
    rw [hp, if_neg (by simp [ha])] at hturn
    have hg' := h.focus_keep hg
    have hlen : l.orders.length < maxOrders.size + 1 := Nat.lt_succ_of_le (h.rep.queue_length_le hg)
    rw [sweep_cons hz ha] at hfull
    simp only [List.length_append] at hfull
    rw [hturn]
    by_cases hroom : st.trades.data.length + (fillQueue p q st.incoming.qty.toNat).1.length ≤ kMaxTradesPerMatch
    · obtain ⟨st1, l1, e1, hsw1, h1, habs1, -⟩ := sweepLevel_spec (l := l) h hg' rfl hlen (by rw [hp, hq]; exact hroom)
      rw [hp, hq] at hsw1 habs1
      have hq' : (fillQueue p q st.incoming.qty.toNat).2.1 = [] := by
        by_contra hq'
        rw [(fillQueue_stop p q st.incoming.qty.toNat).resolve_left hq', sweep_zero] at hfull
        simp only [List.length_nil] at hfull
        omega
      have hrest : (g.set s (L ++ keep l1 ++ R)).abs s = ls := by
        rw [abs_set_self, hfront, habs1, hback, hq']
        rfl
      have hlen1 := hsw1.length
      have hacc := accepts_of_swept hsw1 isMarket
      have hside : s = (sideOf st1.incoming.side).flip := by rw [hsw1.side_eq, hs]
      rw [e1, pure_bind]
      exact ih _ h1 hside hrest (Nat.lt_of_succ_lt_succ hf) (by rw [hacc, hsw1.left, hlen1]; omega) st1.trades.size_le
    · exact Exec.bind_eq_error (sweepLevel_overflow (l := l) h hg' rfl hlen (by rw [hp, hq]; omega) b)

end Outer

end MatchingEngine

end TradeCore
