import TradeCore.Lib.PriceTimeFlow
import TradeCore.Matching.EngineCalls
/-!
# Lifetime quantity of an order

`Ledger` is carried along a run of calls: what an order came with is what it traded as the aggressor, what it traded
at rest, what remains of it in the book and what its call dropped. One call is one sweep, whose balance is
`PriceTime.sweep_held`; the order of the call is new to the book, and every other order only rests.
-/

namespace TradeCore

open ObjectPool PriceTime

variable {maxOrders maxLevels : PoolCapacity} {engine engine' : MatchingEngine maxOrders maxLevels} {g g' : Shape}
  {action : OrderAction} {result : ExecutionResult} {a : AbstractBook} {id : UInt64}

/-! ## What a book holds of an order -/

/-- The `remaining_qty` of an order in the book, zero when it is not there. -/
def OrderBook.remaining (book : OrderBook maxOrders maxLevels) (id : UInt64) : ℕ :=
  ((book.abs.lookup id).map fun found => found.2.2).getD 0

/-- What both sides hold of an order. -/
def AbstractBook.held (a : AbstractBook) (id : UInt64) : ℕ := PriceTime.held id (a .bid) + PriceTime.held id (a .ask)

theorem AbstractBook.held_eq (a : AbstractBook) (id : UInt64) (s : Side) :
    a.held id = PriceTime.held id (a s) + PriceTime.held id (a s.flip) := by
  cases s with
  | bid => rfl
  | ask => exact Nat.add_comm _ _

theorem Shape.held_abs (g : Shape) (id : UInt64) : g.abs.held id = heldIn id ((ordersOf g.levels).map Entry.abs) := by
  have hside : ∀ s, PriceTime.held id (g.abs s) = heldIn id ((ordersOf (g s)).map Entry.abs) := fun s =>
    heldIn_perm (orders_abs_perm g s)
  unfold AbstractBook.held Shape.levels
  rw [hside, hside, ordersOf_append, List.map_append, heldIn_append]

/-- **What remains of an order** is what its queue holds of it. -/
theorem Rep.remaining_eq {book : OrderBook maxOrders maxLevels} (h : Rep book g) (id : UInt64) :
    book.remaining id = g.abs.held id := by
  unfold OrderBook.remaining
  rw [h.abs_eq, Shape.held_abs]
  by_cases hmem : ∃ e ∈ ordersOf g.levels, e.id = id
  · obtain ⟨e, he, rfl⟩ := hmem
    obtain ⟨s, L, l, R, A, B, hg, hl⟩ := focus_of_mem he
    have hids : (((ordersOf g.levels).map Entry.abs).map Prod.fst).Nodup := by
      rw [List.map_map]
      exact h.orders.ids
    rw [abs_lookup h hg hl, heldIn_of_mem hids (List.mem_map.2 ⟨e, he, rfl⟩)]
    rfl
  · have hno : ∀ k ∈ ordersOf g.levels, k.id ≠ id := fun k hk hid => hmem ⟨k, hk, hid⟩
    have hheld : g.abs.held id = 0 := by
      unfold AbstractBook.held
      rw [held_eq_zero (abs_orders_ne hno .bid), held_eq_zero (abs_orders_ne hno .ask)]
    rw [← Shape.held_abs, hheld, abs_lookup_none hno]
    rfl

/-- **The balance of a match**, order by order. -/
theorem referenceMatch_held (a : AbstractBook) (nextTradeId : UInt64) (action : OrderAction) (id : UInt64) :
    (referenceMatch a nextTradeId action).2.held id + filled id (action.sweep a).1 =
      a.held id + if action.orderId = id ∧ action.type = .limit then (action.sweep a).2.2 else 0 := by
  have hsweep : filled id (action.sweep a).1 + PriceTime.held id (action.sweep a).2.1 = PriceTime.held id (a action.opposite) :=
    sweep_held id action.takes (a action.opposite) action.qty.toNat
  have hflip : action.opposite.flip = sideOf action.side := by
    unfold OrderAction.opposite
    cases sideOf action.side <;> rfl
  have hne : sideOf action.side ≠ action.opposite := by
    unfold OrderAction.opposite
    cases sideOf action.side <;> decide
  obtain ⟨swept, hswept⟩ : ∃ swept : AbstractBook, swept = Function.update a action.opposite (action.sweep a).2.1 := ⟨_, rfl⟩
  have hopp : swept action.opposite = (action.sweep a).2.1 := by rw [hswept, Function.update_self]
  have hown : swept (sideOf action.side) = a (sideOf action.side) := by rw [hswept, Function.update_of_ne hne]
  have hheld : swept.held id + filled id (action.sweep a).1 = a.held id := by
    rw [swept.held_eq id action.opposite, a.held_eq id action.opposite, hflip, hopp, hown]
    omega
  unfold referenceMatch
  simp only [← hswept]
  by_cases hrest : (action.sweep a).2.2 ≠ 0 ∧ action.type = .limit
  · rw [if_pos hrest]
    have hadd : (swept.add (sideOf action.side) action.price action.orderId (action.sweep a).2.2).held id =
        swept.held id + if action.orderId = id then (action.sweep a).2.2 else 0 := by
      rw [AbstractBook.held_eq _ id (sideOf action.side), swept.held_eq id (sideOf action.side)]
      unfold AbstractBook.add
      rw [Function.update_self, Function.update_of_ne (by cases sideOf action.side <;> decide), add_held]
      exact Nat.add_right_comm _ _ _
    rw [hadd]
    simp only [hrest.2, and_true]
    omega
  · rw [if_neg hrest, hheld]
    by_cases hl : action.type = .limit
    · have h0 : (action.sweep a).2.2 = 0 := by
        by_contra h0
        exact hrest ⟨h0, hl⟩
      simp [h0]
    · simp [hl]

/-- What rests after a match is the order itself or rested before. -/
theorem referenceMatch_rests {nextTradeId : UInt64} {s : Side} {p : UInt32} {r : ℕ}
    (h : Rests p id r ((referenceMatch a nextTradeId action).2 s)) :
    (s = sideOf action.side ∧ p = action.price ∧ id = action.orderId ∧ r = (action.sweep a).2.2 ∧ action.type = .limit) ∨
      ∃ r', Rests p id r' (a s) ∧ r ≤ r' := by
  obtain ⟨swept, hswept⟩ : ∃ swept : AbstractBook, swept = Function.update a action.opposite (action.sweep a).2.1 := ⟨_, rfl⟩
  have hold : Rests p id r (swept s) → ∃ r', Rests p id r' (a s) ∧ r ≤ r' := by
    intro hs
    rw [hswept] at hs
    by_cases he : s = action.opposite
    · subst he
      rw [Function.update_self] at hs
      exact sweep_rests hs
    · rw [Function.update_of_ne he] at hs
      exact ⟨r, hs, le_rfl⟩
  unfold referenceMatch at h
  simp only [← hswept] at h
  split_ifs at h with hrest
  · unfold AbstractBook.add at h
    by_cases he : s = sideOf action.side
    · subst he
      rw [Function.update_self] at h
      rcases add_rests h with ⟨hp, ho⟩ | h
      · obtain ⟨hid, hr⟩ := Prod.mk.inj ho
        exact Or.inl ⟨rfl, hp, hid, hr, hrest.2⟩
      · exact Or.inr (hold h)
    · rw [Function.update_of_ne he] at h
      exact Or.inr (hold h)
  · exact Or.inr (hold h)

/-! ## What an order traded -/

/-- What an order, named by `who`, traded in a list of trades. -/
def tradedIn (who : Trade → UInt64) (id : UInt64) (trades : List Trade) : ℕ :=
  (trades.map fun t => if who t = id then t.quantity.toNat else 0).sum

/-- What an order, named by `who`, traded in a run. -/
def traded (who : Trade → UInt64) (id : UInt64) (calls : List MatchCall) : ℕ :=
  (calls.map fun c => tradedIn who id c.result.trades.data).sum

theorem traded_concat (who : Trade → UInt64) (id : UInt64) (calls : List MatchCall) (c : MatchCall) :
    traded who id (calls ++ [c]) = traded who id calls + tradedIn who id c.result.trades.data := by
  simp [traded]

theorem tradedIn_eq_zero {who : Trade → UInt64} {trades : List Trade} (h : ∀ t ∈ trades, who t ≠ id) :
    tradedIn who id trades = 0 := by
  unfold tradedIn
  rw [List.sum_eq_zero]
  intro x hx
  obtain ⟨t, ht, rfl⟩ := List.mem_map.1 hx
  exact if_neg (h t ht)

theorem traded_eq_zero {who : Trade → UInt64} {calls : List MatchCall} (h : ∀ c ∈ calls, ∀ t ∈ c.result.trades.data, who t ≠ id) :
    traded who id calls = 0 := by
  unfold traded
  rw [List.sum_eq_zero]
  intro x hx
  obtain ⟨c, hc, rfl⟩ := List.mem_map.1 hx
  exact tradedIn_eq_zero (h c hc)

theorem tradedIn_map_core {who : Trade → UInt64} (hwho : ∀ t, who t.core = who t) (id : UInt64) (trades : List Trade) :
    tradedIn who id (trades.map Trade.core) = tradedIn who id trades := by
  unfold tradedIn
  rw [List.map_map]
  refine congrArg List.sum (List.map_congr_left fun t _ => ?_)
  simp only [Function.comp_apply, hwho]
  rfl

/-- What an order fills fits into a quantity. -/
theorem OrderAction.fills_lt (action : OrderAction) (a : AbstractBook) : ((action.sweep a).1.map Fill.qty).sum < UInt32.size := by
  have hsum : ((action.sweep a).1.map Fill.qty).sum + (action.sweep a).2.2 = action.qty.toNat := sweep_sum _ _ _
  have hlt := action.qty.toNat_lt
  rw [UInt32.size]
  omega

/-- The order of the call takes part in all its trades. -/
theorem tradedIn_aggressor (aggressor n : UInt64) {fs : List (Fill UInt32 UInt64)} (hlt : (fs.map Fill.qty).sum < UInt32.size) :
    tradedIn Trade.aggressorOrderId aggressor (tradesOf aggressor n fs) = (fs.map Fill.qty).sum := by
  rw [← sum_quantities_toNat aggressor n hlt]
  unfold tradedIn
  refine congrArg List.sum (List.map_congr_left fun t ht => ?_)
  obtain ⟨f, -, hagg, -⟩ := mem_tradesOf ht
  exact if_pos hagg

/-- The resting orders take part as they were filled. -/
theorem tradedIn_resting (aggressor n id : UInt64) {fs : List (Fill UInt32 UInt64)} (hlt : (fs.map Fill.qty).sum < UInt32.size) :
    tradedIn Trade.restingOrderId id (tradesOf aggressor n fs) = filled id fs := by
  induction fs generalizing n with
  | nil => rfl
  | cons f fs ih =>
    rw [List.map_cons, List.sum_cons] at hlt
    have hf : (UInt32.ofNat f.qty).toNat = f.qty := UInt32.toNat_ofNat_of_lt' (by omega)
    have := ih (n + 1) (by omega)
    unfold tradedIn at this ⊢
    simp only [tradesOf, List.map_cons, List.sum_cons, filled_cons, hf, this]

/-! ## The ledger of a run -/

/-- The ids submitted so far. -/
def submitted (calls : List MatchCall) : List UInt64 := calls.map fun c => c.action.orderId

/-- An order dropped quantity only when its call rejected it or it was no limit order. -/
def MatchCall.DropsRightly (c : MatchCall) : Prop :=
  c.discarded ≠ 0 → c.result.status = .rejectedRisk ∨ c.result.status = .rejectedInvalid ∨ c.action.type ≠ .limit

/-- The accounts of the orders submitted so far. -/
structure Ledger (a : AbstractBook) (calls : List MatchCall) : Prop where
  known : ∀ s p id r, Rests p id r (a s) → id ∈ submitted calls
  named : ∀ c ∈ calls, ∀ t ∈ c.result.trades.data, t.aggressorOrderId ∈ submitted calls ∧ t.restingOrderId ∈ submitted calls
  balance : ∀ c ∈ calls, c.action.qty.toNat = traded Trade.aggressorOrderId c.action.orderId calls +
    traded Trade.restingOrderId c.action.orderId calls + a.held c.action.orderId + c.discarded.toNat
  drops : ∀ c ∈ calls, c.DropsRightly

variable {rules : RiskPipeline} {calls : List MatchCall}

theorem submitted_concat (calls : List MatchCall) (c : MatchCall) : submitted (calls ++ [c]) = submitted calls ++ [c.action.orderId] := by
  simp [submitted]

namespace Ledger

/-- An id not submitted yet has traded nothing. -/
theorem traded_fresh (h : Ledger a calls) (hid : id ∉ submitted calls) :
    traded Trade.aggressorOrderId id calls = 0 ∧ traded Trade.restingOrderId id calls = 0 := by
  constructor
  · refine traded_eq_zero fun c hc t ht e => hid ?_
    rw [← e]
    exact (h.named c hc t ht).1
  · refine traded_eq_zero fun c hc t ht e => hid ?_
    rw [← e]
    exact (h.named c hc t ht).2

/-- An id not submitted yet rests nowhere. -/
theorem held_fresh (h : Ledger a calls) (hid : id ∉ submitted calls) : a.held id = 0 := by
  have hside : ∀ s, PriceTime.held id (a s) = 0 := by
    refine fun s => held_eq_zero fun o ho e => hid ?_
    obtain ⟨p, hp⟩ := rests_of_mem_orders ho
    rw [← e]
    exact h.known s p _ _ hp
  unfold AbstractBook.held
  rw [hside, hside]

theorem empty : Ledger AbstractBook.empty [] where
  known _ _ _ _ h := absurd h not_rests_nil
  named := nofun
  balance := nofun
  drops := nofun

/-- **A rejected call** drops the whole order. -/
theorem reject (h : Ledger a calls) (hid : action.orderId ∉ submitted calls) {status : ExecutionStatus}
    (hstatus : status = .rejectedRisk ∨ status = .rejectedInvalid) :
    Ledger a (calls ++ [⟨action, ⟨status, StaticVector.empty⟩, action.qty⟩]) where
  known s p id r hr := by
    rw [submitted_concat]
    exact List.mem_append_left _ (h.known s p id r hr)
  named c hc t ht := by
    rw [submitted_concat]
    rcases List.mem_append.1 hc with hc | hc
    · obtain ⟨h1, h2⟩ := h.named c hc t ht
      exact ⟨List.mem_append_left _ h1, List.mem_append_left _ h2⟩
    · obtain rfl := List.mem_singleton.1 hc
      cases ht
  balance c hc := by
    have hnone : ∀ who : Trade → UInt64, tradedIn who c.action.orderId ([] : List Trade) = 0 := fun _ => rfl
    rw [traded_concat, traded_concat]
    simp only [StaticVector.empty, hnone, Nat.add_zero]
    rcases List.mem_append.1 hc with hc | hc
    · exact h.balance c hc
    · obtain rfl := List.mem_singleton.1 hc
      obtain ⟨h1, h2⟩ := h.traded_fresh hid
      simp only [h1, h2, h.held_fresh hid, Nat.zero_add]
  drops c hc := by
    rcases List.mem_append.1 hc with hc | hc
    · exact h.drops c hc
    · obtain rfl := List.mem_singleton.1 hc
      exact fun _ => hstatus.imp_right Or.inl

/-- **A call that matched**: the order of the call pays for its fills, every other order for its own. -/
theorem settle (h : Ledger a calls) (hid : action.orderId ∉ submitted calls) {nextTradeId : UInt64} {dropped : UInt32}
    (htrades : result.trades.data.map Trade.core = (referenceMatch a nextTradeId action).1)
    (hdropped : dropped.toNat = if action.type = .limit then 0 else (action.sweep a).2.2) :
    Ledger (referenceMatch a nextTradeId action).2 (calls ++ [⟨action, result, dropped⟩]) := by
  have hsum : ((action.sweep a).1.map Fill.qty).sum + (action.sweep a).2.2 = action.qty.toNat := sweep_sum _ _ _
  have hlt : ((action.sweep a).1.map Fill.qty).sum < UInt32.size := by
    have := action.qty.toNat_lt
    rw [UInt32.size]
    omega
  have htrades' : result.trades.data.map Trade.core = tradesOf action.orderId nextTradeId (action.sweep a).1 := htrades
  have hmaker : ∀ f ∈ (action.sweep a).1, f.maker ∈ submitted calls := by
    intro f hf
    obtain ⟨-, r, hr, -⟩ := sweep_fill_rests hf
    exact h.known action.opposite _ _ _ hr
  have hheld := referenceMatch_held a nextTradeId action
  have hresting : ∀ id, tradedIn Trade.restingOrderId id result.trades.data = filled id (action.sweep a).1 := by
    intro id
    rw [← tradedIn_map_core (fun _ => rfl), htrades', tradedIn_resting _ _ _ hlt]
  have haggressor : tradedIn Trade.aggressorOrderId action.orderId result.trades.data = ((action.sweep a).1.map Fill.qty).sum := by
    rw [← tradedIn_map_core (fun _ => rfl), htrades', tradedIn_aggressor _ _ hlt]
  have hmem : ∀ t ∈ result.trades.data, t.aggressorOrderId = action.orderId ∧ t.restingOrderId ∈ submitted calls := by
    intro t ht
    have ht' : t.core ∈ result.trades.data.map Trade.core := List.mem_map.2 ⟨t, ht, rfl⟩
    rw [htrades'] at ht'
    obtain ⟨f, hf, hagg, hrest, -⟩ := mem_tradesOf ht'
    exact ⟨hagg, (show t.restingOrderId = f.maker from hrest) ▸ hmaker f hf⟩
  refine ⟨fun s p id r hr => ?_, fun c hc t ht => ?_, fun c hc => ?_, fun c hc => ?_⟩
  · rw [submitted_concat]
    rcases referenceMatch_rests hr with ⟨-, -, rfl, -⟩ | ⟨r', hr', -⟩
    · simp
    · exact List.mem_append_left _ (h.known s p id r' hr')
  · rw [submitted_concat]
    rcases List.mem_append.1 hc with hc | hc
    · obtain ⟨h1, h2⟩ := h.named c hc t ht
      exact ⟨List.mem_append_left _ h1, List.mem_append_left _ h2⟩
    · obtain rfl := List.mem_singleton.1 hc
      obtain ⟨h1, h2⟩ := hmem t ht
      exact ⟨by rw [h1]; simp, List.mem_append_left _ h2⟩
  · rw [traded_concat, traded_concat]
    simp only [hresting]
    rcases List.mem_append.1 hc with hc | hc
    · -- an earlier order only rests in this call
      have hne : action.orderId ≠ c.action.orderId := fun e => hid (e ▸ List.mem_map.2 ⟨c, hc, rfl⟩)
      have hnone : tradedIn Trade.aggressorOrderId c.action.orderId result.trades.data = 0 :=
        tradedIn_eq_zero fun t ht e => hne ((hmem t ht).1.symm.trans e)
      have h1 := h.balance c hc
      have h2 := hheld c.action.orderId
      rw [if_neg fun hx => hne hx.1] at h2
      rw [hnone]
      omega
    · -- the order of the call was not known before
      obtain rfl := List.mem_singleton.1 hc
      obtain ⟨h1, h2⟩ := h.traded_fresh hid
      have h3 := hheld action.orderId
      rw [h.held_fresh hid] at h3
      have h4 : filled action.orderId (action.sweep a).1 = 0 :=
        filled_eq_zero fun f hf e => hid (e ▸ hmaker f hf)
      simp only [h1, h2, haggressor, h4, hdropped]
      by_cases hl : action.type = .limit
      · rw [if_pos ⟨rfl, hl⟩] at h3
        rw [if_pos hl]
        omega
      · rw [if_neg fun hx => hl hx.2] at h3
        rw [if_neg hl]
        omega
  · rcases List.mem_append.1 hc with hc | hc
    · exact h.drops c hc
    · obtain rfl := List.mem_singleton.1 hc
      intro h0
      refine Or.inr (Or.inr fun hl => h0 ?_)
      rw [if_pos hl] at hdropped
      exact UInt32.toNat_inj.1 hdropped

end Ledger

/-- What a call that matched drops. -/
theorem MatchingEngine.Matched.discarded_toNat {st : MatchState maxOrders maxLevels}
    (h : MatchingEngine.Matched engine g action result engine' g' st) :
    (MatchingEngine.discarded action (.inr st)).toNat = if action.type = .limit then 0 else (action.sweep g.abs).2.2 := by
  unfold MatchingEngine.discarded
  simp only [h.type]
  rw [← h.left]
  by_cases hl : action.type = .limit
  · simp only [hl, and_true, if_true]
    split_ifs with hq
    · rfl
    · have := mt (pos_iff_toNat _).2 hq
      exact not_not.1 this
  · simp only [hl, and_false, if_false]

theorem CallRun.ledger (h : CallRun rules engine calls) (hids : (submitted calls).Nodup) : Ledger engine.book.abs calls := by
  induction h with
  | new clock orders levels =>
    have hempty : (MatchingEngine.new rules clock orders levels : MatchingEngine maxOrders maxLevels).book.abs = AbstractBook.empty := by
      rw [show (MatchingEngine.new rules clock orders levels : MatchingEngine maxOrders maxLevels).book.abs = _ from (rep_new _ _).abs_eq]
      funext s
      cases s <;> rfl
    rw [hempty]
    exact Ledger.empty
  | call hrun hmet hmatch ih =>
    rw [submitted_concat, List.nodup_append] at hids
    obtain ⟨hids, -, hnew⟩ := hids
    obtain ⟨g, hg, -⟩ := hrun.reachable.inv
    have hledger := ih hids
    have hid := fun hx => hnew _ hx _ List.mem_cons_self rfl
    rcases MatchingEngine.call_cases hg hmet hmatch with ⟨status, rfl, hstatus, rfl, rfl⟩ | ⟨-, st, g', rfl, hm⟩
    · exact hledger.reject hid hstatus
    · rw [hm.outcome.inv.rep.abs_eq, hm.outcome.book]
      rw [hg.rep.abs_eq] at hledger
      exact hledger.settle hid hm.outcome.trades hm.discarded_toNat

/-- **No quantity is created or lost**: at every point of a run of calls with pairwise distinct order ids, what an
order came with is what it traded, what remains of it and what its call dropped. -/
theorem quantity_conserved (h : CallRun rules engine calls) (hids : (submitted calls).Nodup) :
    ∀ c ∈ calls, c.action.qty.toNat = traded Trade.aggressorOrderId c.action.orderId calls +
        traded Trade.restingOrderId c.action.orderId calls + engine.book.remaining c.action.orderId + c.discarded.toNat ∧
      c.DropsRightly := by
  intro c hc
  obtain ⟨g, hg, -⟩ := h.reachable.inv
  have hledger := h.ledger hids
  rw [hg.rep.remaining_eq, ← hg.rep.abs_eq]
  exact ⟨hledger.balance c hc, hledger.drops c hc⟩

theorem quantity_conserved_two : ∃ (engine : MatchingEngine four four) (calls : List MatchCall),
    CallRun [] engine calls ∧ submitted calls = [1, 2] ∧ ∀ c ∈ calls, c.action.qty.toNat =
      traded Trade.aggressorOrderId c.action.orderId calls + traded Trade.restingOrderId c.action.orderId calls +
        engine.book.remaining c.action.orderId + c.discarded.toNat := by
  obtain ⟨engine, c1, c2, hrun, h1, h2, -⟩ := meeting_calls (show meeting [] .debug = .ok [3] from rfl)
  have hids : submitted [c1, c2] = [1, 2] := by simp [submitted, h1, h2, buyFive, sellThree]
  exact ⟨engine, [c1, c2], hrun, hids, fun c hc => (quantity_conserved hrun (by rw [hids]; decide) c hc).1⟩

end TradeCore
