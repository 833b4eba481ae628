import TradeCore.Lib.Priority
import TradeCore.Matching.ClockFree
import TradeCore.Matching.Conservation
/-!
# Priority over runs

One call serves the orders of a side in their order. Over a run of calls that makes a promise to every resting order: no
order behind it is traded before it has been traded as a whole (`priority_is_kept`), whatever comes in meanwhile, on
either side, at better prices or at its own.
-/

namespace TradeCore

open PriceTime

variable {maxOrders maxLevels : PoolCapacity} {engine engine' : MatchingEngine maxOrders maxLevels} {g g' : Shape}
  {action : OrderAction} {result : ExecutionResult} {s : Side} {x y : UInt64}

/-! ## What trades take -/

/-- The order that a trade takes from, and how much. -/
def Trade.taken (t : Trade) : UInt64 × ℕ := (t.restingOrderId, t.quantity.toNat)

theorem tradedIn_eq_heldIn (id : UInt64) (trades : List Trade) :
    tradedIn Trade.restingOrderId id trades = heldIn id (trades.map Trade.taken) := by
  unfold tradedIn heldIn
  rw [List.map_map]
  rfl

/-- The trades of a match take what its fills take. -/
theorem tradesOf_taken (aggressor n : UInt64) {fs : List (Fill UInt32 UInt64)} (hlt : (fs.map Fill.qty).sum < UInt32.size) :
    (tradesOf aggressor n fs).map Trade.taken = fs.map Fill.taken := by
  induction fs generalizing n with
  | nil => rfl
  | cons f fs ih =>
    rw [List.map_cons, List.sum_cons] at hlt
    have hf : (UInt32.ofNat f.qty).toNat = f.qty := UInt32.toNat_ofNat_of_lt' (by omega)
    rw [tradesOf, List.map_cons, List.map_cons, ih _ (by omega)]
    unfold Trade.taken Fill.taken
    rw [hf]

theorem MatchingEngine.Outcome.taken (h : MatchingEngine.Outcome engine g action result engine' g') :
    result.trades.data.map Trade.taken = (action.sweep g.abs).1.map Fill.taken := by
  rw [← tradesOf_taken action.orderId engine.nextTradeId (action.fills_lt g.abs)]
  have htrades := congrArg (List.map Trade.taken) h.trades
  rwa [List.map_map] at htrades

theorem OrderAction.opposite_ne (action : OrderAction) : action.opposite ≠ sideOf action.side := by
  unfold OrderAction.opposite
  cases sideOf action.side <;> decide

/-! ## One call -/

/-- What a call means for an order `x` and an order `y` behind it. -/
structure ServedInTurn (s : Side) (x y : UInt64) (a a' : AbstractBook) (trades : List Trade) : Prop where
  /-- Either `x` is still there, ahead of `y`, or it was traded as a whole. -/
  stays : (Before x y (orders (a' s)) ∧ held x (a s) = tradedIn Trade.restingOrderId x trades + held x (a' s)) ∨
    held x (a s) ≤ tradedIn Trade.restingOrderId x trades
  /-- Nothing was taken from `y` before that. -/
  behind : ∀ pre t post, trades = pre ++ t :: post → t.restingOrderId = y →
    held x (a s) ≤ tradedIn Trade.restingOrderId x pre

/-- A call without trades that leaves the book. -/
theorem ServedInTurn.idle {a : AbstractBook} (hb : Before x y (orders (a s))) : ServedInTurn s x y a a [] where
  stays := Or.inl ⟨hb, (Nat.zero_add _).symm⟩
  behind pre t post h := by cases pre <;> cases h

/-- The ids of the other side are others. -/
theorem Inv.other_side (h : Inv engine.book g) {o o' : UInt64 × ℕ} (ho : o ∈ orders (g.abs s)) (ho' : o' ∈ orders (g.abs s.flip)) :
    o'.1 ≠ o.1 := by
  obtain ⟨l, hl, e, he, rfl⟩ := mem_orders_abs ho'
  exact (h.rep.side_ids s).2 o ho e (mem_ordersOf.2 ⟨l, hl, he⟩)

/-- **The side that is swept**: the orders are taken from the front. -/
theorem MatchingEngine.Outcome.swept_in_turn (h : Inv engine.book g) (hout : MatchingEngine.Outcome engine g action result engine' g')
    (hb : Before x y (orders (g.abs action.opposite))) : ServedInTurn action.opposite x y g.abs g'.abs result.trades.data := by
  have hserves := sweep_serves action.takes (g.abs action.opposite) action.qty.toNat
  have hnd := (h.rep.side_ids action.opposite).1
  have hswept : g'.abs action.opposite = (action.sweep g.abs).2.1 := by
    rw [hout.book]
    unfold referenceMatch
    dsimp only
    split_ifs
    · rw [AbstractBook.add, Function.update_of_ne action.opposite_ne, Function.update_self]
    · rw [Function.update_self]
  have htaken := hout.taken
  have hbalance := hserves.balance x
  unfold OrderAction.sweep at hswept htaken
  rw [← hswept, ← htaken, ← tradedIn_eq_heldIn] at hbalance
  constructor
  · rcases hserves.before hnd hb with hstays | hgone
    · rw [← hswept] at hstays
      exact Or.inl ⟨hstays, hbalance⟩
    · rw [← hswept] at hgone
      unfold held
      exact Or.inr (by omega)
  · intro pre t post htrades hy
    have hsplit : (action.sweep g.abs).1.map Fill.taken = pre.map Trade.taken ++ (y, t.quantity.toNat) :: post.map Trade.taken := by
      rw [← hout.taken, htrades, List.map_append, List.map_cons, ← hy]
      rfl
    rw [tradedIn_eq_heldIn]
    exact (hserves.behind hnd hb hsplit).le

/-- **The side of the order itself**: nothing is taken from it, and a new order does not go between two others. -/
theorem MatchingEngine.Outcome.joined_in_turn (h : Inv engine.book g) (hout : MatchingEngine.Outcome engine g action result engine' g')
    (hs : s = sideOf action.side) (hb : Before x y (orders (g.abs s))) : ServedInTurn s x y g.abs g'.abs result.trades.data := by
  have hmaker : ∀ t ∈ result.trades.data, ∀ id ∈ (orders (g.abs s)).map Prod.fst, t.restingOrderId ≠ id := by
    intro t ht id hid
    obtain ⟨o, ho, rfl⟩ := List.mem_map.1 hid
    have htaken : t.taken ∈ (action.sweep g.abs).1.map Fill.taken := by
      rw [← hout.taken]
      exact List.mem_map.2 ⟨t, ht, rfl⟩
    obtain ⟨f, hf, hft⟩ := List.mem_map.1 htaken
    obtain ⟨o', ho', hid'⟩ := List.mem_map.1 ((sweep_serves _ _ _).makers.subset (List.mem_map.2 ⟨f, hf, rfl⟩))
    have hflip : action.opposite = s.flip := by
      rw [hs]
      rfl
    rw [hflip] at ho'
    have hne := h.other_side ho ho'
    rw [hid'] at hne
    have hrest : t.restingOrderId = f.maker := (congrArg Prod.fst hft).symm
    rw [hrest]
    exact hne
  have hnone : tradedIn Trade.restingOrderId x result.trades.data = 0 :=
    tradedIn_eq_zero fun t ht => hmaker t ht x hb.left
  constructor
  · refine Or.inl ?_
    rw [hnone, Nat.zero_add]
    have hother : s ≠ action.opposite := by
      rw [hs]
      exact action.opposite_ne.symm
    have hids := (hout.inv.rep.side_ids s).1
    rw [hout.book] at hids ⊢
    unfold referenceMatch at hids ⊢
    dsimp only at hids ⊢
    split_ifs at hids ⊢ with hrest
    · rw [AbstractBook.add, ← hs, Function.update_self, Function.update_of_ne hother] at hids ⊢
      have hnew : action.orderId ≠ x := by
        -- the ids of the side differ, the new one from that of `x` too
        obtain ⟨front, back, hsplit, hadd⟩ := add_between s.better action.price
          (action.orderId, (action.sweep g.abs).2.2) (g.abs s)
        have hx := hb.left
        rw [hsplit] at hx
        rw [hadd, List.map_append, List.map_cons, List.nodup_middle, List.nodup_cons, ← List.map_append] at hids
        rintro rfl
        exact hids.1 hx
      exact ⟨hb.add _ _, by rw [add_held, if_neg hnew, Nat.add_zero]⟩
    · rw [Function.update_of_ne hother]
      exact ⟨hb, rfl⟩
  · intro pre t post htrades hy
    exact absurd hy (hmaker t (by rw [htrades]; simp) y hb.right)

/-- **One call serves in turn.** -/
theorem EngineReachable.in_turn (h : EngineReachable engine) (hrun : engine.matchOrder action .debug = .ok (result, engine'))
    (hb : Before x y (orders (engine.book.abs s))) : ServedInTurn s x y engine.book.abs engine'.book.abs result.trades.data := by
  obtain ⟨g, hg, -⟩ := h.inv
  obtain ⟨met, hmet, -⟩ := Exec.bind_eq_ok.1 (by rw [← MatchingEngine.matchOrder_eq_loops]; exact hrun)
  rcases MatchingEngine.call_cases hg hmet hrun with ⟨status, -, -, rfl, rfl⟩ | ⟨-, st, g', -, hmatched⟩
  · exact .idle hb
  · have hout := hmatched.outcome
    rw [hg.rep.abs_eq] at hb ⊢
    rw [hout.inv.rep.abs_eq]
    rcases Side.eq_or_eq_flip (sideOf action.side) s with hs | hs
    · exact hout.joined_in_turn hg hs hb
    · obtain rfl : s = action.opposite := hs
      exact hout.swept_in_turn hg hb

/-! ## Runs of calls -/

/-- **Priority is kept.** Where order `x` rests ahead of order `y` on a side, at a better price or earlier at the same one, a
run of calls whose assertions hold trades from `y` only after its trades have taken from `x` all that remained of it. -/
theorem priority_is_kept (h : EngineReachable engine) {actions : List OrderAction} {results : List ExecutionResult}
    (hrun : engine.matchAll actions .debug = .ok (results, engine')) (hb : Before x y (orders (engine.book.abs s)))
    (pre : List Trade) (t : Trade) (post : List Trade) (htrades : (results.flatMap fun r => r.trades.data) = pre ++ t :: post)
    (hy : t.restingOrderId = y) : held x (engine.book.abs s) ≤ tradedIn Trade.restingOrderId x pre := by
  induction actions generalizing engine results pre with
  | nil =>
    cases hrun
    cases pre <;> cases htrades
  | cons action actions ih =>
    obtain ⟨⟨result, engine1⟩, hcall, hrun⟩ := Exec.bind_eq_ok.1 hrun
    obtain ⟨⟨results1, engine2⟩, hrest, hrun⟩ := Exec.bind_eq_ok.1 hrun
    cases hrun
    have hturn := h.in_turn hcall hb
    rw [List.flatMap_cons] at htrades
    rcases List.append_eq_append_iff.1 htrades with ⟨later, hpre, hlater⟩ | ⟨later, hfirst, hlater⟩
    · -- the trade is one of a later call
      have hsum : tradedIn Trade.restingOrderId x pre =
          tradedIn Trade.restingOrderId x result.trades.data + tradedIn Trade.restingOrderId x later := by
        rw [hpre, tradedIn_eq_heldIn, tradedIn_eq_heldIn, tradedIn_eq_heldIn, List.map_append, heldIn_append]
      rcases hturn.stays with ⟨hstays, hbalance⟩ | hgone
      · have hlater := ih (.matched h hcall) hrest hstays later hlater
        omega
      · omega
    · cases later with
      | nil =>
        -- the trade is the first one behind this call
        rw [List.append_nil] at hfirst
        rcases hturn.stays with ⟨hstays, hbalance⟩ | hgone
        · have hnext := ih (.matched h hcall) hrest hstays [] hlater.symm
          rw [hfirst] at hbalance
          have hzero : tradedIn Trade.restingOrderId x [] = 0 := rfl
          omega
        · rw [hfirst] at hgone
          exact hgone
      | cons t' later =>
        obtain ⟨rfl, -⟩ := List.cons.inj hlater
        exact hturn.behind pre t later hfirst hy

/-- Buy 5 at 100, behind the first order. -/
def buyBehind : OrderAction := ⟨3, 100, 5, 0, .limit⟩

/-- Sell 7 at 100 at once. -/
def sellSeven : OrderAction := ⟨4, 100, 7, 1, .ioc⟩

/-- The ids at the bid after the two buys, and who the sale trades with. -/
def queuedSale : Exec (List UInt64 × List UInt64) := do
  let (_, engine) ← emptyEngine.matchAll [buyFive, buyBehind]
  let (results, _) ← engine.matchAll [sellSeven]
  return ((orders (engine.book.abs .bid)).map Prod.fst, (results.flatMap fun r => r.trades.data).map Trade.restingOrderId)

theorem priority_is_kept_two : ∃ (r1 r2 : List ExecutionResult) (e1 e2 : MatchingEngine four four) (first second : Trade),
    emptyEngine.matchAll [buyFive, buyBehind] .debug = .ok (r1, e1) ∧ e1.matchAll [sellSeven] .debug = .ok (r2, e2) ∧
      (r2.flatMap fun r => r.trades.data) = [first, second] ∧ second.restingOrderId = 3 ∧
      held 1 (e1.book.abs .bid) ≤ tradedIn Trade.restingOrderId 1 [first] := by
  have hrun : queuedSale .debug = .ok ([1, 3], [1, 3]) := rfl
  obtain ⟨⟨r1, e1⟩, h1, hrun⟩ := Exec.bind_eq_ok.1 hrun
  obtain ⟨⟨r2, e2⟩, h2, hrun⟩ := Exec.bind_eq_ok.1 hrun
  obtain ⟨hids, htrades⟩ := Prod.mk.inj (Except.ok.inj hrun)
  have hlength := congrArg List.length htrades
  rw [List.length_map] at hlength
  obtain ⟨first, second, hboth⟩ := List.length_eq_two.1 hlength
  have hsecond : second.restingOrderId = 3 := by
    rw [hboth] at htrades
    exact (List.cons.inj (List.cons.inj htrades).2).1
  have hb : Before 1 3 (orders (e1.book.abs .bid)) := by
    unfold Before
    rw [hids]
  have hreach : EngineReachable e1 := MatchingEngine.matchAll_reachable (.new _ _ _ _) h1
  exact ⟨r1, r2, e1, e2, first, second, h1, h2, hboth, hsecond, priority_is_kept hreach h2 hb [first] second [] hboth hsecond⟩

end TradeCore
