import TradeCore.Lib.PriceTimeFlow
import TradeCore.Orderbook.BookRuns
/-!
# Level totals

`total_qty` is a `uint32_t` that five operations add to and subtract from. On a reachable book it is the sum of the
remaining quantities modulo 2^32, so it is exact where that sum is below 2^32 (`Inv.totalsExact_iff`). Only an
operation that adds quantity can leave that range: `BookOp.Roomy` is what it takes not to, and a run stays exact as
long as its operations do (`totals_exact_iff`).
-/

namespace TradeCore

open PriceTime

variable {maxOrders maxLevels : PoolCapacity} {book : OrderBook maxOrders maxLevels} {g : Shape} {a : AbstractBook}
  {op : BookOp}

/-- The total of each level is the sum, as a number, of what remains of the orders queued there. -/
def OrderBook.TotalsExact (book : OrderBook maxOrders maxLevels) : Prop :=
  ∀ s, ∀ i ∈ book.levelSlots s, (book.levelPool.slots i).totalQty.toNat =
    ((book.queueSlots i).map fun j => (book.orderPool.slots j).remainingQty.toNat).sum

/-- The sum at each price is a `uint32_t`. -/
def AbstractBook.Fits (a : AbstractBook) : Prop := ∀ s p, restingAt p (a s) < UInt32.size

/-- The quantity that an operation adds to a price fits there. -/
def BookOp.Roomy (a : AbstractBook) : BookOp → Prop
  | add u => restingAt u.price (a (sideOf u.side)) + u.qty.toNat < UInt32.size
  | cancel _ | execute _ | delete _ => True
  | modify u => ∀ s price r, a.lookup u.orderId = some (s, price, r) → r < u.qty.toNat →
      restingAt price (a.delete u.orderId s) + u.qty.toNat < UInt32.size
  | replace u => restingAt u.price (a.delete u.orderId (sideOf u.side)) + u.qty.toNat < UInt32.size

/-! ## Totals and sums -/

theorem toNat_sum (xs : List UInt32) : xs.sum.toNat = (xs.map UInt32.toNat).sum % UInt32.size := by
  induction xs with
  | nil => rfl
  | cons x xs ih =>
    rw [List.sum_cons, List.map_cons, List.sum_cons, UInt32.toNat_add, ih]
    exact Nat.add_mod_mod _ _ _

theorem Inv.restingAt_eq (h : Inv book g) {s : Side} {l : Level} (hl : l ∈ g s) :
    restingAt l.price (g.abs s) = (l.orders.map fun e => e.qty.toNat).sum := by
  have hmem : (l.price, l.orders.map Entry.abs) ∈ g.abs s := by
    rw [Shape.abs, Side.mem_bestFirst]
    exact List.mem_map.2 ⟨l, hl, rfl⟩
  rw [restingAt_of_mem (h.abs_ok s).sorted s.better_irrefl hmem, List.map_map]
  rfl

/-- **The total of a level** is what rests there, modulo 2^32. -/
theorem Inv.total_toNat (h : Inv book g) {s : Side} {l : Level} (hl : l ∈ g s) :
    l.total.toNat = restingAt l.price (g.abs s) % UInt32.size := by
  rw [(h.wf s l hl).total, toNat_sum, h.restingAt_eq hl, List.map_map]
  rfl

theorem Inv.totalsExact_iff (h : Inv book g) : book.TotalsExact ↔ g.abs.Fits := by
  have hlevel : ∀ s, ∀ l ∈ g s, ((book.levelPool.slots l.slot).totalQty.toNat =
      ((book.queueSlots l.slot).map fun j => (book.orderPool.slots j).remainingQty.toNat).sum ↔
        restingAt l.price (g.abs s) < UInt32.size) := by
    intro s l hl
    have hat := (h.rep.sides s).levels l hl
    have hqueue : ((book.queueSlots l.slot).map fun j => (book.orderPool.slots j).remainingQty.toNat).sum =
        restingAt l.price (g.abs s) := by
      rw [h.rep.queueSlots hl, List.map_map, h.restingAt_eq hl]
      refine congrArg List.sum (List.map_congr_left fun e he => ?_)
      exact congrArg UInt32.toNat (hat.orders e he).1.qty
    rw [hqueue, hat.total, h.total_toNat hl]
    constructor
    · intro e
      rw [← e]
      exact Nat.mod_lt _ (by decide)
    · exact Nat.mod_eq_of_lt
  constructor
  · intro hex s p
    by_cases hp : ∃ l ∈ g s, l.price = p
    · obtain ⟨l, hl, rfl⟩ := hp
      refine (hlevel s l hl).1 (hex s l.slot ?_)
      rw [h.rep.levelSlots]
      exact List.mem_map.2 ⟨l, hl, rfl⟩
    · have hzero : restingAt p (g.abs s) = 0 := by
        refine restingAt_eq_zero fun x hx e => hp ?_
        rw [Shape.abs, Side.mem_bestFirst] at hx
        obtain ⟨l, hl, rfl⟩ := List.mem_map.1 hx
        exact ⟨l, hl, e⟩
      rw [hzero]
      decide
  · intro hfits s i hi
    rw [h.rep.levelSlots] at hi
    obtain ⟨l, hl, rfl⟩ := List.mem_map.1 hi
    exact (hlevel s l hl).2 (hfits s l.price)

/-! ## One operation -/

/-- The order that is found is the only one of its id. -/
theorem Inv.lookup_unique (h : Inv book g) {s s' : Side} {o : UInt64 × ℕ} (ho : o ∈ PriceTime.orders (g.abs s)) {price : UInt32}
    {r : ℕ} (hlook : g.abs.lookup o.1 = some (s', price, r)) : o.2 = r := by
  obtain ⟨l, hl, e, he, rfl⟩ := mem_orders_abs ho
  obtain ⟨L, R, hg⟩ := List.append_of_mem hl
  obtain ⟨A, B, hAB⟩ := List.append_of_mem he
  have hfound : g.abs.lookup e.abs.1 = _ := abs_lookup h.rep hg hAB
  rw [hlook] at hfound
  cases hfound
  rfl

theorem Fits_adjust (hfits : a.Fits) {id : UInt64} {f : ℕ → ℕ} (hf : ∀ s, ∀ o ∈ PriceTime.orders (a s), o.1 = id → f o.2 ≤ o.2) :
    (a.adjust id f).Fits :=
  fun s p => Nat.lt_of_le_of_lt (adjust_restingAt_le (hf s) p) (hfits s p)

theorem Fits_delete (hfits : a.Fits) (id : UInt64) : (a.delete id).Fits :=
  Fits_adjust hfits fun _ _ _ _ => Nat.zero_le _

/-- An added quantity has to fit at its price, and only there. -/
theorem Fits_add (hfits : a.Fits) (s : Side) (price : UInt32) (id : UInt64) (qty : ℕ) :
    (a.add s price id qty).Fits ↔ restingAt price (a s) + qty < UInt32.size := by
  unfold AbstractBook.Fits AbstractBook.add
  constructor
  · intro hadd
    have := hadd s price
    rwa [Function.update_self, add_restingAt, if_pos rfl] at this
  · intro hroom s' p
    by_cases hs : s' = s
    · subst hs
      rw [Function.update_self, add_restingAt]
      by_cases hp : price = p
      · rw [if_pos hp, ← hp]
        exact hroom
      · rw [if_neg hp]
        exact hfits s' p
    · rw [Function.update_of_ne hs]
      exact hfits s' p

/-- **One operation** keeps the sums in range exactly when what it adds fits. -/
theorem Inv.fits_effect_iff (h : Inv book g) (hfits : g.abs.Fits) (op : BookOp) : (op.effect g.abs).Fits ↔ op.Roomy g.abs := by
  have hcancel : ∀ u : BookUpdate, (g.abs.cancel u.orderId u.qty.toNat).Fits :=
    fun u => Fits_adjust hfits fun _ _ _ _ => Nat.sub_le _ _
  cases op with
  | add u => exact Fits_add hfits _ _ _ _
  | cancel u => exact iff_of_true (hcancel u) trivial
  | execute u => exact iff_of_true (hcancel u) trivial
  | delete u => exact iff_of_true (Fits_delete hfits _) trivial
  | replace u => exact Fits_add (Fits_delete hfits _) _ _ _ _
  | modify u =>
    change (g.abs.modify u.orderId u.qty.toNat).Fits ↔ ∀ s price r, g.abs.lookup u.orderId = some (s, price, r) →
      r < u.qty.toNat → restingAt price (g.abs.delete u.orderId s) + u.qty.toNat < UInt32.size
    unfold AbstractBook.modify
    cases hlook : g.abs.lookup u.orderId with
    | none => exact iff_of_true hfits nofun
    | some found =>
      obtain ⟨s, price, r⟩ := found
      simp only
      split_ifs with hlt hgt
      · -- the order shrinks
        have hsmall : (g.abs.adjust u.orderId fun _ => u.qty.toNat).Fits := by
          refine Fits_adjust hfits fun s' o ho hid => ?_
          rw [← hid] at hlook
          have := h.lookup_unique ho hlook
          omega
        refine iff_of_true hsmall ?_
        rintro _ _ r' e hr
        cases e
        omega
      · rw [Fits_add (Fits_delete hfits _)]
        constructor
        · rintro hroom _ _ _ e -
          cases e
          exact hroom
        · intro hroom
          exact hroom s price r rfl hgt
      · refine iff_of_true hfits ?_
        rintro _ _ r' e hr
        cases e
        exact absurd hr hgt

/-! ## Runs -/

/-- A run of admissible operations from the empty book: the book it ends in, and each operation with the book it was
applied to. -/
inductive BookTrace : OrderBook maxOrders maxLevels → List (OrderBook maxOrders maxLevels × BookOp) → Prop where
  | new (orders : Index → Order) (levels : Index → PriceLevel) : BookTrace (OrderBook.new orders levels) []
  | step {book book' : OrderBook maxOrders maxLevels} {steps : List (OrderBook maxOrders maxLevels × BookOp)} {op : BookOp}
      {b : Build} : BookTrace book steps → op.Admissible book → op.run book b = .ok book' →
        BookTrace book' (steps ++ [(book, op)])

variable {steps : List (OrderBook maxOrders maxLevels × BookOp)}

theorem BookTrace.reachable (h : BookTrace book steps) : BookReachable book := by
  induction h with
  | new orders levels => exact .new orders levels
  | step _ hop hrun ih => exact .step ih hop hrun

theorem BookTrace.inv (h : BookTrace book steps) : ∃ g, Inv book g := h.reachable.inv

/-- **Level totals are exact** all along a run exactly when each of its operations had room for what it added. -/
theorem totals_exact_iff (h : BookTrace book steps) :
    ((∀ x ∈ steps, x.1.TotalsExact) ∧ book.TotalsExact) ↔ ∀ x ∈ steps, x.2.Roomy x.1.abs := by
  induction h with
  | new orders levels =>
    refine iff_of_true ⟨nofun, ?_⟩ nofun
    refine (inv_new orders levels).totalsExact_iff.2 fun s p => ?_
    cases s <;> exact Nat.succ_pos _
  | @step book book' steps op b htrace hop hrun ih =>
    obtain ⟨g, hg⟩ := htrace.inv
    obtain ⟨book'', g', e, hg', ha⟩ := hg.run hop
    rw [e, Exec.pure_apply] at hrun
    cases hrun
    have hstep : book.TotalsExact → (book'.TotalsExact ↔ op.Roomy book.abs) := by
      intro hex
      rw [hg'.totalsExact_iff, ha, hg.rep.abs_eq]
      exact hg.fits_effect_iff (hg.totalsExact_iff.1 hex) op
    simp only [List.mem_append, List.mem_singleton, or_imp, forall_and, forall_eq]
    constructor
    · rintro ⟨⟨hsteps, hex⟩, hex'⟩
      exact ⟨ih.1 ⟨hsteps, hex⟩, (hstep hex).1 hex'⟩
    · rintro ⟨hroom, hop'⟩
      obtain ⟨hsteps, hex⟩ := ih.2 hroom
      exact ⟨⟨hsteps, hex⟩, (hstep hex).2 hop'⟩

/-- Each operation has room for what it adds, after those before it. -/
def AbstractBook.RoomyAll (a : AbstractBook) : List BookOp → Prop
  | [] => True
  | op :: ops => op.Roomy a ∧ RoomyAll (op.effect a) ops

/-- A run that the checked build takes, operation by operation. -/
theorem BookTrace.runAll {after : OrderBook maxOrders maxLevels} {ops : List BookOp} (h : BookTrace book steps)
    (hrun : book.runAll ops .debug = .ok after) : ∃ more, BookTrace after (steps ++ more) ∧ more.map Prod.snd = ops ∧
      (book.abs.RoomyAll ops → ∀ x ∈ more, x.2.Roomy x.1.abs) := by
  induction ops generalizing book steps with
  | nil =>
    cases hrun
    exact ⟨[], by rwa [List.append_nil], rfl, fun _ => nofun⟩
  | cons op ops ih =>
    rw [OrderBook.runAll_cons] at hrun
    obtain ⟨book1, hone, hrest⟩ := Exec.bind_eq_ok.1 hrun
    obtain ⟨g, hg⟩ := h.inv
    have hop := hg.admissible_of_debug hone
    obtain ⟨more, htrace, hops, hroomy⟩ := ih (h.step hop hone) hrest
    obtain ⟨_, g1, e, hg1, habs⟩ := hg.run hop
    rw [e, Exec.pure_apply] at hone
    cases hone
    refine ⟨(book, op) :: more, by rwa [List.append_cons], by rw [List.map_cons, hops], fun hroom => ?_⟩
    obtain ⟨hfirst, hroom⟩ := hroom
    refine List.forall_mem_cons.2 ⟨hfirst, hroomy ?_⟩
    rw [hg1.rep.abs_eq, habs, ← hg.rep.abs_eq]
    exact hroom

theorem totals_exact_iff_busy : ∃ book steps, emptyBook.runAll busyRun .debug = .ok book ∧ BookTrace book steps ∧
    steps.map Prod.snd = busyRun ∧ (∀ x ∈ steps, x.1.TotalsExact) ∧ book.TotalsExact := by
  obtain ⟨book, hrun, -⟩ := busyRun_ends
  obtain ⟨steps, htrace, hops, hroomy⟩ := BookTrace.runAll (.new _ _) hrun
  have hroom : emptyBook.abs.RoomyAll busyRun := by
    rw [show emptyBook.abs = Shape.abs fun _ => [] from (rep_new _ _).abs_eq]
    refine ⟨?_, ?_, ?_, ?_, ?_, trivial, trivial, trivial⟩ <;> change restingAt _ _ + _ < UInt32.size <;> decide +kernel
  obtain ⟨hsteps, hbook⟩ := (totals_exact_iff htrace).2 (hroomy hroom)
  exact ⟨book, steps, hrun, htrace, hops, hsteps, hbook⟩

/-- Buy 2^31 at 100. -/
def buyHalf (id : UInt64) : BookUpdate :=
  { BookUpdate.zero with type := UpdateType.addOrder.toByte, price := 100, qty := 0x80000000, orderId := id }

/-- Two such orders: the level slots, the total of the first level, and what remains of its orders. -/
def twoHalves : Exec (List Index × UInt32 × List UInt32) := do
  let book : OrderBook four four := OrderBook.new (fun _ => Order.zero) fun _ => PriceLevel.zero
  let book ← book.addOrder (buyHalf 1)
  let book ← book.addOrder (buyHalf 2)
  return (book.levelSlots .bid, (book.levelPool.slots 0).totalQty,
    (book.queueSlots 0).map fun j => (book.orderPool.slots j).remainingQty)

/-- **A total that wrapped**: two valid orders of 2^31 make a level whose total is 0. -/
theorem level_total_wraps : ∃ book : OrderBook four four, BookReachable book ∧
    (∀ id, BookUpdateValidator.validate (buyHalf id) = true) ∧ (book.levelPool.slots 0).totalQty = 0 ∧
      ((book.queueSlots 0).map fun j => (book.orderPool.slots j).remainingQty) = [0x80000000, 0x80000000] ∧
      ¬ book.TotalsExact := by
  have hrun : twoHalves .debug = .ok ([0], 0, [0x80000000, 0x80000000]) := rfl
  obtain ⟨book1, h1, hrun⟩ := Exec.bind_eq_ok.1 hrun
  obtain ⟨book2, h2, hrun⟩ := Exec.bind_eq_ok.1 hrun
  obtain ⟨hslots, hrest⟩ := Prod.mk.inj (Except.ok.inj hrun)
  obtain ⟨htotal, hqueue⟩ := Prod.mk.inj hrest
  have hop1 : (BookOp.add (buyHalf 1)).Admissible _ := (rep_new (fun _ => Order.zero) fun _ => PriceLevel.zero).addOk_of_debug h1
  have hreach1 : BookReachable book1 := .step (.new _ _) hop1 h1
  obtain ⟨g, hg⟩ := hreach1.inv
  have hop2 : (BookOp.add (buyHalf 2)).Admissible book1 := hg.rep.addOk_of_debug h2
  have hreach2 : BookReachable book2 := .step hreach1 hop2 h2
  refine ⟨book2, hreach2, fun _ => rfl, htotal, hqueue, fun hex => ?_⟩
  have h0 := hex .bid 0 (by rw [hslots]; exact List.mem_singleton.2 rfl)
  have hmap : ((book2.queueSlots 0).map fun j => (book2.orderPool.slots j).remainingQty.toNat) =
      ((book2.queueSlots 0).map fun j => (book2.orderPool.slots j).remainingQty).map UInt32.toNat := by
    rw [List.map_map]
    rfl
  rw [htotal, hmap, hqueue] at h0
  revert h0
  decide

end TradeCore
