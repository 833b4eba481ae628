import TradeCore.Orderbook.BookRuns
/-!
# What one operation changes

An operation takes some quantity off one order (`Cuts`), or puts one order at the tail of its level (`Pushes`), or
does both, in that order: `Inv.run_change` says it once for all operations, with the sides that were not written to.

From it, for every admissible operation on a reachable book: none of its internal checks fails
(`no_assertion_fails`), and the side it does not concern is untouched, record, level slots and order slots
(`side_isolation`).
-/

namespace TradeCore

open ObjectPool LinkedList PriceTime

variable {maxOrders maxLevels : PoolCapacity} {book book' : OrderBook maxOrders maxLevels} {g g' : Shape} {s : Side}
  {L R : List Level} {l : Level} {A B : List Entry} {e : Entry} {u : BookUpdate} {op : BookOp}

/-! ## The two changes -/

/-- Order `e` of side `s` loses `n`, and leaves when that is all of it. -/
def Shape.Cuts (s : Side) (e : Entry) (n : UInt32) (g g' : Shape) : Prop :=
  ∃ L l R A B, g s = L ++ l :: R ∧ l.orders = A ++ e :: B ∧ n ≤ e.qty ∧ g' = g.set s (L ++ keep (l.cut A e B n) ++ R)

/-- Order `e` arrives at the tail of its level of side `s`. -/
def Shape.Pushes (s : Side) (price : UInt32) (e : Entry) (g g' : Shape) : Prop :=
  ∃ L l R, LevelFor (g s) price L l R ∧ g' = g.set s (L ++ l.push e :: R)

theorem Shape.Cuts.flip_eq {n : UInt32} (h : Shape.Cuts s e n g g') : g' s.flip = g s.flip := by
  obtain ⟨L, l, R, A, B, -, -, -, rfl⟩ := h
  exact Shape.set_flip _ _ _

/-! ## The sides of an operation -/

/-- The order with this id rests on side `s`. -/
def OrderBook.RestsOn (book : OrderBook maxOrders maxLevels) (id : UInt64) (s : Side) : Prop :=
  ∃ j ∈ book.allOrders, (book.orderPool.slots j).orderId = id ∧ sideOf (book.orderPool.slots j).side = s

/-- The sides an operation concerns: that of its order; for `replace` those of both legs. -/
def BookOp.Concerns (book : OrderBook maxOrders maxLevels) : BookOp → Side → Prop
  | .add u, s => sideOf u.side = s
  | .cancel u, s | .execute u, s | .delete u, s | .modify u, s => book.RestsOn u.orderId s
  | .replace u, s => book.RestsOn u.orderId s ∨ sideOf u.side = s

theorem Rep.restsOn (h : Rep book g) (hg : g s = L ++ l :: R) (hl : l.orders = A ++ e :: B) : book.RestsOn e.id s := by
  have he := mem_of_focus hg hl
  obtain ⟨ho, hs⟩ := (h.level_at hg).orders e (by rw [hl]; simp)
  refine ⟨e.slot, ?_, ho.id, by rw [ho.side, hs]⟩
  rw [h.allOrders]
  exact List.mem_map.2 ⟨e, he, rfl⟩

/-! ## One operation -/

/-- The timestamps of new orders: `t` was the last one before the operation, `t'` is after it. -/
def BookOp.Stamps (book : OrderBook maxOrders maxLevels) (t t' : UInt64) : BookOp → Prop
  | .add u | .replace u => t ≤ u.timestampNs ∧ t' = u.timestampNs
  | .modify u => ∃ r, book.remainingOf u.orderId = pure r ∧
      if r < u.qty then t ≤ u.timestampNs ∧ t' = u.timestampNs else t' = t
  | .cancel _ | .execute _ | .delete _ => t' = t

theorem BookOp.Stamps.le {t t' : UInt64} (h : op.Stamps book t t') : t ≤ t' := by
  cases op with
  | add u | replace u =>
    obtain ⟨hle, rfl⟩ := h
    exact hle
  | modify u =>
    obtain ⟨r, -, h⟩ := h
    split at h
    · obtain ⟨hle, rfl⟩ := h
      exact hle
    · rw [h]
      exact UInt64.le_refl t
  | cancel u | execute u | delete u =>
    obtain rfl : t' = t := h
    exact UInt64.le_refl t'

/-- What an operation did: it took from an order or not, then an order arrived or not, and it wrote to no side that it
does not concern. -/
structure BookOp.Changed (op : BookOp) (book : OrderBook maxOrders maxLevels) (g : Shape) (book' : OrderBook maxOrders maxLevels)
    (g' : Shape) : Prop where
  inv : Inv book' g'
  change : ∃ g1, (g1 = g ∨ ∃ s e n, Shape.Cuts s e n g g1) ∧
    (g' = g1 ∨ ∃ s price e, Shape.Pushes s price e g1 g' ∧ ∀ t t', op.Stamps book t t' → t' = e.time)
  frame : ∀ s, ¬ op.Concerns book s → SideFrame book book' s (g s)

/-- The side that an operation on `s` may leave alone. -/
theorem eq_flip_of_not_concerns {s s' : Side} (hs' : ¬ op.Concerns book s') (hs : op.Concerns book s) : s' = s.flip := by
  refine (Side.eq_or_eq_flip s s').resolve_left ?_
  rintro rfl
  exact hs' hs

theorem Inv.add_change (h : Inv book g) (hu : AddFits book g u) :
    ∃ book' g' e, book.addOrder u = pure book' ∧ Inv book' g' ∧ Shape.Pushes (sideOf u.side) u.price e g g' ∧
      e.time = u.timestampNs ∧ SideFrame book book' (sideOf u.side).flip (g (sideOf u.side).flip) := by
  obtain ⟨book', L, l, R, i, e1, hfor, h1, hframe⟩ := h.add_spec hu
  exact ⟨book', _, u.entry i, e1, h1, ⟨L, l, R, hfor, rfl⟩, rfl, hframe⟩

theorem Inv.cancel_change (h : Inv book g) (hu : book.ReduceOk u) :
    ∃ book' g' s e n, book.cancelOrder u = pure book' ∧ Inv book' g' ∧ Shape.Cuts s e n g g' ∧ book.RestsOn u.orderId s ∧
      SideFrame book book' s.flip (g s.flip) := by
  obtain ⟨e, he, hid⟩ := h.rep.live_iff.1 hu.live
  obtain ⟨s, L, l, R, A, B, hg, hl⟩ := focus_of_mem he
  have hq : u.qty ≤ e.qty := hu.qty e.qty (by rw [← hid]; exact h.rep.remainingOf he)
  obtain ⟨book', e1, h1, hframe⟩ := h.cancel_spec hg hl hid.symm hq
  exact ⟨book', _, s, e, u.qty, e1, h1, ⟨L, l, R, A, B, hg, hl, hq, rfl⟩, hid ▸ h.rep.restsOn hg hl, hframe⟩

theorem Inv.delete_change (h : Inv book g) (hlive : book.Live u.orderId) :
    ∃ book' g' s e n, book.deleteOrder u = pure book' ∧ Inv book' g' ∧ Shape.Cuts s e n g g' ∧ book.RestsOn u.orderId s ∧
      SideFrame book book' s.flip (g s.flip) := by
  obtain ⟨e, he, hid⟩ := h.rep.live_iff.1 hlive
  obtain ⟨s, L, l, R, A, B, hg, hl⟩ := focus_of_mem he
  obtain ⟨book', e1, h1, hframe⟩ := h.delete_spec hg hl hid.symm
  exact ⟨book', _, s, e, e.qty, e1, h1, ⟨L, l, R, A, B, hg, hl, UInt32.le_refl _, rfl⟩, hid ▸ h.rep.restsOn hg hl, hframe⟩

/-- `modify_order`: one leg of each kind, one leg, or none. -/
theorem Inv.modify_change (h : Inv book g) (hlive : book.Live u.orderId) :
    ∃ book' g', book.modifyOrder u = pure book' ∧ (BookOp.modify u).Changed book g book' g' := by
  obtain ⟨e, he, hid⟩ := h.rep.live_iff.1 hlive
  obtain ⟨s, L, l, R, A, B, hg, hl⟩ := focus_of_mem he
  have hrest : book.RestsOn u.orderId s := hid ▸ h.rep.restsOn hg hl
  have hnot : ∀ s', ¬ (BookOp.modify u).Concerns book s' → s' = s.flip := fun s' hs' => eq_flip_of_not_concerns hs' hrest
  rw [h.modify_eq hg hl hid.symm]
  by_cases hlt : u.qty < e.qty
  · have hle : e.qty - u.qty ≤ e.qty := by
      rw [UInt32.le_iff_toNat_le, UInt32.toNat_sub_of_le _ _ (UInt32.le_of_lt hlt)]
      omega
    obtain ⟨book', e1, h1, hframe⟩ := h.cancel_spec (u := { u with qty := e.qty - u.qty }) hg hl hid.symm hle
    refine ⟨book', _, by rw [if_pos hlt, e1], h1, ⟨_, Or.inr ⟨s, e, _, L, l, R, A, B, hg, hl, hle, rfl⟩, Or.inl rfl⟩, ?_⟩
    intro s' hs'
    rw [hnot s' hs']
    exact hframe
  · by_cases hgt : u.qty > e.qty
    · have hsd : sideOf e.side = s := ((h.rep.level_at hg).orders e (by rw [hl]; simp)).2
      obtain ⟨book1, e1, h1, hframe1⟩ := h.delete_spec hg hl hid.symm
      have hfits := h.readd_fits (u := { u with price := l.price, side := e.side }) hg hl h1 hid.symm
        (UInt32.lt_of_le_of_lt (UInt32.le_iff_toNat_le.2 (Nat.zero_le _)) hgt) rfl hsd
      obtain ⟨book2, g2, k, e2, h2, hpush, htime, hframe2⟩ := h1.add_change hfits
      refine ⟨book2, g2, by rw [if_neg hlt, if_pos hgt, e1, pure_bind, e2], h2,
        ⟨_, Or.inr ⟨s, e, _, L, l, R, A, B, hg, hl, UInt32.le_refl _, rfl⟩, Or.inr ⟨_, _, k, hpush, ?_⟩⟩, ?_⟩
      · rintro t t' ⟨r, hr, hstamp⟩
        rw [← hid, h.rep.remainingOf he] at hr
        rw [← Exec.pure_inj hr, if_pos hgt] at hstamp
        rw [hstamp.2, htime]
      · intro s' hs'
        rw [hnot s' hs']
        rw [hsd, Shape.set_flip] at hframe2
        exact hframe1.trans hframe2
    · exact ⟨book, g, by rw [if_neg hlt, if_neg hgt], h, ⟨g, Or.inl rfl, Or.inl rfl⟩, fun s' _ => SideFrame.refl _ _ _⟩

/-- **One operation**, as changes of the shape. -/
theorem Inv.run_change (h : Inv book g) (hop : op.Admissible book) :
    ∃ book' g', op.run book = pure book' ∧ op.Changed book g book' g' := by
  cases op with
  | add u =>
    obtain ⟨book', g', e, e1, h1, hpush, htime, hframe⟩ := h.add_change (h.rep.addOk_iff.1 hop)
    refine ⟨book', g', e1, h1, ⟨g, Or.inl rfl, Or.inr ⟨_, _, e, hpush, ?_⟩⟩, ?_⟩
    · rintro t t' ⟨-, rfl⟩
      exact htime.symm
    · intro s hs
      rw [eq_flip_of_not_concerns hs rfl]
      exact hframe
  | cancel u | execute u =>
    obtain ⟨book', g', s, e, n, e1, h1, hcut, hrest, hframe⟩ := h.cancel_change hop
    refine ⟨book', g', e1, h1, ⟨g', Or.inr ⟨s, e, n, hcut⟩, Or.inl rfl⟩, ?_⟩
    intro s' hs'
    rw [eq_flip_of_not_concerns hs' hrest]
    exact hframe
  | delete u =>
    obtain ⟨book', g', s, e, n, e1, h1, hcut, hrest, hframe⟩ := h.delete_change hop
    refine ⟨book', g', e1, h1, ⟨g', Or.inr ⟨s, e, n, hcut⟩, Or.inl rfl⟩, ?_⟩
    intro s' hs'
    rw [eq_flip_of_not_concerns hs' hrest]
    exact hframe
  | modify u => exact h.modify_change hop
  | replace u =>
    obtain ⟨book1, g1, s, e, n, e1, h1, hcut, hrest, hframe1⟩ := h.delete_change hop.1
    obtain ⟨book2, g2, k, e2, h2, hpush, htime, hframe2⟩ := h1.add_change (h1.rep.addOk_iff.1 (hop.2 book1 e1))
    refine ⟨book2, g2, ?_, h2, ⟨g1, Or.inr ⟨s, e, n, hcut⟩, Or.inr ⟨_, _, k, hpush, ?_⟩⟩, ?_⟩
    · change book.replaceOrder u = _
      unfold OrderBook.replaceOrder
      rw [e1, pure_bind, e2]
    · rintro t t' ⟨-, rfl⟩
      exact htime.symm
    · intro s' hs'
      -- neither leg works on this side
      have hs1 : s' = s.flip := eq_flip_of_not_concerns hs' (Or.inl hrest)
      have hs2 : s' = (sideOf u.side).flip := eq_flip_of_not_concerns hs' (Or.inr rfl)
      have hg1 : g1 s' = g s' := by
        rw [hs1]
        exact hcut.flip_eq
      have hframe2' : SideFrame book1 book2 s' (g1 s') := by
        rw [hs2]
        exact hframe2
      rw [hg1] at hframe2'
      refine SideFrame.trans ?_ hframe2'
      rw [hs1]
      exact hframe1

/-! ## No internal check fails -/

/-- **The internal assertions are unreachable.** On every reachable book an admissible operation returns, and returns
the same book in a debug build, where each check runs, as in a release build; that book is reachable again. -/
theorem no_assertion_fails (h : BookReachable book) (op : BookOp) (hop : op.Admissible book) :
    ∃ book', (∀ b, op.run book b = .ok book') ∧ BookReachable book' := by
  obtain ⟨g, hg⟩ := h.inv
  obtain ⟨book', g', e, -⟩ := hg.run_change hop
  exact ⟨book', congrFun e, .step h hop (congrFun e .debug)⟩

/-- On a book with orders on both sides the first bid grows: a delete and an add. -/
theorem no_assertion_fails_busy : ∃ book book', emptyBook.runAll busyRun .debug = .ok book ∧ book.queues = busyQueues ∧
    (∀ b, growFirst.run book b = .ok book') ∧ book'.queues = [[(100, [(2, 3), (1, 9)])], [(103, [(4, 7)]), (105, [(5, 2)])]] := by
  have hgrown : (do return (← growFirst.run (← emptyBook.runAll busyRun)).queues) .debug =
      .ok [[(100, [(2, 3), (1, 9)])], [(103, [(4, 7)]), (105, [(5, 2)])]] := by decide +kernel
  obtain ⟨book, book', hrun, hreach, hq, hop, e, hq'⟩ := busyRun_then hgrown
  obtain ⟨_, hbuilds, -⟩ := no_assertion_fails hreach growFirst hop
  cases (congrFun e .debug).symm.trans (hbuilds .debug)
  exact ⟨book, book', hrun, hq, hbuilds, hq'⟩

/-! ## Side isolation -/

/-- Root, best index, level count and dense array of a side are the same, and so is each of its level slots and order
slots, field by field. -/
structure SideUntouched (book book' : OrderBook maxOrders maxLevels) (s : Side) : Prop where
  root : (book'.side s).avlRoot = (book.side s).avlRoot
  best : (book'.side s).bboIdx = (book.side s).bboIdx
  levelCount : (book'.side s).levelCount = (book.side s).levelCount
  dense : (book'.side s).denseLevels = (book.side s).denseLevels
  levels : ∀ i ∈ book.levelSlots s, book'.levelPool.slots i = book.levelPool.slots i
  orders : ∀ i ∈ book.levelSlots s, ∀ j ∈ book.queueSlots i, book'.orderPool.slots j = book.orderPool.slots j

theorem Rep.sideUntouched (h : Rep book g) (hf : SideFrame book book' s (g s)) : SideUntouched book book' s := by
  refine ⟨by rw [hf.side], by rw [hf.side], by rw [hf.side], by rw [hf.side], fun i hi => ?_, fun i hi j hj => ?_⟩
  · rw [h.levelSlots] at hi
    obtain ⟨l, hl, rfl⟩ := List.mem_map.1 hi
    exact hf.levels l hl
  · rw [h.levelSlots] at hi
    obtain ⟨l, hl, rfl⟩ := List.mem_map.1 hi
    rw [h.queueSlots hl] at hj
    obtain ⟨e, he, rfl⟩ := List.mem_map.1 hj
    exact hf.orders e (mem_ordersOf.2 ⟨l, hl, he⟩)

/-- **Side isolation**: an operation leaves the side it does not concern alone. -/
theorem side_isolation (h : BookReachable book) (op : BookOp) (hop : op.Admissible book) (s : Side)
    (hs : ¬ op.Concerns book s) : ∃ book', op.run book = pure book' ∧ SideUntouched book book' s := by
  obtain ⟨g, hg⟩ := h.inv
  obtain ⟨book', g', e, hop'⟩ := hg.run_change hop
  exact ⟨book', e, hg.rep.sideUntouched (hop'.frame s hs)⟩

/-- A better bid, which takes the freed slots of an order and of a level. -/
def betterBid : BookOp := .add (message .addOrder 6 0 101 4)

/-- It leaves both levels of the other side and their orders alone. -/
theorem side_isolation_busy : ∃ book book', emptyBook.runAll busyRun .debug = .ok book ∧ betterBid.run book = pure book' ∧
    book'.queues = [[(101, [(6, 4)]), (100, [(1, 3), (2, 3)])], [(103, [(4, 7)]), (105, [(5, 2)])]] ∧
    book.levelSlots .ask = [2, 3] ∧ book.queueSlots 2 = [3] ∧ book.queueSlots 3 = [4] ∧ SideUntouched book book' .ask := by
  have hadded : (do return (← betterBid.run (← emptyBook.runAll busyRun)).queues) .debug =
      .ok [[(101, [(6, 4)]), (100, [(1, 3), (2, 3)])], [(103, [(4, 7)]), (105, [(5, 2)])]] := by decide +kernel
  have hslots : (do
      let book ← emptyBook.runAll busyRun
      return [book.levelSlots .ask, book.queueSlots 2, book.queueSlots 3]) .debug = .ok [[2, 3], [3], [4]] := by decide +kernel
  obtain ⟨book, book', hrun, hreach, -, hop, e, hq'⟩ := busyRun_then hadded
  rw [Exec.bind_of_ok hrun] at hslots
  obtain ⟨hlevels, hslots⟩ := List.cons.inj (Except.ok.inj hslots)
  obtain ⟨hfirst, hslots⟩ := List.cons.inj hslots
  obtain ⟨_, e', huntouched⟩ := side_isolation hreach betterBid hop .ask (show sideOf 0 ≠ .ask by decide)
  cases Exec.pure_inj (e.symm.trans e')
  exact ⟨book, book', hrun, e, hq', hlevels, hfirst, (List.cons.inj hslots).1, huntouched⟩

end TradeCore
