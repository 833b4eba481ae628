import TradeCore.Orderbook.BookAlike
/-!
# Emptying a book and filling it again

Deletes of the live orders, each once and in any order, leave a book that looks like a new one, with both pools and the map
empty (`drained_book_looks_new`). And the orders of a book, added to any empty one, give a book that looks like it
(`book_rebuilt`). The prices may come in any order and the two sides in turn; only the orders of one price have to come oldest
first. Each add fits because the book that is rebuilt has room for it: what was added so far and the order that is added next
are some of its orders, and their levels some of its levels.

| here | there |
|---|---|
| `.delete u` | `delete_order(u)` (`order_book.hpp:176`) |
| `.add u` | `add_order(u)` (`order_book.hpp:37`) |
-/

namespace TradeCore

open ObjectPool LinkedList PriceTime

variable {maxOrders maxLevels : PoolCapacity} {book start : OrderBook maxOrders maxLevels} {g g' : Shape} {s : Side}
  {p : UInt32} {u : BookUpdate} {rest : List BookUpdate}

/-! ## Emptying -/

/-- **Deletes of all live orders**, one after the other. -/
theorem Inv.drain (h : Inv book g) (updates : List BookUpdate)
    (hids : (updates.map BookUpdate.orderId).Perm ((ordersOf g.levels).map Entry.id)) :
    ∃ book' g', book.runAll (updates.map .delete) = pure book' ∧ Inv book' g' ∧ ordersOf g'.levels = [] := by
  induction updates generalizing book g with
  | nil => exact ⟨book, g, rfl, h, List.map_eq_nil_iff.1 hids.nil_eq.symm⟩
  | cons u updates ih =>
    rw [List.map_cons] at hids
    obtain ⟨e, he, hid⟩ := List.mem_map.1 (hids.mem_iff.1 List.mem_cons_self)
    obtain ⟨s, L, l, R, A, B, hg, hl⟩ := focus_of_mem he
    obtain ⟨book1, e1, h1, -⟩ := h.delete_spec (u := u) hg hl hid.symm
    -- what is left to delete is what is left
    have hgone := (delete_orders hg hl).map Entry.id
    rw [List.map_cons, hid] at hgone
    obtain ⟨book', g', e2, h2, hempty⟩ := ih h1 (hids.trans hgone).cons_inv
    refine ⟨book', g', ?_, h2, hempty⟩
    rw [List.map_cons, OrderBook.runAll_cons]
    change (book.deleteOrder u >>= _) = _
    rw [e1, pure_bind]
    exact e2

/-- A book without orders has no levels. -/
theorem Inv.levels_nil (h : Inv book g) (hempty : ordersOf g.levels = []) : g = fun _ => [] := by
  funext s
  rw [List.eq_nil_iff_forall_not_mem]
  intro l hl
  obtain ⟨e, he⟩ := List.exists_mem_of_ne_nil _ (h.wf s l hl).nonempty
  have hmem : e ∈ ordersOf g.levels := mem_ordersOf.2 ⟨l, Shape.mem_levels.2 ⟨s, hl⟩, he⟩
  rw [hempty] at hmem
  cases hmem

/-- **A drained book looks new.** The live orders of a book are deleted, each once and in any order: every delete returns, and
the book that is left has nothing in its pools or its map, and looks like a new one. -/
theorem drained_book_looks_new (h : BookReachable book) (updates : List BookUpdate)
    (honce : (updates.map BookUpdate.orderId).Nodup) (hall : ∀ id, id ∈ updates.map BookUpdate.orderId ↔ book.Live id)
    (orders : Index → Order) (levels : Index → PriceLevel) :
    ∃ book', book.runAll (updates.map .delete) = pure book' ∧ book'.LooksLike (OrderBook.new orders levels) ∧
      book'.orderPool.activeCount = 0 ∧ book'.levelPool.activeCount = 0 ∧ book'.orderMap.size = 0 := by
  obtain ⟨g, hg⟩ := h.inv
  have hids : (updates.map BookUpdate.orderId).Perm ((ordersOf g.levels).map Entry.id) := by
    rw [List.perm_ext_iff_of_nodup honce hg.rep.orders.ids]
    intro id
    rw [hall, hg.rep.live_iff, List.mem_map]
  obtain ⟨book', g', e, h', hempty⟩ := hg.drain updates hids
  have hnil := h'.levels_nil hempty
  refine ⟨book', e, h'.looksLike (inv_new orders levels) (by rw [hnil]), ?_, ?_, ?_⟩
  · rw [h'.rep.orders.activeCount, hempty]
    rfl
  · rw [h'.rep.levels.activeCount, hnil]
    rfl
  · rw [h'.rep.orders.mapSize, hempty]
    rfl

/-- The four orders of a book with three levels, deleted in another order than they came in. -/
theorem drained_book_looks_new_busy : ∃ book book', emptyBook.runAll busyRun .debug = .ok book ∧ book.queues = busyQueues ∧
    book.runAll ([5, 1, 4, 2].map fun id => .delete (message .deleteOrder id 0 0 0)) = pure book' ∧ book'.LooksLike emptyBook ∧
      book'.orderPool.activeCount = 0 ∧ book'.levelPool.activeCount = 0 := by
  obtain ⟨book, hrun, hreach, hq⟩ := busyRun_ends
  obtain ⟨g, hg⟩ := hreach.inv
  have hall : ∀ id, id ∈ [5, 1, 4, 2] ↔ book.Live id := by
    intro id
    rw [hg.rep.live_iff_orders, (OrderBook.abs_of_queues hq).1, (OrderBook.abs_of_queues hq).2]
    exact (by decide : ([5, 1, 4, 2] : List UInt64).Perm [1, 2, 4, 5]).mem_iff
  obtain ⟨book', e, hlooks, horders, hlevels, -⟩ := drained_book_looks_new hreach
    ([5, 1, 4, 2].map fun id => message .deleteOrder id 0 0 0) (by decide) hall (fun _ => Order.zero) fun _ => PriceLevel.zero
  exact ⟨book, book', hrun, hq, e, hlooks, horders, hlevels⟩

/-! ## What the orders of a book say of an add -/

/-- The orders that `updates` add to side `s` at price `p`, in their order. -/
def arrivals (s : Side) (p : UInt32) (updates : List BookUpdate) : Queue UInt64 :=
  (updates.filter fun u => sideOf u.side = s ∧ u.price = p).map fun u => (u.orderId, u.qty.toNat)

theorem arrivals_cons (s : Side) (p : UInt32) (u : BookUpdate) (rest : List BookUpdate) :
    arrivals s p (u :: rest) =
      (if sideOf u.side = s ∧ u.price = p then [(u.orderId, u.qty.toNat)] else []) ++ arrivals s p rest := by
  unfold arrivals
  by_cases h : sideOf u.side = s ∧ u.price = p <;> simp [h]

/-- Adding `updates` gives the orders of a book: at each price of each side they are the queue there, oldest first. -/
def OrderBook.ListedBy (book : OrderBook maxOrders maxLevels) (updates : List BookUpdate) : Prop :=
  ∀ s p, arrivals s p updates = queueAt p (book.abs s)

theorem arrivals_append (s : Side) (p : UInt32) (updates more : List BookUpdate) :
    arrivals s p (updates ++ more) = arrivals s p updates ++ arrivals s p more := by
  unfold arrivals
  rw [List.filter_append, List.map_append]

/-- The add of an order that rests on side `s` at price `p`. -/
def restingUpdate (s : Side) (p : UInt32) (o : UInt64 × ℕ) : BookUpdate :=
  { BookUpdate.zero with
    type := UpdateType.addOrder.toByte, side := s.toByte, price := p, orderId := o.1, qty := UInt32.ofNat o.2 }

/-- The orders of a book, bids before asks, each side as it is served. -/
def OrderBook.listing (book : OrderBook maxOrders maxLevels) : List BookUpdate :=
  [Side.bid, Side.ask].flatMap fun s => (book.abs s).flatMap fun l => l.2.map (restingUpdate s l.1)

theorem arrivals_level (s s' : Side) (p p' : UInt32) {q : Queue UInt64} (hq : ∀ o ∈ q, o.2 < UInt32.size) :
    arrivals s p (q.map (restingUpdate s' p')) = if s' = s ∧ p' = p then q else [] := by
  induction q with
  | nil => simp [arrivals]
  | cons o q ih =>
    have hqty : (UInt32.ofNat o.2).toNat = o.2 := UInt32.toNat_ofNat_of_lt' (hq o List.mem_cons_self)
    rw [List.map_cons, arrivals_cons, ih fun o' ho' => hq o' (List.mem_cons_of_mem o ho')]
    have hside : sideOf (restingUpdate s' p' o).side = s' := by cases s' <;> rfl
    have hprice : (restingUpdate s' p' o).price = p' := rfl
    rw [hside, hprice]
    by_cases hplace : s' = s ∧ p' = p
    · rw [if_pos hplace, if_pos hplace, if_pos hplace]
      simp [restingUpdate, hqty]
    · rw [if_neg hplace, if_neg hplace, if_neg hplace, List.nil_append]

theorem arrivals_side (s s' : Side) (p : UInt32) {ls : Queues UInt32 UInt64} (hq : ∀ o ∈ orders ls, o.2 < UInt32.size) :
    arrivals s p (ls.flatMap fun l => l.2.map (restingUpdate s' l.1)) = if s' = s then queueAt p ls else [] := by
  induction ls with
  | nil => simp [arrivals]
  | cons l ls ih =>
    rw [orders_cons] at hq
    rw [List.flatMap_cons, arrivals_append, ih fun o ho => hq o (List.mem_append_right _ ho),
      arrivals_level s s' p l.1 fun o ho => hq o (List.mem_append_left _ ho), queueAt_cons]
    by_cases hside : s' = s <;> simp [hside]

/-- **Every book has such a list.** -/
theorem Inv.listedBy_listing (h : Inv book g) : book.ListedBy book.listing := by
  have hq : ∀ s, ∀ o ∈ orders (book.abs s), o.2 < UInt32.size := by
    intro s o ho
    rw [h.rep.abs_eq] at ho
    obtain ⟨l, -, e, -, rfl⟩ := mem_orders_abs ho
    exact e.qty.toNat_lt_size
  intro s p
  unfold OrderBook.listing
  rw [List.flatMap_cons, List.flatMap_cons, List.flatMap_nil, List.append_nil, arrivals_append, arrivals_side s .bid p (hq .bid),
    arrivals_side s .ask p (hq .ask)]
  cases s <;> simp

/-- Part of a book is built: the queues so far, and what is still to come, are those of `g`. -/
def Builds (g' g : Shape) (rest : List BookUpdate) : Prop :=
  ∀ s p, queueAt p (g'.abs s) ++ arrivals s p rest = queueAt p (g.abs s)

/-- An empty book and a list of the orders. -/
theorem Inv.builds (h : Inv book g) (h' : Inv start g') (hempty : ∀ s, start.abs s = []) (hlisted : book.ListedBy rest) :
    Builds g' g rest := by
  intro s p
  rw [← h'.rep.abs_eq, ← h.rep.abs_eq, hempty, hlisted]
  rfl

/-- The order that comes next waits in its queue. -/
theorem Builds.next (hb : Builds g' g (u :: rest)) : queueAt u.price (g'.abs (sideOf u.side)) ++
    (u.orderId, u.qty.toNat) :: arrivals (sideOf u.side) u.price rest = queueAt u.price (g.abs (sideOf u.side)) := by
  rw [← hb, arrivals_cons, if_pos ⟨rfl, rfl⟩]
  rfl

theorem Builds.next_mem (hb : Builds g' g (u :: rest)) : (u.orderId, u.qty.toNat) ∈ queueAt u.price (g.abs (sideOf u.side)) := by
  rw [← hb.next]
  simp

theorem Builds.mem (hb : Builds g' g rest) {o : UInt64 × ℕ} (ho : o ∈ queueAt p (g'.abs s)) : o ∈ queueAt p (g.abs s) := by
  rw [← hb]
  exact List.mem_append_left _ ho

/-- A side lists an order once. -/
theorem Rep.place_unique (h : Rep book g) {s s' : Side} {p p' : UInt32} {o o' : UInt64 × ℕ} (ho : o ∈ queueAt p (g.abs s))
    (ho' : o' ∈ queueAt p' (g.abs s')) (hid : o.1 = o'.1) : s = s' ∧ p = p' := by
  obtain ⟨l, hl, rfl, e, he, rfl⟩ := mem_queueAt_abs.1 ho
  obtain ⟨l', hl', rfl, e', he', rfl⟩ := mem_queueAt_abs.1 ho'
  obtain ⟨L, R, hg⟩ := List.append_of_mem hl
  obtain ⟨A, B, hAB⟩ := List.append_of_mem he
  obtain ⟨L', R', hg'⟩ := List.append_of_mem hl'
  obtain ⟨A', B', hAB'⟩ := List.append_of_mem he'
  have hlook := abs_lookup h hg hAB
  have hlook' := abs_lookup h hg' hAB'
  rw [show e.id = e'.id from hid, hlook'] at hlook
  have heq := Option.some.inj hlook
  exact ⟨congrArg Prod.fst heq.symm, congrArg (fun x => x.2.1) heq.symm⟩

theorem Inv.queueAt_ids (h : Inv book g) (s : Side) (p : UInt32) : ((queueAt p (g.abs s)).map Prod.fst).Nodup := by
  by_cases hlisted : ∃ l ∈ g.abs s, l.1 = p
  · obtain ⟨⟨p, q⟩, hl, rfl⟩ := hlisted
    rw [queueAt_of_mem (h.abs_ok s).sorted s.better_irrefl hl]
    refine ((h.rep.side_ids s).1).sublist ((List.Sublist.map Prod.fst) ?_)
    obtain ⟨A, B, hAB⟩ := List.append_of_mem hl
    rw [hAB, orders_append, orders_cons]
    exact (List.sublist_append_left _ _).trans (List.sublist_append_right _ _)
  · rw [queueAt_eq_nil fun l hl e => hlisted ⟨l, hl, e⟩]
    exact List.nodup_nil

/-- The order that comes next is not there yet. -/
theorem Builds.fresh (h : Inv book g) (hb : Builds g' g (u :: rest)) : ∀ k ∈ ordersOf g'.levels, k.id ≠ u.orderId := by
  intro k hk e
  obtain ⟨s, p, o, ho, hid⟩ := (exists_order_iff (P := fun o => o.1 = u.orderId)).1 ⟨k, hk, e⟩
  have hnext := hb.next_mem
  obtain ⟨rfl, rfl⟩ := h.rep.place_unique (hb.mem ho) hnext hid
  have hnodup := h.queueAt_ids (sideOf u.side) u.price
  rw [← hb.next, List.map_append, List.nodup_append] at hnodup
  exact hnodup.2.2 _ (List.mem_map.2 ⟨o, ho, hid⟩) _ (by simp) rfl

/-- **The next order fits**: the orders and levels it makes are some of those of the whole. -/
theorem Builds.fits (h : Inv book g) (h' : Inv start g') (hb : Builds g' g (u :: rest)) : AddFits start g' u := by
  have hfresh := hb.fresh h
  have hnext := hb.next_mem
  obtain ⟨l, hl, hprice, e, he, habs⟩ := mem_queueAt_abs.1 hnext
  obtain ⟨L, R, hg⟩ := List.append_of_mem hl
  obtain ⟨A, B, hAB⟩ := List.append_of_mem he
  have hmem : e ∈ ordersOf g.levels := mem_of_focus hg hAB
  have hid : e.id = u.orderId := congrArg Prod.fst habs
  have hqty : e.qty = u.qty := UInt32.toNat_inj.1 (congrArg Prod.snd habs)
  -- one order more than there are now is still not more than the whole
  have hcount : (ordersOf g'.levels).length + 1 ≤ (ordersOf g.levels).length := by
    have hsub : (u.orderId :: (ordersOf g'.levels).map Entry.id) ⊆ (ordersOf g.levels).map Entry.id := by
      intro id hin
      rw [List.mem_map]
      rcases List.mem_cons.1 hin with rfl | hin
      · exact ⟨e, hmem, hid⟩
      · obtain ⟨k, hk, rfl⟩ := List.mem_map.1 hin
        obtain ⟨s, p, o, ho, hkid⟩ := (exists_order_iff (P := fun o => o.1 = k.id)).1 ⟨k, hk, rfl⟩
        exact (exists_order_iff (P := fun o => o.1 = k.id)).2 ⟨s, p, o, hb.mem ho, hkid⟩
    have hnodup : (u.orderId :: (ordersOf g'.levels).map Entry.id).Nodup := by
      refine List.nodup_cons.2 ⟨fun hin => ?_, h'.rep.orders.ids⟩
      obtain ⟨k, hk, hkid⟩ := List.mem_map.1 hin
      exact hfresh k hk hkid
    simpa using (hnodup.subperm hsub).length_le
  refine ⟨?_, hfresh, ?_, ?_, ?_, ?_, ?_, ?_⟩
  · rw [← hid]
    exact h.rep.orders.id_ne_zero hmem
  · rw [← hqty]
    exact (h.wf _ l hl).positive e he
  · rw [← hprice]
    exact (h.wf _ l hl).price
  · have hw := (h.rep.sides (sideOf u.side)).tree.window l.slot (List.mem_map.2 ⟨l, hl, rfl⟩)
    unfold PriceLevelPool.priceOf at hw
    rwa [((h.rep.sides (sideOf u.side)).levels l hl).price, hprice] at hw
  · exact Nat.lt_of_lt_of_le hcount h.rep.orders.length_le
  · have hload := h.rep.orders.load
    rw [h.rep.orders.mapSize, h.rep.orders.capacity] at hload
    rw [h'.rep.orders.mapSize, h'.rep.orders.capacity]
    omega
  · by_cases hlisted : ∃ l ∈ g' (sideOf u.side), l.price = u.price
    · exact Or.inl hlisted
    · refine Or.inr ?_
      have hsub : ((sideOf u.side, u.price) :: g'.places) ⊆ g.places := by
        rintro ⟨s, p⟩ hin
        rw [Shape.mem_places]
        rcases List.mem_cons.1 hin with heq | hin
        · obtain ⟨rfl, rfl⟩ := Prod.mk.inj heq
          exact ⟨l, hl, hprice⟩
        · rw [Shape.mem_places, h'.listed_iff] at hin
          obtain ⟨o, ho⟩ := List.exists_mem_of_ne_nil _ hin
          exact h.listed_iff.2 (List.ne_nil_of_mem (hb.mem ho))
      have hnodup : ((sideOf u.side, u.price) :: g'.places).Nodup :=
        List.nodup_cons.2 ⟨fun hin => hlisted (Shape.mem_places.1 hin), h'.rep.places_nodup⟩
      have hle := (hnodup.subperm hsub).length_le
      rw [List.length_cons, Shape.length_places, Shape.length_places] at hle
      exact Nat.lt_of_lt_of_le hle h.rep.levels.length_le

/-- Its add takes it from what is to come to what is there. -/
theorem Builds.added (h' : Inv start g') (hb : Builds g' g (u :: rest)) {g1 : Shape}
    (ha : g1.abs = g'.abs.add (sideOf u.side) u.price u.orderId u.qty.toNat) : Builds g1 g rest := by
  intro s p
  have hqueue : queueAt p (g1.abs s) = BookOp.onQueue s p (queueAt p (g'.abs s)) (.add u) := h'.queueAt_after ha s p
  rw [← hb s p, hqueue, arrivals_cons, BookOp.onQueue]
  by_cases hplace : sideOf u.side = s ∧ u.price = p
  · rw [if_pos hplace, if_pos hplace, List.append_assoc]
  · rw [if_neg hplace, if_neg hplace, List.nil_append]

/-- With nothing to come the queues are those of the whole. -/
theorem Builds.done (h : Inv book g) (h' : Inv start g') (hb : Builds g' g []) : g'.abs = g.abs := by
  funext s
  refine (h'.abs_ok s).eq_of_queueAt (h.abs_ok s) (fun _ _ _ => s.better_trans) s.better_irrefl fun p => ?_
  rw [← hb s p]
  exact (List.append_nil _).symm

/-! ## Filling -/

/-- **Adds of the orders still missing.** -/
theorem Inv.rebuild (h : Inv book g) (h' : Inv start g') (hb : Builds g' g rest) :
    ∃ book' g1, start.runAll (rest.map .add) = pure book' ∧ Inv book' g1 ∧ g1.abs = g.abs := by
  induction rest generalizing start g' with
  | nil => exact ⟨start, g', rfl, h', hb.done h h'⟩
  | cons u rest ih =>
    obtain ⟨start1, g1, e1, h1, ha1⟩ := h'.add_run (hb.fits h h')
    obtain ⟨book', g2, e2, h2, ha2⟩ := ih h1 (hb.added h' ha1)
    refine ⟨book', g2, ?_, h2, ha2⟩
    rw [List.map_cons, OrderBook.runAll_cons]
    change (start.addOrder u >>= _) = _
    rw [e1, pure_bind]
    exact e2

/-- **A book is rebuilt from its orders.** Its orders are added to an empty book, those of one price oldest first and
otherwise in any order: every add returns, in either build, and the book that comes out looks like the one they were listed
from. -/
theorem book_rebuilt (h : BookReachable book) (h0 : BookReachable start) (hempty : ∀ s, start.abs s = [])
    (updates : List BookUpdate) (hlisted : book.ListedBy updates) :
    ∃ book', start.runAll (updates.map .add) = pure book' ∧ book'.LooksLike book := by
  obtain ⟨g, hg⟩ := h.inv
  obtain ⟨g0, hg0⟩ := h0.inv
  obtain ⟨book', g1, e, h1, habs⟩ := hg.rebuild hg0 (hg.builds hg0 hempty hlisted)
  exact ⟨book', e, h1.looksLike hg habs⟩

/-- A book with orders on both sides, put into a new one order by order. -/
theorem book_rebuilt_busy : ∃ book book', emptyBook.runAll busyRun .debug = .ok book ∧ book.queues = busyQueues ∧
    book.listing.map BookUpdate.orderId = [1, 2, 4, 5] ∧ emptyBook.runAll (book.listing.map .add) = pure book' ∧
      book'.LooksLike book := by
  obtain ⟨book, hrun, hreach, hq⟩ := busyRun_ends
  obtain ⟨g, hg⟩ := hreach.inv
  have hids : book.listing.map BookUpdate.orderId = [1, 2, 4, 5] := by
    unfold OrderBook.listing
    rw [List.flatMap_cons, List.flatMap_cons, (OrderBook.abs_of_queues hq).1, (OrderBook.abs_of_queues hq).2]
    rfl
  have hempty : ∀ s, emptyBook.abs s = [] := by
    intro s
    rw [show emptyBook.abs = Shape.abs fun _ => [] from (rep_new _ _).abs_eq]
    cases s <;> rfl
  obtain ⟨book', e, hlooks⟩ := book_rebuilt hreach (.new _ _) hempty book.listing hg.listedBy_listing
  exact ⟨book, book', hrun, hq, hids, e, hlooks⟩

end TradeCore
