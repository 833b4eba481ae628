import TradeCore.Orderbook.BookCommute
/-!
# A book is what its readers see

Two books with the same queues may differ in all the rest: the slots of their orders and levels, the shape of their trees,
the probe chains of their maps, the free lists of their pools. None of it decides what a book does next. What an operation
asks for is read off the queues (`Inv.admissible_of_abs`), the checked build returns only where that is given
(`Inv.admissible_of_debug`), so a run that returns on one book returns on the other, and the two still look alike
(`alike_books_stay_alike`).
-/

namespace TradeCore

open ObjectPool LinkedList PriceTime

variable {maxOrders maxLevels : PoolCapacity} {book book' after : OrderBook maxOrders maxLevels} {g g' : Shape} {s : Side}
  {u : BookUpdate} {op : BookOp} {ops : List BookOp} {b : Build}

/-! ## What is read off the queues -/

theorem Shape.length_levels (g : Shape) : g.levels.length = (g.abs .bid).length + (g.abs .ask).length := by
  simp [Shape.levels, Shape.abs, Side.bestFirst]

theorem Shape.length_orders (g : Shape) :
    (ordersOf g.levels).length = (orders (g.abs .bid)).length + (orders (g.abs .ask)).length := by
  have hsplit : ordersOf g.levels = ordersOf (g .bid) ++ ordersOf (g .ask) := ordersOf_append _ _
  rw [hsplit, List.length_append, (orders_abs_perm g .bid).length_eq, (orders_abs_perm g .ask).length_eq, List.length_map,
    List.length_map]

theorem Inv.live_of_abs (h : Inv book g) (h' : Inv book' g') (habs : g.abs = g'.abs) {id : UInt64} (hlive : book.Live id) :
    book'.Live id := by
  rw [h'.rep.live_iff_queue, ← habs]
  exact h.rep.live_iff_queue.1 hlive

theorem Inv.reduceOk_of_abs (h : Inv book g) (h' : Inv book' g') (habs : g.abs = g'.abs) (hu : book.ReduceOk u) :
    book'.ReduceOk u := by
  rw [h'.rep.reduceOk_iff_queue, ← habs]
  exact h.rep.reduceOk_iff_queue.1 hu

/-- Room is counted in orders and levels, and both are listed in the queues. -/
theorem Inv.addOk_of_abs (h : Inv book g) (h' : Inv book' g') (habs : g.abs = g'.abs) (hu : book.AddOk u) : book'.AddOk u := by
  obtain ⟨hid, hfresh, hqty, hprice, hwindow, hslot, hroom, hlevel⟩ := h.rep.addOk_iff.1 hu
  have horders : (ordersOf g'.levels).length = (ordersOf g.levels).length := by
    rw [Shape.length_orders, Shape.length_orders, habs]
  refine h'.rep.addOk_iff.2 ⟨hid, fun k hk e => ?_, hqty, hprice, hwindow, ?_, ?_, ?_⟩
  · have hlive := h'.live_of_abs h habs.symm (h'.rep.live_iff.2 ⟨k, hk, e⟩)
    obtain ⟨k', hk', e'⟩ := h.rep.live_iff.1 hlive
    exact hfresh k' hk' e'
  · rw [horders]
    exact hslot
  · rw [h'.rep.orders.mapSize, h'.rep.orders.capacity, horders]
    rw [h.rep.orders.mapSize, h.rep.orders.capacity] at hroom
    exact hroom
  · rw [h'.listed_iff, Shape.length_levels, ← habs, ← Shape.length_levels, ← h.listed_iff]
    exact hlevel

/-- **What an operation asks for** is read off the queues. -/
theorem Inv.admissible_of_abs (h : Inv book g) (h' : Inv book' g') (habs : g.abs = g'.abs) (hop : op.Admissible book) :
    op.Admissible book' := by
  cases op with
  | add u => exact h.addOk_of_abs h' habs hop
  | cancel u | execute u => exact h.reduceOk_of_abs h' habs hop
  | delete u | modify u => exact h.live_of_abs h' habs hop
  | replace u =>
    refine ⟨h.live_of_abs h' habs hop.1, fun book1' e' => ?_⟩
    -- the add leg runs on what the delete leg leaves, and that looks alike again
    obtain ⟨book1, g1, e1, h1, ha1⟩ := h.delete_run hop.1
    obtain ⟨book2, g2, e2, h2, ha2⟩ := h'.delete_run (h.live_of_abs h' habs hop.1)
    rw [e2] at e'
    cases Exec.pure_inj e'
    exact h1.addOk_of_abs h2 (by rw [ha1, ha2, habs]) (hop.2 book1 e1)

/-! ## Runs -/

/-- **One run on two books**: what the first takes, the second takes. -/
theorem Inv.runAll_alike (h : Inv book g) (h' : Inv book' g') (habs : g.abs = g'.abs) (hrun : book.runAll ops .debug = .ok after) :
    ∃ after' g1 g1', book'.runAll ops .debug = .ok after' ∧ Inv after g1 ∧ Inv after' g1' ∧ g1.abs = g1'.abs := by
  induction ops generalizing book book' g g' with
  | nil =>
    cases hrun
    exact ⟨book', g, g', rfl, h, h', habs⟩
  | cons op ops ih =>
    rw [OrderBook.runAll_cons] at hrun
    obtain ⟨book1, hone, hrest⟩ := Exec.bind_eq_ok.1 hrun
    have hop := h.admissible_of_debug hone
    obtain ⟨_, g1, e1, h1, ha1⟩ := h.run hop
    rw [e1, Exec.pure_apply] at hone
    cases hone
    obtain ⟨book1', g1', e1', h1', ha1'⟩ := h'.run (h.admissible_of_abs h' habs hop)
    obtain ⟨after', g2, g2', hrest', h2, h2', ha2⟩ := ih h1 h1' (by rw [ha1, ha1', habs]) hrest
    refine ⟨after', g2, g2', ?_, h2, h2', ha2⟩
    rw [OrderBook.runAll_cons, e1', pure_bind]
    exact hrest'

/-- **Books that look alike stay alike.** A run of operations that the checked build takes on one of them it takes on the
other, and leaves two books that no reader can tell apart. -/
theorem alike_books_stay_alike (h : BookReachable book) (h' : BookReachable book') (hsame : book.abs = book'.abs)
    (ops : List BookOp) (hrun : book.runAll ops .debug = .ok after) :
    ∃ after', book'.runAll ops .debug = .ok after' ∧ after.LooksLike after' := by
  obtain ⟨g, hg⟩ := h.inv
  obtain ⟨g', hg'⟩ := h'.inv
  rw [hg.rep.abs_eq, hg'.rep.abs_eq] at hsame
  obtain ⟨after', g1, g1', hrun', h1, h1', habs⟩ := hg.runAll_alike hg' hsame hrun
  exact ⟨after', hrun', h1.looksLike h1' habs⟩

/-- A new book, and one whose only order came and went. -/
theorem alike_books_stay_alike_first : ∃ used after after' : OrderBook four four,
    (OrderBook.new (fun _ => Order.zero) fun _ => PriceLevel.zero).runAll [.add firstOrder, .delete firstOrder] = pure used ∧
      (OrderBook.new (fun _ => Order.zero) fun _ => PriceLevel.zero).runAll [.add otherOrder] .debug = .ok after ∧
      used.runAll [.add otherOrder] .debug = .ok after' ∧ after.LooksLike after' := by
  have hnew : Inv (OrderBook.new (fun _ => Order.zero) (fun _ => PriceLevel.zero) : OrderBook four four) fun _ => [] :=
    inv_new _ _
  have hother : (BookOp.add otherOrder).Admissible
      (OrderBook.new (fun _ => Order.zero) (fun _ => PriceLevel.zero) : OrderBook four four) :=
    new_addOk (by decide) (by decide) (by decide) (by decide) (by decide)
  obtain ⟨book1, g1, e1, h1, ha1⟩ := hnew.run firstOrder_admissible
  have hlive : book1.Live firstOrder.orderId :=
    h1.rep.live_iff_queue.2 ⟨.bid, 100, (1, 5), by rw [ha1]; decide, rfl⟩
  obtain ⟨used, g2, e2, h2, ha2⟩ := h1.run (show (BookOp.delete firstOrder).Admissible book1 from hlive)
  obtain ⟨after, g3, e3, h3, ha3⟩ := hnew.run hother
  have hreach : BookReachable used := .step (b := .debug) (.step (b := .debug) (.new _ _) firstOrder_admissible (congrFun e1 _))
    (show (BookOp.delete firstOrder).Admissible book1 from hlive) (congrFun e2 _)
  have hsame : (OrderBook.new (fun _ => Order.zero) fun _ => PriceLevel.zero : OrderBook four four).abs = used.abs := by
    rw [hnew.rep.abs_eq, h2.rep.abs_eq, ha2, ha1]
    funext s
    cases s <;> decide
  have hrun : (OrderBook.new (fun _ => Order.zero) fun _ => PriceLevel.zero : OrderBook four four).runAll [.add otherOrder] .debug =
      .ok after := by
    rw [OrderBook.runAll_cons, e3]
    rfl
  obtain ⟨after', hrun', hlooks⟩ := alike_books_stay_alike (.new _ _) hreach hsame [.add otherOrder] hrun
  refine ⟨used, after, after', ?_, hrun, hrun', hlooks⟩
  rw [OrderBook.runAll_cons, e1, pure_bind, OrderBook.runAll_cons, e2]
  rfl

end TradeCore
