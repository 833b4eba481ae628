import TradeCore.Orderbook.BookFaults
/-!
# Runs of the book operations

`BookOp` is an operation with its update, `BookOp.Admissible` what it asks for, `BookOp.effect` what it does
to the queues. One step keeps the invariant and has that effect (`Inv.run`); a run from the empty book keeps
it by induction (`BookReachable.inv`). The checked build returns from admissible operations only, so a run that it
takes is one of these (`BookReachable.runAll`). Two readings follow: the five structures of a reachable book agree
(`reachable_consistent`), and every operation on a reachable book commutes with `OrderBook.abs`
(`reachable_simulates`).
-/

namespace TradeCore

open ObjectPool LinkedList PriceTime

variable {maxOrders maxLevels : PoolCapacity} {book after : OrderBook maxOrders maxLevels} {g : Shape} {s : Side}
  {L R : List Level} {l : Level} {A B : List Entry} {e : Entry} {u : BookUpdate}

/-! ## Deleting and adding again -/

/-- A deleted order is the one that is missing. -/
theorem delete_orders (hg : g s = L ++ l :: R) (hl : l.orders = A ++ e :: B) :
    (ordersOf g.levels).Perm (e :: ordersOf (g.set s (L ++ keep (l.cut A e B e.qty) ++ R)).levels) := by
  have hX : g s = L ++ [l] ++ R := by simpa using hg
  have h1 := ordersOf_perm (Shape.levels_focus hX)
  have h2 := ordersOf_perm (Shape.levels_perm g s L (keep (l.cut A e B e.qty)) R)
  have hcut : (l.cut A e B e.qty).orders = A ++ B := by simp [Level.cut]
  have h3 : ordersOf (keep (l.cut A e B e.qty)) = A ++ B := by
    rw [ordersOf_keep, hcut]
  rw [ordersOf_append, h3] at h2
  rw [ordersOf_append, ordersOf_cons, ordersOf_nil, List.append_nil, hl] at h1
  exact h1.trans ((focus_entry A B _ e).trans (h2.symm.cons e))

/-- An order put back at its own price always fits: what it needs was just freed. -/
theorem Inv.readd_fits {book' : OrderBook maxOrders maxLevels} (h : Inv book g) (hg : g s = L ++ l :: R)
    (hl : l.orders = A ++ e :: B) (h' : Inv book' (g.set s (L ++ keep (l.cut A e B e.qty) ++ R)))
    (hid : u.orderId = e.id) (hq : 0 < u.qty) (hp : u.price = l.price) (hs : sideOf u.side = s) :
    AddFits book' (g.set s (L ++ keep (l.cut A e B e.qty) ++ R)) u := by
  have hperm := delete_orders hg hl
  have hlen := hperm.length_eq
  rw [List.length_cons] at hlen
  have hlg : l ∈ g s := by rw [hg]; simp
  have hids := (hperm.map Entry.id).nodup_iff.1 h.rep.orders.ids
  rw [List.map_cons, List.nodup_cons] at hids
  refine ⟨?_, fun k hk ek => ?_, hq, ?_, ?_, ?_, ?_, ?_⟩
  · rw [hid]
    exact h.rep.orders.id_ne_zero (mem_of_focus hg hl)
  · exact hids.1 (List.mem_map.2 ⟨k, hk, ek.trans hid⟩)
  · rw [hp]
    exact (h.wf s l hlg).price
  · have hw := (h.rep.sides s).tree.window l.slot (List.mem_map.2 ⟨l, hlg, rfl⟩)
    unfold PriceLevelPool.priceOf at hw
    rwa [((h.rep.sides s).levels l hlg).price, ← hp] at hw
  · have := h.rep.orders.length_le
    omega
  · have h1 := h.rep.orders.load
    rw [h.rep.orders.mapSize, h.rep.orders.capacity] at h1
    rw [h'.rep.orders.mapSize, h'.rep.orders.capacity]
    omega
  · rw [hs, Shape.set_self]
    by_cases hk : (l.cut A e B e.qty).orders = []
    · -- the level is gone, and its slot is free
      refine Or.inr ?_
      have h1 := (Shape.levels_focus (X := [l]) (by simpa using hg : g s = L ++ [l] ++ R)).length_eq
      have h2 := (Shape.levels_perm g s L (keep (l.cut A e B e.qty)) R).length_eq
      have h3 := h.rep.levels.length_le
      have hnil : keep (l.cut A e B e.qty) = [] := if_pos hk
      simp only [List.length_append, List.length_cons, List.length_nil, hnil] at h1 h2 h3 ⊢
      omega
    · refine Or.inl ⟨l.cut A e B e.qty, ?_, hp.symm⟩
      simp [keep, hk]

/-- `modify_order` of a live order: a cancel of the difference, a delete and an add, or nothing. -/
theorem Inv.modify_eq (h : Inv book g) (hg : g s = L ++ l :: R) (hl : l.orders = A ++ e :: B) (hid : u.orderId = e.id) :
    book.modifyOrder u = if u.qty < e.qty then book.cancelOrder { u with qty := e.qty - u.qty }
      else if u.qty > e.qty then
        (book.deleteOrder u >>= fun book => book.addOrder { u with price := l.price, side := e.side })
      else pure book := by
  have he := mem_of_focus hg hl
  have hv := h.rep.orders.valid he
  have hne : e.slot ≠ FlatHashMap.kEmpty := hv.ne_invalid
  obtain ⟨⟨-, hprice, hqty, -, hside⟩, -⟩ := (h.rep.level_at hg).orders e (by rw [hl]; simp)
  unfold OrderBook.modifyOrder
  rw [hid, h.rep.orders.find he, pure_bind]
  simp only [ne_eq, hne, not_false_eq_true, decide_true, tradecoreAssert_true, pure_bind, get_eq _ hv, hqty, hprice, hside]

/-- **`modify_order`**. -/
theorem Inv.modify_spec (h : Inv book g) (hlive : book.Live u.orderId) :
    ∃ book' g', book.modifyOrder u = pure book' ∧ Inv book' g' ∧ g'.abs = g.abs.modify u.orderId u.qty.toNat := by
  obtain ⟨e, he, hid⟩ := h.rep.live_iff.1 hlive
  obtain ⟨s, L, l, R, A, B, hg, hl⟩ := focus_of_mem he
  have hsd : sideOf e.side = s := ((h.rep.level_at hg).orders e (by rw [hl]; simp)).2
  have hmod : g.abs.modify u.orderId u.qty.toNat =
      if u.qty.toNat < e.qty.toNat then g.abs.adjust e.id fun _ => u.qty.toNat
      else if e.qty.toNat < u.qty.toNat then (g.abs.delete e.id).add s l.price e.id u.qty.toNat
      else g.abs := by
    unfold AbstractBook.modify
    rw [← hid, abs_lookup h.rep hg hl]
  rw [hmod, h.modify_eq hg hl hid.symm]
  by_cases hlt : u.qty < e.qty
  · -- a smaller quantity: a cancel of the difference
    have hlt' := UInt32.lt_iff_toNat_lt.1 hlt
    have hle : e.qty - u.qty ≤ e.qty := by
      rw [UInt32.le_iff_toNat_le, UInt32.toNat_sub_of_le _ _ (UInt32.le_of_lt hlt)]
      omega
    obtain ⟨book', e1, h1, -⟩ := h.cancel_spec (u := { u with qty := e.qty - u.qty }) hg hl hid.symm hle
    refine ⟨book', _, by rw [if_pos hlt, e1], h1, ?_⟩
    rw [if_pos hlt']
    refine h.abs_cut hg hl hle _ ?_
    rw [UInt32.toNat_sub_of_le _ _ (UInt32.le_of_lt hlt)]
    omega
  · rw [if_neg hlt, if_neg fun h => hlt (UInt32.lt_iff_toNat_lt.2 h)]
    by_cases hgt : u.qty > e.qty
    · -- a larger one: delete and add at the same price
      have hgt' := UInt32.lt_iff_toNat_lt.1 hgt
      obtain ⟨book1, e1, h1, -⟩ := h.delete_spec hg hl hid.symm
      have hfits := h.readd_fits (u := { u with price := l.price, side := e.side }) hg hl h1 hid.symm
        (UInt32.lt_of_le_of_lt (UInt32.le_iff_toNat_le.2 (Nat.zero_le _)) hgt) rfl hsd
      obtain ⟨book2, L', l', R', i, e2, hfor, h2, -⟩ := h1.add_spec hfits
      refine ⟨book2, _, by rw [if_pos hgt, e1, pure_bind, e2], h2, ?_⟩
      rw [if_pos hgt', abs_push hfor, h.abs_cut hg hl (UInt32.le_refl _) (fun _ => 0) (Nat.sub_self _).symm]
      change (g.abs.delete e.id).add (sideOf e.side) l.price u.orderId u.qty.toNat = _
      rw [hsd, ← hid]
    · refine ⟨book, g, by rw [if_neg hgt], h, ?_⟩
      rw [if_neg fun h => hgt (UInt32.lt_iff_toNat_lt.2 h)]

/-! ## One operation -/

inductive BookOp where
  | add (u : BookUpdate)
  | cancel (u : BookUpdate)
  | execute (u : BookUpdate)
  | delete (u : BookUpdate)
  | modify (u : BookUpdate)
  | replace (u : BookUpdate)

namespace BookOp

def run (book : OrderBook maxOrders maxLevels) : BookOp → Exec (OrderBook maxOrders maxLevels)
  | add u => book.addOrder u
  | cancel u => book.cancelOrder u
  | execute u => book.executeOrder u
  | delete u => book.deleteOrder u
  | modify u => book.modifyOrder u
  | replace u => book.replaceOrder u

/-- The assertions of the operation hold; for `replace` those of its add leg after its delete leg. -/
def Admissible (book : OrderBook maxOrders maxLevels) : BookOp → Prop
  | add u => book.AddOk u
  | cancel u | execute u => book.ReduceOk u
  | delete u | modify u => book.Live u.orderId
  | replace u => book.Live u.orderId ∧
      ∀ book', book.deleteOrder u = pure book' → book'.AddOk { u with orderId := u.matchId }

/-- What the operation does to the queues. -/
def effect : BookOp → AbstractBook → AbstractBook
  | add u, a => a.add (sideOf u.side) u.price u.orderId u.qty.toNat
  | cancel u, a | execute u, a => a.cancel u.orderId u.qty.toNat
  | delete u, a => a.delete u.orderId
  | modify u, a => a.modify u.orderId u.qty.toNat
  | replace u, a => (a.delete u.orderId).add (sideOf u.side) u.price u.matchId u.qty.toNat

/-- The order that the operation names. -/
def orderId : BookOp → UInt64
  | add u | cancel u | execute u | delete u | modify u | replace u => u.orderId

end BookOp

theorem Inv.add_run (h : Inv book g) (hu : AddFits book g u) : ∃ book' g', book.addOrder u = pure book' ∧ Inv book' g' ∧
    g'.abs = g.abs.add (sideOf u.side) u.price u.orderId u.qty.toNat := by
  obtain ⟨book', L, l, R, i, e1, hfor, h1, -⟩ := h.add_spec hu
  exact ⟨book', _, e1, h1, abs_push hfor _⟩

theorem Inv.cancel_run (h : Inv book g) (hu : book.ReduceOk u) : ∃ book' g', book.cancelOrder u = pure book' ∧
    Inv book' g' ∧ g'.abs = g.abs.cancel u.orderId u.qty.toNat := by
  obtain ⟨e, he, hid⟩ := h.rep.live_iff.1 hu.live
  obtain ⟨s, L, l, R, A, B, hg, hl⟩ := focus_of_mem he
  have hq : u.qty ≤ e.qty := hu.qty e.qty (by rw [← hid]; exact h.rep.remainingOf he)
  obtain ⟨book', e1, h1, -⟩ := h.cancel_spec hg hl hid.symm hq
  exact ⟨book', _, e1, h1, by rw [← hid]; exact h.abs_cut hg hl hq _ rfl⟩

theorem Inv.delete_run (h : Inv book g) (hu : book.Live u.orderId) : ∃ book' g', book.deleteOrder u = pure book' ∧
    Inv book' g' ∧ g'.abs = g.abs.delete u.orderId := by
  obtain ⟨e, he, hid⟩ := h.rep.live_iff.1 hu
  obtain ⟨s, L, l, R, A, B, hg, hl⟩ := focus_of_mem he
  obtain ⟨book', e1, h1, -⟩ := h.delete_spec hg hl hid.symm
  exact ⟨book', _, e1, h1, by rw [← hid]; exact h.abs_cut hg hl (UInt32.le_refl _) _ (Nat.sub_self _).symm⟩

/-- **One operation**: it returns in either build, and what it returns is a book whose queues changed by its
effect. -/
theorem Inv.run (h : Inv book g) {op : BookOp} (hop : op.Admissible book) :
    ∃ book' g', op.run book = pure book' ∧ Inv book' g' ∧ g'.abs = op.effect g.abs := by
  cases op with
  | add u => exact h.add_run (h.rep.addOk_iff.1 hop)
  | cancel u => exact h.cancel_run hop
  | execute u => exact h.cancel_run hop
  | delete u => exact h.delete_run hop
  | modify u => exact h.modify_spec hop
  | replace u =>
    obtain ⟨book1, g1, e1, h1, ha1⟩ := h.delete_run hop.1
    have hadd := h1.rep.addOk_iff.1 (hop.2 book1 e1)
    obtain ⟨book2, g2, e2, h2, ha2⟩ := h1.add_run hadd
    refine ⟨book2, g2, ?_, h2, by rw [ha2, ha1]; rfl⟩
    change book.replaceOrder u = _
    unfold OrderBook.replaceOrder
    rw [e1, pure_bind, e2]

/-- An id is live when it is read in a queue. -/
theorem Rep.live_iff_orders (h : Rep book g) {id : UInt64} :
    book.Live id ↔ id ∈ (PriceTime.orders (book.abs .bid) ++ PriceTime.orders (book.abs .ask)).map Prod.fst := by
  have hids : ∀ s, id ∈ (PriceTime.orders (g.abs s)).map Prod.fst ↔ ∃ e ∈ ordersOf (g s), e.id = id := by
    intro s
    rw [((orders_abs_perm g s).map Prod.fst).mem_iff, List.map_map]
    exact List.mem_map
  rw [h.live_iff, h.abs_eq, List.map_append, List.mem_append, hids, hids]
  have hsplit : ordersOf g.levels = ordersOf (g .bid) ++ ordersOf (g .ask) := ordersOf_append _ _
  simp only [hsplit, List.mem_append, or_and_right, exists_or]

/-! ## What the checked build lets through -/

theorem Rep.reduceOk_of_debug (h : Rep book g) (hrun : book.cancelOrder u .debug = .ok after) : book.ReduceOk u := by
  have hlive := h.cancel_live hrun
  obtain ⟨e, he, hid⟩ := h.live_iff.1 hlive
  refine ⟨hlive, fun r hr => ?_⟩
  have hv := h.orders.valid he
  rw [← hid] at hr
  unfold OrderBook.remainingOf at hr
  unfold OrderBook.cancelOrder at hrun
  rw [h.orders.find he, pure_bind, get_eq _ hv, pure_bind] at hr
  rw [← hid, h.orders.find he, pure_bind] at hrun
  obtain ⟨_, -, hrun⟩ := Exec.bind_eq_ok.1 hrun
  rw [get_eq _ hv, pure_bind] at hrun
  obtain ⟨_, hqty, -⟩ := Exec.bind_eq_ok.1 hrun
  rw [← Exec.pure_inj hr]
  exact of_decide_eq_true (tradecoreAssert_debug hqty)

/-- **The checked build** returns from admissible operations only. -/
theorem Inv.admissible_of_debug (h : Inv book g) {op : BookOp} (hrun : op.run book .debug = .ok after) : op.Admissible book := by
  cases op with
  | add u => exact h.rep.addOk_of_debug hrun
  | cancel u | execute u => exact h.rep.reduceOk_of_debug hrun
  | delete u => exact h.rep.delete_live hrun
  | modify u => exact h.rep.modify_live hrun
  | replace u =>
    change (book.deleteOrder u >>= fun book => book.addOrder { u with orderId := u.matchId }) .debug = .ok after at hrun
    obtain ⟨book1, hdelete, hadd⟩ := Exec.bind_eq_ok.1 hrun
    have hlive := h.rep.delete_live hdelete
    refine ⟨hlive, fun book1' e' => ?_⟩
    obtain ⟨book2, g2, e2, h2, -⟩ := h.delete_run hlive
    rw [e', Exec.pure_apply] at hdelete
    cases hdelete
    rw [e'] at e2
    cases Exec.pure_inj e2
    exact h2.rep.addOk_of_debug hadd

/-! ## Runs -/

/-- The books that admissible operations lead to from the empty one, whatever the pools' memory held. -/
inductive BookReachable : OrderBook maxOrders maxLevels → Prop where
  | new (orders : Index → Order) (levels : Index → PriceLevel) : BookReachable (OrderBook.new orders levels)
  | step {book book' : OrderBook maxOrders maxLevels} {op : BookOp} {b : Build} : BookReachable book →
      op.Admissible book → op.run book b = .ok book' → BookReachable book'

theorem BookReachable.inv (h : BookReachable book) : ∃ g, Inv book g := by
  induction h with
  | new orders levels => exact ⟨_, inv_new orders levels⟩
  | step _ hop hrun ih =>
    obtain ⟨g, hg⟩ := ih
    obtain ⟨book', g', e, hinv, -⟩ := hg.run hop
    rw [e, Exec.pure_apply] at hrun
    cases hrun
    exact ⟨g', hinv⟩

/-- Operations one after another. -/
def OrderBook.runAll (book : OrderBook maxOrders maxLevels) : List BookOp → Exec (OrderBook maxOrders maxLevels)
  | [] => pure book
  | op :: ops => do
    let book ← op.run book
    book.runAll ops

theorem OrderBook.runAll_cons (book : OrderBook maxOrders maxLevels) (op : BookOp) (ops : List BookOp) :
    book.runAll (op :: ops) = op.run book >>= fun book => book.runAll ops := rfl

/-- A run that the checked build takes leads to a reachable book. -/
theorem BookReachable.runAll (h : BookReachable book) {ops : List BookOp} (hrun : book.runAll ops .debug = .ok after) :
    BookReachable after := by
  induction ops generalizing book with
  | nil =>
    cases hrun
    exact h
  | cons op ops ih =>
    rw [OrderBook.runAll_cons] at hrun
    obtain ⟨book1, hone, hrest⟩ := Exec.bind_eq_ok.1 hrun
    obtain ⟨g, hg⟩ := h.inv
    exact ih (.step h (hg.admissible_of_debug hone) hone) hrest

/-! ## A first order -/

/-- What an empty book asks of a first order. -/
theorem new_addOk {orders : Index → Order} {levels : Index → PriceLevel} (h0 : u.orderId ≠ FlatHashMap.kEmptyKey)
    (hq : 0 < u.qty) (hp : 0 < u.price) (hw : u.price.toNat < 10000)
    (hroom : 4 < 3 * FlatHashMap.nextPowerOfTwo maxOrders.size) :
    (OrderBook.new orders levels : OrderBook maxOrders maxLevels).AddOk u := by
  refine (rep_new orders levels).addOk_iff.2 ⟨h0, ?_, hq, hp, hw, maxOrders.pos, hroom, Or.inr maxLevels.pos⟩
  intro k hk
  cases hk

/-- A pool of four slots. -/
def four : PoolCapacity := ⟨4, by decide, by decide⟩

/-- An order to buy 5 at price 100. -/
def firstOrder : BookUpdate := { BookUpdate.zero with price := 100, qty := 5, orderId := 1 }

theorem firstOrder_admissible : (BookOp.add firstOrder).Admissible
    (OrderBook.new (fun _ => Order.zero) (fun _ => PriceLevel.zero) : OrderBook four four) :=
  new_addOk (by decide) (by decide) (by decide) (by decide) (by decide)

/-! ## A book with orders on both sides -/

/-- A pool of eight slots. -/
def eight : PoolCapacity := ⟨8, by decide, by decide⟩

def emptyBook : OrderBook eight eight := OrderBook.new (fun _ => Order.zero) fun _ => PriceLevel.zero

/-- A message about `qty` at `price`. -/
def message (type : UpdateType) (id : UInt64) (side : UInt8) (price qty : UInt32) : BookUpdate :=
  { BookUpdate.zero with type := type.toByte, side := side, price := price, qty := qty, orderId := id }

/-- Three bids at two prices and two asks; then one bid is cut, and the lower price goes with its order. -/
def busyRun : List BookOp :=
  [.add (message .addOrder 1 0 100 5), .add (message .addOrder 2 0 100 3), .add (message .addOrder 3 0 99 4),
    .add (message .addOrder 4 1 103 7), .add (message .addOrder 5 1 105 2), .cancel (message .cancelOrder 1 0 0 2),
    .delete (message .deleteOrder 3 0 0 0)]

/-- The queues of both sides, as one reads them. -/
def OrderBook.queues (book : OrderBook maxOrders maxLevels) : List (Queues UInt32 UInt64) := [book.abs .bid, book.abs .ask]

theorem OrderBook.abs_of_queues {bids asks : Queues UInt32 UInt64} (h : book.queues = [bids, asks]) :
    book.abs .bid = bids ∧ book.abs .ask = asks := by
  obtain ⟨hb, h⟩ := List.cons.inj h
  exact ⟨hb, (List.cons.inj h).1⟩

/-- What the busy run leaves. -/
def busyQueues : List (Queues UInt32 UInt64) := [[(100, [(1, 3), (2, 3)])], [(103, [(4, 7)]), (105, [(5, 2)])]]

theorem busyRun_ends : ∃ book, emptyBook.runAll busyRun .debug = .ok book ∧ BookReachable book ∧ book.queues = busyQueues := by
  have hrun : (do return (← emptyBook.runAll busyRun).queues) .debug = .ok busyQueues := by decide +kernel
  obtain ⟨book, h, hq⟩ := Exec.bind_eq_ok.1 hrun
  exact ⟨book, h, .runAll (.new _ _) h, Except.ok.inj hq⟩

/-- One more operation, as the checked build shows it. -/
theorem busyRun_then {op : BookOp} {queues : List (Queues UInt32 UInt64)}
    (h : (do return (← op.run (← emptyBook.runAll busyRun)).queues) .debug = .ok queues) :
    ∃ book book', emptyBook.runAll busyRun .debug = .ok book ∧ BookReachable book ∧ book.queues = busyQueues ∧
      op.Admissible book ∧ op.run book = pure book' ∧ book'.queues = queues := by
  obtain ⟨book, hrun, hreach, hq⟩ := busyRun_ends
  rw [Exec.bind_of_ok hrun] at h
  obtain ⟨book', hone, hq'⟩ := Exec.bind_eq_ok.1 h
  obtain ⟨g, hg⟩ := hreach.inv
  have hop := hg.admissible_of_debug hone
  obtain ⟨_, _, e, -⟩ := hg.run hop
  rw [e, Exec.pure_apply] at hone
  cases hone
  exact ⟨book, book', hrun, hreach, hq, hop, e, Except.ok.inj hq'⟩

/-! ## The five structures agree -/

namespace OrderBook

variable (book : OrderBook maxOrders maxLevels)

/-- The level slots of both trees. -/
def allLevels : List Index := book.levelSlots .bid ++ book.levelSlots .ask

/-- The order slots of all levels. -/
def allOrders : List Index := book.allLevels.flatMap book.queueSlots

/-- The list of one level: what its row says is what hangs from it. -/
structure LevelConsistent (s : Side) (i : Index) : Prop where
  /-- The list ends. -/
  list : Path (nextLink book.orderPool) (book.levelPool.slots i).headOrderIdx (book.queueSlots i) kInvalidPoolIndex
  tail : (book.queueSlots i).getLast? = some (book.levelPool.slots i).tailOrderIdx
  count : (book.levelPool.slots i).orderCount.toNat = (book.queueSlots i).length
  nonempty : 1 ≤ (book.levelPool.slots i).orderCount.toNat
  orders : ∀ j ∈ book.queueSlots i, sideOf (book.orderPool.slots j).side = s ∧
    (book.orderPool.slots j).price = (book.levelPool.slots i).price ∧ 0 < (book.orderPool.slots j).remainingQty
  total : (book.levelPool.slots i).totalQty = ((book.queueSlots i).map fun j => (book.orderPool.slots j).remainingQty).sum

/-- Pools, id map, lists and trees of a book say the same. -/
structure Consistent : Prop where
  /-- The map binds exactly the ids of the linked orders, each to its slot. -/
  ids : ∀ id ≠ FlatHashMap.kEmptyKey, ∀ j ≠ FlatHashMap.kEmpty, book.orderMap.find id = pure j ↔
    j ∈ book.allOrders ∧ (book.orderPool.slots j).orderId = id
  named : ∀ j ∈ book.allOrders, (book.orderPool.slots j).orderId ≠ FlatHashMap.kEmptyKey
  /-- Every order lies in one list, once. -/
  once : book.allOrders.Nodup
  /-- The allocated order slots are the linked ones. -/
  orders : book.orderPool.PoolOk book.allOrders.toFinset
  levels : ∀ s, ∀ i ∈ book.levelSlots s, book.LevelConsistent s i
  trees : ∀ s, ∃ t, TreeAt book.levelPool t (book.side s).avlRoot kInvalidPoolIndex ∧ t.toList = book.levelSlots s ∧ t.Balanced
  /-- The trees share no level, and hold the allocated level slots. -/
  disjoint : book.allLevels.Nodup
  allocated : book.levelPool.PoolOk book.allLevels.toFinset
  activeOrders : book.orderPool.activeCount = book.orderMap.size
  activeLevels : book.levelPool.activeCount = book.bids.levelCount + book.asks.levelCount

end OrderBook

theorem Rep.allLevels (h : Rep book g) : book.allLevels = g.levels.map Level.slot := by
  unfold OrderBook.allLevels Shape.levels
  rw [h.levelSlots, h.levelSlots, List.map_append]

theorem Rep.allOrders (h : Rep book g) : book.allOrders = (ordersOf g.levels).map Entry.slot := by
  unfold OrderBook.allOrders ordersOf
  rw [h.allLevels, List.flatMap_map, List.map_flatMap]
  refine List.flatMap_congr fun l hl => ?_
  rcases List.mem_append.1 hl with hl | hl
  · exact h.queueSlots hl
  · exact h.queueSlots hl

theorem Inv.levelConsistent (h : Inv book g) {l : Level} (hl : l ∈ g s) : book.LevelConsistent s l.slot := by
  have hat := (h.rep.sides s).levels l hl
  have hwf := h.wf s l hl
  obtain ⟨L, R, hg⟩ := List.append_of_mem hl
  have hor := h.rep.orders_focus (X := [l]) (by simpa using hg)
  rw [ordersOf_cons, ordersOf_nil, List.append_nil] at hor
  have hlen := hor.length_le
  rw [List.length_append] at hlen
  have hcount : (book.levelPool.slots l.slot).orderCount.toNat = l.orders.length := by
    rw [hat.count]
    exact toNat_ofNat_of_le (show l.orders.length ≤ maxOrders.size by omega)
  have hpos : 1 ≤ l.orders.length := List.length_pos_iff.2 hwf.nonempty
  refine ⟨?_, ?_, ?_, by rw [hcount]; exact hpos, ?_, ?_⟩ <;> rw [h.rep.queueSlots hl]
  · exact hat.queue
  · rw [hat.tail, tailOf]
    cases hlast : (l.orders.map Entry.slot).getLast? with
    | none => simp [hwf.nonempty] at hlast
    | some x => rfl
  · rw [hcount, List.length_map]
  · intro j hj
    obtain ⟨e, he, rfl⟩ := List.mem_map.1 hj
    obtain ⟨ho, hs⟩ := hat.orders e he
    rw [ho.side, ho.price, ho.qty, hat.price]
    exact ⟨hs, rfl, hwf.positive e he⟩
  · rw [hat.total, hwf.total, List.map_map]
    exact congrArg List.sum (List.map_congr_left fun e he => ((hat.orders e he).1.qty).symm)

theorem Inv.consistent (h : Inv book g) : book.Consistent where
  ids id h0 j hj := by
    obtain ⟨m, hm, hl⟩ := h.rep.orders.map
    have hfind : book.orderMap.find id = pure j ↔ m.lookup id = some j := by
      rw [hm.find_eq h0]
      cases hlook : m.lookup id with
      | none => exact ⟨fun e => absurd (Exec.pure_inj e).symm hj, nofun⟩
      | some i => exact ⟨fun e => congrArg some (Exec.pure_inj e), fun e => congrArg pure (Option.some.inj e)⟩
    rw [hfind, hl, h.rep.allOrders]
    constructor
    · rintro ⟨e, he, rfl, rfl⟩
      exact ⟨List.mem_map.2 ⟨e, he, rfl⟩, h.rep.orderId he⟩
    · rintro ⟨hmem, hid⟩
      obtain ⟨e, he, rfl⟩ := List.mem_map.1 hmem
      exact ⟨e, he, by rw [← hid, h.rep.orderId he], rfl⟩
  named j hj := by
    rw [h.rep.allOrders] at hj
    obtain ⟨e, he, rfl⟩ := List.mem_map.1 hj
    rw [h.rep.orderId he]
    exact h.rep.orders.id_ne_zero he
  once := by
    rw [h.rep.allOrders]
    exact h.rep.orders.nodup
  orders := by
    rw [h.rep.allOrders]
    exact h.rep.orders.pool
  levels s i hi := by
    rw [h.rep.levelSlots] at hi
    obtain ⟨l, hl, rfl⟩ := List.mem_map.1 hi
    exact h.levelConsistent hl
  trees s := by
    rw [h.rep.levelSlots]
    exact (h.rep.sides s).tree.tree
  disjoint := by
    rw [h.rep.allLevels]
    exact h.rep.levels.nodup
  allocated := by
    rw [h.rep.allLevels]
    exact h.rep.levels.pool
  activeOrders := h.rep.orders.activeCount.trans h.rep.orders.mapSize.symm
  activeLevels := by
    have hb : book.bids.levelCount = (g .bid).length := by
      have := (h.rep.sides .bid).tree.count
      rwa [List.length_map] at this
    have ha : book.asks.levelCount = (g .ask).length := by
      have := (h.rep.sides .ask).tree.count
      rwa [List.length_map] at this
    rw [h.rep.levels.activeCount, hb, ha]
    exact List.length_append

/-- **The representation invariant of the book.** -/
theorem reachable_consistent (h : BookReachable book) : book.Consistent := by
  obtain ⟨g, hg⟩ := h.inv
  exact hg.consistent

theorem reachable_consistent_busy : ∃ book, emptyBook.runAll busyRun .debug = .ok book ∧ book.queues = busyQueues ∧
    book.Consistent := by
  obtain ⟨book, hrun, hreach, hq⟩ := busyRun_ends
  exact ⟨book, hrun, hq, reachable_consistent hreach⟩

/-! ## The operations commute with the reading -/

/-- **The book simulates its queues.** -/
theorem reachable_simulates (h : BookReachable book) (op : BookOp) (hop : op.Admissible book) :
    ∃ book', op.run book = pure book' ∧ book'.abs = op.effect book.abs := by
  obtain ⟨g, hg⟩ := h.inv
  obtain ⟨book', g', e, hinv, ha⟩ := hg.run hop
  exact ⟨book', e, by rw [hinv.rep.abs_eq, hg.rep.abs_eq, ha]⟩

/-- The first bid grows and goes to the tail. -/
def growFirst : BookOp := .modify (message .modifyOrder 1 0 0 9)

theorem reachable_simulates_busy : ∃ book book', emptyBook.runAll busyRun .debug = .ok book ∧ growFirst.run book = pure book' ∧
    book'.abs = growFirst.effect book.abs ∧ book'.queues = [[(100, [(2, 3), (1, 9)])], [(103, [(4, 7)]), (105, [(5, 2)])]] := by
  have hgrown : (do return (← growFirst.run (← emptyBook.runAll busyRun)).queues) .debug =
      .ok [[(100, [(2, 3), (1, 9)])], [(103, [(4, 7)]), (105, [(5, 2)])]] := by decide +kernel
  obtain ⟨book, book', hrun, hreach, -, hop, e, hq'⟩ := busyRun_then hgrown
  obtain ⟨_, e', habs⟩ := reachable_simulates hreach growFirst hop
  cases Exec.pure_inj (e.symm.trans e')
  exact ⟨book, book', hrun, e, habs, hq'⟩

end TradeCore
