import TradeCore.Orderbook.BookCommute
/-!
# `replace_order` and `modify_order`

Both are a delete and an add. `replace_order` (`order_book.hpp:134`) looks at its add leg only after its delete leg:
where that cannot be performed (`AddBlocked`) a build without assertions has lost the old order (`replace_never_atomic`).
It takes the side of the new order from the message, where `modify_order` (`order_book.hpp:147`) takes it from the order:
the side is kept by every modification, and by a replacement exactly when its side byte names the side of the old order
(`rebuilt_order_keeps_side_iff`). No other order moves.
-/

namespace TradeCore

open ObjectPool PriceTime

variable {maxOrders maxLevels cap : PoolCapacity} {book book' : OrderBook maxOrders maxLevels} {g g' : Shape} {s : Side}
  {u : BookUpdate} {b : Build}

/-! ## A blocked add leg -/

namespace OrderBook

variable (book : OrderBook maxOrders maxLevels)

/-- The order registered under an id. -/
def orderOf (id : UInt64) : Exec Order := do
  let orderIdx ← book.orderMap.find id
  book.orderPool.get orderIdx

/-- There is a slot for an order, and a level at the price or a slot for one. -/
def HasSlots (s : Side) (price : UInt32) : Prop :=
  book.orderPool.activeCount < maxOrders.size ∧
    ((book.side s).findByPrice book.levelPool price ≠ pure kInvalidPoolIndex ∨ book.levelPool.activeCount < maxLevels.size)

/-- The add leg of a replacement cannot be performed: its id is none or that of another order, it has no quantity or no
price, or the book has no slot for it when the old order is gone. -/
inductive AddBlocked (u : BookUpdate) : Prop
  | noId (h : u.matchId = FlatHashMap.kEmptyKey)
  | taken (hne : u.matchId ≠ u.orderId) (h : book.Live u.matchId)
  | noQty (h : u.qty = 0)
  | noPrice (h : u.price = 0)
  | noSlot {book₁ : OrderBook maxOrders maxLevels} (hdelete : book.deleteOrder u = pure book₁)
      (h : ¬ book₁.HasSlots (sideOf u.side) u.price)

end OrderBook

namespace FlatHashMap

variable {map map' : FlatHashMap} {key id : UInt64} {v : Index} {inserted : Bool}

/-- A search does not see the values of unused slots. -/
theorem findLoop_congr (hkeys : map'.keys = map.keys) (hmask : map'.mask = map.mask)
    (hvalues : ∀ i, map.keys i ≠ kEmptyKey → map'.values i = map.values i) (key : UInt64) (fuel idx : ℕ) :
    map'.findLoop key fuel idx = map.findLoop key fuel idx := by
  induction fuel generalizing idx with
  | zero => rfl
  | succ fuel ih =>
    unfold findLoop
    rw [hkeys, hmask, ih]
    by_cases hk : map.keys idx = kEmptyKey
    · rw [if_neg (not_not.2 hk), if_neg (not_not.2 hk)]
    · rw [if_pos hk, if_pos hk, hvalues idx hk]

theorem find_congr (hkeys : map'.keys = map.keys) (hmask : map'.mask = map.mask) (hcapacity : map'.capacity = map.capacity)
    (hvalues : ∀ i, map.keys i ≠ kEmptyKey → map'.values i = map.values i) (id : UInt64) : map'.find id = map.find id := by
  unfold find
  rw [hmask, hcapacity, findLoop_congr hkeys hmask hvalues]

/-- The search of `insert` for the empty key ends at an unused slot. -/
theorem probeLoop_zero (fuel : ℕ) {idx s : ℕ} (hrun : map.probeLoop kEmptyKey fuel idx b = .ok s) : map.keys s = kEmptyKey := by
  induction fuel generalizing idx with
  | zero => cases hrun
  | succ fuel ih =>
    unfold probeLoop at hrun
    by_cases hk : map.keys idx = kEmptyKey
    · rw [if_neg (fun h => h.1 hk), Exec.pure_apply] at hrun
      cases hrun
      exact hk
    · rw [if_pos ⟨hk, hk⟩] at hrun
      exact ih hrun

/-- **An `insert` of the empty key** registers nothing. -/
theorem find_insert_zero (hrun : map.insert kEmptyKey v b = .ok (inserted, map')) (id : UInt64) : map'.find id = map.find id := by
  unfold insert at hrun
  obtain ⟨_, -, hrun⟩ := Exec.bind_eq_ok.1 hrun
  split_ifs at hrun with hload
  · rw [Exec.pure_apply] at hrun
    cases hrun
    rfl
  · obtain ⟨s, hprobe, hret⟩ := Exec.bind_eq_ok.1 hrun
    have hs := probeLoop_zero _ hprobe
    rw [Exec.pure_apply] at hret
    obtain ⟨-, hmap⟩ := Prod.mk.inj (Except.ok.inj hret)
    have hkeys : map'.keys = map.keys := by
      rw [← hmap, ← hs]
      exact Function.update_eq_self _ _
    refine find_congr hkeys ?_ ?_ (fun i hi => ?_) id
    · rw [← hmap]
      rfl
    · rw [← hmap]
      rfl
    · rw [← hmap]
      exact Function.update_of_ne (fun e : i = s => hi (e ▸ hs)) _ _

end FlatHashMap

/-- What is registered under an id after an `insert` under another one. -/
theorem OrdersRep.find_insert {pool : OrderPool cap} {map map' : FlatHashMap} {es : List Entry} (h : OrdersRep pool map es)
    {id key : UInt64} {v : Index} {inserted : Bool} (h0 : id ≠ FlatHashMap.kEmptyKey) (hv : v ≠ FlatHashMap.kEmpty)
    (hne : key ≠ id) (hrun : map.insert key v b = .ok (inserted, map')) : map'.find id = map.find id := by
  by_cases hkey : key = FlatHashMap.kEmptyKey
  · rw [hkey] at hrun
    exact FlatHashMap.find_insert_zero hrun id
  · obtain ⟨m, hm, -⟩ := h.map
    by_cases hload : 4 * (map.size + 1) < 3 * FlatHashMap.nextPowerOfTwo cap.size
    · obtain ⟨map1, e1, h1⟩ := hm.insert_ok hkey hv hload
      rw [e1, Exec.pure_apply] at hrun
      cases hrun
      rw [h1.find_eq h0, hm.find_eq h0, Finmap.lookup_insert_of_ne _ hne.symm]
    · rw [hm.insert_full hkey v (Nat.le_of_not_lt hload), Exec.pure_apply] at hrun
      cases hrun
      rfl

/-! ## What a blocked replacement loses -/

/-- A live order, as it is found under its id. -/
theorem Rep.orderOf (h : Rep book g) {L R : List Level} {l : Level} {A B : List Entry} {e : Entry} (hg : g s = L ++ l :: R)
    (hl : l.orders = A ++ e :: B) : ∃ o, book.orderOf e.id = pure o ∧ o.remainingQty = e.qty ∧ o.price = l.price := by
  have he := mem_of_focus hg hl
  obtain ⟨⟨-, hprice, hqty, -, -⟩, -⟩ := (h.level_at hg).orders e (by rw [hl]; simp)
  refine ⟨book.orderPool.slots e.slot, ?_, hqty, hprice⟩
  unfold OrderBook.orderOf
  rw [h.orders.find he, pure_bind, get_eq _ (h.orders.valid he)]

/-- An id that is not registered names no order. -/
theorem orderOf_none {id : UInt64} {o : Order} (hfind : book.orderMap.find id = pure FlatHashMap.kEmpty) :
    book.orderOf id b ≠ .ok o := by
  unfold OrderBook.orderOf
  rw [hfind, pure_bind]
  exact get_of_not_valid _ (fun hv => hv.ne_invalid rfl) b o

/-- **An add leg under another id** does not bring the old order back. -/
theorem Rep.add_loses (h : Rep book g) {id : UInt64} (h0 : id ≠ FlatHashMap.kEmptyKey) (hdead : ∀ k ∈ ordersOf g.levels, k.id ≠ id)
    (hne : u.orderId ≠ id) (hrun : book.addOrder u b = .ok book') (o : Order) : book'.orderOf id b ≠ .ok o := by
  obtain ⟨i, inserted, hv, hins, -⟩ := (h.add_returned hrun).2
  refine orderOf_none ?_
  rw [h.orders.find_insert h0 hv.ne_invalid hne hins]
  exact h.orders.find_none h0 hdead

/-- **An add leg under the same id** leaves an order with the quantity and the price of the message, or none. -/
theorem Rep.add_overwrites (h : Rep book g) (h0 : u.orderId ≠ FlatHashMap.kEmptyKey)
    (hdead : ∀ k ∈ ordersOf g.levels, k.id ≠ u.orderId) (hrun : book.addOrder u b = .ok book') {o : Order}
    (ho : book'.orderOf u.orderId b = .ok o) : o.remainingQty = u.qty ∧ o.price = u.price := by
  obtain ⟨i, inserted, hv, hins, hqty, hprice⟩ := (h.add_returned hrun).2
  obtain ⟨m, hm, -⟩ := h.orders.map
  by_cases hload : 4 * (book.orderMap.size + 1) < 3 * FlatHashMap.nextPowerOfTwo maxOrders.size
  · obtain ⟨map1, e1, h1⟩ := hm.insert_ok h0 hv.ne_invalid hload
    rw [e1, Exec.pure_apply] at hins
    have hmap : map1 = book'.orderMap := congrArg Prod.snd (Except.ok.inj hins)
    unfold OrderBook.orderOf at ho
    rw [← hmap, h1.find_eq h0, Finmap.lookup_insert, pure_bind, Option.getD_some, get_eq _ hv, Exec.pure_apply] at ho
    cases ho
    exact ⟨hqty, hprice⟩
  · rw [hm.insert_full h0 i (Nat.le_of_not_lt hload), Exec.pure_apply] at hins
    have hmap : book.orderMap = book'.orderMap := congrArg Prod.snd (Except.ok.inj hins)
    refine absurd ho (orderOf_none ?_)
    rw [← hmap]
    exact h.orders.find_none h0 hdead

/-- An `add_order` that returned found a slot for everything. -/
theorem Rep.hasSlots_of_add (h : Rep book g) (hrun : book.addOrder u b = .ok book') : book.HasSlots (sideOf u.side) u.price := by
  have hadd := h.add_ok hrun
  refine ⟨?_, hadd.level.imp (fun hl => h.find_iff.2 hl) fun hlt => ?_⟩
  · rw [h.orders.activeCount]
    exact hadd.slot
  · rw [h.levels.activeCount]
    exact hlt

/-- **A replacement whose add leg is blocked is never atomic**: without assertions it does not return the book it was given,
and in no book that it returns the old order is what it was. -/
theorem replace_never_atomic (h : BookReachable book) (hlive : book.Live u.orderId) (hblocked : book.AddBlocked u) :
    book.replaceOrder u .release ≠ .ok book ∧
      ∀ book', book.replaceOrder u .release = .ok book' → book'.orderOf u.orderId .release ≠ book.orderOf u.orderId .release := by
  suffices hlost : ∀ book', book.replaceOrder u .release = .ok book' →
      book'.orderOf u.orderId .release ≠ book.orderOf u.orderId .release from
    ⟨fun hrun => hlost book hrun rfl, hlost⟩
  intro book' hrun
  obtain ⟨g, hg⟩ := h.inv
  obtain ⟨e, he, hid⟩ := hg.rep.live_iff.1 hlive
  obtain ⟨s, L, l, R, A, B, hgs, hl⟩ := focus_of_mem he
  obtain ⟨book1, e1, h1, -⟩ := hg.delete_spec hgs hl hid.symm
  obtain ⟨o, ho, hqty, hprice⟩ := hg.rep.orderOf hgs hl
  unfold OrderBook.replaceOrder at hrun
  rw [e1, pure_bind] at hrun
  have h0 : u.orderId ≠ FlatHashMap.kEmptyKey := hlive.1
  -- the delete leg has freed the id
  have hdead : ∀ k ∈ ordersOf (g.set s (L ++ keep (l.cut A e B e.qty) ++ R)).levels, k.id ≠ u.orderId := by
    have hids := ((delete_orders hgs hl).map Entry.id).nodup_iff.1 hg.rep.orders.ids
    rw [List.map_cons, List.nodup_cons] at hids
    exact fun k hk ek => hids.1 (List.mem_map.2 ⟨k, hk, ek.trans hid.symm⟩)
  rw [← hid, ho, hid, Exec.pure_apply]
  by_cases hsame : u.matchId = u.orderId
  · intro ho'
    have hwrites := h1.rep.add_overwrites (u := { u with orderId := u.matchId }) (hsame ▸ h0) (by rw [hsame]; exact hdead) hrun
      (o := o) (by rw [hsame]; exact ho')
    have hwf := hg.wf s l (by rw [hgs]; simp)
    cases hblocked with
    | noId hz => exact h0 (hsame ▸ hz)
    | taken hne _ => exact hne hsame
    | noQty hz =>
      have hpos := hwf.positive e (by rw [hl]; simp)
      rw [← hqty, hwrites.1] at hpos
      exact absurd (hz ▸ hpos) (UInt32.lt_irrefl _)
    | noPrice hz =>
      have hpos := hwf.price
      rw [← hprice, hwrites.2] at hpos
      exact absurd (hz ▸ hpos) (UInt32.lt_irrefl _)
    | noSlot hdelete hno =>
      cases Exec.pure_inj (hdelete.symm.trans e1)
      exact hno (h1.rep.hasSlots_of_add (u := { u with orderId := u.matchId }) hrun)
  · exact h1.rep.add_loses h0 hdead hsame hrun o

/-- **A replacement that names no new order**, on a book with one bid: the bid is gone. -/
theorem replace_never_atomic_first : ∃ book : OrderBook four four,
    (OrderBook.new (fun _ => Order.zero) (fun _ => PriceLevel.zero)).addOrder firstOrder = pure book ∧
      book.replaceOrder firstOrder .release ≠ .ok book := by
  obtain ⟨book, g, e, hg, habs⟩ := (inv_new (fun _ => Order.zero) (fun _ => PriceLevel.zero)).run firstOrder_admissible
  have hreach : BookReachable book := .step (.new _ _) firstOrder_admissible (congrFun e .release)
  have hlive : book.Live firstOrder.orderId := by
    refine hg.rep.live_iff_queue.2 ⟨.bid, 100, (1, 5), ?_, rfl⟩
    rw [habs]
    decide
  exact ⟨book, e, (replace_never_atomic hreach hlive (.noId rfl)).1⟩

/-- Where the order is registered before and after. -/
def replaceRun : Exec (Index × Index) := do
  let book : OrderBook four four := OrderBook.new (fun _ => Order.zero) fun _ => PriceLevel.zero
  let book ← book.addOrder firstOrder
  let found ← book.orderMap.find firstOrder.orderId
  let book ← book.replaceOrder firstOrder
  let lost ← book.orderMap.find firstOrder.orderId
  return (found, lost)

theorem replace_loses_order : ∃ book book' : OrderBook four four, BookReachable book ∧ book.Live firstOrder.orderId ∧
    book.AddBlocked firstOrder ∧ book.replaceOrder firstOrder .release = .ok book' ∧ book' ≠ book ∧
      book'.orderMap.find firstOrder.orderId .release = .ok FlatHashMap.kEmpty := by
  have hrun : replaceRun .release = .ok (0, FlatHashMap.kEmpty) := by decide +kernel
  obtain ⟨book, hadd, hrun⟩ := Exec.bind_eq_ok.1 hrun
  obtain ⟨found, hfound, hrun⟩ := Exec.bind_eq_ok.1 hrun
  obtain ⟨book', hreplace, hrun⟩ := Exec.bind_eq_ok.1 hrun
  obtain ⟨lost, hlost, hrun⟩ := Exec.bind_eq_ok.1 hrun
  obtain ⟨rfl, rfl⟩ := Prod.mk.inj (Except.ok.inj hrun)
  have hreach : BookReachable book := .step (.new _ _) firstOrder_admissible hadd
  obtain ⟨g, hg⟩ := hreach.inv
  have hdelete := hreplace
  unfold OrderBook.replaceOrder at hdelete
  obtain ⟨_, hdelete, -⟩ := Exec.bind_eq_ok.1 hdelete
  refine ⟨book, book', hreach, hg.rep.delete_live hdelete, .noId rfl, hreplace, ?_, hlost⟩
  rintro rfl
  rw [hfound] at hlost
  cases hlost

/-! ## The side of a rebuilt order -/

/-- An order rests on the side in whose queues its id is found. -/
theorem Rep.restsOn_iff (h : Rep book g) {id : UInt64} : book.RestsOn id s ↔ ∃ p, ∃ o ∈ queueAt p (g.abs s), o.1 = id := by
  constructor
  · rintro ⟨j, hj, hid, hside⟩
    rw [h.allOrders] at hj
    obtain ⟨e, he, rfl⟩ := List.mem_map.1 hj
    obtain ⟨s', L, l, R, A, B, hg, hl⟩ := focus_of_mem he
    obtain ⟨ho, hs'⟩ := (h.level_at hg).orders e (by rw [hl]; simp)
    rw [ho.side, hs'] at hside
    rw [← hside, ← hid, ho.id]
    exact ⟨l.price, e.abs, mem_queueAt_abs.2 ⟨l, by rw [hg]; simp, rfl, e, by rw [hl]; simp, rfl⟩, rfl⟩
  · rintro ⟨p, o, ho, rfl⟩
    obtain ⟨l, hl, -, e, he, rfl⟩ := mem_queueAt_abs.1 ho
    obtain ⟨L, R, hg⟩ := List.append_of_mem hl
    obtain ⟨A, B, hAB⟩ := List.append_of_mem he
    exact h.restsOn hg hAB

theorem Inv.restsOn_unique (h : Inv book g) {id : UInt64} {s' : Side} (hs : book.RestsOn id s) (hs' : book.RestsOn id s') :
    s = s' := by
  obtain ⟨p, o, ho, hid⟩ := h.rep.restsOn_iff.1 hs
  obtain ⟨p', o', ho', hid'⟩ := h.rep.restsOn_iff.1 hs'
  have hlook := h.lookup_of_mem ho
  rw [hid.trans hid'.symm, h.lookup_of_mem ho'] at hlook
  exact (congrArg Prod.fst (Option.some.inj hlook)).symm

namespace BookOp

/-- `replace_order` and `modify_order`. -/
def Rebuilds : BookOp → Prop
  | replace _ | modify _ => True
  | _ => False

/-- The id of the order that results. -/
def resultId : BookOp → UInt64
  | replace u => u.matchId
  | op => op.orderId

/-- The quantity that the order is to have. -/
def resultQty : BookOp → UInt32
  | add u | cancel u | execute u | delete u | modify u | replace u => u.qty

/-- Neither the order that the operation names nor the one that results. -/
def isOther (op : BookOp) (o : UInt64 × ℕ) : Bool := o.1 ≠ op.orderId && o.1 ≠ op.resultId

/-- The order that results rests on the side of the order it came from and on no other; only one of no quantity does not
rest at all. -/
def SideKept (op : BookOp) (book book' : OrderBook maxOrders maxLevels) : Prop :=
  ∀ s, book.RestsOn op.orderId s → (0 < op.resultQty → book'.RestsOn op.resultId s) ∧
    ∀ s', book'.RestsOn op.resultId s' → s' = s

/-- In the queue at each price of each side, the other orders are what they were, in their order. -/
def OthersKept (op : BookOp) (book book' : OrderBook maxOrders maxLevels) : Prop :=
  ∀ s p, (queueAt p (book'.abs s)).filter op.isOther = (queueAt p (book.abs s)).filter op.isOther

end BookOp

theorem onQueue_others {op : BookOp} (hkind : op.Rebuilds) (s : Side) (p : UInt32) (q : Queue UInt64) :
    (op.onQueue s p q).filter op.isOther = q.filter op.isOther := by
  have hnamed : ∀ r, op.isOther (op.orderId, r) = false := fun r => by simp [BookOp.isOther]
  have hresult : ∀ r, [(op.resultId, r)].filter op.isOther = [] := fun r => by simp [BookOp.isOther]
  cases op with
  | replace u =>
    simp only [BookOp.onQueue]
    split_ifs
    · rw [List.filter_append]
      exact (congrArg₂ _ (filter_filterMap_adjustOrder hnamed q) (hresult _)).trans (List.append_nil _)
    · exact filter_filterMap_adjustOrder hnamed q
  | modify u =>
    simp only [BookOp.onQueue]
    split
    · rfl
    · split_ifs
      · exact filter_filterMap_adjustOrder hnamed q
      · rw [List.filter_append]
        exact (congrArg₂ _ (filter_filterMap_adjustOrder hnamed q) (hresult _)).trans (List.append_nil _)
      · rfl
  | add u | cancel u | execute u | delete u => exact hkind.elim

/-- **No other order moves.** -/
theorem Inv.others_kept (h : Inv book g) (h' : Rep book' g') {op : BookOp} (hkind : op.Rebuilds) (habs : g'.abs = op.effect g.abs) :
    op.OthersKept book book' := by
  intro s p
  rw [h'.abs_eq, h.rep.abs_eq, habs, h.queueAt_effect, onQueue_others hkind]

/-- A modification to some quantity leaves the order in its queue. -/
theorem mem_onQueue_modify {p : UInt32} {q : Queue UInt64} {o : UInt64 × ℕ} (ho : o ∈ q) (hid : o.1 = u.orderId) (hq : 0 < u.qty) :
    ∃ o' ∈ (BookOp.modify u).onQueue s p q, o'.1 = u.orderId := by
  have hpos : u.qty.toNat ≠ 0 := Nat.pos_iff_ne_zero.1 (UInt32.lt_iff_toNat_lt.1 hq)
  simp only [BookOp.onQueue]
  split
  · exact ⟨o, ho, hid⟩
  · split_ifs
    · -- a smaller one keeps its place
      refine ⟨(u.orderId, u.qty.toNat), List.mem_filterMap.2 ⟨o, ho, ?_⟩, rfl⟩
      rw [adjustOrder, if_pos hid, if_neg hpos]
    · exact ⟨(u.orderId, u.qty.toNat), List.mem_append_right _ (List.mem_singleton.2 rfl), rfl⟩
    · exact ⟨o, ho, hid⟩

/-- **A modified order** stays on its side. -/
theorem Inv.modify_side_kept (h : Inv book g) (h' : Rep book' g') (habs : g'.abs = (BookOp.modify u).effect g.abs) :
    (BookOp.modify u).SideKept book book' := by
  intro s hs
  constructor
  · intro hq
    obtain ⟨p, o, ho, hid⟩ := h.rep.restsOn_iff.1 hs
    rw [h'.restsOn_iff, habs]
    refine ⟨p, ?_⟩
    rw [h.queueAt_effect]
    exact mem_onQueue_modify ho hid hq
  · intro s' hs'
    obtain ⟨p, o, ho, hid⟩ := h'.restsOn_iff.1 hs'
    rw [habs, h.queueAt_effect] at ho
    have hone : (BookOp.modify u).OneOrder := trivial
    rcases BookOp.onQueue_ids hone ho with ⟨hnew, -⟩ | ⟨o', ho', e⟩
    · cases hnew
    · exact h.restsOn_unique (h.rep.restsOn_iff.2 ⟨p, o', ho', e.trans hid⟩) hs

/-- **A replacement rests** on the side of the message. -/
theorem Inv.replace_restsOn (h : Inv book g) (hop : (BookOp.replace u).Admissible book) (h' : Rep book' g')
    (habs : g'.abs = (BookOp.replace u).effect g.abs) : book'.RestsOn u.matchId s ↔ s = sideOf u.side := by
  obtain ⟨hlive, hadd⟩ := hop
  obtain ⟨book1, g1, e1, h1, habs1⟩ := h.delete_run hlive
  have hfresh := (h1.rep.addOk_iff.1 (hadd book1 e1)).fresh
  have hgone : ∀ p, ∀ o ∈ (queueAt p (g.abs s)).filterMap (adjustOrder u.orderId fun _ => 0), o.1 ≠ u.matchId := by
    intro p o ho hid
    have hmem : o ∈ queueAt p (g1.abs s) := by
      rw [habs1]
      exact (queueAt_adjust p (g.abs s)).symm ▸ ho
    obtain ⟨k, hk, hkid⟩ := h1.rep.live_iff.1 (h1.rep.live_iff_queue.2 ⟨s, p, o, hmem, hid⟩)
    exact hfresh k hk hkid
  rw [h'.restsOn_iff, habs]
  constructor
  · rintro ⟨p, o, ho, hid⟩
    rw [h.queueAt_effect, BookOp.onQueue] at ho
    split_ifs at ho with hplace
    · exact hplace.1.symm
    · exact absurd hid (hgone p o ho)
  · rintro rfl
    refine ⟨u.price, (u.matchId, u.qty.toNat), ?_, rfl⟩
    rw [h.queueAt_effect, BookOp.onQueue, if_pos ⟨rfl, rfl⟩]
    simp

/-- **The side of the rebuilt order** is kept by every modification, and by a replacement exactly when the side byte of the
message names the side of the order it replaces. -/
theorem rebuilt_order_keeps_side_iff (h : BookReachable book) {op : BookOp} (hkind : op.Rebuilds) (hop : op.Admissible book) :
    (∃ book', op.run book = pure book' ∧ op.SideKept book book' ∧ op.OthersKept book book') ↔
      ∀ u, op = .replace u → book.RestsOn u.orderId (sideOf u.side) := by
  obtain ⟨g, hg⟩ := h.inv
  obtain ⟨book', g', e, h', habs⟩ := hg.run hop
  have hothers : op.OthersKept book book' := hg.others_kept h'.rep hkind habs
  cases op with
  | modify u => exact iff_of_true ⟨book', e, hg.modify_side_kept h'.rep habs, hothers⟩ nofun
  | replace u =>
    have hresult : book'.RestsOn u.matchId (sideOf u.side) := (hg.replace_restsOn hop h'.rep habs).2 rfl
    constructor
    · rintro ⟨book'', hrun, hside, -⟩ _ ⟨⟩
      cases Exec.pure_inj (hrun.symm.trans e)
      obtain ⟨s, p, o, ho, hid⟩ := hg.rep.live_iff_queue.1 hop.1
      have hs : book.RestsOn u.orderId s := hg.rep.restsOn_iff.2 ⟨p, o, ho, hid⟩
      rw [(hside s hs).2 _ hresult]
      exact hs
    · intro hnames
      refine ⟨book', e, fun s hs => ?_, hothers⟩
      have hsame : sideOf u.side = s := hg.restsOn_unique (hnames u rfl) hs
      exact ⟨fun _ => hsame ▸ hresult, fun s' hs' => ((hg.replace_restsOn hop h'.rep habs).1 hs').trans hsame⟩
  | add u | cancel u | execute u | delete u => exact hkind.elim

/-- The second bid at its price is replaced by a larger one at a better price. -/
def replaceSecond : BookOp := .replace { message .modifyOrder 2 0 101 8 with matchId := 6 }

theorem rebuilt_order_keeps_side_iff_busy : ∃ book book', emptyBook.runAll busyRun .debug = .ok book ∧
    book.queues = busyQueues ∧ replaceSecond.run book = pure book' ∧
    book'.queues = [[(101, [(6, 8)]), (100, [(1, 3)])], [(103, [(4, 7)]), (105, [(5, 2)])]] ∧
    book'.RestsOn 6 .bid ∧ replaceSecond.SideKept book book' ∧ replaceSecond.OthersKept book book' := by
  have hreplaced : (do return (← replaceSecond.run (← emptyBook.runAll busyRun)).queues) .debug =
      .ok [[(101, [(6, 8)]), (100, [(1, 3)])], [(103, [(4, 7)]), (105, [(5, 2)])]] := by decide +kernel
  obtain ⟨book, book', hrun, hreach, hq, hop, e, hq'⟩ := busyRun_then hreplaced
  obtain ⟨g, hg⟩ := hreach.inv
  have hbid : book.RestsOn 2 .bid := by
    refine hg.rep.restsOn_iff.2 ⟨100, (2, 3), ?_, rfl⟩
    rw [← hg.rep.abs_eq, (OrderBook.abs_of_queues hq).1]
    decide
  have hkind : replaceSecond.Rebuilds := trivial
  obtain ⟨_, e', hside, hothers⟩ := (rebuilt_order_keeps_side_iff hreach hkind hop).2 fun u hu => by
    cases hu
    exact hbid
  cases Exec.pure_inj (e.symm.trans e')
  exact ⟨book, book', hrun, hq, e, hq', (hside .bid hbid).1 (by decide), hside, hothers⟩

/-- **In a debug build a `replace_order` that returned was admissible.** -/
theorem Inv.replace_admissible (h : Inv book g) (hrun : book.replaceOrder u .debug = .ok book') :
    (BookOp.replace u).Admissible book := by
  unfold OrderBook.replaceOrder at hrun
  obtain ⟨book1, hdelete, hadd⟩ := Exec.bind_eq_ok.1 hrun
  have hlive := h.rep.delete_live hdelete
  obtain ⟨book2, g2, e2, h2, -⟩ := h.delete_run hlive
  have hbook : book1 = book2 := Except.ok.inj (hdelete.symm.trans (congrFun e2 .debug))
  refine ⟨hlive, fun book3 e3 => ?_⟩
  rw [Exec.pure_inj (e3.symm.trans e2), ← hbook]
  rw [hbook] at hadd ⊢
  exact h2.rep.addOk_of_debug hadd

/-- A replacement of the bid by order 2 whose side byte says ask. -/
def sellInstead : BookUpdate := { firstOrder with matchId := 2, side := 1 }

/-- The bids before it and the asks behind it. -/
def sideRun : Exec (Queues UInt32 UInt64 × Queues UInt32 UInt64) := do
  let book : OrderBook four four := OrderBook.new (fun _ => Order.zero) fun _ => PriceLevel.zero
  let book ← book.addOrder firstOrder
  let book' ← book.replaceOrder sellInstead
  return (book.abs .bid, book'.abs .ask)

theorem replace_changes_side : ∃ book book' : OrderBook four four, BookReachable book ∧
    (BookOp.replace sellInstead).Admissible book ∧ (BookOp.replace sellInstead).run book = pure book' ∧
      book.RestsOn 1 .bid ∧ book'.RestsOn 2 .ask ∧ ¬ (BookOp.replace sellInstead).SideKept book book' := by
  have hrun : sideRun .debug = .ok ([(100, [(1, 5)])], [(100, [(2, 5)])]) := rfl
  obtain ⟨book, hadd, hrun⟩ := Exec.bind_eq_ok.1 hrun
  obtain ⟨book1, hreplace, hrun⟩ := Exec.bind_eq_ok.1 hrun
  obtain ⟨hbids, hasks⟩ := Prod.mk.inj (Except.ok.inj hrun)
  have hreach : BookReachable book := .step (.new _ _) firstOrder_admissible hadd
  obtain ⟨g, hg⟩ := hreach.inv
  have hop := hg.replace_admissible hreplace
  obtain ⟨book', g', e, h', -⟩ := hg.run hop
  have hbook : book1 = book' := Except.ok.inj (hreplace.symm.trans (congrFun e .debug))
  have hbid : book.RestsOn 1 .bid := by
    refine hg.rep.restsOn_iff.2 ⟨100, (1, 5), ?_, rfl⟩
    rw [← hg.rep.abs_eq, hbids]
    decide
  have hask : book'.RestsOn 2 .ask := by
    refine h'.rep.restsOn_iff.2 ⟨100, (2, 5), ?_, rfl⟩
    rw [← h'.rep.abs_eq, ← hbook, hasks]
    decide
  refine ⟨book, book', hreach, hop, e, hbid, hask, fun hside => ?_⟩
  cases (hside .bid hbid).2 .ask hask

end TradeCore
