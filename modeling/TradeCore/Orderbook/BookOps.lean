import TradeCore.Orderbook.BookSteps
/-!
# What each operation of the book does to its shape

`delete_order_internal`, `add_order`, `cancel_order`, `delete_order`, `modify_order` and `replace_order` on a
book that represents a shape: none of them faults in either build, and the book they return represents the
shape the theorem names. The other side is framed throughout.
-/

namespace TradeCore

open ObjectPool LinkedList

variable {maxOrders maxLevels : PoolCapacity} {book : OrderBook maxOrders maxLevels} {g : Shape} {s : Side}
  {L R : List Level} {l : Level} {A B : List Entry} {e : Entry}

/-! ## Taking an order out -/

/-- A level that may have lost its last order: it is destroyed then. -/
def keep (l : Level) : List Level := if l.orders = [] then [] else [l]

theorem keep_of_ne (h : l.orders ≠ []) : keep l = [l] := if_neg h

theorem mem_keep {k : Level} : k ∈ keep l ↔ k = l ∧ l.orders ≠ [] := by
  unfold keep
  split_ifs with h
  · simp [h]
  · simp [h]

@[simp] theorem ordersOf_keep (l : Level) : ordersOf (keep l) = l.orders := by
  unfold keep
  split_ifs with h
  · exact h.symm
  · simp

/-- An order that lies elsewhere is not an order of the level. -/
theorem slot_notMem {O : List Entry} (h : ((l.orders ++ O).map Entry.slot).Nodup) {k : Entry} (hk : k ∈ O) :
    k.slot ∉ l.orders.map Entry.slot := by
  rw [List.map_append, List.nodup_append] at h
  intro hm
  exact h.2.2 _ hm _ (List.mem_map.2 ⟨k, hk, rfl⟩) rfl

/-- **`delete_order_internal`**: the order leaves its queue, the map and the pool; an emptied level goes. -/
theorem Rep.delete_internal (h : Rep book g) (hg : g s = L ++ l :: R) (hl : l.orders = A ++ e :: B)
    (ht : A ++ B = [] → l.total = 0) :
    ∃ book', book.deleteOrderInternal e.slot s l.slot = pure book' ∧
      Rep book' (g.set s (L ++ keep { l with orders := A ++ B } ++ R)) ∧ SideFrame book book' s.flip (g s.flip) := by
  have hor := h.orders_split hg hl
  have hat := h.level_at hg
  have hne := slot_ne hor.nodup
  have hnd := hor.nodup
  rw [← hl] at hnd
  have heo : e ∈ l.orders := by
    rw [hl]
    simp
  have hid : (book.orderPool.slots e.slot).orderId = e.id := (hat.orders e heo).1.id
  obtain ⟨map', e1, hmap⟩ := (hor.perm (focus_entry A B _ e)).erase
  have hv : ∀ k ∈ l.orders, Valid maxOrders k.slot := fun k hk =>
    hor.valid (List.mem_append_left _ (hl ▸ hk))
  have hlen : l.orders.length ≤ maxOrders.size := by
    have := hor.length_le
    rw [← hl, List.length_append] at this
    omega
  have hndl : (l.orders.map Entry.slot).Nodup := by
    rw [List.map_append, List.nodup_append] at hnd
    exact hnd.1
  obtain ⟨orders1, head, e2, hpath, hlf⟩ :=
    unlinkOrder_spec { book with orderMap := map' } hat hl hndl hv hlen
  -- the order's slot goes back to the pool
  have hok1 : orders1.PoolOk (((A ++ e :: B) ++ ordersOf (L ++ R ++ g s.flip)).map Entry.slot).toFinset := by
    refine hor.pool.congr hlf.freeHead hlf.activeCount fun j hj => hlf.other j fun hm => hj ?_
    rw [List.mem_toFinset, List.map_append, ← hl]
    exact List.mem_append_left _ hm
  obtain ⟨orders2, e3, hok2, hs2⟩ := hok1.deallocate_ok (i := e.slot) (by simp)
  obtain ⟨levels, hlevels⟩ : ∃ levels : PriceLevelPool maxLevels, levels = (book.levelPool.modify l.slot fun r =>
    { r with headOrderIdx := head, tailOrderIdx := tailOf (A ++ B) }).modify l.slot fun r =>
      { r with orderCount := r.orderCount - 1 } := ⟨_, rfl⟩
  have hself : levels.slots l.slot = { book.levelPool.slots l.slot with
      headOrderIdx := head, tailOrderIdx := tailOf (A ++ B)
      orderCount := (book.levelPool.slots l.slot).orderCount - 1 } := by
    rw [hlevels, modify_slots_self, modify_slots_self]
  have hother : ∀ j, j ≠ l.slot → levels.slots j = book.levelPool.slots j := by
    intro j hj
    rw [hlevels, modify_slots_of_ne _ hj, modify_slots_of_ne _ hj]
  have hcount : (levels.slots l.slot).orderCount = UInt32.ofNat (A ++ B).length := by
    rw [hself]
    change (book.levelPool.slots l.slot).orderCount - 1 = _
    have : (A ++ e :: B).length = (A ++ B).length + 1 := by
      simp only [List.length_append, List.length_cons]
      omega
    rw [hat.count, hl, this, ofNat_succ_sub_one]
  -- the book before the level is looked at again
  obtain ⟨book2, hbook2⟩ : ∃ book2 : OrderBook maxOrders maxLevels, book2 =
    { book with orderMap := map', orderPool := orders2, levelPool := levels } := ⟨_, rfl⟩
  have hrep2 : Rep book2 (g.set s (L ++ { l with orders := A ++ B } :: R)) ∧
      SideFrame book book2 s.flip (g s.flip) := by
    rw [hbook2]
    refine h.update_level hg rfl rfl (fun s => by cases s <;> rfl) (by rw [hlevels]; rfl) (by rw [hlevels]; rfl) hother ?_ ?_
      ⟨?_, ?_, hcount, ?_, ?_, ?_, ?_⟩ ?_
    · unfold PriceLevelPool.node
      simp only [hself]
    · intro k hk
      rw [hs2 _ (hne k (List.mem_append_right _ hk))]
      exact hlf.other _ (slot_notMem hnd hk)
    · simp only [hself, hat.price]
    · simp only [hself, hat.total]
    · simp only [hself, hat.side]
    · simp only [hself]
    · simp only [hself]
      refine hpath.congr fun j hj => ?_
      obtain ⟨k, hk, rfl⟩ := List.mem_map.1 hj
      unfold nextLink
      rw [hs2 _ (hne k (List.mem_append_left _ hk))]
    · intro k hk
      have hkl : k ∈ l.orders := by
        rw [hl]
        exact mem_middle.2 (Or.inr hk)
      obtain ⟨hk1, hk2⟩ := hat.orders k hkl
      exact ⟨(hlf.orderAt hk1).frame (hs2 _ (hne k (List.mem_append_left _ hk))), hk2⟩
    · refine hmap orders2 ?_
      rw [← List.toFinset_eq_of_perm _ _ ((focus_entry A B _ e).map Entry.slot)]
      exact hok2
  obtain ⟨hrep2, hframe2⟩ := hrep2
  have hrun : book.deleteOrderInternal e.slot s l.slot = (if UInt32.ofNat (A ++ B).length = 0 then
      (book2.side s).removeAndDestroyLevel l.slot book2.levelPool book2.stats >>= fun res =>
        pure ({ book2 with levelPool := res.2.1, stats := res.2.2 }.setSide s res.1)
    else pure book2) := by
    unfold OrderBook.deleteOrderInternal
    rw [hid, e1, pure_bind]
    simp only [e2, pure_bind]
    simp only [e3, pure_bind]
    rw [← hlevels, hcount, hbook2]
  have hle : (A ++ B).length ≤ maxOrders.size := by
    rw [hl] at hlen
    simp only [List.length_append, List.length_cons] at hlen ⊢
    omega
  by_cases hAB : A ++ B = []
  · have h0 : UInt32.ofNat (A ++ B).length = 0 := by rw [hAB]; rfl
    obtain ⟨side', lp', stats', e4, hrep3, hframe3⟩ := hrep2.destroy_level (Shape.set_self _ _ _) hAB (ht hAB)
    rw [Shape.set_flip] at hframe3
    refine ⟨_, ?_, ?_, hframe2.trans hframe3⟩
    · rw [hrun, if_pos h0, e4, pure_bind]
    · have hk : keep { l with orders := A ++ B } = [] := if_pos hAB
      rw [Shape.set_set] at hrep3
      rwa [hk, List.append_nil]
  · have h0 : ¬ UInt32.ofNat (A ++ B).length = 0 := by
      rw [ofNat_eq_zero hle, List.length_eq_zero_iff]
      exact hAB
    refine ⟨book2, by rw [hrun, if_neg h0], ?_, hframe2⟩
    have hk : keep { l with orders := A ++ B } = [{ l with orders := A ++ B }] := if_neg hAB
    rw [hk, List.append_assoc]
    exact hrep2

/-! ## Finding or creating a level -/

theorem Rep.find_level (h : Rep book g) (hg : g s = L ++ l :: R) :
    (book.side s).findByPrice book.levelPool l.price = pure l.slot := by
  rw [← (h.level_at hg).price]
  exact (h.sides s).tree.find_mem (by rw [hg]; simp)

/-- The levels of a side lie by increasing price. -/
theorem Rep.sorted (h : Rep book g) (s : Side) : (g s).Pairwise fun a b => a.price < b.price := by
  have hp := (h.sides s).tree.sorted
  rw [List.pairwise_map] at hp
  refine List.Pairwise.imp_of_mem (fun {a b} ha hb hlt => ?_) hp
  rw [← ((h.sides s).levels a ha).price, ← ((h.sides s).levels b hb).price]
  exact UInt32.lt_iff_toNat_lt.2 hlt

/-- The place of a price among levels: `l` is the level of that price, empty when there was none. -/
structure LevelFor (ls : List Level) (price : UInt32) (L : List Level) (l : Level) (R : List Level) : Prop where
  split : ls = L ++ keep l ++ R
  here : l.price = price
  below : ∀ k ∈ L, k.price < price
  above : ∀ k ∈ R, price < k.price
  empty : l.orders = [] → l.total = 0

/-- The two sides share no level. -/
theorem Rep.flip_ne (h : Rep book g) {k k' : Level} (hk : k ∈ g s) (hk' : k' ∈ g s.flip) : k.slot ≠ k'.slot := by
  have hlev := h.levels_focus (s := s) (L := []) (X := g s) (R := []) (by simp)
  have hnd := hlev.nodup
  rw [List.map_append, List.nodup_append] at hnd
  exact hnd.2.2 _ (List.mem_map.2 ⟨k, hk, rfl⟩) _ (List.mem_map.2 ⟨k', by simpa using hk', rfl⟩)

/-- **One level more.** An empty level in a slot of its own was entered between `L` and `R`; of the other levels of the
side tree links were written to at most, and nothing else was. -/
theorem Rep.enter_level {book' : OrderBook maxOrders maxLevels} (h : Rep book g) (hg : g s = L ++ R) (hl : l.orders = [])
    (hnew : l.slot ∉ (g.levels.map Level.slot).toFinset) (hframe : SideFrame book book' s.flip (g s.flip))
    (htree : (book'.side s).SideTree book'.levelPool ((L ++ l :: R).map Level.slot)) (hbyte : (book'.side s).side = s.toByte)
    (hrow : LevelAt book'.levelPool book'.orderPool s l)
    (hold : ∀ k ∈ g s, book'.levelPool.slots k.slot =
      { book.levelPool.slots k.slot with node := (book'.levelPool.slots k.slot).node })
    (hpool : book'.levelPool.PoolOk (insert l.slot (g.levels.map Level.slot).toFinset))
    (hop : book'.orderPool = book.orderPool) (hom : book'.orderMap = book.orderMap) : Rep book' (g.set s (L ++ l :: R)) := by
  have hX : L ++ l :: R = L ++ [l] ++ R := by simp
  have hgX : g s = L ++ [] ++ R := by rw [hg, List.append_nil]
  have hperm := (Shape.levels_focus hgX).map Level.slot
  have hor := h.orders_focus hgX
  rw [hX] at htree ⊢
  refine Rep.of_focus ⟨htree, hbyte, fun k hk => ?_⟩ ((h.sides s.flip).frame hframe) ⟨?_, ?_⟩ ?_
  · have hk' : k = l ∨ k ∈ g s := by
      rw [hg]
      simp only [List.mem_append, List.mem_singleton] at hk ⊢
      tauto
    rcases hk' with rfl | hk'
    · exact hrow
    · rw [hop]
      exact ((h.sides s).levels k hk').frame (hold k hk') fun _ _ => rfl
  · rw [List.singleton_append, List.map_cons, List.nodup_cons]
    exact ⟨fun hm => hnew (List.mem_toFinset.2 (hperm.mem_iff.2 hm)), (h.levels_focus hgX).nodup⟩
  · rw [List.singleton_append, List.map_cons, List.toFinset_cons]
    rwa [List.toFinset_eq_of_perm _ _ hperm] at hpool
  · rw [hop, hom]
    simpa [hl] using hor

/-- **Step 1 of `add_order`** at a price that has no level. -/
theorem Rep.create_level (h : Rep book g) {price : UInt32} (hp : ∀ l ∈ g s, l.price ≠ price) (hw : price.toNat < 10000)
    (hroom : g.levels.length < maxLevels.size) :
    ∃ book' L l R, book.findOrCreateLevel s price = pure (l.slot, book') ∧ LevelFor (g s) price L l R ∧
      Rep book' (g.set s (L ++ l :: R)) ∧ SideFrame book book' s.flip (g s.flip) ∧
      book'.orderPool = book.orderPool ∧ book'.orderMap = book.orderMap := by
  have hside := h.sides s
  have hlev := h.levels
  -- the slot is fresh for both sides
  have hcard : (g.levels.map Level.slot).toFinset.card < maxLevels.size := by
    rwa [List.toFinset_card_of_nodup hlev.nodup, List.length_map]
  obtain ⟨i, lp1, e1, hv, hu, hok, hslots⟩ := BookSide.createLevel_ok (s := book.side s) hlev.pool hcard price
  have hfresh : ∀ s', ∀ k ∈ g s', k.slot ≠ i := by
    intro s' k hk e
    exact hu (List.mem_toFinset.2 (List.mem_map.2 ⟨k, Shape.mem_levels.2 ⟨s', hk⟩, e⟩))
  have hself : lp1.slots i = (book.side s).freshLevel price := by rw [hslots, Function.update_self]
  have hold : ∀ j, j ≠ i → lp1.slots j = book.levelPool.slots j := fun j hj => by
    rw [hslots, Function.update_of_ne hj]
  have htree : (book.side s).SideTree lp1 ((g s).map Level.slot) := by
    refine hside.tree.frame fun j hj => ?_
    obtain ⟨k, hk, rfl⟩ := List.mem_map.1 hj
    unfold PriceLevelPool.node PriceLevelPool.priceOf
    rw [hold _ (hfresh s k hk)]
    exact ⟨rfl, rfl⟩
  have hprice : ∀ k ∈ g s, (lp1.slots k.slot).price = k.price := by
    intro k hk
    rw [hold _ (hfresh s k hk)]
    exact (hside.levels k hk).price
  have hpi : lp1.priceOf i = price.toNat := by
    unfold PriceLevelPool.priceOf
    rw [hself]
    rfl
  obtain ⟨side', lp2, stats', Ls, Rs, e2, hLR, hLs, hRs, htree2, hF, hbyte⟩ := htree.insertLevel_spec (i := i) hv
    (fun hm => by
      obtain ⟨k, hk, e⟩ := List.mem_map.1 hm
      exact hfresh s k hk e)
    (fun j hj e => by
      obtain ⟨k, hk, rfl⟩ := List.mem_map.1 hj
      rw [hpi] at e
      exact hp k hk ((hprice k hk).symm.trans (UInt32.toNat_inj.1 e)))
    (by rw [hpi]; exact hw) book.stats
  obtain ⟨L, R, hg, rfl, rfl⟩ : ∃ L R, g s = L ++ R ∧ L.map Level.slot = Ls ∧ R.map Level.slot = Rs :=
    List.map_eq_append_iff.1 hLR
  have hmemL : ∀ k ∈ L, k ∈ g s := fun k hk => by
    rw [hg]
    exact List.mem_append_left _ hk
  have hmemR : ∀ k ∈ R, k ∈ g s := fun k hk => by
    rw [hg]
    exact List.mem_append_right _ hk
  have hnode : ∀ j, lp2.slots j = { lp1.slots j with node := (lp2.slots j).node } := hF.payload
  have hflip : ∀ k ∈ g s.flip, lp2.slots k.slot = book.levelPool.slots k.slot := by
    intro k hk
    rw [hF.other, hold _ (hfresh _ k hk)]
    intro hm
    rcases List.mem_cons.1 hm with e | hm
    · exact hfresh _ k hk e
    · obtain ⟨k', hk', e⟩ := List.mem_map.1 hm
      exact h.flip_ne hk' hk e
  obtain ⟨l, hl⟩ : ∃ l : Level, l = ⟨i, price, 0, []⟩ := ⟨_, rfl⟩
  have hkeep : keep l = [] := by rw [hl]; rfl
  have hli : l.slot = i := by rw [hl]
  obtain ⟨book', hbook'⟩ : ∃ book' : OrderBook maxOrders maxLevels,
    book' = { book with levelPool := lp2, stats := stats' }.setSide s side' := ⟨_, rfl⟩
  have hlp : book'.levelPool = lp2 := by rw [hbook', OrderBook.levelPool_setSide]
  have hop : book'.orderPool = book.orderPool := by rw [hbook', OrderBook.orderPool_setSide]
  have hom : book'.orderMap = book.orderMap := by rw [hbook', OrderBook.orderMap_setSide]
  have hsd : book'.side s = side' := by rw [hbook', OrderBook.side_setSide]
  have hframe : SideFrame book book' s.flip (g s.flip) := by
    refine ⟨?_, fun k hk => by rw [hlp, hflip k hk], fun _ _ => by rw [hop]⟩
    rw [hbook', OrderBook.side_flip_setSide]
    cases s <;> rfl
  refine ⟨book', L, l, R, ?_, ⟨?_, ?_, fun k hk => ?_, fun k hk => ?_, fun _ => ?_⟩, ?_, hframe, hop, hom⟩
  · have hnone : (book.side s).findByPrice book.levelPool price = pure kInvalidPoolIndex := by
      refine hside.tree.find_none fun j hj => ?_
      obtain ⟨k, hk, rfl⟩ := List.mem_map.1 hj
      rw [(hside.levels k hk).price]
      exact hp k hk
    unfold OrderBook.findOrCreateLevel
    rw [hnone, pure_bind, if_pos rfl, e1, pure_bind]
    simp only [ne_eq, hv.ne_invalid, not_false_eq_true, decide_true, tradecoreAssert_true, pure_bind, get_eq _ hv]
    rw [e2, pure_bind, hbook', hl]
  · rw [hg, hkeep, List.append_nil]
  · rw [hl]
  · have := hLs _ (List.mem_map.2 ⟨k, hk, rfl⟩)
    rw [hpi] at this
    rw [← hprice k (hmemL k hk)]
    exact UInt32.lt_iff_toNat_lt.2 this
  · have := hRs _ (List.mem_map.2 ⟨k, hk, rfl⟩)
    rw [hpi] at this
    rw [← hprice k (hmemR k hk)]
    exact UInt32.lt_iff_toNat_lt.2 this
  · rw [hl]
  · refine h.enter_level hg (by rw [hl]) (by rw [hli]; exact hu) hframe ?_ ?_ ?_ ?_ ?_ hop hom
    · rw [hsd, hlp]
      simpa [hli] using htree2
    · rw [hsd, hbyte]
      exact hside.byte
    · rw [hlp, hop]
      have hrow : lp2.slots l.slot = { (book.side s).freshLevel price with node := (lp2.slots l.slot).node } := by
        rw [hli, ← hself]
        exact hnode i
      refine ⟨?_, ?_, ?_, ?_, ?_, ?_, by rw [hl]; simp⟩ <;> rw [hrow, hl]
      · rfl
      · rfl
      · rfl
      · exact hside.byte
      · rfl
      · rfl
    · intro k hk
      rw [hlp, ← hold _ (hfresh s k hk)]
      exact hnode _
    · rw [hlp, hli]
      refine hok.congr hF.freeHead hF.activeCount fun j hj => hF.other j fun hm => hj ?_
      rcases List.mem_cons.1 hm with rfl | hm
      · exact Finset.mem_insert_self _ _
      · refine Finset.mem_insert_of_mem ?_
        obtain ⟨k, hk, rfl⟩ := List.mem_map.1 hm
        exact List.mem_toFinset.2 (List.mem_map.2 ⟨k, Shape.mem_levels.2 ⟨s, hk⟩, rfl⟩)

/-- **Step 1 of `add_order`**: the level of the price, found or created. -/
theorem Inv.find_or_create (h : Inv book g) {price : UInt32} (hw : price.toNat < 10000)
    (hroom : (∃ l ∈ g s, l.price = price) ∨ g.levels.length < maxLevels.size) :
    ∃ book' L l R, book.findOrCreateLevel s price = pure (l.slot, book') ∧ LevelFor (g s) price L l R ∧
      Rep book' (g.set s (L ++ l :: R)) ∧ SideFrame book book' s.flip (g s.flip) ∧
      book'.orderPool = book.orderPool ∧ book'.orderMap = book.orderMap := by
  by_cases hex : ∃ l ∈ g s, l.price = price
  · obtain ⟨l, hl, rfl⟩ := hex
    obtain ⟨L, R, hg⟩ := List.append_of_mem hl
    have hne : l.orders ≠ [] := (h.wf s l hl).nonempty
    have hsort := h.rep.sorted s
    rw [hg] at hsort
    obtain ⟨-, h2, h3⟩ := List.pairwise_append.1 hsort
    refine ⟨book, L, l, R, ?_, ⟨?_, rfl, fun k hk => h3 k hk l List.mem_cons_self, (List.pairwise_cons.1 h2).1,
      fun e => absurd e hne⟩, ?_, SideFrame.refl _ _ _, rfl, rfl⟩
    · have hv := h.rep.level_valid hg
      unfold OrderBook.findOrCreateLevel
      rw [h.rep.find_level hg, pure_bind, if_neg hv.ne_invalid, get_eq _ hv, pure_bind]
    · rw [hg]
      simp [keep, hne]
    · rw [← hg, Shape.set_eq_self]
      exact h.rep
  · refine h.rep.create_level (fun l hl e => hex ⟨l, hl, e⟩) hw (hroom.resolve_left hex)

/-! ## Appending an order -/

/-- **Step 4 of `add_order`**: the order in slot `i`, written but not yet linked, goes behind the tail. -/
theorem linkOrder_spec (book : OrderBook maxOrders maxLevels) {i : Index} (qty : UInt32)
    (hat : LevelAt book.levelPool book.orderPool s l)
    (hv : ∀ k ∈ l.orders, Valid maxOrders k.slot) (hnd : (l.orders.map Entry.slot).Nodup)
    (hil : i ∉ l.orders.map Entry.slot) (hnext : nextLink book.orderPool i = kInvalidPoolIndex) :
    ∃ orders' head, book.linkOrder l.slot i qty = pure { book with
        orderPool := orders'
        levelPool := book.levelPool.modify l.slot fun r =>
          { r with
            headOrderIdx := head, tailOrderIdx := i, totalQty := r.totalQty + qty, orderCount := r.orderCount + 1 } } ∧
      Path (nextLink orders') head (l.orders.map Entry.slot ++ [i]) kInvalidPoolIndex ∧
      LinkFrame l.orders book.orderPool orders' := by
  have hq := hat.queue
  rcases List.eq_nil_or_concat l.orders with hl | ⟨A, a, hl⟩
  · -- an empty level: the order becomes the head
    have htail : (book.levelPool.slots l.slot).tailOrderIdx = kInvalidPoolIndex := by
      rw [hat.tail, hl]
      rfl
    refine ⟨book.orderPool, i, ?_, by rw [hl]; exact ⟨rfl, hnext⟩, LinkFrame.refl _ _⟩
    unfold OrderBook.linkOrder
    simp only [htail, ne_eq, not_true_eq_false, if_false, pure_bind]
    unfold ObjectPool.modify
    simp only [Function.update_self, Function.update_idem]
  · rw [List.concat_eq_append] at hl
    rw [hl, List.map_append, List.map_singleton] at hq hnd hil
    have htail : (book.levelPool.slots l.slot).tailOrderIdx = a.slot := by
      rw [hat.tail, hl, tailOf_concat]
    have ha : a ∈ l.orders := by
      rw [hl]
      simp
    have hva := hv a ha
    refine ⟨book.orderPool.modify a.slot ({ · with nextInLevel := i }), (book.levelPool.slots l.slot).headOrderIdx, ?_, ?_,
      LinkFrame.modify ha i⟩
    · unfold OrderBook.linkOrder
      simp only [htail, ne_eq, hva.ne_invalid, not_false_eq_true, if_true, update_eq _ hva, pure_bind]
      unfold ObjectPool.modify
      simp only
    · rw [hl, List.map_append, List.map_singleton, List.append_assoc]
      refine hq.append_cell (fun k hk => ?_) ?_ ?_
      · have hka : k ≠ a.slot := (List.nodup_append.1 hnd).2.2 k hk a.slot (by simp)
        unfold nextLink
        rw [modify_slots_of_ne _ hka]
      · unfold nextLink
        rw [modify_slots_self]
      · have hia : i ≠ a.slot := fun e => hil (by rw [e]; simp)
        unfold nextLink
        rw [modify_slots_of_ne _ hia]
        exact hnext

/-- The order that `add_order` writes for an update. -/
def BookUpdate.entry (u : BookUpdate) (slot : Index) : Entry := ⟨slot, u.orderId, u.qty, u.timestampNs, u.side⟩

/-- A level with one more order at its tail. -/
def Level.push (l : Level) (e : Entry) : Level := { l with total := l.total + e.qty, orders := l.orders ++ [e] }

/-- **Steps 2 to 4 of `add_order`**: allocate, register, link. -/
theorem Rep.append_order (h : Rep book g) (hg : g s = L ++ l :: R) {u : BookUpdate} (hp : u.price = l.price)
    (hs : sideOf u.side = s) (h0 : u.orderId ≠ FlatHashMap.kEmptyKey) (hfresh : ∀ k ∈ ordersOf g.levels, k.id ≠ u.orderId)
    (hslot : (ordersOf g.levels).length < maxOrders.size)
    (hroom : 4 * (book.orderMap.size + 1) < 3 * book.orderMap.capacity) :
    ∃ i orders map' book', book.orderPool.allocate Order.zero = pure (some i, orders) ∧
      book.orderMap.insert u.orderId i = pure (true, map') ∧
      OrderBook.linkOrder { book with
        orderPool := orders.modify i fun o =>
          { o with
            orderId := u.orderId, price := u.price, remainingQty := u.qty
            timestampNs := u.timestampNs, nextInLevel := kInvalidPoolIndex, side := u.side }
        orderMap := map' } l.slot i u.qty = pure book' ∧
      Rep book' (g.set s (L ++ l.push (u.entry i) :: R)) ∧ SideFrame book book' s.flip (g s.flip) := by
  have hg' : g s = L ++ [l] ++ R := by simpa using hg
  have hor := h.orders_focus hg'
  have hperm := ordersOf_perm (Shape.levels_focus hg')
  rw [ordersOf_append] at hperm
  obtain ⟨O, hO⟩ : ∃ O, O = ordersOf (L ++ R ++ g s.flip) := ⟨_, rfl⟩
  have hsing : ordersOf [l] = l.orders := by simp
  rw [hsing, ← hO] at hor hperm
  have hat := h.level_at hg
  have hcard : ((l.orders ++ O).map Entry.slot).toFinset.card < maxOrders.size := by
    rw [List.toFinset_card_of_nodup hor.nodup, List.length_map, ← hperm.length_eq]
    exact hslot
  obtain ⟨i, orders, e1, hvi, hiu, hok, hslots⟩ := hor.pool.allocate_ok hcard Order.zero
  obtain ⟨map', e2, hmap⟩ := hor.insert (e := u.entry i) h0 (fun k hk => hfresh k (hperm.mem_iff.2 hk)) hvi hiu hroom
  have hil : i ∉ (l.orders ++ O).map Entry.slot := fun hm => hiu (List.mem_toFinset.2 hm)
  have hold : ∀ k ∈ l.orders ++ O, k.slot ≠ i := fun k hk e => hil (List.mem_map.2 ⟨k, hk, e⟩)
  -- the pool after the fields of the order are written
  obtain ⟨orders1, horders1⟩ : ∃ orders1 : OrderPool maxOrders, orders1 = orders.modify i fun o =>
      { o with
        orderId := u.orderId, price := u.price, remainingQty := u.qty
        timestampNs := u.timestampNs, nextInLevel := kInvalidPoolIndex, side := u.side } := ⟨_, rfl⟩
  have hself : orders1.slots i = ⟨u.orderId, u.timestampNs, u.price, u.qty, kInvalidPoolIndex, u.side⟩ := by
    rw [horders1, modify_slots_self]
  have hother : ∀ j, j ≠ i → orders1.slots j = book.orderPool.slots j := fun j hj => by
    rw [horders1, modify_slots_of_ne _ hj, hslots, Function.update_of_ne hj]
  have hok1 : orders1.PoolOk (Insert.insert i ((l.orders ++ O).map Entry.slot).toFinset) := by
    rw [horders1]
    exact hok.modify (Finset.mem_insert_self _ _) _
  have hat1 : LevelAt book.levelPool orders1 s l :=
    hat.frame rfl fun k hk => hother _ (hold k (List.mem_append_left _ hk))
  have hv : ∀ k ∈ l.orders, Valid maxOrders k.slot := fun k hk => hor.valid (List.mem_append_left _ hk)
  have hnd := hor.nodup
  have hndl : (l.orders.map Entry.slot).Nodup := by
    rw [List.map_append, List.nodup_append] at hnd
    exact hnd.1
  have hill : i ∉ l.orders.map Entry.slot := fun hm => hil (by rw [List.map_append]; exact List.mem_append_left _ hm)
  have hnext : nextLink orders1 i = kInvalidPoolIndex := by
    unfold nextLink
    rw [hself]
  obtain ⟨orders2, head, e3, hpath, hlf⟩ :=
    linkOrder_spec { book with orderPool := orders1, orderMap := map' } u.qty hat1 hv hndl hill hnext
  have hi2 : orders2.slots i = orders1.slots i := hlf.other i hill
  obtain ⟨lp, hlp⟩ : ∃ lp : PriceLevelPool maxLevels, lp = book.levelPool.modify l.slot fun r =>
    { r with
      headOrderIdx := head, tailOrderIdx := i, totalQty := r.totalQty + u.qty, orderCount := r.orderCount + 1 } := ⟨_, rfl⟩
  have hrow : lp.slots l.slot = { book.levelPool.slots l.slot with
      headOrderIdx := head, tailOrderIdx := i
      totalQty := (book.levelPool.slots l.slot).totalQty + u.qty
      orderCount := (book.levelPool.slots l.slot).orderCount + 1 } := by
    rw [hlp, modify_slots_self]
  have hlpo : ∀ j, j ≠ l.slot → lp.slots j = book.levelPool.slots j := fun j hj => by
    rw [hlp, modify_slots_of_ne _ hj]
  obtain ⟨book', hbook'⟩ : ∃ book' : OrderBook maxOrders maxLevels,
    book' = { book with orderPool := orders2, orderMap := map', levelPool := lp } := ⟨_, rfl⟩
  have hupd : Rep book' (g.set s (L ++ l.push (u.entry i) :: R)) ∧ SideFrame book book' s.flip (g s.flip) := by
    rw [hbook']
    refine h.update_level hg rfl rfl (fun s => by cases s <;> rfl) (by rw [hlp]; rfl) (by rw [hlp]; rfl) hlpo
      (by unfold PriceLevelPool.node; simp only [hrow]) (fun k hk => ?_) ⟨?_, ?_, ?_, ?_, ?_, ?_, ?_⟩ ?_
    · rw [← hO] at hk
      have h1 : orders2.slots k.slot = orders1.slots k.slot := hlf.other _ (slot_notMem hnd hk)
      exact h1.trans (hother _ (hold k (List.mem_append_right _ hk)))
    · exact (congrArg PriceLevel.price hrow).trans hat.price
    · refine (congrArg PriceLevel.totalQty hrow).trans ?_
      change (book.levelPool.slots l.slot).totalQty + u.qty = l.total + u.qty
      rw [hat.total]
    · refine (congrArg PriceLevel.orderCount hrow).trans ?_
      change (book.levelPool.slots l.slot).orderCount + 1 = _
      rw [hat.count]
      simp [Level.push, UInt32.ofNat_add]
    · exact (congrArg PriceLevel.side hrow).trans hat.side
    · refine (congrArg PriceLevel.tailOrderIdx hrow).trans ?_
      simp only [Level.push, tailOf_concat, BookUpdate.entry]
    · have hhead : (lp.slots l.slot).headOrderIdx = head := congrArg PriceLevel.headOrderIdx hrow
      simp only [Level.push, hhead, List.map_append, List.map_singleton, BookUpdate.entry]
      exact hpath
    · intro k hk
      rcases List.mem_append.1 hk with hk | hk
      · obtain ⟨hk1, hk2⟩ := hat1.orders k hk
        exact ⟨hlf.orderAt hk1, hk2⟩
      · obtain rfl := List.mem_singleton.1 hk
        have hlive : orders2.slots (u.entry i).slot = _ := hi2.trans hself
        exact ⟨⟨congrArg Order.orderId hlive, (congrArg Order.price hlive).trans hp, congrArg Order.remainingQty hlive,
          congrArg Order.timestampNs hlive, congrArg Order.side hlive⟩, hs⟩
    · have hpm : ((u.entry i) :: (l.orders ++ O)).Perm ((l.push (u.entry i)).orders ++ ordersOf (L ++ R ++ g s.flip)) := by
        rw [← hO]
        simp only [Level.push, List.append_assoc, List.singleton_append]
        exact List.perm_middle.symm
      refine (hmap orders2 (hok1.congr hlf.freeHead hlf.activeCount fun j hj => hlf.other j fun hm => hj ?_)).perm hpm
      refine Finset.mem_insert_of_mem (List.mem_toFinset.2 ?_)
      rw [List.map_append]
      exact List.mem_append_left _ hm
  exact ⟨i, orders, map', book', e1, e2, by rw [← horders1, e3, ← hlp, hbook'], hupd⟩

end TradeCore
