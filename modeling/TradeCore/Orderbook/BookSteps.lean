import TradeCore.Orderbook.BookRep
/-!
# The steps the book operations are made of

Each step is a few writes of `order_book.hpp` that lead from one shape to another: a write to an order's
quantity, a write to a level's total, unlinking and freeing an order, destroying an empty level, finding or
creating a level, registering and appending an order. Nothing is assumed of the shape but `Rep`.
-/

namespace TradeCore

open ObjectPool LinkedList

variable {maxOrders maxLevels cap : PoolCapacity}

/-! ## Lists of entries -/

section Lists

variable {A B O es es' : List Entry} {e : Entry}

theorem focus_entry (A B O : List Entry) (e : Entry) : ((A ++ e :: B) ++ O).Perm (e :: ((A ++ B) ++ O)) := by
  have h : (A ++ e :: B).Perm (e :: (A ++ B)) := List.perm_middle
  exact h.append_right O

/-- The other orders lie in other slots. -/
theorem slot_ne (h : (((A ++ e :: B) ++ O).map Entry.slot).Nodup) : ∀ k ∈ (A ++ B) ++ O, k.slot ≠ e.slot := by
  have h' := ((focus_entry A B O e).map Entry.slot).nodup_iff.1 h
  intro k hk hks
  exact (List.nodup_cons.1 h').1 (List.mem_map.2 ⟨k, hk, hks⟩)

/-- The other orders have other ids. -/
theorem id_ne (h : (((A ++ e :: B) ++ O).map Entry.id).Nodup) : ∀ k ∈ (A ++ B) ++ O, k.id ≠ e.id := by
  have h' := ((focus_entry A B O e).map Entry.id).nodup_iff.1 h
  intro k hk hks
  exact (List.nodup_cons.1 h').1 (List.mem_map.2 ⟨k, hk, hks⟩)

theorem tailOf_concat (es : List Entry) (e : Entry) : tailOf (es ++ [e]) = e.slot := by
  simp [tailOf]

theorem tailOf_append_cons (es es' : List Entry) (e : Entry) : tailOf (es ++ e :: es') = tailOf (e :: es') := by
  unfold tailOf
  rw [List.map_append, List.getLast?_append]
  cases h : ((e :: es').map Entry.slot).getLast? with
  | none => simp at h
  | some x => rfl

end Lists

/-! ## The order pool and the id map -/

namespace OrdersRep

variable {pool pool' : OrderPool cap} {map : FlatHashMap} {es es' : List Entry} {e : Entry}

theorem valid (h : OrdersRep pool map es) (he : e ∈ es) : Valid cap e.slot :=
  h.pool.valid _ (List.mem_toFinset.2 (List.mem_map.2 ⟨e, he, rfl⟩))

theorem activeCount (h : OrdersRep pool map es) : pool.activeCount = es.length := by
  rw [h.pool.count, List.toFinset_card_of_nodup h.nodup, List.length_map]

theorem length_le (h : OrdersRep pool map es) : es.length ≤ cap.size := by
  have := h.pool.card_le
  rwa [List.toFinset_card_of_nodup h.nodup, List.length_map] at this

/-- The map binds the ids of the orders and nothing else. -/
theorem keys (h : OrdersRep pool map es) : ∃ m, map.Refines (FlatHashMap.nextPowerOfTwo cap.size) m ∧
    (∀ id i, m.lookup id = some i ↔ ∃ e ∈ es, e.id = id ∧ e.slot = i) ∧ m.keys = (es.map Entry.id).toFinset := by
  obtain ⟨m, hm, hl⟩ := h.map
  refine ⟨m, hm, hl, ?_⟩
  ext id
  rw [Finmap.mem_keys, Finmap.mem_iff, List.mem_toFinset, List.mem_map]
  constructor
  · rintro ⟨i, hi⟩
    obtain ⟨e, he, hid, -⟩ := (hl id i).1 hi
    exact ⟨e, he, hid⟩
  · rintro ⟨e, he, hid⟩
    exact ⟨e.slot, (hl id e.slot).2 ⟨e, he, hid, rfl⟩⟩

theorem mapSize (h : OrdersRep pool map es) : map.size = es.length := by
  obtain ⟨m, hm, -, hk⟩ := h.keys
  rw [hm.size, hk, List.toFinset_card_of_nodup h.ids, List.length_map]

theorem capacity (h : OrdersRep pool map es) : map.capacity = FlatHashMap.nextPowerOfTwo cap.size := by
  obtain ⟨m, hm, -⟩ := h.map
  exact hm.capacity

theorem id_ne_zero (h : OrdersRep pool map es) (he : e ∈ es) : e.id ≠ FlatHashMap.kEmptyKey := by
  obtain ⟨m, hm, hl⟩ := h.map
  obtain ⟨j, hj⟩ := (hm.binds e.id e.slot).1 ((hl _ _).2 ⟨e, he, rfl, rfl⟩)
  exact (FlatHashMap.table_eq_some.1 hj).1

/-- **`find`** of a live id. -/
theorem find (h : OrdersRep pool map es) (he : e ∈ es) : map.find e.id = pure e.slot := by
  obtain ⟨m, hm, hl⟩ := h.map
  rw [hm.find_eq (h.id_ne_zero he), (hl _ _).2 ⟨e, he, rfl, rfl⟩]
  rfl

/-- **`find`** of an id that is not live. -/
theorem find_none (h : OrdersRep pool map es) {id : UInt64} (h0 : id ≠ FlatHashMap.kEmptyKey) (hid : ∀ e ∈ es, e.id ≠ id) :
    map.find id = pure FlatHashMap.kEmpty := by
  obtain ⟨m, hm, hl⟩ := h.map
  rw [hm.find_eq h0]
  cases hlook : m.lookup id with
  | none => rfl
  | some i =>
    obtain ⟨e, he, hid', -⟩ := (hl _ _).1 hlook
    exact absurd hid' (hid e he)

/-- The pool changed in allocated slots, the orders in neither slot nor id. -/
theorem congr (h : OrdersRep pool map es)
    (hkey : es'.map (fun e => (e.id, e.slot)) = es.map fun e => (e.id, e.slot))
    (hpool : pool'.PoolOk (es.map Entry.slot).toFinset) : OrdersRep pool' map es' := by
  have hslot : es'.map Entry.slot = es.map Entry.slot := by
    have := congrArg (List.map Prod.snd) hkey
    simpa [List.map_map, Function.comp_def] using this
  have hids : es'.map Entry.id = es.map Entry.id := by
    have := congrArg (List.map Prod.fst) hkey
    simpa [List.map_map, Function.comp_def] using this
  have hmem : ∀ id i, (∃ e ∈ es', e.id = id ∧ e.slot = i) ↔ ∃ e ∈ es, e.id = id ∧ e.slot = i := by
    intro id i
    have key : ∀ xs : List Entry, (∃ e ∈ xs, e.id = id ∧ e.slot = i) ↔ (id, i) ∈ xs.map fun e => (e.id, e.slot) := by
      intro xs
      simp [List.mem_map, Prod.mk.injEq]
    rw [key, key, hkey]
  obtain ⟨m, hm, hl⟩ := h.map
  exact ⟨hslot ▸ h.nodup, by rw [hslot]; exact hpool, hids ▸ h.ids, m, hm, fun id i => (hl id i).trans (hmem id i).symm⟩

/-- An order of another id is not the one that comes first. -/
theorem slotOf_cons_of_ne {id : UInt64} {i : Index} (hid : id ≠ e.id) :
    (∃ k ∈ e :: es, k.id = id ∧ k.slot = i) ↔ ∃ k ∈ es, k.id = id ∧ k.slot = i := by
  constructor
  · rintro ⟨k, hk, hkid, hks⟩
    rcases List.mem_cons.1 hk with rfl | hk
    · exact absurd hkid.symm hid
    · exact ⟨k, hk, hkid, hks⟩
  · rintro ⟨k, hk, hkid, hks⟩
    exact ⟨k, List.mem_cons_of_mem e hk, hkid, hks⟩

/-- **`erase`** of a live id, and the pool without its slot. -/
theorem erase (h : OrdersRep pool map (e :: es)) : ∃ map', map.erase e.id = pure (true, map') ∧
    ∀ pool' : OrderPool cap, pool'.PoolOk ((((e :: es).map Entry.slot).toFinset).erase e.slot) → OrdersRep pool' map' es := by
  obtain ⟨m, hm, hl⟩ := h.map
  have he : e ∈ e :: es := List.mem_cons_self
  have hmem : e.id ∈ m := Finmap.mem_of_lookup_eq_some ((hl e.id e.slot).2 ⟨e, he, rfl, rfl⟩)
  obtain ⟨map', oks, e1, hm', -⟩ := hm.erase_ok (h.id_ne_zero he) hmem
  have hnd := h.nodup
  have hids := h.ids
  simp only [List.map_cons, List.nodup_cons] at hnd hids
  refine ⟨map', by simp only [FlatHashMap.erase, e1, pure_bind], fun pool' hp => ⟨hnd.2, ?_, hids.2, _, hm', fun id i => ?_⟩⟩
  · have hset : (((e :: es).map Entry.slot).toFinset).erase e.slot = (es.map Entry.slot).toFinset := by
      rw [List.map_cons, List.toFinset_cons, Finset.erase_insert]
      rw [List.mem_toFinset]
      exact hnd.1
    rwa [hset] at hp
  · by_cases hid : id = e.id
    · rw [hid, Finmap.lookup_erase]
      constructor
      · intro hnone
        cases hnone
      · rintro ⟨k, hk, hkid, -⟩
        exact absurd (List.mem_map.2 ⟨k, hk, hkid⟩) hids.1
    · rw [Finmap.lookup_erase_ne hid, hl]
      exact slotOf_cons_of_ne hid

/-- **`insert`** of a fresh id below the load limit, and the pool with a new slot. -/
theorem insert (h : OrdersRep pool map es) (h0 : e.id ≠ FlatHashMap.kEmptyKey) (hfresh : ∀ k ∈ es, k.id ≠ e.id)
    (hv : Valid cap e.slot) (hslot : e.slot ∉ (es.map Entry.slot).toFinset)
    (hroom : 4 * (map.size + 1) < 3 * map.capacity) : ∃ map', map.insert e.id e.slot = pure (true, map') ∧
    ∀ pool' : OrderPool cap, pool'.PoolOk (Insert.insert e.slot (es.map Entry.slot).toFinset) →
      OrdersRep pool' map' (e :: es) := by
  obtain ⟨m, hm, hl⟩ := h.map
  rw [hm.capacity] at hroom
  obtain ⟨map', e1, hm'⟩ := hm.insert_ok h0 hv.ne_invalid hroom
  rw [List.mem_toFinset] at hslot
  refine ⟨map', e1, fun pool' hp => ⟨?_, ?_, ?_, _, hm', fun id i => ?_⟩⟩
  · rw [List.map_cons, List.nodup_cons]
    exact ⟨hslot, h.nodup⟩
  · rw [List.map_cons, List.toFinset_cons]
    exact hp
  · rw [List.map_cons, List.nodup_cons]
    refine ⟨fun hm => ?_, h.ids⟩
    obtain ⟨k, hk, hkid⟩ := List.mem_map.1 hm
    exact hfresh k hk hkid
  · by_cases hid : id = e.id
    · rw [hid, Finmap.lookup_insert, Option.some.injEq]
      constructor
      · rintro rfl
        exact ⟨e, List.mem_cons_self, rfl, rfl⟩
      · rintro ⟨k, hk, hkid, rfl⟩
        rcases List.mem_cons.1 hk with rfl | hk
        · rfl
        · exact absurd hkid (hfresh k hk)
    · rw [Finmap.lookup_insert_of_ne _ hid, hl]
      exact (slotOf_cons_of_ne hid).symm

end OrdersRep

/-! ## Writes to one row -/

section Writes

variable {book : OrderBook maxOrders maxLevels} {g : Shape} {s : Side} {L R : List Level} {l : Level}
  {A B : List Entry} {e : Entry}

theorem Rep.level_at (h : Rep book g) (hg : g s = L ++ l :: R) : LevelAt book.levelPool book.orderPool s l :=
  (h.sides s).levels l (by rw [hg]; simp)

theorem Rep.orders_split (h : Rep book g) (hg : g s = L ++ l :: R) (hl : l.orders = A ++ e :: B) :
    OrdersRep book.orderPool book.orderMap ((A ++ e :: B) ++ ordersOf (L ++ R ++ g s.flip)) := by
  have := h.orders_focus (X := [l]) (by simpa using hg)
  simpa [hl] using this

theorem Rep.level_valid (h : Rep book g) (hg : g s = L ++ l :: R) : Valid maxLevels l.slot :=
  (h.sides s).tree.valid _ (by rw [hg]; simp)

/-- `order->remaining_qty = q`. -/
theorem Rep.write_qty (h : Rep book g) (hg : g s = L ++ l :: R) (hl : l.orders = A ++ e :: B) (q : UInt32) :
    let book' := { book with orderPool := book.orderPool.modify e.slot fun o => { o with remainingQty := q } }
    Rep book' (g.set s (L ++ { l with orders := A ++ { e with qty := q } :: B } :: R)) ∧
      SideFrame book book' s.flip (g s.flip) := by
  intro book'
  have hor := h.orders_split hg hl
  have hne := slot_ne hor.nodup
  have hat := h.level_at hg
  have hother : ∀ j, j ≠ e.slot → book'.orderPool.slots j = book.orderPool.slots j := fun j hj =>
    modify_slots_of_ne book.orderPool hj fun o => { o with remainingQty := q }
  have hself : book'.orderPool.slots e.slot = { book.orderPool.slots e.slot with remainingQty := q } :=
    modify_slots_self book.orderPool e.slot fun o => { o with remainingQty := q }
  refine h.update_level hg rfl rfl (fun s => by cases s <;> rfl) rfl rfl (fun _ _ => rfl) rfl ?_ ⟨hat.price, hat.total, ?_,
    hat.side, ?_, ?_, ?_⟩ ?_
  · intro k hk
    exact hother _ (hne k (List.mem_append_right _ hk))
  · rw [hat.count, hl]
    simp
  · rw [hat.tail, hl]
    simp [tailOf]
  · have hq := hat.queue
    rw [hl] at hq
    simp only [List.map_append, List.map_cons] at hq ⊢
    refine hq.congr fun i _ => ?_
    unfold nextLink
    by_cases hi : i = e.slot
    · rw [hi, hself]
    · rw [hother i hi]
  · intro k hk
    rcases mem_middle.1 hk with rfl | hk'
    · obtain ⟨⟨h1, h2, h3, h4, h5⟩, hs⟩ := hat.orders e (by rw [hl]; simp)
      refine ⟨⟨?_, ?_, ?_, ?_, ?_⟩, hs⟩ <;> simp only [hself] <;> assumption
    · have hkl : k ∈ l.orders := by
        rw [hl]
        exact mem_middle.2 (Or.inr hk')
      obtain ⟨ho, hs⟩ := hat.orders k hkl
      exact ⟨ho.frame (hother _ (hne k (List.mem_append_left _ hk'))), hs⟩
  · have hin : e.slot ∈ (((A ++ e :: B) ++ ordersOf (L ++ R ++ g s.flip)).map Entry.slot).toFinset := by simp
    exact hor.congr (by simp) (hor.pool.modify hin fun o => { o with remainingQty := q })

/-- `lvl->total_qty = t`. -/
theorem Rep.write_total (h : Rep book g) (hg : g s = L ++ l :: R) (t : UInt32) :
    let book' := { book with levelPool := book.levelPool.modify l.slot fun r => { r with totalQty := t } }
    Rep book' (g.set s (L ++ { l with total := t } :: R)) ∧ SideFrame book book' s.flip (g s.flip) := by
  intro book'
  have hat := h.level_at hg
  have hself : book'.levelPool.slots l.slot = { book.levelPool.slots l.slot with totalQty := t } :=
    modify_slots_self book.levelPool l.slot fun r => { r with totalQty := t }
  have hor := h.orders_focus (X := [l]) (by simpa using hg)
  refine h.update_level hg rfl rfl (fun s => by cases s <;> rfl) rfl rfl (fun j hj => modify_slots_of_ne book.levelPool hj fun r => { r with totalQty := t }) ?_
    (fun _ _ => rfl) ⟨?_, ?_, ?_, ?_, ?_, ?_, hat.orders⟩ (by simpa using hor)
  · unfold PriceLevelPool.node
    rw [hself]
  all_goals simp only [hself]
  · exact hat.price
  · exact hat.count
  · exact hat.side
  · exact hat.tail
  · exact hat.queue

end Writes

/-! ## Unlinking an order -/

section Unlink

variable {pool : OrderPool maxOrders} {book : OrderBook maxOrders maxLevels} {g : Shape} {s : Side}
  {L R : List Level} {l : Level} {A B : List Entry} {e : Entry}

/-- The search loop stops in front of `j`. -/
theorem unlinkLoop_spec {i j next : Index} {js : List Index} : ∀ {is : List Index} {curr : Index} {fuel : ℕ} (tail : Index),
    Path (nextLink pool) curr (is ++ i :: j :: js) kInvalidPoolIndex → (is ++ i :: j :: js).Nodup →
      (∀ k ∈ is ++ [i], Valid maxOrders k) → is.length < fuel →
        OrderBook.unlinkLoop j next fuel pool tail curr =
          pure (pool.modify i ({ · with nextInLevel := next }), if next = kInvalidPoolIndex then i else tail)
  | _, _, 0, _, _, _, _, hf => by omega
  | [], curr, fuel + 1, tail, ⟨hc, hj, _⟩, _, hv, _ => by
    subst hc
    have hvi : Valid maxOrders curr := hv curr (by simp)
    have hlink : (pool.slots curr).nextInLevel = j := hj
    unfold OrderBook.unlinkLoop
    simp only [hvi.ne_invalid, ne_eq, not_false_eq_true, if_true, get_eq _ hvi, pure_bind, hlink]
  | k :: is, curr, fuel + 1, tail, ⟨hc, hp⟩, hnd, hv, hf => by
    subst hc
    have hvk : Valid maxOrders curr := hv curr (by simp)
    -- the next cell is the first of the rest, which is not `j`
    have hne : (pool.slots curr).nextInLevel ≠ j := by
      have hh := hp.head_eq
      have hnd' := (List.nodup_cons.1 hnd).2
      match is with
      | [] =>
        have : nextLink pool curr = i := hh
        intro e
        have hij : i = j := this.symm.trans e
        have hnd'' : (i :: j :: js).Nodup := hnd'
        exact (List.nodup_cons.1 hnd'').1 (by rw [hij]; exact List.mem_cons_self)
      | m :: is =>
        have : nextLink pool curr = m := hh
        intro e
        have hmj : m = j := this.symm.trans e
        rw [hmj] at hnd'
        exact (List.nodup_cons.1 hnd').1 (by simp)
    unfold OrderBook.unlinkLoop
    simp only [hvk.ne_invalid, ne_eq, not_false_eq_true, if_true, get_eq _ hvk, pure_bind, hne, if_false]
    refine unlinkLoop_spec tail hp (List.nodup_cons.1 hnd).2 (fun m hm => hv m (List.mem_cons_of_mem _ hm)) ?_
    simpa using hf

/-- What unlinking changes in the order pool: links of orders of the level. -/
structure LinkFrame (es : List Entry) (pool pool' : OrderPool cap) : Prop where
  freeHead : pool'.freeHead = pool.freeHead
  activeCount : pool'.activeCount = pool.activeCount
  payload : ∀ j, pool'.slots j = { pool.slots j with nextInLevel := (pool'.slots j).nextInLevel }
  other : ∀ j, j ∉ es.map Entry.slot → pool'.slots j = pool.slots j

theorem LinkFrame.refl (es : List Entry) (pool : OrderPool cap) : LinkFrame es pool pool :=
  ⟨rfl, rfl, fun _ => rfl, fun _ _ => rfl⟩

theorem LinkFrame.modify {pool : OrderPool cap} {es : List Entry} {k : Entry} (hk : k ∈ es) (next : Index) :
    LinkFrame es pool (pool.modify k.slot ({ · with nextInLevel := next })) where
  freeHead := rfl
  activeCount := rfl
  payload j := by
    rw [modify_slots]
    split
    · rename_i e; rw [e]
    · rfl
  other j hj := by
    refine modify_slots_of_ne pool (fun e => hj ?_) _
    rw [e]
    exact List.mem_map.2 ⟨k, hk, rfl⟩

theorem LinkFrame.orderAt {pool pool' : OrderPool cap} {es : List Entry} (hf : LinkFrame es pool pool') {price : UInt32}
    {k : Entry} (h : OrderAt pool price k) : OrderAt pool' price k := by
  obtain ⟨h1, h2, h3, h4, h5⟩ := h
  refine ⟨?_, ?_, ?_, ?_, ?_⟩ <;> rw [hf.payload] <;> assumption

/-- The tail after `e` has left the queue: the order before it when `e` was the last, else unchanged. -/
theorem tailOf_unlinked {op : OrderPool maxOrders} (C : List Entry)
    (hpath : Path (nextLink op) (nextLink op e.slot) (B.map Entry.slot) kInvalidPoolIndex)
    (hv : ∀ k ∈ B, Valid maxOrders k.slot) :
    (if (op.slots e.slot).nextInLevel = kInvalidPoolIndex then tailOf C else tailOf (C ++ e :: B)) = tailOf (C ++ B) := by
  match B, hpath with
  | [], hpath =>
    have hlast : (op.slots e.slot).nextInLevel = kInvalidPoolIndex := hpath
    rw [if_pos hlast, List.append_nil]
  | b :: B', ⟨hb, _⟩ =>
    have hnext : (op.slots e.slot).nextInLevel = b.slot := hb
    have hbv : Valid maxOrders b.slot := hv b List.mem_cons_self
    rw [hnext, if_neg hbv.ne_invalid, tailOf_append_cons, tailOf_append_cons C]
    exact tailOf_append_cons [e] B' b

/-- **The unlinking half of `delete_order_internal`.** -/
theorem unlinkOrder_spec (book : OrderBook maxOrders maxLevels) (hat : LevelAt book.levelPool book.orderPool s l)
    (hl : l.orders = A ++ e :: B) (hnd : (l.orders.map Entry.slot).Nodup) (hv : ∀ k ∈ l.orders, Valid maxOrders k.slot)
    (hlen : l.orders.length ≤ maxOrders.size) :
    ∃ orders' head, book.unlinkOrder e.slot l.slot = pure { book with
        orderPool := orders'
        levelPool := book.levelPool.modify l.slot fun r => { r with headOrderIdx := head, tailOrderIdx := tailOf (A ++ B) } } ∧
      Path (nextLink orders') head ((A ++ B).map Entry.slot) kInvalidPoolIndex ∧
      LinkFrame l.orders book.orderPool orders' := by
  have hq := hat.queue
  rw [hl] at hq hnd hlen
  have htail := hat.tail
  have hkv : ∀ k ∈ A ++ e :: B, Valid maxOrders k.slot := fun k hk => hv k (hl ▸ hk)
  rcases List.eq_nil_or_concat A with rfl | ⟨A', a, rfl⟩
  · -- the order is the head
    obtain ⟨hhead, hrest⟩ : (book.levelPool.slots l.slot).headOrderIdx = e.slot ∧
        Path (nextLink book.orderPool) (nextLink book.orderPool e.slot) (B.map Entry.slot) kInvalidPoolIndex := hq
    refine ⟨book.orderPool, nextLink book.orderPool e.slot, ?_, hrest, LinkFrame.refl _ _⟩
    unfold OrderBook.unlinkOrder
    simp only [hhead, if_true]
    refine congrArg pure ?_
    have htail' : (if (book.orderPool.slots e.slot).nextInLevel = kInvalidPoolIndex then kInvalidPoolIndex else
        (book.levelPool.slots l.slot).tailOrderIdx) = tailOf B := by
      rw [htail, hl]
      exact tailOf_unlinked [] hrest fun k hk => hkv k (by simp [hk])
    have hmod : book.levelPool.modify l.slot (fun r => { r with
          headOrderIdx := (book.orderPool.slots e.slot).nextInLevel
          tailOrderIdx := if (book.orderPool.slots e.slot).nextInLevel = kInvalidPoolIndex then kInvalidPoolIndex
            else r.tailOrderIdx }) =
        book.levelPool.modify l.slot fun r => { r with
          headOrderIdx := nextLink book.orderPool e.slot, tailOrderIdx := tailOf B } := by
      unfold ObjectPool.modify
      simp only [htail', nextLink]
    rw [List.nil_append, hmod]
  · -- the order has `a` in front of it
    rw [List.concat_eq_append] at hq hnd hkv hl hlen ⊢
    simp only [List.append_assoc, List.singleton_append, List.map_append, List.map_cons] at hq hnd
    have hvs : ∀ k ∈ A'.map Entry.slot ++ [a.slot], Valid maxOrders k := by
      intro k hk
      simp only [List.mem_append, List.mem_map, List.mem_singleton] at hk
      rcases hk with ⟨x, hx, rfl⟩ | rfl
      · exact hkv x (by simp [hx])
      · exact hkv a (by simp)
    have hfuel : (A'.map Entry.slot).length < maxOrders.size + 1 := by
      simp only [List.length_append, List.length_cons, List.length_map] at hlen ⊢
      omega
    have hloop : OrderBook.unlinkLoop e.slot (book.orderPool.slots e.slot).nextInLevel (maxOrders.size + 1) book.orderPool
        (book.levelPool.slots l.slot).tailOrderIdx (book.levelPool.slots l.slot).headOrderIdx = _ :=
      unlinkLoop_spec _ hq hnd hvs hfuel
    have hhead : (book.levelPool.slots l.slot).headOrderIdx ≠ e.slot := by
      have hh := hq.head_eq
      intro heq
      match A' with
      | [] =>
        have : (book.levelPool.slots l.slot).headOrderIdx = a.slot := hh
        rw [heq] at this
        rw [List.map_nil, List.nil_append, this] at hnd
        exact (List.nodup_cons.1 hnd).1 List.mem_cons_self
      | x :: A'' =>
        have : (book.levelPool.slots l.slot).headOrderIdx = x.slot := hh
        rw [heq] at this
        rw [List.map_cons, List.cons_append, this] at hnd
        exact (List.nodup_cons.1 hnd).1 (by simp)
    have ha : a ∈ l.orders := by rw [hl]; simp
    refine ⟨book.orderPool.modify a.slot ({ · with nextInLevel := (book.orderPool.slots e.slot).nextInLevel }),
      (book.levelPool.slots l.slot).headOrderIdx, ?_, ?_, LinkFrame.modify ha _⟩
    · unfold OrderBook.unlinkOrder
      simp only [hhead, if_false, hloop, pure_bind]
      refine congrArg pure ?_
      have htail' : (if (book.orderPool.slots e.slot).nextInLevel = kInvalidPoolIndex then a.slot else
          (book.levelPool.slots l.slot).tailOrderIdx) = tailOf (A' ++ [a] ++ B) := by
        have hafter : Path (nextLink book.orderPool) (nextLink book.orderPool e.slot) (B.map Entry.slot) kInvalidPoolIndex := by
          have h1 : Path (nextLink book.orderPool) (nextLink book.orderPool a.slot) (e.slot :: B.map Entry.slot)
            kInvalidPoolIndex := hq.after
          exact h1.2
        rw [htail, hl, ← tailOf_concat A' a]
        exact tailOf_unlinked (A' ++ [a]) hafter fun k hk => hkv k (by simp [hk])
      have hmod : book.levelPool.modify l.slot ({ · with
            tailOrderIdx := if (book.orderPool.slots e.slot).nextInLevel = kInvalidPoolIndex then a.slot
              else (book.levelPool.slots l.slot).tailOrderIdx }) =
          book.levelPool.modify l.slot fun r => { r with
            headOrderIdx := (book.levelPool.slots l.slot).headOrderIdx, tailOrderIdx := tailOf (A' ++ [a] ++ B) } := by
        unfold ObjectPool.modify
        simp only [htail']
      rw [hmod]
    · have hnd2 := hnd
      rw [List.nodup_append] at hnd2
      obtain ⟨-, hnd3, hdis⟩ := hnd2
      simp only [List.append_assoc, List.singleton_append, List.map_append, List.map_cons]
      refine hq.unlink (fun k hk => ?_) ?_ fun k hk => ?_
      · have hka : k ≠ a.slot := hdis k hk a.slot (by simp)
        unfold nextLink
        rw [modify_slots_of_ne _ hka]
      · unfold nextLink
        rw [modify_slots_self]
      · have hka : k ≠ a.slot := by
          rintro rfl
          exact (List.nodup_cons.1 hnd3).1 (List.mem_cons_of_mem _ hk)
        unfold nextLink
        rw [modify_slots_of_ne _ hka]

end Unlink

/-! ## Destroying and creating levels -/

section Levels

variable {book : OrderBook maxOrders maxLevels} {g : Shape} {s : Side} {L R : List Level} {l : Level}

theorem toNat_ofNat_of_le {n : ℕ} (h : n ≤ cap.size) : (UInt32.ofNat n).toNat = n :=
  UInt32.toNat_ofNat_of_lt' (lt_of_le_of_lt h cap.lt)

theorem ofNat_eq_zero {n : ℕ} (h : n ≤ cap.size) : UInt32.ofNat n = 0 ↔ n = 0 := by
  constructor
  · intro e
    have e' := congrArg UInt32.toNat e
    rwa [toNat_ofNat_of_le h] at e'
  · rintro rfl
    rfl

theorem ofNat_succ_sub_one (n : ℕ) : UInt32.ofNat (n + 1) - 1 = UInt32.ofNat n := by
  rw [UInt32.ofNat_add]
  exact add_sub_cancel_right _ _

/-- **`remove_and_destroy_level`** of a level that has lost its last order. -/
theorem Rep.destroy_level (h : Rep book g) (hg : g s = L ++ l :: R) (ho : l.orders = []) (ht : l.total = 0) :
    ∃ side' lp' stats', (book.side s).removeAndDestroyLevel l.slot book.levelPool book.stats = pure (side', lp', stats') ∧
      Rep ({ book with levelPool := lp', stats := stats' }.setSide s side') (g.set s (L ++ R)) ∧
      SideFrame book ({ book with levelPool := lp', stats := stats' }.setSide s side') s.flip (g s.flip) := by
  have hside := h.sides s
  rw [hg] at hside
  have hat := h.level_at hg
  have hlev := h.levels_focus (X := [l]) (by simpa using hg)
  have hor := h.orders_focus (X := [l]) (by simpa using hg)
  have htree := hside.tree
  rw [List.map_append, List.map_cons] at htree
  obtain ⟨side', lp1, stats1, e1, htree1, hF, hun, hbyte⟩ := htree.removeLevel_spec book.stats
  -- the slots of this side and of the other one
  have hnd := hlev.nodup
  simp only [List.singleton_append, List.map_cons, List.nodup_cons, List.map_append] at hnd
  have hne : ∀ k ∈ L ++ R ++ g s.flip, k.slot ≠ l.slot := by
    intro k hk e
    refine hnd.1 ?_
    rw [← List.map_append, ← List.map_append, ← e]
    exact List.mem_map.2 ⟨k, hk, rfl⟩
  have hflipF : ∀ k ∈ g s.flip, lp1.slots k.slot = book.levelPool.slots k.slot := by
    intro k hk
    refine hF.other _ fun hm => ?_
    have hk' := hne k (List.mem_append_right _ hk)
    rw [List.mem_append, List.mem_cons] at hm
    have hdis := (List.nodup_append.1 hnd.2).2.2
    rcases hm with hm | hm | hm
    · exact hdis _ (List.mem_append_left _ hm) _ (List.mem_map.2 ⟨k, hk, rfl⟩) rfl
    · exact hk' hm
    · exact hdis _ (List.mem_append_right _ hm) _ (List.mem_map.2 ⟨k, hk, rfl⟩) rfl
  have hused : ∀ k ∈ L ++ l :: R, k.slot ∈ (([l] ++ (L ++ R ++ g s.flip)).map Level.slot).toFinset := by
    intro k hk
    refine List.mem_toFinset.2 (List.mem_map.2 ⟨k, ?_, rfl⟩)
    simp only [List.mem_append, List.mem_cons] at hk ⊢
    tauto
  have hok1 : lp1.PoolOk (([l] ++ (L ++ R ++ g s.flip)).map Level.slot).toFinset := by
    refine hlev.pool.congr hF.freeHead hF.activeCount fun j hj => hF.other j fun hm => hj ?_
    rw [← List.map_cons, ← List.map_append] at hm
    obtain ⟨k, hk, rfl⟩ := List.mem_map.1 hm
    exact hused k hk
  have hrec : BookSide.Recyclable lp1 l.slot := by
    have hhead := hat.queue
    rw [ho] at hhead
    refine ⟨?_, ?_, ?_, ?_, hun⟩ <;> rw [hF.payload]
    · rw [hat.count, ho]
      rfl
    · rw [hat.total, ht]
    · exact hhead
    · rw [hat.tail, ho]
      rfl
  obtain ⟨lp2, stats2, e2, hok2, hs2⟩ := BookSide.destroyLevel_ok hok1 (hused l (by simp)) hrec stats1
  have hset : (([l] ++ (L ++ R ++ g s.flip)).map Level.slot).toFinset.erase l.slot =
      ((L ++ R ++ g s.flip).map Level.slot).toFinset := by
    rw [List.singleton_append, List.map_cons, List.toFinset_cons, Finset.erase_insert]
    rw [List.mem_toFinset]
    simpa using hnd.1
  rw [hset] at hok2
  have hframe : SideFrame book ({ book with levelPool := lp2, stats := stats2 }.setSide s side') s.flip (g s.flip) := by
    refine ⟨by rw [OrderBook.side_flip_setSide]; cases s <;> rfl, fun k hk => ?_, fun _ _ => by simp⟩
    rw [OrderBook.levelPool_setSide]
    exact (hs2 _ (hne k (List.mem_append_right _ hk))).trans (hflipF k hk)
  refine ⟨side', lp2, stats2, by simp only [BookSide.removeAndDestroyLevel, e1, e2, pure_bind], ?_, hframe⟩
  have hX : L ++ R = L ++ [] ++ R := by simp
  rw [hX]
  refine Rep.of_focus ⟨?_, ?_, ?_⟩ ((h.sides s.flip).frame hframe) ⟨?_, ?_⟩ ?_
  · rw [OrderBook.side_setSide, OrderBook.levelPool_setSide, ← hX, List.map_append]
    refine htree1.frame fun j hj => ?_
    rw [← List.map_append] at hj
    obtain ⟨k, hk, rfl⟩ := List.mem_map.1 hj
    unfold PriceLevelPool.node PriceLevelPool.priceOf
    rw [show ({ book with levelPool := lp2, stats := stats2 } : OrderBook maxOrders maxLevels).levelPool.slots k.slot = _ from
      hs2 _ (hne k (List.mem_append_left _ hk))]
    exact ⟨rfl, rfl⟩
  · rw [OrderBook.side_setSide, hbyte]
    exact hside.byte
  · rw [← hX, OrderBook.levelPool_setSide, OrderBook.orderPool_setSide]
    intro k hk
    have hk' : k ∈ L ++ l :: R := mem_middle.2 (Or.inr hk)
    refine (hside.levels k hk').frame ?_ fun _ _ => rfl
    have e2 : lp2.slots k.slot = lp1.slots k.slot := hs2 _ (hne k (List.mem_append_left _ hk))
    rw [show ({ book with levelPool := lp2, stats := stats2 } : OrderBook maxOrders maxLevels).levelPool.slots k.slot = _ from e2]
    exact hF.payload _
  · rw [List.nil_append]
    simpa using hnd.2
  · rw [OrderBook.levelPool_setSide, List.nil_append]
    exact hok2
  · rw [OrderBook.orderPool_setSide, OrderBook.orderMap_setSide]
    simpa [ho] using hor

end Levels

end TradeCore
