import TradeCore.Orderbook.AbstractBook
/-!
# The operations of the book

What each operation of `order_book.hpp` asks for (`AddOk`, `ReduceOk`, `Live`), in terms of what the code can
see, and what it then does: it returns in either build, the book is a book again, its queues changed by
`AbstractBook.add`, `cancel`, `delete` or `modify`, and the side it does not work on was not written to.
-/

namespace TradeCore

open ObjectPool LinkedList

variable {maxOrders maxLevels cap : PoolCapacity}

/-! ## What an operation asks for -/

namespace OrderBook

variable (book : OrderBook maxOrders maxLevels)

/-- The id is registered. -/
def Live (id : UInt64) : Prop := id ≠ FlatHashMap.kEmptyKey ∧ book.orderMap.contains id = pure true

/-- What remains of the order with this id. -/
def remainingOf (id : UInt64) : Exec UInt32 := do
  let orderIdx ← book.orderMap.find id
  let order ← book.orderPool.get orderIdx
  return order.remainingQty

/-- What `add_order` asserts, with the price inside the window of the dense array. -/
structure AddOk (u : BookUpdate) : Prop where
  id : u.orderId ≠ FlatHashMap.kEmptyKey
  fresh : book.orderMap.contains u.orderId = pure false
  qty : 0 < u.qty
  price : 0 < u.price
  window : u.price.toNat < 10000
  slot : book.orderPool.activeCount < maxOrders.size
  room : 4 * (book.orderMap.size + 1) < 3 * book.orderMap.capacity
  level : (book.side (sideOf u.side)).findByPrice book.levelPool u.price ≠ pure kInvalidPoolIndex ∨
    book.levelPool.activeCount < maxLevels.size

/-- What `cancel_order` asserts. -/
structure ReduceOk (u : BookUpdate) : Prop where
  live : book.Live u.orderId
  qty : ∀ r, book.remainingOf u.orderId = pure r → u.qty ≤ r

end OrderBook

section Shape

variable {book : OrderBook maxOrders maxLevels} {g : Shape} {s : Side}

theorem OrdersRep.contains {pool : OrderPool cap} {map : FlatHashMap} {es : List Entry} (h : OrdersRep pool map es)
    {id : UInt64} (h0 : id ≠ FlatHashMap.kEmptyKey) : map.contains id = pure (decide (∃ e ∈ es, e.id = id)) := by
  obtain ⟨m, hm, -, hk⟩ := h.keys
  rw [hm.contains_eq h0]
  refine congrArg pure ?_
  rw [decide_eq_decide, ← Finmap.mem_keys, hk, List.mem_toFinset, List.mem_map]

theorem OrdersRep.load {pool : OrderPool cap} {map : FlatHashMap} {es : List Entry} (h : OrdersRep pool map es) :
    4 * map.size < 3 * map.capacity := by
  obtain ⟨m, hm, -⟩ := h.map
  rw [hm.capacity]
  exact hm.load

theorem LevelsRep.activeCount {pool : PriceLevelPool cap} {ls : List Level} (h : LevelsRep pool ls) :
    pool.activeCount = ls.length := by
  rw [h.pool.count, List.toFinset_card_of_nodup h.nodup, List.length_map]

theorem LevelsRep.length_le {pool : PriceLevelPool cap} {ls : List Level} (h : LevelsRep pool ls) : ls.length ≤ cap.size := by
  have := h.pool.card_le
  rwa [List.toFinset_card_of_nodup h.nodup, List.length_map] at this

/-- The place of a live order. -/
theorem focus_of_mem {e : Entry} (he : e ∈ ordersOf g.levels) :
    ∃ s L l R A B, g s = L ++ l :: R ∧ l.orders = A ++ e :: B := by
  obtain ⟨l, hl, hel⟩ := mem_ordersOf.1 he
  obtain ⟨A, B, hAB⟩ := List.append_of_mem hel
  obtain ⟨s, hs⟩ := Shape.mem_levels.1 hl
  obtain ⟨L, R, hg⟩ := List.append_of_mem hs
  exact ⟨s, L, l, R, A, B, hg, hAB⟩

theorem mem_of_focus {L R : List Level} {l : Level} {A B : List Entry} {e : Entry} (hg : g s = L ++ l :: R)
    (hl : l.orders = A ++ e :: B) : e ∈ ordersOf g.levels := by
  exact mem_ordersOf.2 ⟨l, Shape.mem_levels.2 ⟨s, by rw [hg]; simp⟩, by rw [hl]; simp⟩

/-- **The live ids are the ids of the orders of the shape.** -/
theorem Rep.live_iff (h : Rep book g) {id : UInt64} : book.Live id ↔ ∃ e ∈ ordersOf g.levels, e.id = id := by
  constructor
  · rintro ⟨h0, hc⟩
    rw [h.orders.contains h0] at hc
    simpa using Exec.pure_inj hc
  · rintro ⟨e, he, rfl⟩
    refine ⟨h.orders.id_ne_zero he, ?_⟩
    rw [h.orders.contains (h.orders.id_ne_zero he)]
    exact congrArg pure (decide_eq_true ⟨e, he, rfl⟩)

theorem Rep.remainingOf (h : Rep book g) {e : Entry} (he : e ∈ ordersOf g.levels) : book.remainingOf e.id = pure e.qty := by
  obtain ⟨s, L, l, R, A, B, hg, hl⟩ := focus_of_mem he
  unfold OrderBook.remainingOf
  rw [h.orders.find he, pure_bind, get_eq _ (h.orders.valid he), pure_bind,
    ((h.level_at hg).orders e (by rw [hl]; simp)).1.qty]

theorem Rep.orderId (h : Rep book g) {e : Entry} (he : e ∈ ordersOf g.levels) :
    (book.orderPool.slots e.slot).orderId = e.id := by
  obtain ⟨s, L, l, R, A, B, hg, hl⟩ := focus_of_mem he
  exact ((h.level_at hg).orders e (by rw [hl]; simp)).1.id

/-- A price is found exactly when a level has it. -/
theorem Rep.find_iff (h : Rep book g) {price : UInt32} :
    (book.side s).findByPrice book.levelPool price ≠ pure kInvalidPoolIndex ↔ ∃ l ∈ g s, l.price = price := by
  constructor
  · intro hf
    by_contra hno
    refine hf ((h.sides s).tree.find_none fun i hi => ?_)
    obtain ⟨l, hl, rfl⟩ := List.mem_map.1 hi
    rw [((h.sides s).levels l hl).price]
    exact fun e => hno ⟨l, hl, e⟩
  · rintro ⟨l, hl, rfl⟩ hf
    obtain ⟨L, R, hg⟩ := List.append_of_mem hl
    rw [h.find_level hg] at hf
    exact (h.level_valid hg).ne_invalid (Exec.pure_inj hf)

/-- `AddOk` in terms of the shape. -/
structure AddFits (book : OrderBook maxOrders maxLevels) (g : Shape) (u : BookUpdate) : Prop where
  id : u.orderId ≠ FlatHashMap.kEmptyKey
  fresh : ∀ k ∈ ordersOf g.levels, k.id ≠ u.orderId
  qty : 0 < u.qty
  price : 0 < u.price
  window : u.price.toNat < 10000
  slot : (ordersOf g.levels).length < maxOrders.size
  room : 4 * (book.orderMap.size + 1) < 3 * book.orderMap.capacity
  level : (∃ l ∈ g (sideOf u.side), l.price = u.price) ∨ g.levels.length < maxLevels.size

theorem Rep.addOk_iff (h : Rep book g) {u : BookUpdate} : book.AddOk u ↔ AddFits book g u := by
  constructor
  · rintro ⟨h0, hf, hq, hp, hw, hs, hr, hl⟩
    rw [h.orders.contains h0] at hf
    refine ⟨h0, fun k hk e => ?_, hq, hp, hw, ?_, hr, ?_⟩
    · exact absurd ⟨k, hk, e⟩ (of_decide_eq_false (Exec.pure_inj hf))
    · rwa [h.orders.activeCount] at hs
    · rwa [h.find_iff, h.levels.activeCount] at hl
  · rintro ⟨h0, hf, hq, hp, hw, hs, hr, hl⟩
    refine ⟨h0, ?_, hq, hp, hw, ?_, hr, ?_⟩
    · rw [h.orders.contains h0]
      refine congrArg pure (decide_eq_false ?_)
      rintro ⟨k, hk, e⟩
      exact hf k hk e
    · rwa [h.orders.activeCount]
    · rwa [h.find_iff, h.levels.activeCount]

end Shape

/-! ## An order shrinks or leaves -/

section Cut

variable {book : OrderBook maxOrders maxLevels} {g : Shape} {s : Side} {L R : List Level} {l : Level}
  {A B : List Entry} {e : Entry} {n : UInt32} {u : BookUpdate}

/-- A level whose order `e` loses `n`. -/
def Level.cut (l : Level) (A : List Entry) (e : Entry) (B : List Entry) (n : UInt32) : Level :=
  { l with total := l.total - n, orders := A ++ (if n = e.qty then [] else [{ e with qty := e.qty - n }]) ++ B }

theorem sub_eq_zero_iff_eq (a b : UInt32) : a - b = 0 ↔ b = a := by
  rw [sub_eq_zero]
  exact eq_comm

/-- The orders of the level: what is left of `e`, and those before and behind it. -/
theorem Level.mem_cut {k : Entry} (hk : k ∈ A ++ (if n = e.qty then [] else [{ e with qty := e.qty - n }]) ++ B) :
    k = { e with qty := e.qty - n } ∧ n ≠ e.qty ∨ k ∈ A ++ e :: B := by
  by_cases hn : n = e.qty
  · rw [if_pos hn, List.append_nil] at hk
    exact Or.inr (mem_middle.2 (Or.inr hk))
  · rw [if_neg hn, ← List.append_cons, mem_middle] at hk
    rcases hk with rfl | hk
    · exact Or.inl ⟨rfl, hn⟩
    · exact Or.inr (mem_middle.2 (Or.inr hk))

theorem LevelWf.cut (h : LevelWf l) (hl : l.orders = A ++ e :: B) (hn : n ≤ e.qty) (hne : (l.cut A e B n).orders ≠ []) :
    LevelWf (l.cut A e B n) where
  price := h.price
  nonempty := hne
  positive k hk := by
    rcases Level.mem_cut hk with ⟨rfl, hne'⟩ | hk
    · change 0 < e.qty - n
      refine UInt32.lt_iff_toNat_lt.2 ?_
      rw [UInt32.toNat_sub_of_le _ _ hn]
      have hle := UInt32.le_iff_toNat_le.1 hn
      have : n.toNat ≠ e.qty.toNat := fun e' => hne' (UInt32.toNat_inj.1 e')
      have h0 : (0 : UInt32).toNat = 0 := rfl
      omega
    · exact h.positive k (hl ▸ hk)
  total := by
    have ht := h.total
    rw [hl] at ht
    unfold Level.cut
    simp only [List.map_append, List.map_cons, List.sum_append, List.sum_cons] at ht ⊢
    rw [ht]
    by_cases hn' : n = e.qty
    · rw [if_pos hn', hn']
      simp only [List.map_nil, List.sum_nil]
      abel
    · rw [if_neg hn']
      simp only [List.map_cons, List.map_nil, List.sum_cons, List.sum_nil]
      abel

/-- The shape after a cut is a book again. -/
theorem Wf.cut (h : Wf g) (hg : g s = L ++ l :: R) (hl : l.orders = A ++ e :: B) (hn : n ≤ e.qty) :
    Wf (g.set s (L ++ keep (l.cut A e B n) ++ R)) := by
  intro s' k hk
  rcases Side.eq_or_eq_flip s s' with rfl | rfl
  · rw [Shape.set_self] at hk
    have hold : ∀ k ∈ L ++ R, LevelWf k := by
      intro k hk
      refine h s' k ?_
      rw [hg]
      exact mem_middle.2 (Or.inr hk)
    have hcase : k ∈ L ++ R ∨ k ∈ keep (l.cut A e B n) := by
      simp only [List.mem_append] at hk ⊢
      tauto
    rcases hcase with hk | hk
    · exact hold k hk
    · obtain ⟨rfl, hne⟩ := mem_keep.1 hk
      exact (h s' l (by rw [hg]; simp)).cut hl hn hne
  · rw [Shape.set_flip] at hk
    exact h _ k hk

theorem cut_abs (n : UInt32) (hn : n ≤ e.qty) :
    (if n = e.qty then [] else [{ e with qty := e.qty - n }] : List Entry).map Entry.abs =
      if e.qty.toNat - n.toNat = 0 then [] else [(e.id, e.qty.toNat - n.toNat)] := by
  have hle := UInt32.le_iff_toNat_le.1 hn
  by_cases h : n = e.qty
  · rw [if_pos h, if_pos (by rw [h]; omega)]
    rfl
  · have hne : n.toNat ≠ e.qty.toNat := fun e' => h (UInt32.toNat_inj.1 e')
    rw [if_neg h, if_neg (by omega), List.map_singleton, Entry.abs, UInt32.toNat_sub_of_le _ _ hn]

/-- **A cut is `AbstractBook.adjust`**, for any `f` that takes `n` off the order. -/
theorem Inv.abs_cut (h : Inv book g) (hg : g s = L ++ l :: R) (hl : l.orders = A ++ e :: B) (hn : n ≤ e.qty) (f : ℕ → ℕ)
    (hf : f e.qty.toNat = e.qty.toNat - n.toNat) :
    (g.set s (L ++ keep (l.cut A e B n) ++ R)).abs = g.abs.adjust e.id f := by
  refine TradeCore.abs_cut h.rep (fun s l hl => (h.wf s l hl).nonempty) hg hl f ?_
  rw [cut_abs n hn, hf]

/-- Two writes that agree on the slot. -/
theorem modify_congr {α : Type} {cap : PoolCapacity} (pool : ObjectPool α cap) {i : Index} {f f' : α → α}
    (h : f (pool.slots i) = f' (pool.slots i)) : pool.modify i f = pool.modify i f' := by
  unfold ObjectPool.modify
  rw [h]

/-- The decrement of `cancel_order` writes the difference to what the entry records. -/
theorem Rep.decrement_qty (h : Rep book g) (hg : g s = L ++ l :: R) (hl : l.orders = A ++ e :: B) (n : UInt32) :
    book.orderPool.modify e.slot (fun o => { o with remainingQty := o.remainingQty - n }) =
      book.orderPool.modify e.slot fun o => { o with remainingQty := e.qty - n } := by
  have hat := (h.level_at hg).orders e (by rw [hl]; simp)
  refine modify_congr _ ?_
  rw [hat.1.qty]

/-- And the decrement of the total. -/
theorem Rep.decrement_total (h : Rep book g) (hg : g s = L ++ l :: R) (n : UInt32) :
    book.levelPool.modify l.slot (fun r => { r with totalQty := r.totalQty - n }) =
      book.levelPool.modify l.slot fun r => { r with totalQty := l.total - n } := by
  refine modify_congr _ ?_
  rw [(h.level_at hg).total]

/-- The end of `cancel_order` and `delete_order`: the last order of a level leaves nothing of its total. -/
theorem LevelWf.total_alone (h : LevelWf l) (hl : l.orders = A ++ e :: B) (hAB : A ++ B = []) : l.total - e.qty = 0 := by
  obtain ⟨rfl, rfl⟩ := List.append_eq_nil_iff.1 hAB
  rw [h.total, hl]
  simp

/-- **`cancel_order`** and `execute_order`. -/
theorem Inv.cancel_spec (h : Inv book g) (hg : g s = L ++ l :: R) (hl : l.orders = A ++ e :: B) (hid : u.orderId = e.id)
    (hn : u.qty ≤ e.qty) :
    ∃ book', book.cancelOrder u = pure book' ∧ Inv book' (g.set s (L ++ keep (l.cut A e B u.qty) ++ R)) ∧
      SideFrame book book' s.flip (g s.flip) := by
  have he := mem_of_focus hg hl
  have hv := h.rep.orders.valid he
  have hat := (h.rep.level_at hg).orders e (by rw [hl]; simp)
  have hwfl := h.wf s l (by rw [hg]; simp)
  -- the two writes
  obtain ⟨hrep1, hframe1⟩ := h.rep.write_qty hg hl (e.qty - u.qty)
  obtain ⟨hrep2, hframe2⟩ := hrep1.write_total (Shape.set_self _ _ _) (l.total - u.qty)
  rw [Shape.set_set] at hrep2
  rw [Shape.set_flip] at hframe2
  have hq := h.rep.decrement_qty hg hl u.qty
  have ht := h.rep.decrement_total hg u.qty
  obtain ⟨book2, hbook2⟩ : ∃ book2 : OrderBook maxOrders maxLevels, book2 = { book with
    orderPool := book.orderPool.modify e.slot fun o => { o with remainingQty := e.qty - u.qty }
    levelPool := book.levelPool.modify l.slot fun r => { r with totalQty := l.total - u.qty } } := ⟨_, rfl⟩
  have hrun : book.cancelOrder u =
      if e.qty - u.qty = 0 then book2.deleteOrderInternal e.slot s l.slot else pure book2 := by
    unfold OrderBook.cancelOrder
    rw [hid, h.rep.orders.find he, pure_bind]
    have hne : e.slot ≠ FlatHashMap.kEmpty := hv.ne_invalid
    simp only [ne_eq, hne, not_false_eq_true, decide_true, tradecoreAssert_true, pure_bind, get_eq _ hv, hat.1.qty, hn,
      hat.1.side, hat.1.price, hat.2, h.rep.find_level hg, (h.rep.level_valid hg).ne_invalid,
      get_eq _ (h.rep.level_valid hg), hq, ht, modify_slots_self, hbook2]
  have hwf := h.wf.cut hg hl hn
  by_cases hz : u.qty = e.qty
  · have h0 : e.qty - u.qty = 0 := (sub_eq_zero_iff_eq _ _).2 hz
    obtain ⟨book', e1, hrep3, hframe3⟩ := hrep2.delete_internal (A := A) (B := B) (Shape.set_self _ _ _) rfl
      fun hAB => by rw [hz]; exact hwfl.total_alone hl hAB
    rw [Shape.set_set] at hrep3
    rw [Shape.set_flip] at hframe3
    refine ⟨book', ?_, ⟨?_, hwf⟩, hframe1.trans (hframe2.trans hframe3)⟩
    · rw [hrun, if_pos h0, hbook2]
      exact e1
    · have : l.cut A e B u.qty = { l with total := l.total - u.qty, orders := A ++ B } := by
        unfold Level.cut
        rw [if_pos hz, List.append_nil]
      rw [this]
      exact hrep3
  · have h0 : e.qty - u.qty ≠ 0 := fun h0 => hz ((sub_eq_zero_iff_eq _ _).1 h0)
    refine ⟨book2, by rw [hrun, if_neg h0], ⟨?_, hwf⟩, ?_⟩
    · have : keep (l.cut A e B u.qty) =
          [{ l with total := l.total - u.qty, orders := A ++ { e with qty := e.qty - u.qty } :: B }] := by
        unfold keep Level.cut
        rw [if_neg (by simp [hz]), if_neg hz]
        simp
      rw [this, List.append_assoc, hbook2]
      exact hrep2
    · rw [hbook2]
      exact hframe1.trans hframe2

/-- **`delete_order`**. -/
theorem Inv.delete_spec (h : Inv book g) (hg : g s = L ++ l :: R) (hl : l.orders = A ++ e :: B) (hid : u.orderId = e.id) :
    ∃ book', book.deleteOrder u = pure book' ∧ Inv book' (g.set s (L ++ keep (l.cut A e B e.qty) ++ R)) ∧
      SideFrame book book' s.flip (g s.flip) := by
  have he := mem_of_focus hg hl
  have hv := h.rep.orders.valid he
  have hat := (h.rep.level_at hg).orders e (by rw [hl]; simp)
  have hwfl := h.wf s l (by rw [hg]; simp)
  obtain ⟨hrep1, hframe1⟩ := h.rep.write_total hg (l.total - e.qty)
  have ht := h.rep.decrement_total hg e.qty
  have hcut : l.cut A e B e.qty = { l with total := l.total - e.qty, orders := A ++ B } := by
    unfold Level.cut
    rw [if_pos rfl, List.append_nil]
  obtain ⟨book', e1, hrep2, hframe2⟩ := hrep1.delete_internal (Shape.set_self _ _ _) hl
    fun hAB => hwfl.total_alone hl hAB
  rw [Shape.set_set] at hrep2
  rw [Shape.set_flip] at hframe2
  have hwf := h.wf.cut hg hl (UInt32.le_refl e.qty)
  refine ⟨book', ?_, ⟨by rw [hcut]; exact hrep2, hwf⟩, hframe1.trans hframe2⟩
  unfold OrderBook.deleteOrder
  rw [hid, h.rep.orders.find he, pure_bind]
  have hne : e.slot ≠ FlatHashMap.kEmpty := hv.ne_invalid
  simp only [ne_eq, hne, not_false_eq_true, decide_true, tradecoreAssert_true, pure_bind, get_eq _ hv, hat.1.qty,
    hat.1.side, hat.1.price, hat.2, h.rep.find_level hg, (h.rep.level_valid hg).ne_invalid,
    get_eq _ (h.rep.level_valid hg), ht]
  exact e1

end Cut

/-! ## An order arrives -/

section Push

variable {book : OrderBook maxOrders maxLevels} {g : Shape} {u : BookUpdate}

theorem LevelFor.wf {s : Side} {price : UInt32} {L R : List Level} {l : Level} {e : Entry} (hl : LevelFor (g s) price L l R)
    (h : Wf g) (hp : 0 < price) (hq : 0 < e.qty) : Wf (g.set s (L ++ l.push e :: R)) := by
  intro s' k hk
  rcases Side.eq_or_eq_flip s s' with rfl | rfl
  · rw [Shape.set_self, List.mem_append, List.mem_cons] at hk
    have hold : ∀ k, k ∈ L ∨ k ∈ keep l ∨ k ∈ R → LevelWf k := by
      intro k hk
      refine h s' k ?_
      rw [hl.split]
      simpa [List.mem_append, or_assoc] using hk
    have hpush : LevelWf (l.push e) := by
      by_cases hne : l.orders = []
      · refine ⟨hl.here ▸ hp, by simp [Level.push], ?_, ?_⟩
        · intro k hk
          rw [Level.push, hne, List.nil_append, List.mem_singleton] at hk
          rw [hk]
          exact hq
        · simp [Level.push, hne, hl.empty hne]
      · have hlw : LevelWf l := hold l (Or.inr (Or.inl (by simp [keep, hne])))
        refine ⟨hlw.price, by simp [Level.push], ?_, ?_⟩
        · intro k hk
          rcases List.mem_append.1 hk with hk | hk
          · exact hlw.positive k hk
          · rw [List.mem_singleton.1 hk]
            exact hq
        · simp [Level.push, hlw.total]
    rcases hk with hk | rfl | hk
    · exact hold k (Or.inl hk)
    · exact hpush
    · exact hold k (Or.inr (Or.inr hk))
  · rw [Shape.set_flip] at hk
    exact h _ k hk

/-- **`add_order`**. -/
theorem Inv.add_spec (h : Inv book g) (hu : AddFits book g u) :
    ∃ book' L l R i, book.addOrder u = pure book' ∧ LevelFor (g (sideOf u.side)) u.price L l R ∧
      Inv book' (g.set (sideOf u.side) (L ++ l.push (u.entry i) :: R)) ∧
      SideFrame book book' (sideOf u.side).flip (g (sideOf u.side).flip) := by
  obtain ⟨s, hs⟩ : ∃ s, s = sideOf u.side := ⟨_, rfl⟩
  have hlevel := hu.level
  rw [← hs] at hlevel ⊢
  obtain ⟨book1, L, l, R, e1, hfor, hrep1, hframe1, hop, hom⟩ := h.find_or_create hu.window hlevel
  -- creating a level registers no order
  have hords : (ordersOf (g.set s (L ++ l :: R)).levels).Perm (ordersOf g.levels) := by
    have h1 := ordersOf_perm (Shape.levels_perm g s L [l] R)
    have h2 := ordersOf_perm (Shape.levels_focus hfor.split)
    rw [ordersOf_append, ordersOf_keep] at h2
    rw [ordersOf_append, ordersOf_cons, ordersOf_nil, List.append_nil] at h1
    simpa using h1.trans h2.symm
  obtain ⟨i, orders, map', book', e2, e3, e4, hrep2, hframe2⟩ := hrep1.append_order (u := u) (Shape.set_self _ _ _)
    hfor.here.symm hs.symm hu.id (fun k hk => hu.fresh k (hords.mem_iff.1 hk)) (by rw [hords.length_eq]; exact hu.slot)
    (by rw [hom]; exact hu.room)
  rw [Shape.set_set] at hrep2
  rw [Shape.set_flip] at hframe2
  refine ⟨book', L, l, R, i, ?_, hfor, ⟨hrep2, hfor.wf h.wf hu.price hu.qty⟩, hframe1.trans hframe2⟩
  have hfresh : book.orderMap.contains u.orderId = pure false := (h.rep.addOk_iff.2 hu).fresh
  have hq : u.qty > 0 := hu.qty
  have hp : u.price > 0 := hu.price
  unfold OrderBook.addOrder
  simp only [hq, hp, decide_true, tradecoreAssert_true, pure_bind, hfresh, Bool.not_false, tradecoreAssertM_true, ← hs, e1,
    e2, e3, Option.isSome_some]
  exact e4

end Push

end TradeCore
