import TradeCore.Orderbook.BookSpecs
/-!
# What a run that returned tells

`add_order` and the three operations that look an id up can fail an assertion, read a slot that is none or
write outside the dense array. Here a run that returned is read backwards, per build: which of its
preconditions it has thereby checked, and what it wrote where it did not check them.
-/

namespace TradeCore

open ObjectPool

variable {maxOrders maxLevels : PoolCapacity} {book book' : OrderBook maxOrders maxLevels} {g : Shape} {s : Side}
  {u : BookUpdate} {b : Build}

/-! ## `add_order` -/

/-- The level of a run that found or created one. -/
theorem Rep.find_or_create_ok (h : Rep book g) {price : UInt32} {i : Index}
    (hrun : book.findOrCreateLevel s price b = .ok (i, book')) :
    price.toNat < 10000 ∧ ((∃ l ∈ g s, l.price = price) ∨ g.levels.length < maxLevels.size) ∧
      book'.orderPool = book.orderPool ∧ book'.orderMap = book.orderMap := by
  by_cases hex : ∃ l ∈ g s, l.price = price
  · obtain ⟨l, hl, rfl⟩ := hex
    obtain ⟨L, R, hg⟩ := List.append_of_mem hl
    have hv := h.level_valid hg
    have hw : (book.levelPool.slots l.slot).price.toNat < 10000 :=
      (h.sides s).tree.window l.slot (List.mem_map.2 ⟨l, hl, rfl⟩)
    rw [((h.sides s).levels l hl).price] at hw
    unfold OrderBook.findOrCreateLevel at hrun
    rw [h.find_level hg, pure_bind, if_neg hv.ne_invalid, get_eq _ hv, pure_bind, Exec.pure_apply] at hrun
    cases hrun
    exact ⟨hw, Or.inl ⟨l, hl, rfl⟩, rfl, rfl⟩
  · have hnone : (book.side s).findByPrice book.levelPool price = pure kInvalidPoolIndex := by
      by_contra hf
      exact hex (h.find_iff.1 hf)
    unfold OrderBook.findOrCreateLevel at hrun
    rw [hnone, pure_bind, if_pos rfl] at hrun
    have hcard : (g.levels.map Level.slot).toFinset.card = g.levels.length := by
      rw [List.toFinset_card_of_nodup h.levels.nodup, List.length_map]
    rcases Nat.lt_or_ge g.levels.length maxLevels.size with hlt | hge
    · obtain ⟨j, lp, e1, hv, -, -, hslots⟩ :=
        BookSide.createLevel_ok (s := book.side s) h.levels.pool (by rw [hcard]; exact hlt) price
      have hself : (lp.slots j).price = price := by
        rw [hslots, Function.update_self]
        rfl
      rw [e1, pure_bind] at hrun
      simp only [ne_eq, hv.ne_invalid, not_false_eq_true, decide_true, tradecoreAssert_true, pure_bind, get_eq _ hv] at hrun
      obtain ⟨⟨side', lp', stats'⟩, hins, hret⟩ := Exec.bind_eq_ok.1 hrun
      -- the insertion wrote the tick of the price
      have hw : price.toNat < 10000 := by
        by_contra hw
        unfold BookSide.insertLevel at hins
        rw [get_eq _ hv, pure_bind, hself] at hins
        obtain ⟨dense, hd, -⟩ := Exec.bind_eq_ok.1 hins
        exact (h.sides s).tree.direct.insert_outside (by omega) j b dense hd
      rw [Exec.pure_apply] at hret
      cases hret
      exact ⟨hw, Or.inr hlt, by simp, by simp⟩
    · have hfull := BookSide.createLevel_full (s := book.side s) h.levels.pool
        (by rw [hcard]; exact le_antisymm h.levels.length_le hge) price
      rw [hfull, pure_bind] at hrun
      obtain ⟨_, -, hrun⟩ := Exec.bind_eq_ok.1 hrun
      obtain ⟨x, hx, -⟩ := Exec.bind_eq_ok.1 hrun
      exact absurd hx (get_of_not_valid _ (fun hv => hv.ne_invalid rfl) b x)

/-- Linking registers nothing, allocates nothing and writes no quantity and no price. -/
theorem linkOrder_ok {levelIdx orderIdx : Index} {qty : UInt32}
    (hrun : book.linkOrder levelIdx orderIdx qty b = .ok book') :
    book'.orderMap = book.orderMap ∧ book'.orderPool.activeCount = book.orderPool.activeCount ∧
      ∀ i, (book'.orderPool.slots i).remainingQty = (book.orderPool.slots i).remainingQty ∧
        (book'.orderPool.slots i).price = (book.orderPool.slots i).price := by
  unfold OrderBook.linkOrder at hrun
  by_cases htail : (book.levelPool.slots levelIdx).tailOrderIdx ≠ kInvalidPoolIndex
  · simp only [htail, if_true, ne_eq, not_false_eq_true] at hrun
    obtain ⟨orders, hupd, hret⟩ := Exec.bind_eq_ok.1 hrun
    obtain ⟨_, -, hupd⟩ := Exec.bind_eq_ok.1 hupd
    rw [Exec.pure_apply] at hupd
    cases hupd
    rw [pure_bind, Exec.pure_apply] at hret
    cases hret
    refine ⟨rfl, rfl, fun i => ?_⟩
    simp only [modify_slots]
    split_ifs with hi
    · rw [hi]
      exact ⟨rfl, rfl⟩
    · exact ⟨rfl, rfl⟩
  · simp only [htail, if_false, pure_bind, Exec.pure_apply] at hrun
    cases hrun
    exact ⟨rfl, rfl, fun i => ⟨rfl, rfl⟩⟩

/-- What an `add_order` that returned has found out, and what it wrote. -/
structure AddOutcome (book : OrderBook maxOrders maxLevels) (g : Shape) (u : BookUpdate) (b : Build)
    (book' : OrderBook maxOrders maxLevels) : Prop where
  window : u.price.toNat < 10000
  level : (∃ l ∈ g (sideOf u.side), l.price = u.price) ∨ g.levels.length < maxLevels.size
  slot : (ordersOf g.levels).length < maxOrders.size
  allocated : book'.orderPool.activeCount = book.orderPool.activeCount + 1
  registered : ∃ i inserted, Valid maxOrders i ∧ book.orderMap.insert u.orderId i b = .ok (inserted, book'.orderMap) ∧
    (b = .debug → inserted = true)
  asserted : b = .debug → 0 < u.qty ∧ 0 < u.price ∧ book.orderMap.contains u.orderId .debug = .ok false

theorem tradecoreAssertM_debug {c : Exec Bool} {e : String} {x : Unit} (h : tradecoreAssertM c e .debug = .ok x) :
    c .debug = .ok true := by
  unfold tradecoreAssertM at h
  cases hc : c .debug with
  | error f =>
    rw [hc] at h
    cases h
  | ok v =>
    rw [hc] at h
    cases v with
    | false => cases h
    | true => rfl

theorem tradecoreAssert_debug {c : Bool} {e : String} {x : Unit} (h : tradecoreAssert c e .debug = .ok x) : c = true := by
  have := tradecoreAssertM_debug h
  rw [Exec.pure_apply] at this
  exact Except.ok.inj this

/-- An `add_order` that returned, read backwards: what it has found out, and what stands under the id and in the slot. -/
theorem Rep.add_returned (h : Rep book g) (hrun : book.addOrder u b = .ok book') : AddOutcome book g u b book' ∧
    ∃ i inserted, Valid maxOrders i ∧ book.orderMap.insert u.orderId i b = .ok (inserted, book'.orderMap) ∧
      (book'.orderPool.slots i).remainingQty = u.qty ∧ (book'.orderPool.slots i).price = u.price := by
  unfold OrderBook.addOrder at hrun
  obtain ⟨_, hqty, hrun⟩ := Exec.bind_eq_ok.1 hrun
  obtain ⟨_, hprice, hrun⟩ := Exec.bind_eq_ok.1 hrun
  obtain ⟨_, hfresh, hrun⟩ := Exec.bind_eq_ok.1 hrun
  obtain ⟨⟨levelIdx, book1⟩, hlevel, hrun⟩ := Exec.bind_eq_ok.1 hrun
  obtain ⟨hwindow, hroom, hpool, hmap⟩ := h.find_or_create_ok hlevel
  simp only [hpool, hmap] at hrun
  have hcard : ((ordersOf g.levels).map Entry.slot).toFinset.card = (ordersOf g.levels).length := by
    rw [List.toFinset_card_of_nodup h.orders.nodup, List.length_map]
  rcases Nat.lt_or_ge (ordersOf g.levels).length maxOrders.size with hlt | hge
  · obtain ⟨i, orders, e1, hv, hi, hok, -⟩ := h.orders.pool.allocate_ok (by rw [hcard]; exact hlt) Order.zero
    rw [e1, pure_bind] at hrun
    obtain ⟨_, -, hrun⟩ := Exec.bind_eq_ok.1 hrun
    obtain ⟨⟨inserted, map'⟩, hins, hrun⟩ := Exec.bind_eq_ok.1 hrun
    obtain ⟨_, hassert, hrun⟩ := Exec.bind_eq_ok.1 hrun
    obtain ⟨hm, hc, hrecord⟩ := linkOrder_ok hrun
    have hinsert : book.orderMap.insert u.orderId i b = .ok (inserted, book'.orderMap) := by
      rw [hm]
      exact hins
    refine ⟨⟨hwindow, hroom, hlt, ?_, ⟨i, inserted, hv, hinsert, ?_⟩, ?_⟩, i, inserted, hv, hinsert, ?_, ?_⟩
    · rw [hc]
      change orders.activeCount = _
      rw [hok.count, Finset.card_insert_of_notMem hi, h.orders.pool.count]
    · rintro rfl
      exact tradecoreAssert_debug hassert
    · rintro rfl
      refine ⟨of_decide_eq_true (tradecoreAssert_debug hqty), of_decide_eq_true (tradecoreAssert_debug hprice), ?_⟩
      obtain ⟨v, hv, hv'⟩ := Exec.bind_eq_ok.1 (tradecoreAssertM_debug hfresh)
      cases v with
      | false => exact hv
      | true => cases hv'
    · rw [(hrecord i).1]
      simp
    · rw [(hrecord i).2]
      simp
  · have hfull := h.orders.pool.allocate_full (by rw [hcard]; exact le_antisymm h.orders.length_le hge) Order.zero
    rw [hfull, pure_bind] at hrun
    obtain ⟨_, -, hrun⟩ := Exec.bind_eq_ok.1 hrun
    cases hrun

theorem Rep.add_ok (h : Rep book g) (hrun : book.addOrder u b = .ok book') : AddOutcome book g u b book' :=
  (h.add_returned hrun).1

/-- Every operation of the map asserts that the key is not the empty one. -/
theorem FlatHashMap.contains_zero (map : FlatHashMap) (v : Bool) : map.contains kEmptyKey .debug ≠ .ok v := by
  intro h
  unfold FlatHashMap.contains FlatHashMap.find at h
  obtain ⟨_, h, -⟩ := Exec.bind_eq_ok.1 h
  obtain ⟨_, h, -⟩ := Exec.bind_eq_ok.1 h
  have := tradecoreAssert_debug h
  simp at this

/-- **In a debug build an `add_order` that returned was admissible.** -/
theorem Rep.addOk_of_debug (h : Rep book g) (hrun : book.addOrder u .debug = .ok book') : book.AddOk u := by
  obtain ⟨hw, hl, hs, -, ⟨i, inserted, hv, hins, htrue⟩, hassert⟩ := h.add_ok hrun
  obtain ⟨hq, hp, hc⟩ := hassert rfl
  have h0 : u.orderId ≠ FlatHashMap.kEmptyKey := by
    intro h0
    rw [h0] at hc
    exact FlatHashMap.contains_zero _ _ hc
  have hfresh : ¬ ∃ k ∈ ordersOf g.levels, k.id = u.orderId := by
    rw [h.orders.contains h0, Exec.pure_apply] at hc
    exact of_decide_eq_false (Except.ok.inj hc)
  refine h.addOk_iff.2 ⟨h0, fun k hk e => hfresh ⟨k, hk, e⟩, hq, hp, hw, hs, ?_, hl⟩
  by_contra hroom
  obtain ⟨m, hm, -⟩ := h.orders.map
  rw [hm.insert_full h0 i (by rw [← h.orders.capacity]; omega), Exec.pure_apply] at hins
  have hfalse := congrArg Prod.fst (Except.ok.inj hins)
  rw [htrue rfl] at hfalse
  cases hfalse

/-! ## Looking an id up -/

/-- A `find` in a release build for the empty key runs to an empty slot. -/
theorem FlatHashMap.findLoop_zero (map : FlatHashMap) {v : Index} (fuel idx : ℕ)
    (hrun : map.findLoop kEmptyKey fuel idx b = .ok v) : v = kEmpty := by
  induction fuel generalizing idx with
  | zero => cases hrun
  | succ fuel ih =>
    unfold FlatHashMap.findLoop at hrun
    by_cases hk : map.keys idx = kEmptyKey
    · rw [if_neg (not_not.2 hk), Exec.pure_apply] at hrun
      exact (Except.ok.inj hrun).symm
    · rw [if_pos hk, if_neg hk] at hrun
      exact ih _ hrun

/-- **An operation that got past the lookup had a live id.** -/
theorem Rep.live_of_ok {β : Type} (h : Rep book g) {id : UInt64} {c : Index → Bool} {e : String} {k : Index → Order → Exec β}
    {y : β} (hrun : (do
      let orderIdx ← book.orderMap.find id
      tradecoreAssert (c orderIdx) e
      let order ← book.orderPool.get orderIdx
      k orderIdx order) b = .ok y) : book.Live id := by
  obtain ⟨i, hfind, hrun⟩ := Exec.bind_eq_ok.1 hrun
  obtain ⟨_, -, hrun⟩ := Exec.bind_eq_ok.1 hrun
  obtain ⟨o, hget, -⟩ := Exec.bind_eq_ok.1 hrun
  by_contra hdead
  have hempty : i = FlatHashMap.kEmpty := by
    by_cases h0 : id = FlatHashMap.kEmptyKey
    · rw [h0] at hfind
      obtain ⟨_, -, hloop⟩ := Exec.bind_eq_ok.1 hfind
      exact FlatHashMap.findLoop_zero _ _ _ hloop
    · rw [h.orders.find_none h0 fun x hx hxid => hdead (h.live_iff.2 ⟨x, hx, hxid⟩), Exec.pure_apply] at hfind
      exact (Except.ok.inj hfind).symm
  rw [hempty] at hget
  exact get_of_not_valid _ (fun hv => hv.ne_invalid rfl) b o hget

theorem Rep.cancel_live (h : Rep book g) (hrun : book.cancelOrder u b = .ok book') : book.Live u.orderId :=
  h.live_of_ok hrun

theorem Rep.delete_live (h : Rep book g) (hrun : book.deleteOrder u b = .ok book') : book.Live u.orderId :=
  h.live_of_ok hrun

theorem Rep.modify_live (h : Rep book g) (hrun : book.modifyOrder u b = .ok book') : book.Live u.orderId :=
  h.live_of_ok hrun

end TradeCore
