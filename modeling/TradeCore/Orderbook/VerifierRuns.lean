import TradeCore.Orderbook.BookRuns
import TradeCore.Orderbook.BookChanges
import TradeCore.Orderbook.VerifierCompleteness
/-!
# The verifier along a run

`OrderBook::verify` calls the level pool the array of bid levels and the array of ask levels. Its slots are those of both
sides in the order of their allocation, and a free slot holds a link where a level has its price: an array that is
strictly descending and strictly ascending has no two neighbours with a price. The first order takes slot 0 while slot 1
is free and links to a further slot, so a run with an order passes the verifier just when the pool has a single slot
(`verifier_accepts_iff`).
-/

namespace TradeCore

open ObjectPool PriceTime OrderBookVerifier

variable {maxOrders maxLevels cap : PoolCapacity} {book book' : OrderBook maxOrders maxLevels} {g g' : Shape} {s : Side}
  {l : Level} {op : BookOp} {u : BookUpdate} {t t' : UInt64}

/-! ## The order of the array -/

/-- Neighbours with a price are in one of the two orders at most. -/
theorem not_ordered {levels : List PriceLevel} {prev curr : PriceLevel} (hprev : levels[0]? = some prev)
    (hcurr : levels[1]? = some curr) (hp : prev.price ≠ 0) (hc : curr.price ≠ 0) :
    ¬ (Ordered false levels ∧ Ordered true levels) := by
  match levels, hprev, hcurr with
  | a :: b :: rest, hprev, hcurr =>
    obtain rfl := Option.some.inj hprev
    obtain rfl := Option.some.inj hcurr
    rintro ⟨h1, h2⟩
    obtain ⟨h1, -⟩ := List.isChain_cons_cons.1 h1
    obtain ⟨h2, -⟩ := List.isChain_cons_cons.1 h2
    simp only [hp, hc, Bool.false_eq_true, if_false, if_true, false_or] at h1 h2
    exact UInt32.lt_asymm h1 h2

theorem ordered_of_length_le_one {levels : List PriceLevel} (h : levels.length ≤ 1) (ascending : Bool) :
    Ordered ascending levels := by
  match levels, h with
  | [], _ => exact List.IsChain.nil
  | [level], _ => exact List.IsChain.singleton level

/-! ## The first order -/

/-- Slot 1 of a new pool links to a further slot or to nothing. -/
theorem new_link_ne_zero (levels : Index → PriceLevel) (hcap : 2 ≤ cap.size) :
    ((ObjectPool.new levels : PriceLevelPool cap).slots 1).price ≠ 0 := by
  have h1 : (1 : Index).toNat = 1 := rfl
  unfold ObjectPool.new ObjectPool.reset
  simp only [h1]
  split_ifs with hlt heq
  · change (1 + 1 : UInt32) ≠ 0
    decide
  · change kInvalidPoolIndex ≠ 0
    decide
  · omega

/-- `create_level` takes the head of the free list. -/
theorem createLevel_head {side : BookSide} {price : UInt32} {pool pool' : PriceLevelPool cap} {i : Index}
    (h : side.createLevel price pool = pure (i, pool')) (hi : i ≠ kInvalidPoolIndex) : i = pool.freeHead := by
  have hrun := congrFun h .debug
  unfold BookSide.createLevel ObjectPool.allocate at hrun
  split_ifs at hrun with hnone hin
  · rw [pure_bind] at hrun
    exact absurd (congrArg Prod.fst (Except.ok.inj hrun)).symm hi
  · rw [pure_bind] at hrun
    exact (congrArg Prod.fst (Except.ok.inj hrun)).symm
  · cases hrun

/-- The first level takes the head of the free list, and no other slot is written to. -/
theorem Rep.find_or_create_first (h : Rep book fun _ => []) {price : UInt32} (hw : price.toNat < 10000) :
    ∃ book1, book.findOrCreateLevel s price = pure (book.levelPool.freeHead, book1) ∧
      (book1.levelPool.slots book.levelPool.freeHead).price = price ∧
      ∀ j ≠ book.levelPool.freeHead, book1.levelPool.slots j = book.levelPool.slots j := by
  have hside := (h.sides s).tree
  obtain ⟨i, pool1, e1, hv, -, -, hslots⟩ := BookSide.createLevel_ok (s := book.side s) h.levels.pool maxLevels.pos price
  obtain rfl := createLevel_head e1 hv.ne_invalid
  have hrow : pool1.slots book.levelPool.freeHead = (book.side s).freshLevel price := by
    rw [hslots, Function.update_self]
  have hprice : pool1.priceOf book.levelPool.freeHead = price.toNat := by
    unfold PriceLevelPool.priceOf
    rw [hrow]
    rfl
  have htree : (book.side s).SideTree pool1 [] := hside.frame (by simp)
  obtain ⟨side', pool2, stats', L, R, e2, -, -, -, -, hframe, -⟩ := htree.insertLevel_spec hv (by simp) (by simp)
    (by rw [hprice]; exact hw) book.stats
  refine ⟨{ book with levelPool := pool2, stats := stats' }.setSide s side', ?_, ?_, fun j hj => ?_⟩
  · unfold OrderBook.findOrCreateLevel
    rw [hside.find_none (by simp), pure_bind, if_pos rfl, e1, pure_bind]
    simp only [hv.ne_invalid, ne_eq, not_false_eq_true, decide_true, tradecoreAssert_true, pure_bind, get_eq _ hv, e2]
  · rw [OrderBook.levelPool_setSide, hframe.payload, hrow]
    rfl
  · rw [OrderBook.levelPool_setSide, hframe.other j (by simpa using hj), hslots, Function.update_of_ne hj]

theorem modify_price (pool : PriceLevelPool cap) (i j : Index) {f : PriceLevel → PriceLevel} (hf : ∀ l, (f l).price = l.price) :
    ((pool.modify i f).slots j).price = (pool.slots j).price := by
  rw [modify_slots]
  split_ifs with hj
  · rw [hf, hj]
  · rfl

/-- Linking an order writes no price. -/
theorem linkOrder_price {i j k : Index} {qty : UInt32} {b : Build} (h : book.linkOrder i k qty b = .ok book') :
    (book'.levelPool.slots j).price = (book.levelPool.slots j).price := by
  unfold OrderBook.linkOrder at h
  dsimp only at h
  split_ifs at h with htail
  · obtain ⟨orders, -, h⟩ := Exec.bind_eq_ok.1 h
    rw [pure_bind] at h
    rw [← Except.ok.inj h]
    dsimp only
    rw [modify_price]
    intro l
    rfl
  · rw [pure_bind] at h
    rw [← Except.ok.inj h]
    dsimp only
    rw [modify_price, modify_price]
    · intro l
      rfl
    · intro l
      rfl

/-- **The first order**: its level lies beside a slot with a link. -/
theorem new_add_not_ordered {orders : Index → Order} {levels : Index → PriceLevel} (hcap : 2 ≤ maxLevels.size)
    (hrun : (OrderBook.new orders levels : OrderBook maxOrders maxLevels).addOrder u .debug = .ok book') :
    ¬ (Ordered false book'.levelPool.rawData ∧ Ordered true book'.levelPool.rawData) := by
  have hrep : Rep (OrderBook.new orders levels : OrderBook maxOrders maxLevels) fun _ => [] := rep_new orders levels
  have hout := hrep.add_ok hrun
  obtain ⟨book1, e1, hfirst, hother⟩ := hrep.find_or_create_first (s := sideOf u.side) hout.window
  have hprice : ∀ j, (book'.levelPool.slots j).price = (book1.levelPool.slots j).price := by
    unfold OrderBook.addOrder at hrun
    rw [e1] at hrun
    obtain ⟨_, -, hrun⟩ := Exec.bind_eq_ok.1 hrun
    obtain ⟨_, -, hrun⟩ := Exec.bind_eq_ok.1 hrun
    obtain ⟨_, -, hrun⟩ := Exec.bind_eq_ok.1 hrun
    rw [pure_bind] at hrun
    obtain ⟨⟨order, orders1⟩, -, hrun⟩ := Exec.bind_eq_ok.1 hrun
    obtain ⟨_, -, hrun⟩ := Exec.bind_eq_ok.1 hrun
    cases order with
    | none => cases hrun
    | some i =>
      obtain ⟨⟨inserted, map1⟩, -, hrun⟩ := Exec.bind_eq_ok.1 hrun
      obtain ⟨_, -, hrun⟩ := Exec.bind_eq_ok.1 hrun
      intro j
      have hlink := linkOrder_price (j := j) hrun
      exact hlink
  have h0 : (0 : Index).toNat = 0 := rfl
  have h1 : (1 : Index).toNat = 1 := rfl
  have hv0 : Valid maxLevels 0 := by
    unfold Valid
    omega
  have hv1 : Valid maxLevels 1 := by
    unfold Valid
    omega
  refine not_ordered (book'.levelPool.rawData_getElem? hv0) (book'.levelPool.rawData_getElem? hv1) ?_ ?_
  · rw [hprice]
    change (book1.levelPool.slots (OrderBook.new orders levels : OrderBook maxOrders maxLevels).levelPool.freeHead).price ≠ 0
    rw [hfirst]
    exact UInt32.ne_of_lt (hout.asserted rfl).2.1 |>.symm
  · have hne : (1 : Index) ≠ (OrderBook.new orders levels : OrderBook maxOrders maxLevels).levelPool.freeHead := by
      change (1 : Index) ≠ 0
      decide
    rw [hprice, hother 1 hne]
    exact new_link_ne_zero levels hcap

theorem new_not_live {orders : Index → Order} {levels : Index → PriceLevel} {id : UInt64} :
    ¬ (OrderBook.new orders levels : OrderBook maxOrders maxLevels).Live id := by
  rw [(rep_new orders levels).live_iff]
  rintro ⟨e, he, -⟩
  cases he

/-- The first operation is an add. -/
theorem new_run_not_ordered {orders : Index → Order} {levels : Index → PriceLevel} {b : Build} (hcap : 2 ≤ maxLevels.size)
    (hop : op.Admissible (OrderBook.new orders levels : OrderBook maxOrders maxLevels))
    (hrun : op.run (OrderBook.new orders levels : OrderBook maxOrders maxLevels) b = .ok book') :
    ¬ (Ordered false book'.levelPool.rawData ∧ Ordered true book'.levelPool.rawData) := by
  cases op with
  | add u =>
    obtain ⟨book1, -, e, -⟩ := (inv_new orders levels).run_change hop
    have hdebug := congrFun e .debug
    rw [e, Exec.pure_apply] at hrun
    obtain rfl := Except.ok.inj hrun
    exact new_add_not_ordered hcap hdebug
  | cancel u | execute u => exact absurd hop.live new_not_live
  | delete u | modify u => exact absurd hop new_not_live
  | replace u => exact absurd hop.1 new_not_live

/-! ## Free rows -/

/-- `destroy_level` has asserted that its level counts no orders; the link goes over its price. -/
theorem destroyLevel_quiet {pool pool' : PriceLevelPool cap} {i : Index} {stats stats' : AVLStatistics}
    (h : BookSide.destroyLevel i pool stats .debug = .ok (pool', stats')) :
    Valid cap i ∧ (pool'.slots i).orderCount = 0 := by
  unfold BookSide.destroyLevel at h
  obtain ⟨_, hcount, h⟩ := Exec.bind_eq_ok.1 h
  have hv : Valid cap i := by
    by_contra hv
    obtain ⟨level, hget, -⟩ := Exec.bind_eq_ok.1 (tradecoreAssertM_debug hcount)
    exact get_of_not_valid pool hv _ _ hget
  have hv' : i.toNat < cap.size := hv
  have hzero := tradecoreAssertM_debug hcount
  dsimp only at hzero
  rw [get_eq _ hv, pure_bind, Exec.pure_apply, Except.ok.injEq, decide_eq_true_eq] at hzero
  refine ⟨hv, ?_⟩
  obtain ⟨_, -, h⟩ := Exec.bind_eq_ok.1 h
  obtain ⟨_, -, h⟩ := Exec.bind_eq_ok.1 h
  obtain ⟨_, -, h⟩ := Exec.bind_eq_ok.1 h
  obtain ⟨_, -, h⟩ := Exec.bind_eq_ok.1 h
  obtain ⟨_, -, h⟩ := Exec.bind_eq_ok.1 h
  obtain ⟨_, -, h⟩ := Exec.bind_eq_ok.1 h
  obtain ⟨pool1, hdealloc, h⟩ := Exec.bind_eq_ok.1 h
  obtain rfl : pool1 = pool' := congrArg Prod.fst (Except.ok.inj h)
  unfold ObjectPool.deallocate at hdealloc
  obtain ⟨_, -, hdealloc⟩ := Exec.bind_eq_ok.1 hdealloc
  rw [if_pos hv'] at hdealloc
  rw [← Except.ok.inj hdealloc]
  change (Function.update pool.slots i (Overlay.setNextFree pool.freeHead (pool.slots i)) i).orderCount = 0
  rw [Function.update_self]
  exact hzero

/-- The level pool lost no slot, or the row of one that it lost counts no orders. -/
def Settled (book book' : OrderBook maxOrders maxLevels) : Prop :=
  book'.levelPool.activeCount = book.levelPool.activeCount ∨
    ∃ i, Valid maxLevels i ∧ (book'.levelPool.slots i).orderCount = 0

theorem unlinkOrder_activeCount {i k : Index} {b : Build} (h : book.unlinkOrder i k b = .ok book') :
    book'.levelPool.activeCount = book.levelPool.activeCount := by
  unfold OrderBook.unlinkOrder at h
  dsimp only at h
  by_cases hhead : (book.levelPool.slots k).headOrderIdx = i
  · rw [if_pos hhead] at h
    rw [← Except.ok.inj h]
    rfl
  · rw [if_neg hhead] at h
    obtain ⟨⟨orders, tail⟩, -, h⟩ := Exec.bind_eq_ok.1 h
    rw [← Except.ok.inj h]
    rfl

theorem deleteOrderInternal_settled {i k : Index} (h : book.deleteOrderInternal i s k .debug = .ok book') :
    Settled book book' := by
  unfold OrderBook.deleteOrderInternal at h
  obtain ⟨⟨_, map1⟩, -, h⟩ := Exec.bind_eq_ok.1 h
  obtain ⟨book1, hunlink, h⟩ := Exec.bind_eq_ok.1 h
  obtain ⟨orders1, -, h⟩ := Exec.bind_eq_ok.1 h
  have hcount := unlinkOrder_activeCount hunlink
  dsimp only at h
  split_ifs at h with hempty
  · obtain ⟨⟨side', pool', stats'⟩, hremove, h⟩ := Exec.bind_eq_ok.1 h
    unfold BookSide.removeAndDestroyLevel at hremove
    obtain ⟨⟨side1, pool1, stats1⟩, -, hremove⟩ := Exec.bind_eq_ok.1 hremove
    obtain ⟨⟨pool2, stats2⟩, hdestroy, hremove⟩ := Exec.bind_eq_ok.1 hremove
    obtain rfl : pool2 = pool' := congrArg (fun r => r.2.1) (Except.ok.inj hremove)
    obtain ⟨hv, hzero⟩ := destroyLevel_quiet hdestroy
    refine Or.inr ⟨k, hv, ?_⟩
    rw [← Except.ok.inj h, OrderBook.levelPool_setSide]
    exact hzero
  · refine Or.inl ?_
    rw [← Except.ok.inj h]
    exact hcount

theorem cancelOrder_settled (h : book.cancelOrder u .debug = .ok book') : Settled book book' := by
  unfold OrderBook.cancelOrder at h
  obtain ⟨i, -, h⟩ := Exec.bind_eq_ok.1 h
  obtain ⟨_, -, h⟩ := Exec.bind_eq_ok.1 h
  obtain ⟨order, -, h⟩ := Exec.bind_eq_ok.1 h
  obtain ⟨_, -, h⟩ := Exec.bind_eq_ok.1 h
  obtain ⟨k, -, h⟩ := Exec.bind_eq_ok.1 h
  obtain ⟨_, -, h⟩ := Exec.bind_eq_ok.1 h
  obtain ⟨_, -, h⟩ := Exec.bind_eq_ok.1 h
  split_ifs at h with hzero
  · have hsettled := deleteOrderInternal_settled h
    exact hsettled
  · rw [← Except.ok.inj h]
    exact Or.inl rfl

theorem deleteOrder_settled (h : book.deleteOrder u .debug = .ok book') : Settled book book' := by
  unfold OrderBook.deleteOrder at h
  obtain ⟨i, -, h⟩ := Exec.bind_eq_ok.1 h
  obtain ⟨_, -, h⟩ := Exec.bind_eq_ok.1 h
  obtain ⟨order, -, h⟩ := Exec.bind_eq_ok.1 h
  obtain ⟨k, -, h⟩ := Exec.bind_eq_ok.1 h
  obtain ⟨_, -, h⟩ := Exec.bind_eq_ok.1 h
  obtain ⟨_, -, h⟩ := Exec.bind_eq_ok.1 h
  have hsettled := deleteOrderInternal_settled h
  exact hsettled

/-- A delete leg and an add leg leave an order. -/
theorem Inv.delete_add_orders {u' : BookUpdate} (h : Inv book g) (hlive : book.Live u.orderId)
    (hrun : (book.deleteOrder u >>= fun book => book.addOrder u') .debug = .ok book') : book'.orderPool.activeCount ≠ 0 := by
  obtain ⟨book1, g1, -, -, -, e1, h1, -⟩ := h.delete_change hlive
  rw [e1, pure_bind] at hrun
  rw [(h1.rep.add_ok hrun).allocated]
  exact Nat.succ_ne_zero _

/-- Where an order is live, a level is in use. -/
theorem Rep.levels_ne_zero (h : Rep book g) {id : UInt64} (hlive : book.Live id) : book.levelPool.activeCount ≠ 0 := by
  obtain ⟨e, he, -⟩ := h.live_iff.1 hlive
  obtain ⟨l, hl, -⟩ := mem_ordersOf.1 he
  rw [h.levels.activeCount]
  exact List.length_pos_iff.2 (List.ne_nil_of_mem hl) |>.ne'

theorem Settled.of_live (hs : Settled book book') (h : Rep book g) {id : UInt64} (hlive : book.Live id) :
    book'.levelPool.activeCount ≠ 0 ∨ ∃ i, Valid maxLevels i ∧ (book'.levelPool.slots i).orderCount = 0 := by
  rcases hs with hs | hs
  · rw [hs]
    exact Or.inl (h.levels_ne_zero hlive)
  · exact Or.inr hs

/-- An operation leaves an order, or a level, or the row of the level it destroyed. -/
theorem Inv.run_settled (h : Inv book g) (hop : op.Admissible book) (hrun : op.run book .debug = .ok book') :
    book'.orderPool.activeCount ≠ 0 ∨ book'.levelPool.activeCount ≠ 0 ∨
      ∃ i, Valid maxLevels i ∧ (book'.levelPool.slots i).orderCount = 0 := by
  cases op with
  | add u =>
    refine Or.inl ?_
    rw [(h.rep.add_ok hrun).allocated]
    exact Nat.succ_ne_zero _
  | cancel u | execute u => exact Or.inr ((cancelOrder_settled hrun).of_live h.rep hop.live)
  | delete u => exact Or.inr ((deleteOrder_settled hrun).of_live h.rep hop)
  | replace u => exact Or.inl (h.delete_add_orders hop.1 hrun)
  | modify u =>
    obtain ⟨e, he, hid⟩ := h.rep.live_iff.1 hop
    obtain ⟨s, L, l, R, A, B, hg, hl⟩ := focus_of_mem he
    change book.modifyOrder u .debug = .ok book' at hrun
    rw [h.modify_eq hg hl hid.symm] at hrun
    split_ifs at hrun with hlt hgt
    · exact Or.inr ((cancelOrder_settled hrun).of_live h.rep hop)
    · exact Or.inl (h.delete_add_orders hop hrun)
    · rw [← Except.ok.inj hrun]
      exact Or.inr (Or.inl (h.rep.levels_ne_zero hop))

/-- In a pool of one slot the free row is that of a destroyed level. -/
theorem Inv.run_quiet (hcap : maxLevels.size = 1) (h : Inv book g) (h' : Inv book' g') (hop : op.Admissible book)
    (hrun : op.run book .debug = .ok book') : FreeRowsQuiet book'.levelPool g' := by
  have hone : ∀ {i j : Index}, Valid maxLevels i → Valid maxLevels j → i = j := by
    intro i j hi hj
    unfold Valid at hi hj
    exact UInt32.toNat_inj.1 (by omega)
  have hlevel : g'.levels ≠ [] → FreeRowsQuiet book'.levelPool g' := by
    intro hne i hi
    obtain ⟨l, hl⟩ := List.exists_mem_of_ne_nil _ hne
    obtain ⟨s, hl⟩ := Shape.mem_levels.1 hl
    exact Or.inl ⟨s, l, hl, hone (h'.rep.slot_valid hl) hi⟩
  rcases h.run_settled hop hrun with hc | hc | ⟨j, hj, hzero⟩
  · rw [h'.rep.orders.activeCount] at hc
    refine hlevel fun e => hc ?_
    rw [e]
    rfl
  · rw [h'.rep.levels.activeCount] at hc
    refine hlevel fun e => hc ?_
    rw [e]
    rfl
  · intro i hi
    rw [hone hi hj]
    exact Or.inr hzero

/-! ## Timestamps -/

namespace Level.TimedBy

variable {A B : List Entry} {e : Entry} {n : UInt32}

theorem mono (h : l.TimedBy t) (ht : t ≤ t') : l.TimedBy t' :=
  ⟨h.sorted, fun e he => UInt64.le_trans (h.le e he) ht⟩

theorem cut (h : l.TimedBy t) (hl : l.orders = A ++ e :: B) : (l.cut A e B n).TimedBy t := by
  have hsub : ((l.cut A e B n).orders.map Entry.time).Sublist (l.orders.map Entry.time) := by
    rw [hl]
    unfold Level.cut
    by_cases hn : n = e.qty
    · simp [hn]
    · simp [hn]
  refine ⟨h.sorted.sublist hsub, fun k hk => ?_⟩
  obtain ⟨k', hk', e'⟩ := List.mem_map.1 (hsub.subset (List.mem_map.2 ⟨k, hk, rfl⟩))
  rw [← e']
  exact h.le k' hk'

theorem push (h : l.TimedBy t) (ht : t ≤ e.time) : (l.push e).TimedBy e.time := by
  refine ⟨?_, fun k hk => ?_⟩
  · unfold Level.push
    rw [List.map_append, List.pairwise_append]
    refine ⟨h.sorted, List.pairwise_singleton _ _, fun a ha b hb => ?_⟩
    obtain ⟨k, hk, rfl⟩ := List.mem_map.1 ha
    obtain rfl : b = e.time := by simpa using hb
    exact UInt64.le_trans (h.le k hk) ht
  · rcases List.mem_append.1 hk with hk | hk
    · exact UInt64.le_trans (h.le k hk) ht
    · rw [List.mem_singleton.1 hk]
      exact UInt64.le_refl _

end Level.TimedBy

theorem Shape.TimedBy.set {ls : List Level} (h : g.TimedBy t) (hls : ∀ l ∈ ls, l.TimedBy t) : (g.set s ls).TimedBy t := by
  intro s' l hl
  rcases Side.eq_or_eq_flip s s' with rfl | rfl
  · rw [Shape.set_self] at hl
    exact hls l hl
  · rw [Shape.set_flip] at hl
    exact h _ l hl

theorem Shape.TimedBy.cuts {e : Entry} {n : UInt32} (h : g.TimedBy t) (hc : Shape.Cuts s e n g g') : g'.TimedBy t := by
  obtain ⟨L, l, R, A, B, hg, hl, -, rfl⟩ := hc
  have hmem : ∀ k ∈ L ++ l :: R, k.TimedBy t := fun k hk => h s k (by rw [hg]; exact hk)
  refine h.set fun k hk => ?_
  rw [List.append_assoc, List.mem_append, List.mem_append] at hk
  rcases hk with hk | hk | hk
  · exact hmem k (by simp [hk])
  · rw [(mem_keep.1 hk).1]
    exact (hmem l (by simp)).cut hl
  · exact hmem k (by simp [hk])

theorem Shape.TimedBy.pushes {price : UInt32} {e : Entry} (h : g.TimedBy t) (hp : Shape.Pushes s price e g g')
    (ht : t ≤ e.time) : g'.TimedBy e.time := by
  obtain ⟨L, l, R, hfor, rfl⟩ := hp
  have hmem : ∀ k ∈ L ++ keep l ++ R, k.TimedBy t := fun k hk => h s k (by rw [hfor.split]; exact hk)
  have hl : l.TimedBy t := by
    by_cases hempty : l.orders = []
    · exact ⟨by rw [hempty]; exact List.Pairwise.nil, by rw [hempty]; simp⟩
    · exact hmem l (by simp [keep, hempty])
  refine Shape.TimedBy.set (fun s' k hk => (h s' k hk).mono ht) fun k hk => ?_
  rcases List.mem_append.1 hk with hk | hk
  · exact (hmem k (by simp [hk])).mono ht
  · rcases List.mem_cons.1 hk with rfl | hk
    · exact hl.push ht
    · exact (hmem k (by simp [hk])).mono ht

/-- **One operation** keeps the queues in time order. -/
theorem BookOp.Changed.timedBy (h : op.Changed book g book' g') (ht : g.TimedBy t) (hstamp : op.Stamps book t t') :
    g'.TimedBy t' := by
  obtain ⟨g1, hcut, hpush⟩ := h.change
  have h1 : g1.TimedBy t := by
    rcases hcut with rfl | ⟨s, e, n, hcut⟩
    · exact ht
    · exact ht.cuts hcut
  rcases hpush with rfl | ⟨s, price, e, hpush, htime⟩
  · exact fun s l hl => (h1 s l hl).mono hstamp.le
  · obtain rfl := htime t t' hstamp
    exact h1.pushes hpush hstamp.le

/-! ## Runs -/

/-- A run of admissible operations from the empty book, the books after each of them, the last one first, and the time of
the last new order: the new orders come in time order and the two sides never cross. -/
inductive TimelyRun : List (OrderBook maxOrders maxLevels) → OrderBook maxOrders maxLevels → UInt64 → Prop where
  | start (orders : Index → Order) (levels : Index → PriceLevel) : TimelyRun [] (OrderBook.new orders levels) 0
  | step {visited : List (OrderBook maxOrders maxLevels)} {book book' : OrderBook maxOrders maxLevels} {op : BookOp} {b : Build}
      {t t' : UInt64} : TimelyRun visited book t → op.Admissible book → op.Stamps book t t' → op.run book b = .ok book' →
      Uncrossed book'.abs → TimelyRun (book' :: visited) book' t'

namespace TimelyRun

variable {visited : List (OrderBook maxOrders maxLevels)} {uniqueness : UniquenessCheck}

theorem reachable (h : TimelyRun visited book t) : BookReachable book := by
  induction h with
  | start orders levels => exact .new orders levels
  | step _ hop _ hrun _ ih => exact .step ih hop hrun

theorem inv (h : TimelyRun visited book t) : ∃ g, Inv book g ∧ g.TimedBy t := by
  induction h with
  | start orders levels => exact ⟨_, inv_new orders levels, fun s l hl => absurd hl List.not_mem_nil⟩
  | step _ hop hstamp hrun _ ih =>
    obtain ⟨g, hg, ht⟩ := ih
    obtain ⟨book', g', e, hchange⟩ := hg.run_change hop
    rw [e, Exec.pure_apply] at hrun
    cases hrun
    exact ⟨g', hchange.inv, hchange.timedBy ht hstamp⟩

/-- With one level slot every book of the run passes. -/
theorem accepts (hcap : maxLevels.size = 1) (huniq : ∀ book : OrderBook maxOrders maxLevels, BookReachable book →
    uniqueness book.levelPool.rawData book.levelPool.rawData book.orderPool.rawData book.orderMap = none)
    (h : TimelyRun visited book t) : ∀ book' ∈ visited, book'.verifyResult uniqueness .debug = .ok {} := by
  induction h with
  | start orders levels => exact fun _ hmem => absurd hmem List.not_mem_nil
  | step hprev hop hstamp hrun hcross ih =>
    have hnow := TimelyRun.step hprev hop hstamp hrun hcross
    refine List.forall_mem_cons.2 ⟨?_, ih⟩
    obtain ⟨g, hg, -⟩ := hprev.inv
    obtain ⟨g', hg', ht'⟩ := hnow.inv
    obtain ⟨book2, -, e, -⟩ := hg.run_change hop
    rw [e, Exec.pure_apply] at hrun
    obtain rfl := Except.ok.inj hrun
    have hlen : book2.levelPool.rawData.length ≤ 1 := by
      rw [length_rawData, hcap]
    rw [hg'.rep.abs_eq] at hcross
    rw [hg'.accepts_iff (hg.run_quiet hcap hg' hop (congrFun e .debug)) ht' hcross (huniq _ hnow.reachable)]
    exact ⟨ordered_of_length_le_one hlen false, ordered_of_length_le_one hlen true⟩

/-- With several level slots the book after the first order fails. -/
theorem rejects (hcap : 2 ≤ maxLevels.size) (h : TimelyRun visited book t) (hne : visited ≠ []) :
    ∃ book' ∈ visited, book'.verifyResult uniqueness .debug ≠ .ok {} := by
  induction h with
  | start orders levels => exact absurd rfl hne
  | @step visited book book' op b t t' hprev hop hstamp hrun hcross ih =>
    by_cases hfirst : visited = []
    · subst hfirst
      refine ⟨book', List.mem_cons_self, fun hok => ?_⟩
      have hord := (verify_ok_iff.1 ⟨hok, rfl⟩).2.ordered
      cases hprev with
      | start orders levels => exact new_run_not_ordered hcap hop hrun hord
    · obtain ⟨book2, hmem, hfail⟩ := ih hfirst
      exact ⟨book2, List.mem_cons_of_mem _ hmem, hfail⟩

end TimelyRun

/-- **The verifier along a run**: it accepts the books of the run just when the level pool has one slot, or nothing
happened. -/
theorem verifier_accepts_iff {uniqueness : UniquenessCheck} {visited : List (OrderBook maxOrders maxLevels)}
    (huniq : ∀ book : OrderBook maxOrders maxLevels, BookReachable book →
      uniqueness book.levelPool.rawData book.levelPool.rawData book.orderPool.rawData book.orderMap = none)
    (h : TimelyRun visited book t) :
    (∀ book' ∈ visited, book'.verifyResult uniqueness .debug = .ok {}) ↔ maxLevels.size = 1 ∨ visited = [] := by
  have hpos := maxLevels.pos
  constructor
  · intro hall
    by_contra hno
    rw [not_or] at hno
    obtain ⟨book', hmem, hfail⟩ := h.rejects (by omega) hno.2
    exact hfail (hall book' hmem)
  · rintro (hcap | rfl)
    · exact h.accepts hcap huniq
    · exact fun _ hmem => absurd hmem List.not_mem_nil

/-- The run of one order to buy. -/
theorem firstOrder_run {book : OrderBook four maxLevels}
    (hrun : (OrderBook.new (fun _ => Order.zero) (fun _ => PriceLevel.zero)).addOrder firstOrder .debug = .ok book) :
    TimelyRun [book] book 0 := by
  have hop : (BookOp.add firstOrder).Admissible
      (OrderBook.new (fun _ => Order.zero) (fun _ => PriceLevel.zero) : OrderBook four maxLevels) :=
    new_addOk (by decide) (by decide) (by decide) (by decide) (by decide)
  refine .step (.start _ _) hop ⟨UInt64.le_refl 0, rfl⟩ hrun ?_
  obtain ⟨book1, g1, e, h1, habs⟩ := (inv_new (fun _ => Order.zero) (fun _ => PriceLevel.zero)).run hop
  have hdebug := congrFun e .debug
  change _ = Except.ok book1 at hdebug
  obtain rfl : book1 = book := Except.ok.inj (hdebug.symm.trans hrun)
  rw [h1.rep.abs_eq, habs]
  rintro x - y hy
  cases hy

def single : PoolCapacity := ⟨1, by decide, by decide⟩

theorem verifier_accepts_iff_single : ∃ book : OrderBook four single,
    (OrderBook.new (fun _ => Order.zero) (fun _ => PriceLevel.zero)).addOrder firstOrder .debug = .ok book ∧
      book.verifyResult (fun _ _ _ _ => none) .debug = .ok {} := by
  refine ⟨_, rfl, ?_⟩
  exact (verifier_accepts_iff (fun _ _ => rfl) (firstOrder_run rfl)).2 (Or.inl rfl) _ List.mem_cons_self

/-- One order in a pool of four level slots: its price 100 stands before the links 2, 3 and -1. -/
theorem verifier_rejects_first : ∃ book : OrderBook four four,
    (OrderBook.new (fun _ => Order.zero) (fun _ => PriceLevel.zero)).addOrder firstOrder .debug = .ok book ∧
      TimelyRun [book] book 0 ∧
      book.verifyResult (fun _ _ _ _ => none) .debug = .ok { ok := false, firstFailure := "Bid levels not strictly descending" } ∧
      book.verify (fun _ _ _ _ => none) .debug = .error (.assertFailed "vr.ok") :=
  ⟨_, rfl, firstOrder_run rfl, rfl, rfl⟩

end TradeCore
