import TradeCore.Orderbook.BookRuns
import TradeCore.Orderbook.VerifierProofs
/-!
# What the verifier asks of a book

`OrderBook::verify` passes the slots of the pools as arrays, the level pool for either side. Read so, the trees and lists
of a book are trees and lists of the arrays, and a book passes every check but that of the order of the array
(`Inv.accepts`), if its free level slots count no orders, its queues are in time order and its sides do not cross.
-/

namespace TradeCore

open Avl Avl.BinTree ObjectPool LinkedList OrderBookVerifier

variable {maxOrders maxLevels cap : PoolCapacity} {book : OrderBook maxOrders maxLevels} {g : Shape} {s : Side} {l : Level}

/-! ## The slots of a pool as an array -/

namespace ObjectPool

variable {α : Type} (pool : ObjectPool α cap)

@[simp] theorem length_rawData : pool.rawData.length = cap.size := by
  simp [rawData]

theorem rawData_getElem? {i : Index} (h : Valid cap i) : pool.rawData[i.toNat]? = some (pool.slots i) := by
  have h' : i.toNat < cap.size := h
  simp [rawData, h']

theorem mem_rawData {x : α} : x ∈ pool.rawData ↔ ∃ i, Valid cap i ∧ pool.slots i = x := by
  simp only [rawData, List.mem_map, List.mem_range]
  constructor
  · rintro ⟨n, hn, rfl⟩
    refine ⟨UInt32.ofNat n, ?_, rfl⟩
    unfold Valid
    rwa [toNat_ofNat_slot hn]
  · rintro ⟨i, hi, rfl⟩
    exact ⟨i.toNat, hi, by rw [UInt32.ofNat_toNat]⟩

end ObjectPool

theorem levelAt_rawData (pool : PriceLevelPool cap) {i : Index} (h : Valid cap i) :
    levelAt pool.rawData i = pool.slots i := by
  unfold levelAt
  rw [List.getD_eq_getElem?_getD, pool.rawData_getElem? h]
  rfl

theorem orderAt_rawData (pool : OrderPool cap) {i : Index} (h : Valid cap i) : orderAt pool.rawData i = pool.slots i := by
  unfold orderAt
  rw [List.getD_eq_getElem?_getD, pool.rawData_getElem? h]
  rfl

theorem cell_rawData (pool : PriceLevelPool cap) {i : Index} (h : Valid cap i) : Cell pool.rawData i :=
  ⟨h.ne_invalid, by rw [length_rawData]; exact h⟩

/-! ## Trees and lists of the arrays -/

theorem TreeAt.treeIn {pool : PriceLevelPool cap} : ∀ {t : BinTree Index} {x p : Index}, TreeAt pool t x p →
    TreeIn pool.rawData t x p
  | nil, _, _, h => h
  | node l i r, x, p, ⟨hx, hv, hp, hh, hl, hr⟩ => by
    have hat := levelAt_rawData pool hv
    refine ⟨hx, cell_rawData pool hv, ?_, ?_, ?_, ?_⟩
    · change (levelAt pool.rawData i).node.parent = p
      rw [hat]
      exact hp
    · change (levelAt pool.rawData i).node.height = _
      rw [hat]
      exact hh
    · change TreeIn pool.rawData l (levelAt pool.rawData i).node.left i
      rw [hat]
      exact treeIn hl
    · change TreeIn pool.rawData r (levelAt pool.rawData i).node.right i
      rw [hat]
      exact treeIn hr

theorem Rep.entry_valid (h : Rep book g) (hl : l ∈ g s) {e : Entry} (he : e ∈ l.orders) : Valid maxOrders e.slot :=
  h.orders.valid (mem_ordersOf.2 ⟨l, Shape.mem_levels.2 ⟨s, hl⟩, he⟩)

theorem Rep.slot_valid (h : Rep book g) (hl : l ∈ g s) : Valid maxLevels l.slot :=
  (h.sides s).tree.valid l.slot (List.mem_map.2 ⟨l, hl, rfl⟩)

/-- The list of a level. -/
theorem Rep.queueIn (h : Rep book g) (hl : l ∈ g s) :
    QueueIn book.orderPool.rawData (book.levelPool.slots l.slot).headOrderIdx (l.orders.map Entry.slot) := by
  have hv : ∀ i ∈ l.orders.map Entry.slot, Valid maxOrders i := by
    intro i hi
    obtain ⟨e, he, rfl⟩ := List.mem_map.1 hi
    exact h.entry_valid hl he
  refine ⟨((h.sides s).levels l hl).queue.congr fun i hi => ?_, fun i hi => ⟨(hv i hi).ne_invalid, ?_⟩⟩
  · rw [orderAt_rawData _ (hv i hi)]
    rfl
  · rw [length_rawData]
    exact hv i hi

/-- The tree of a side and its best level. -/
theorem Rep.avlIn (h : Rep book g) (s : Side) : ∃ t, AvlIn book.levelPool.rawData (book.side s).avlRoot t ∧
    (book.side s).bboIdx = bestIn (decide (s = .ask)) t.toList ∧ t.toList = (g s).map Level.slot := by
  have hside := (h.sides s).tree
  obtain ⟨t, ht, hlist, hb⟩ := hside.tree
  refine ⟨t, ⟨ht.treeIn, hb, hlist ▸ hside.nodup⟩, ?_, hlist⟩
  rw [hside.bbo, (h.sides s).byte, hlist]
  cases s <;> rfl

/-- The entries of the map are the orders of the book. -/
theorem Rep.mapsTo (h : Rep book g) : MapsTo book.orderPool.rawData book.orderMap.entries := by
  intro id i hmem
  obtain ⟨m, hm, hl⟩ := h.orders.map
  obtain ⟨n, hn, he⟩ := List.mem_filterMap.1 hmem
  rw [List.mem_range, hm.capacity] at hn
  -- the entry of an occupied slot is bound by the map
  by_cases hempty : book.orderMap.keys n = FlatHashMap.kEmptyKey
  · rw [if_pos hempty] at he
    cases he
  · rw [if_neg hempty, Option.some.injEq, Prod.mk.injEq] at he
    obtain ⟨rfl, rfl⟩ := he
    have hval := ZMod.val_natCast_of_lt hn
    have hbinds : m.lookup (book.orderMap.keys n) = some (book.orderMap.values n) := by
      refine (hm.binds _ _).2 ⟨(n : ZMod _), FlatHashMap.table_eq_some.2 ⟨hempty, ?_, ?_⟩⟩
      · rw [hval]
      · rw [hval]
    obtain ⟨e, he, hid, hslot⟩ := (hl _ _).1 hbinds
    rw [← hslot, ← hid]
    exact ⟨_, rawData_getElem? _ (h.orders.valid he), h.orderId he⟩

/-! ## The rows of the level pool -/

/-- Every level slot is that of a level or counts no orders. -/
def FreeRowsQuiet (pool : PriceLevelPool cap) (g : Shape) : Prop :=
  ∀ i, Valid cap i → (∃ s, ∃ l ∈ g s, l.slot = i) ∨ (pool.slots i).orderCount = 0

theorem FreeRowsQuiet.row {pool : PriceLevelPool cap} (h : FreeRowsQuiet pool g) {level : PriceLevel}
    (hlevel : level ∈ pool.rawData) (hcount : level.orderCount ≠ 0) : ∃ s, ∃ l ∈ g s, pool.slots l.slot = level := by
  obtain ⟨i, hi, rfl⟩ := (mem_rawData pool).1 hlevel
  obtain ⟨s, l, hl, rfl⟩ := (h i hi).resolve_right hcount
  exact ⟨s, l, hl, rfl⟩

theorem Inv.quantities (h : Inv book g) (hq : FreeRowsQuiet book.levelPool g) :
    Quantities book.orderPool.rawData book.levelPool.rawData := by
  intro level hlevel hcount
  obtain ⟨s, l, hl, rfl⟩ := hq.row hlevel hcount
  refine ⟨_, h.rep.queueIn hl, ?_⟩
  have hat := (h.rep.sides s).levels l hl
  unfold qtyOf
  rw [List.map_map, hat.total, (h.wf s l hl).total]
  refine congrArg List.sum (List.map_congr_left fun e he => ?_)
  rw [Function.comp_apply, orderAt_rawData _ (h.rep.entry_valid hl he)]
  exact (hat.orders e he).1.qty

/-- The orders of a level stand in the order of their timestamps, none of them after `t`. -/
structure Level.TimedBy (t : UInt64) (l : Level) : Prop where
  sorted : (l.orders.map Entry.time).Pairwise (· ≤ ·)
  le : ∀ e ∈ l.orders, e.time ≤ t

/-- Every queue of the shape is in time order, up to `t`. -/
def Shape.TimedBy (g : Shape) (t : UInt64) : Prop := ∀ s, ∀ l ∈ g s, l.TimedBy t

theorem Inv.fifo {t : UInt64} (h : Inv book g) (hq : FreeRowsQuiet book.levelPool g) (ht : g.TimedBy t) :
    Fifo book.orderPool.rawData book.levelPool.rawData := by
  intro level hlevel hcount
  obtain ⟨s, l, hl, rfl⟩ := hq.row hlevel (by
    rintro e
    rw [e] at hcount
    exact absurd hcount (by decide))
  refine ⟨_, h.rep.queueIn hl, ?_⟩
  have hat := (h.rep.sides s).levels l hl
  have htimes : (l.orders.map Entry.slot).map (fun i => (orderAt book.orderPool.rawData i).timestampNs) =
      l.orders.map Entry.time := by
    rw [List.map_map]
    refine List.map_congr_left fun e he => ?_
    rw [Function.comp_apply, orderAt_rawData _ (h.rep.entry_valid hl he)]
    exact (hat.orders e he).1.time
  unfold TimeSorted
  rw [htimes]
  exact (ht s l hl).sorted

/-! ## What a book passes -/

/-- The cached best level, when there is one, is a level of the side. -/
theorem Rep.best_level (h : Rep book g) (hne : (book.side s).bboIdx ≠ kInvalidPoolIndex) :
    ∃ l ∈ g s, (book.side s).bboIdx = l.slot := by
  obtain ⟨t, -, hbest, hlist⟩ := h.avlIn s
  have hmem : t.toList ≠ [] := by
    intro e
    rw [hbest, e] at hne
    cases s <;> exact hne rfl
  have := bestIn_mem (decide (s = .ask)) hmem
  rw [← hbest, hlist] at this
  obtain ⟨l, hl, e⟩ := List.mem_map.1 this
  exact ⟨l, hl, e.symm⟩

theorem Shape.mem_abs (hl : l ∈ g s) : l.abs ∈ g.abs s :=
  (Side.mem_bestFirst s).2 (List.mem_map.2 ⟨l, hl, rfl⟩)

theorem Rep.notCrossed (h : Rep book g) (hu : Uncrossed g.abs) :
    NotCrossed book.levelPool.rawData book.levelPool.rawData book.bids.bboIdx book.asks.bboIdx := by
  intro hb ha bid ask hbid hask
  obtain ⟨k, hk, ek⟩ := h.best_level (s := .bid) hb
  obtain ⟨l, hl, el⟩ := h.best_level (s := .ask) ha
  have hrow : ∀ {s : Side} {l : Level} {level : PriceLevel}, l ∈ g s →
      book.levelPool.rawData[l.slot.toNat]? = some level → level.price = l.price := by
    intro s l level hl hrow
    rw [rawData_getElem? _ (h.slot_valid hl), Option.some.injEq] at hrow
    rw [← hrow]
    exact ((h.sides s).levels l hl).price
  change book.bids.bboIdx = _ at ek
  change book.asks.bboIdx = _ at el
  rw [ek] at hbid
  rw [el] at hask
  rw [hrow hk hbid, hrow hl hask]
  exact hu _ (Shape.mem_abs hk) _ (Shape.mem_abs hl)

/-- **A book passes every check but that of the order of the array.** -/
theorem Inv.accepts_iff {uniqueness : UniquenessCheck} {t : UInt64} (h : Inv book g) (hq : FreeRowsQuiet book.levelPool g)
    (ht : g.TimedBy t) (hu : Uncrossed g.abs)
    (huniq : uniqueness book.levelPool.rawData book.levelPool.rawData book.orderPool.rawData book.orderMap = none) :
    book.verifyResult uniqueness .debug = .ok {} ↔
      Ordered false book.levelPool.rawData ∧ Ordered true book.levelPool.rawData := by
  obtain ⟨tb, hb, hbestb, -⟩ := h.rep.avlIn .bid
  obtain ⟨ta, ha, hbesta, -⟩ := h.rep.avlIn .ask
  constructor
  · intro hv
    exact (verify_ok_iff.1 ⟨hv, rfl⟩).2.ordered
  · intro hord
    exact (verify_ok_iff.2 ⟨rfl, hord, h.rep.notCrossed hu, huniq, ⟨h.quantities hq, h.quantities hq⟩, h.rep.mapsTo,
      ⟨h.fifo hq ht, h.fifo hq ht⟩, ⟨tb, hb, hbestb⟩, ⟨ta, ha, hbesta⟩⟩).1

end TradeCore
