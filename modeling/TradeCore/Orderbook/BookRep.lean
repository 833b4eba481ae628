import TradeCore.Orderbook.FlatHashMapProofs
import TradeCore.Orderbook.BookSideProofs
import TradeCore.Orderbook.OrderBook
/-!
# What an order book represents

`Shape` lists the levels of each side by increasing price, and the orders of each level from head to tail.
`Rep book g` says that the pools, lists, trees, dense arrays and the id map of `book` are exactly the shape
`g`: this is bookkeeping only, and holds between any two writes of an operation. `Wf g` is what makes `g` a
book: no empty level, no empty order, totals that are sums.

A step works on one level. `Rep.update_level` puts the level back after writes to its row and its orders;
`SideFrame` records that the other side was not touched at all.
-/

namespace TradeCore

open ObjectPool LinkedList

/-- A live order. -/
structure Entry where
  slot : Index
  id : UInt64
  qty : UInt32
  time : UInt64
  side : UInt8
deriving DecidableEq, Repr

/-- A price level: its slot, what its row says, and its FIFO. -/
structure Level where
  slot : Index
  price : UInt32
  total : UInt32
  orders : List Entry
deriving DecidableEq, Repr

abbrev Shape := Side → List Level

def ordersOf (ls : List Level) : List Entry := ls.flatMap Level.orders

namespace Shape

def set (g : Shape) (s : Side) (ls : List Level) : Shape := Function.update g s ls

/-- The levels of both sides: they share one pool. -/
def levels (g : Shape) : List Level := g .bid ++ g .ask

theorem mem_levels {g : Shape} {l : Level} : l ∈ g.levels ↔ ∃ s, l ∈ g s := by
  unfold levels
  rw [List.mem_append]
  constructor
  · rintro (h | h)
    · exact ⟨.bid, h⟩
    · exact ⟨.ask, h⟩
  · rintro ⟨s, h⟩
    cases s with
    | bid => exact Or.inl h
    | ask => exact Or.inr h

@[simp] theorem set_self (g : Shape) (s : Side) (ls : List Level) : g.set s ls s = ls := Function.update_self _ _ _

@[simp] theorem set_flip (g : Shape) (s : Side) (ls : List Level) : g.set s ls s.flip = g s.flip :=
  Function.update_of_ne (by cases s <;> decide) _ _

@[simp] theorem set_set (g : Shape) (s : Side) (ls ls' : List Level) : (g.set s ls).set s ls' = g.set s ls' :=
  Function.update_idem _ _ _

@[simp] theorem set_eq_self (g : Shape) (s : Side) : g.set s (g s) = g := Function.update_eq_self _ _

/-- Pull a few levels of one side to the front. -/
theorem levels_perm (g : Shape) (s : Side) (L X R : List Level) :
    (g.set s (L ++ X ++ R)).levels.Perm (X ++ (L ++ R ++ g s.flip)) := by
  have hmid : (L ++ X ++ R).Perm (X ++ (L ++ R)) := by
    rw [List.append_assoc]
    exact (List.perm_append_comm_assoc L X R)
  cases s with
  | bid =>
    have e : (g.set .bid (L ++ X ++ R)).levels = (L ++ X ++ R) ++ g .ask := rfl
    rw [e]
    exact (hmid.append_right _).trans (by rw [List.append_assoc]; exact List.Perm.refl _)
  | ask =>
    have e : (g.set .ask (L ++ X ++ R)).levels = g .bid ++ (L ++ X ++ R) := rfl
    rw [e]
    exact (List.perm_append_comm.trans (hmid.append_right _)).trans (by rw [List.append_assoc]; exact List.Perm.refl _)

theorem levels_focus {g : Shape} {s : Side} {L X R : List Level} (hg : g s = L ++ X ++ R) :
    g.levels.Perm (X ++ (L ++ R ++ g s.flip)) := by
  have := levels_perm g s L X R
  rwa [← hg, set_eq_self] at this

end Shape

theorem ordersOf_append (ls ls' : List Level) : ordersOf (ls ++ ls') = ordersOf ls ++ ordersOf ls' :=
  List.flatMap_append

@[simp] theorem ordersOf_cons (l : Level) (ls : List Level) : ordersOf (l :: ls) = l.orders ++ ordersOf ls := rfl

@[simp] theorem ordersOf_nil : ordersOf [] = [] := rfl

theorem mem_ordersOf {ls : List Level} {e : Entry} : e ∈ ordersOf ls ↔ ∃ l ∈ ls, e ∈ l.orders := List.mem_flatMap

theorem ordersOf_perm {ls ls' : List Level} (h : ls.Perm ls') : (ordersOf ls).Perm (ordersOf ls') :=
  h.flatMap_right _

variable {maxOrders maxLevels cap : PoolCapacity}

/-- The row of an order, its link apart. -/
structure OrderAt (pool : OrderPool cap) (price : UInt32) (e : Entry) : Prop where
  id : (pool.slots e.slot).orderId = e.id
  price : (pool.slots e.slot).price = price
  qty : (pool.slots e.slot).remainingQty = e.qty
  time : (pool.slots e.slot).timestampNs = e.time
  side : (pool.slots e.slot).side = e.side

/-- The `next_in_level` link of a slot. -/
def nextLink (pool : OrderPool cap) (i : Index) : Index := (pool.slots i).nextInLevel

/-- The last slot of a queue, or nothing. -/
def tailOf (orders : List Entry) : Index := ((orders.map Entry.slot).getLast?).getD kInvalidPoolIndex

/-- The row of a level and its queue. -/
structure LevelAt (lp : PriceLevelPool maxLevels) (op : OrderPool maxOrders) (s : Side) (l : Level) : Prop where
  price : (lp.slots l.slot).price = l.price
  total : (lp.slots l.slot).totalQty = l.total
  count : (lp.slots l.slot).orderCount = UInt32.ofNat l.orders.length
  side : (lp.slots l.slot).side = s.toByte
  tail : (lp.slots l.slot).tailOrderIdx = tailOf l.orders
  queue : Path (nextLink op) (lp.slots l.slot).headOrderIdx (l.orders.map Entry.slot) kInvalidPoolIndex
  orders : ∀ e ∈ l.orders, OrderAt op l.price e ∧ sideOf e.side = s

/-- One side of the book. -/
structure SideRep (book : OrderBook maxOrders maxLevels) (s : Side) (ls : List Level) : Prop where
  tree : (book.side s).SideTree book.levelPool (ls.map Level.slot)
  byte : (book.side s).side = s.toByte
  levels : ∀ l ∈ ls, LevelAt book.levelPool book.orderPool s l

/-- The level pool, shared by the two sides. -/
structure LevelsRep (pool : PriceLevelPool cap) (ls : List Level) : Prop where
  nodup : (ls.map Level.slot).Nodup
  pool : pool.PoolOk (ls.map Level.slot).toFinset

/-- The order pool and the id map. -/
structure OrdersRep (pool : OrderPool cap) (map : FlatHashMap) (es : List Entry) : Prop where
  nodup : (es.map Entry.slot).Nodup
  pool : pool.PoolOk (es.map Entry.slot).toFinset
  ids : (es.map Entry.id).Nodup
  map : ∃ m, map.Refines (FlatHashMap.nextPowerOfTwo cap.size) m ∧
    ∀ id i, m.lookup id = some i ↔ ∃ e ∈ es, e.id = id ∧ e.slot = i

structure Rep (book : OrderBook maxOrders maxLevels) (g : Shape) : Prop where
  sides : ∀ s, SideRep book s (g s)
  levels : LevelsRep book.levelPool g.levels
  orders : OrdersRep book.orderPool book.orderMap (ordersOf g.levels)

/-- What a level of a book satisfies between two operations. -/
structure LevelWf (l : Level) : Prop where
  price : 0 < l.price
  nonempty : l.orders ≠ []
  positive : ∀ e ∈ l.orders, 0 < e.qty
  total : l.total = (l.orders.map Entry.qty).sum

def Wf (g : Shape) : Prop := ∀ s, ∀ l ∈ g s, LevelWf l

/-- The book is `g`, and `g` is a book. -/
structure Inv (book : OrderBook maxOrders maxLevels) (g : Shape) : Prop where
  rep : Rep book g
  wf : Wf g

/-- Nothing of side `s` was written to: neither its record nor the rows of its levels and orders. -/
structure SideFrame (book book' : OrderBook maxOrders maxLevels) (s : Side) (ls : List Level) : Prop where
  side : book'.side s = book.side s
  levels : ∀ l ∈ ls, book'.levelPool.slots l.slot = book.levelPool.slots l.slot
  orders : ∀ e ∈ ordersOf ls, book'.orderPool.slots e.slot = book.orderPool.slots e.slot

/-! ## Frames -/

namespace SideFrame

variable {book book' book'' : OrderBook maxOrders maxLevels} {s : Side} {ls : List Level}

theorem refl (book : OrderBook maxOrders maxLevels) (s : Side) (ls : List Level) : SideFrame book book s ls :=
  ⟨rfl, fun _ _ => rfl, fun _ _ => rfl⟩

theorem trans (h : SideFrame book book' s ls) (h' : SideFrame book' book'' s ls) : SideFrame book book'' s ls where
  side := h'.side.trans h.side
  levels l hl := (h'.levels l hl).trans (h.levels l hl)
  orders e he := (h'.orders e he).trans (h.orders e he)

end SideFrame

theorem OrderAt.frame {pool pool' : OrderPool cap} {price : UInt32} {e : Entry} (h : OrderAt pool price e)
    (hs : pool'.slots e.slot = pool.slots e.slot) : OrderAt pool' price e := by
  obtain ⟨h1, h2, h3, h4, h5⟩ := h
  rw [← hs] at h1 h2 h3 h4 h5
  exact ⟨h1, h2, h3, h4, h5⟩

/-- Writes that spare the rows of the orders of a level and touch the level's row in its tree links at most. -/
theorem LevelAt.frame {lp lp' : PriceLevelPool maxLevels} {op op' : OrderPool maxOrders} {s : Side} {l : Level}
    (h : LevelAt lp op s l) (hl : lp'.slots l.slot = { lp.slots l.slot with node := (lp'.slots l.slot).node })
    (ho : ∀ e ∈ l.orders, op'.slots e.slot = op.slots e.slot) : LevelAt lp' op' s l := by
  refine ⟨?_, ?_, ?_, ?_, ?_, ?_, fun e he => ⟨(h.orders e he).1.frame (ho e he), (h.orders e he).2⟩⟩ <;> rw [hl]
  · exact h.price
  · exact h.total
  · exact h.count
  · exact h.side
  · exact h.tail
  · refine h.queue.congr fun i hi => ?_
    obtain ⟨e, he, rfl⟩ := List.mem_map.1 hi
    unfold nextLink
    rw [ho e he]

theorem SideRep.frame {book book' : OrderBook maxOrders maxLevels} {s : Side} {ls : List Level}
    (h : SideRep book s ls) (hf : SideFrame book book' s ls) : SideRep book' s ls where
  tree := by
    rw [hf.side]
    refine h.tree.frame fun j hj => ?_
    obtain ⟨l, hl, rfl⟩ := List.mem_map.1 hj
    unfold PriceLevelPool.node PriceLevelPool.priceOf
    rw [hf.levels l hl]
    exact ⟨rfl, rfl⟩
  byte := by
    rw [hf.side]
    exact h.byte
  levels l hl := by
    refine (h.levels l hl).frame (by rw [hf.levels l hl]) fun e he => ?_
    exact hf.orders e (mem_ordersOf.2 ⟨l, hl, he⟩)

theorem LevelsRep.perm {pool : PriceLevelPool cap} {ls ls' : List Level} (h : LevelsRep pool ls) (hp : ls.Perm ls') :
    LevelsRep pool ls' where
  nodup := (hp.map Level.slot).nodup_iff.1 h.nodup
  pool := by
    rw [← List.toFinset_eq_of_perm _ _ (hp.map Level.slot)]
    exact h.pool

theorem OrdersRep.perm {pool : OrderPool cap} {map : FlatHashMap} {es es' : List Entry} (h : OrdersRep pool map es)
    (hp : es.Perm es') : OrdersRep pool map es' where
  nodup := (hp.map Entry.slot).nodup_iff.1 h.nodup
  pool := by
    rw [← List.toFinset_eq_of_perm _ _ (hp.map Entry.slot)]
    exact h.pool
  ids := (hp.map Entry.id).nodup_iff.1 h.ids
  map := by
    obtain ⟨m, hm, hl⟩ := h.map
    refine ⟨m, hm, fun id i => (hl id i).trans ?_⟩
    simp only [hp.mem_iff]

/-! ## One level in focus -/

section Focus

variable {book book' : OrderBook maxOrders maxLevels} {g : Shape} {s : Side} {L X X' R : List Level} {l l' : Level}

theorem Rep.levels_focus (h : Rep book g) (hg : g s = L ++ X ++ R) :
    LevelsRep book.levelPool (X ++ (L ++ R ++ g s.flip)) :=
  h.levels.perm (Shape.levels_focus hg)

theorem Rep.orders_focus (h : Rep book g) (hg : g s = L ++ X ++ R) :
    OrdersRep book.orderPool book.orderMap (ordersOf X ++ ordersOf (L ++ R ++ g s.flip)) := by
  rw [← ordersOf_append]
  exact h.orders.perm (ordersOf_perm (Shape.levels_focus hg))

theorem Rep.of_focus (hs : SideRep book' s (L ++ X ++ R)) (ho : SideRep book' s.flip (g s.flip))
    (hl : LevelsRep book'.levelPool (X ++ (L ++ R ++ g s.flip)))
    (hor : OrdersRep book'.orderPool book'.orderMap (ordersOf X ++ ordersOf (L ++ R ++ g s.flip))) :
    Rep book' (g.set s (L ++ X ++ R)) where
  sides s' := by
    by_cases e : s' = s
    · rw [e, Shape.set_self]
      exact hs
    · have e' : s' = s.flip := by
        cases s <;> cases s' <;> first | rfl | exact absurd rfl e
      rw [e', Shape.set_flip]
      exact ho
  levels := hl.perm (Shape.levels_perm g s L X R).symm
  orders := by
    rw [← ordersOf_append] at hor
    exact hor.perm (ordersOf_perm (Shape.levels_perm g s L X R).symm)

/-- **One level changes.** Its row and its orders were rewritten, its price and its links were not, and nothing
else was. -/
theorem Rep.update_level (h : Rep book g) (hg : g s = L ++ l :: R) (hslot : l'.slot = l.slot) (hprice : l'.price = l.price)
    (hside : ∀ s, book'.side s = book.side s) (hlf : book'.levelPool.freeHead = book.levelPool.freeHead)
    (hla : book'.levelPool.activeCount = book.levelPool.activeCount)
    (hls : ∀ j, j ≠ l.slot → book'.levelPool.slots j = book.levelPool.slots j)
    (hnode : book'.levelPool.node l.slot = book.levelPool.node l.slot)
    (hos : ∀ e ∈ ordersOf (L ++ R ++ g s.flip), book'.orderPool.slots e.slot = book.orderPool.slots e.slot)
    (hat : LevelAt book'.levelPool book'.orderPool s l')
    (hor : OrdersRep book'.orderPool book'.orderMap (l'.orders ++ ordersOf (L ++ R ++ g s.flip))) :
    Rep book' (g.set s (L ++ l' :: R)) ∧ SideFrame book book' s.flip (g s.flip) := by
  have hg' : g s = L ++ [l] ++ R := by simpa using hg
  have hlev := h.levels_focus hg'
  have hne : ∀ k ∈ L ++ R ++ g s.flip, k.slot ≠ l.slot := by
    have hnd := hlev.nodup
    rw [List.map_append, List.nodup_append] at hnd
    intro k hk
    exact (hnd.2.2 l.slot (by simp) k.slot (List.mem_map.2 ⟨k, hk, rfl⟩)).symm
  have hflip : SideFrame book book' s.flip (g s.flip) := by
    refine ⟨hside _, fun k hk => hls _ (hne k (List.mem_append_right _ hk)), fun e he => hos e ?_⟩
    rw [ordersOf_append]
    exact List.mem_append_right _ he
  refine ⟨?_, hflip⟩
  have hL : g.set s (L ++ l' :: R) = g.set s (L ++ [l'] ++ R) := by simp
  rw [hL]
  have hat' := h.sides s
  rw [hg] at hat'
  have hslots : ((L ++ [l'] ++ R).map Level.slot) = ((L ++ l :: R).map Level.slot) := by simp [hslot]
  refine Rep.of_focus ⟨?_, ?_, ?_⟩ ((h.sides s.flip).frame hflip) ⟨?_, ?_⟩ (by simpa using hor)
  · rw [hside, hslots]
    refine hat'.tree.frame fun j hj => ?_
    by_cases e : j = l.slot
    · refine ⟨by rw [e, hnode], ?_⟩
      unfold PriceLevelPool.priceOf
      rw [e, (hat'.levels l (by simp)).price, ← hslot, hat.price, hprice]
    · unfold PriceLevelPool.node PriceLevelPool.priceOf
      rw [hls j e]
      exact ⟨rfl, rfl⟩
  · rw [hside]
    exact hat'.byte
  · intro k hk
    rw [← List.append_cons, mem_middle] at hk
    rcases hk with rfl | hk'
    · exact hat
    · refine (hat'.levels k (mem_middle.2 (Or.inr hk'))).frame ?_ fun e he => hos e ?_
      · rw [hls _ (hne k (List.mem_append_left _ hk'))]
      · exact mem_ordersOf.2 ⟨k, List.mem_append_left _ hk', he⟩
  · have : (([l'] ++ (L ++ R ++ g s.flip)).map Level.slot) = (([l] ++ (L ++ R ++ g s.flip)).map Level.slot) := by
      simp [hslot]
    rw [this]
    exact hlev.nodup
  · have : (([l'] ++ (L ++ R ++ g s.flip)).map Level.slot) = (([l] ++ (L ++ R ++ g s.flip)).map Level.slot) := by
      simp [hslot]
    rw [this]
    refine hlev.pool.congr hlf hla fun j hj => hls j ?_
    rintro rfl
    exact hj (by simp)

end Focus

/-! ## `setSide` -/

namespace OrderBook

variable (book : OrderBook maxOrders maxLevels) (s : Side) (v : BookSide)

@[simp] theorem side_setSide : (book.setSide s v).side s = v := by cases s <;> rfl

@[simp] theorem side_flip_setSide : (book.setSide s v).side s.flip = book.side s.flip := by cases s <;> rfl

@[simp] theorem levelPool_setSide : (book.setSide s v).levelPool = book.levelPool := by cases s <;> rfl

@[simp] theorem orderPool_setSide : (book.setSide s v).orderPool = book.orderPool := by cases s <;> rfl

@[simp] theorem orderMap_setSide : (book.setSide s v).orderMap = book.orderMap := by cases s <;> rfl

end OrderBook

/-! ## The empty book -/

theorem rep_new (orders : Index → Order) (levels : Index → PriceLevel) :
    Rep (OrderBook.new orders levels : OrderBook maxOrders maxLevels) fun _ => [] where
  sides s := by
    cases s with
    | bid => exact ⟨BookSide.sideTree_new 0 _, rfl, by simp⟩
    | ask => exact ⟨BookSide.sideTree_new 1 _, rfl, by simp⟩
  levels := ⟨List.nodup_nil, new_ok levels⟩
  orders := by
    refine ⟨List.nodup_nil, new_ok orders, List.nodup_nil, ∅, FlatHashMap.refines_new _, fun id i => ?_⟩
    simp [Shape.levels]

theorem inv_new (orders : Index → Order) (levels : Index → PriceLevel) :
    Inv (OrderBook.new orders levels : OrderBook maxOrders maxLevels) fun _ => [] where
  rep := rep_new orders levels
  wf s l hl := by cases hl

end TradeCore
