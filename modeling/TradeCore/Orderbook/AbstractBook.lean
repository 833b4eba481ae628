import TradeCore.Lib.PriceTime
import TradeCore.Orderbook.BookOps
/-!
# The book as sorted queues

What an order book is for: per side, the prices best first, and at each price the orders oldest first with
what remains of them. `OrderBook.abs` reads this off the memory of a book, by walking the tree of each side
and the list of each level; `Rep.abs_eq` says that a book that represents a shape reads as that shape.

Then the two changes of a shape, one order shrinking or leaving (`abs_cut`) and one arriving (`abs_push`), are
`PriceTime.adjust` and `PriceTime.add`.
-/

namespace TradeCore

open PriceTime ObjectPool LinkedList Avl Avl.BinTree

variable {maxOrders maxLevels cap : PoolCapacity}

/-- `p` is served before `p'`: the higher bid, the lower ask. -/
def Side.better : Side → UInt32 → UInt32 → Prop
  | .bid, p, p' => p' < p
  | .ask, p, p' => p < p'

instance (s : Side) : DecidableRel s.better := fun p p' =>
  match s with
  | .bid => inferInstanceAs (Decidable (p' < p))
  | .ask => inferInstanceAs (Decidable (p < p'))

/-- A list by increasing price, best price first. -/
def Side.bestFirst {α : Type} : Side → List α → List α
  | .bid, xs => xs.reverse
  | .ask, xs => xs

abbrev AbstractBook := Side → Queues UInt32 UInt64

namespace AbstractBook

def empty : AbstractBook := fun _ => []

/-- A new order at the tail of its price. -/
def add (a : AbstractBook) (s : Side) (price : UInt32) (id : UInt64) (qty : ℕ) : AbstractBook :=
  Function.update a s (PriceTime.add s.better price (id, qty) (a s))

/-- `f` rewrites what remains of order `id`. -/
def adjust (a : AbstractBook) (id : UInt64) (f : ℕ → ℕ) : AbstractBook := fun s => PriceTime.adjust id f (a s)

def cancel (a : AbstractBook) (id : UInt64) (qty : ℕ) : AbstractBook := a.adjust id fun r => r - qty

def delete (a : AbstractBook) (id : UInt64) : AbstractBook := a.adjust id fun _ => 0

/-- Side, price and remaining quantity of order `id`. -/
def lookup (a : AbstractBook) (id : UInt64) : Option (Side × UInt32 × ℕ) :=
  match PriceTime.lookup id (a .bid) with
  | some pr => some (.bid, pr)
  | none => (PriceTime.lookup id (a .ask)).map fun pr => (.ask, pr)

/-- A smaller quantity keeps the place in the queue, a larger one goes to the tail. -/
def modify (a : AbstractBook) (id : UInt64) (qty : ℕ) : AbstractBook :=
  match a.lookup id with
  | none => a
  | some (s, price, r) =>
    if qty < r then a.adjust id fun _ => qty
    else if r < qty then (a.delete id).add s price id qty
    else a

end AbstractBook

/-- Every bid is below every ask. -/
def Uncrossed (a : AbstractBook) : Prop := ∀ x ∈ a .bid, ∀ y ∈ a .ask, x.1 < y.1

/-! ## Reading a book -/

/-- The slots of a tree in order. -/
def PriceLevelPool.inorder (pool : PriceLevelPool cap) : ℕ → Index → List Index
  | 0, _ => []
  | fuel + 1, i =>
    if i = kInvalidPoolIndex then []
    else pool.inorder fuel (pool.node i).left ++ i :: pool.inorder fuel (pool.node i).right

/-- The slots of a list of orders from its head. -/
def OrderPool.walk (pool : OrderPool cap) : ℕ → Index → List Index
  | 0, _ => []
  | fuel + 1, i => if i = kInvalidPoolIndex then [] else i :: pool.walk fuel (pool.slots i).nextInLevel

namespace OrderBook

variable (book : OrderBook maxOrders maxLevels)

/-- The level slots of a side, by increasing price. -/
def levelSlots (s : Side) : List Index := book.levelPool.inorder maxLevels.size (book.side s).avlRoot

/-- The order slots of a level, head first. -/
def queueSlots (i : Index) : List Index := book.orderPool.walk maxOrders.size (book.levelPool.slots i).headOrderIdx

/-- The price queues of a side. -/
def abs : AbstractBook := fun s => s.bestFirst ((book.levelSlots s).map fun i =>
  ((book.levelPool.slots i).price, (book.queueSlots i).map fun j =>
    ((book.orderPool.slots j).orderId, (book.orderPool.slots j).remainingQty.toNat)))

end OrderBook

theorem inorder_eq {pool : PriceLevelPool cap} : ∀ {t : BinTree Index} {x p : Index} {fuel : ℕ}, TreeAt pool t x p →
    t.height ≤ fuel → pool.inorder fuel x = t.toList
  | .nil, x, _, fuel, h, _ => by
    have hx : x = kInvalidPoolIndex := h
    cases fuel with
    | zero => rfl
    | succ fuel => simp [PriceLevelPool.inorder, hx]
  | .node l i r, x, _, fuel, ⟨hx, hv, _, _, hl, hr⟩, hf => by
    rw [height_node] at hf
    cases fuel with
    | zero => omega
    | succ fuel =>
      subst hx
      have hne : x ≠ kInvalidPoolIndex := ObjectPool.Valid.ne_invalid hv
      have h1 := inorder_eq hl (show l.height ≤ fuel by omega)
      have h2 := inorder_eq hr (show r.height ≤ fuel by omega)
      simp only [PriceLevelPool.inorder, hne, if_false, toList_node]
      rw [← h1, ← h2]
      rfl

theorem walk_eq {pool : OrderPool cap} {is : List Index} {x : Index} {fuel : ℕ}
    (hp : Path (nextLink pool) x is kInvalidPoolIndex) (hv : ∀ i ∈ is, Valid cap i) (hf : is.length ≤ fuel) :
    pool.walk fuel x = is := by
  induction is generalizing x fuel with
  | nil =>
    have hx : x = kInvalidPoolIndex := hp
    cases fuel with
    | zero => rfl
    | succ fuel => simp [OrderPool.walk, hx]
  | cons i is ih =>
    obtain ⟨rfl, hp⟩ := hp
    cases fuel with
    | zero => simp at hf
    | succ fuel =>
      have hne := (hv x List.mem_cons_self).ne_invalid
      have hrest := ih hp (fun k hk => hv k (List.mem_cons_of_mem x hk)) (show is.length ≤ fuel by simpa using hf)
      simp only [OrderPool.walk, hne, if_false]
      exact congrArg _ hrest

def Entry.abs (e : Entry) : UInt64 × ℕ := (e.id, e.qty.toNat)

def Level.abs (l : Level) : UInt32 × Queue UInt64 := (l.price, l.orders.map Entry.abs)

def Shape.abs (g : Shape) : AbstractBook := fun s => s.bestFirst ((g s).map Level.abs)

section Read

variable {book : OrderBook maxOrders maxLevels} {g : Shape}

/-- The tree of a side, no deeper than the pool is large. -/
theorem Rep.side_tree (h : Rep book g) (s : Side) : ∃ t, TreeAt book.levelPool t (book.side s).avlRoot kInvalidPoolIndex ∧
    t.toList = (g s).map Level.slot ∧ t.height ≤ maxLevels.size := by
  obtain ⟨t, ht, hts, -⟩ := (h.sides s).tree.tree
  have hnd : t.toList.Nodup := hts ▸ (h.sides s).tree.nodup
  exact ⟨t, ht, hts, height_le_cap ht hnd⟩

/-- The queue of a level, no longer than the pool is large. -/
theorem Rep.level_queue (h : Rep book g) {s : Side} {l : Level} (hl : l ∈ g s) :
    Path (nextLink book.orderPool) (book.levelPool.slots l.slot).headOrderIdx (l.orders.map Entry.slot) kInvalidPoolIndex ∧
      (∀ i ∈ l.orders.map Entry.slot, Valid maxOrders i) ∧ (l.orders.map Entry.slot).length ≤ maxOrders.size := by
  obtain ⟨L, R, hg⟩ := List.append_of_mem hl
  have hor := h.orders_focus (X := [l]) (by simpa using hg)
  rw [ordersOf_cons, ordersOf_nil, List.append_nil] at hor
  have hlen := hor.length_le
  rw [List.length_append] at hlen
  refine ⟨((h.sides s).levels l hl).queue, fun i hi => ?_, by rw [List.length_map]; omega⟩
  obtain ⟨e, he, rfl⟩ := List.mem_map.1 hi
  exact hor.valid (List.mem_append_left _ he)

theorem Rep.levelSlots (h : Rep book g) (s : Side) : book.levelSlots s = (g s).map Level.slot := by
  obtain ⟨t, ht, hts, hheight⟩ := h.side_tree s
  unfold OrderBook.levelSlots
  rw [inorder_eq ht hheight, hts]

theorem Rep.queueSlots (h : Rep book g) {s : Side} {l : Level} (hl : l ∈ g s) :
    book.queueSlots l.slot = l.orders.map Entry.slot := by
  obtain ⟨hpath, hvalid, hlen⟩ := h.level_queue hl
  exact walk_eq hpath hvalid hlen

/-- **A book reads as the shape it represents.** -/
theorem Rep.abs_eq (h : Rep book g) : book.abs = g.abs := by
  funext s
  unfold OrderBook.abs Shape.abs
  refine congrArg s.bestFirst ?_
  rw [h.levelSlots, List.map_map]
  refine List.map_congr_left fun l hl => ?_
  have hat := (h.sides s).levels l hl
  simp only [Function.comp_def, hat.price, h.queueSlots hl, List.map_map, Level.abs]
  refine congrArg (Prod.mk l.price) (List.map_congr_left fun e he => ?_)
  rw [(hat.orders e he).1.id, (hat.orders e he).1.qty]
  rfl

theorem Rep.abs_unique {g' : Shape} (h : Rep book g) (h' : Rep book g') : g.abs = g'.abs :=
  h.abs_eq.symm.trans h'.abs_eq

end Read

/-! ## Shapes and queues -/

namespace Side

variable {α β : Type} (s : Side)

/-- What is better than the middle of a list that lies by increasing price. -/
def front (L R : List α) : List α := match s with
  | .bid => R.reverse
  | .ask => L

/-- What is worse. -/
def back (L R : List α) : List α := match s with
  | .bid => L.reverse
  | .ask => R

theorem bestFirst_split (L R : List α) {X : List α} (hX : X.length ≤ 1) :
    s.bestFirst (L ++ X ++ R) = s.front L R ++ X ++ s.back L R := by
  cases s with
  | bid =>
    have hrev : X.reverse = X := by
      match X, hX with
      | [], _ => rfl
      | [x], _ => rfl
      | _ :: _ :: _, hX => simp at hX
    simp only [bestFirst, front, back, List.reverse_append, hrev, List.append_assoc]
  | ask => rfl

theorem mem_bestFirst {xs : List α} {x : α} : x ∈ s.bestFirst xs ↔ x ∈ xs := by
  cases s with
  | bid => exact List.mem_reverse
  | ask => exact Iff.rfl

theorem mem_front_back {L R : List α} {x : α} : x ∈ s.front L R ∨ x ∈ s.back L R ↔ x ∈ L ∨ x ∈ R := by
  cases s with
  | bid => simp only [front, back, List.mem_reverse, or_comm]
  | ask => exact Iff.rfl

theorem better_irrefl (p : UInt32) : ¬ s.better p p := by
  cases s <;> exact UInt32.lt_irrefl p

theorem better_trans {p q r : UInt32} (h : s.better p q) (h' : s.better q r) : s.better p r := by
  cases s with
  | bid => exact UInt32.lt_trans h' h
  | ask => exact UInt32.lt_trans h h'

end Side

theorem length_keep (l : Level) : (keep l).length ≤ 1 := by
  unfold keep
  split <;> simp

theorem map_abs_keep (l : Level) : (keep l).map Level.abs = live l.abs := by
  unfold keep live Level.abs
  by_cases h : l.orders = [] <;> simp [h]

theorem orders_map_abs (ls : List Level) : orders (ls.map Level.abs) = (ordersOf ls).map Entry.abs := by
  induction ls with
  | nil => rfl
  | cons l ls ih =>
    rw [List.map_cons, orders_cons, ih, ordersOf_cons, List.map_append]
    rfl

/-- The queues of a side hold its orders. -/
theorem orders_abs_perm (g : Shape) (s : Side) : (PriceTime.orders (g.abs s)).Perm ((ordersOf (g s)).map Entry.abs) := by
  rw [← orders_map_abs]
  refine List.Perm.flatMap_right _ ?_
  unfold Shape.abs
  cases s with
  | bid => exact List.reverse_perm _
  | ask => exact List.Perm.refl _

/-- The ids of a side differ from each other and from those of the other side. -/
theorem Rep.side_ids {book : OrderBook maxOrders maxLevels} {g : Shape} (h : Rep book g) (s : Side) :
    ((PriceTime.orders (g.abs s)).map Prod.fst).Nodup ∧
      ∀ o ∈ PriceTime.orders (g.abs s), ∀ e ∈ ordersOf (g s.flip), e.id ≠ o.1 := by
  have hsplit : g.levels.Perm (g s ++ g s.flip) := by
    simpa using Shape.levels_focus (g := g) (s := s) (L := []) (X := g s) (R := []) (by simp)
  have hids := ((ordersOf_perm hsplit).map Entry.id).nodup_iff.1 h.orders.ids
  rw [ordersOf_append, List.map_append, List.nodup_append] at hids
  obtain ⟨hown, -, hother⟩ := hids
  constructor
  · rw [((orders_abs_perm g s).map Prod.fst).nodup_iff, List.map_map]
    exact hown
  · intro o ho e he
    obtain ⟨e', he', rfl⟩ := List.mem_map.1 ((orders_abs_perm g s).mem_iff.1 ho)
    exact (hother _ (List.mem_map.2 ⟨e', he', rfl⟩) _ (List.mem_map.2 ⟨e, he, rfl⟩)).symm

/-- What makes the levels of a shape queues: no level is empty. -/
theorem abs_ne_nil {ls : List Level} (h : ∀ l ∈ ls, l.orders ≠ []) : ∀ l ∈ ls.map Level.abs, l.2 ≠ [] := by
  intro l hl
  obtain ⟨k, hk, rfl⟩ := List.mem_map.1 hl
  simpa [Level.abs] using h k hk

/-- An order that one reads comes from a queue. -/
theorem mem_orders_abs {g : Shape} {s : Side} {o : UInt64 × ℕ} (ho : o ∈ PriceTime.orders (g.abs s)) :
    ∃ l ∈ g s, ∃ e ∈ l.orders, e.abs = o := by
  obtain ⟨x, hx, hox⟩ := List.mem_flatMap.1 ho
  rw [Shape.abs, Side.mem_bestFirst] at hx
  obtain ⟨l, hl, rfl⟩ := List.mem_map.1 hx
  obtain ⟨e, he, rfl⟩ := List.mem_map.1 hox
  exact ⟨l, hl, e, he, rfl⟩

/-- An id that no queue holds. -/
theorem abs_orders_ne {g : Shape} {id : UInt64} (hid : ∀ k ∈ ordersOf g.levels, k.id ≠ id) (s : Side) :
    ∀ o ∈ PriceTime.orders (g.abs s), o.1 ≠ id := by
  intro o ho
  obtain ⟨l, hl, e, he, rfl⟩ := mem_orders_abs ho
  apply hid e
  rw [mem_ordersOf]
  exact ⟨l, Shape.mem_levels.2 ⟨s, hl⟩, he⟩

theorem abs_lookup_none {g : Shape} {id : UInt64} (hid : ∀ k ∈ ordersOf g.levels, k.id ≠ id) : g.abs.lookup id = none := by
  unfold AbstractBook.lookup
  rw [lookup_of_notMem (abs_orders_ne hid .bid), lookup_of_notMem (abs_orders_ne hid .ask)]
  rfl

section Changes

variable {book : OrderBook maxOrders maxLevels} {g : Shape} {s : Side} {L R : List Level} {l : Level}
  {A B : List Entry} {e : Entry}

/-- The queue of a level around one of its orders. -/
theorem Level.abs_split (hl : l.orders = A ++ e :: B) : l.abs = (l.price, A.map Entry.abs ++ e.abs :: B.map Entry.abs) := by
  unfold Level.abs
  rw [hl, List.map_append, List.map_cons]

/-- The level pulled out of its side, best price first. -/
theorem abs_focus (hg : g s = L ++ l :: R) :
    g.abs s = (s.front L R).map Level.abs ++ l.abs :: (s.back L R).map Level.abs := by
  have : g.abs s = (s.bestFirst (L ++ [l] ++ R)).map Level.abs := by
    unfold Shape.abs
    rw [hg]
    cases s <;> simp [Side.bestFirst]
  rw [this, s.bestFirst_split L R (by simp)]
  simp

theorem abs_set_self (g : Shape) (s : Side) (L R : List Level) (l : Level) : (g.set s (L ++ keep l ++ R)).abs s =
    (s.front L R).map Level.abs ++ live l.abs ++ (s.back L R).map Level.abs := by
  have : (g.set s (L ++ keep l ++ R)).abs s = (s.bestFirst (L ++ keep l ++ R)).map Level.abs := by
    unfold Shape.abs
    rw [Shape.set_self]
    cases s <;> simp [Side.bestFirst]
  rw [this, s.bestFirst_split L R (length_keep l), List.map_append, List.map_append, map_abs_keep]

theorem abs_set_flip (g : Shape) (s : Side) (ls : List Level) : (g.set s ls).abs s.flip = g.abs s.flip := by
  unfold Shape.abs
  rw [Shape.set_flip]

theorem Side.eq_or_eq_flip (s s' : Side) : s' = s ∨ s' = s.flip := by
  cases s <;> cases s' <;> simp [Side.flip]

/-- **One order shrinks or leaves.** -/
theorem abs_cut (h : Rep book g) (hne : ∀ s, ∀ l ∈ g s, l.orders ≠ []) (hg : g s = L ++ l :: R)
    (hl : l.orders = A ++ e :: B) (f : ℕ → ℕ) {mid : List Entry} {t : UInt32}
    (hmid : mid.map Entry.abs = if f e.qty.toNat = 0 then [] else [(e.id, f e.qty.toNat)]) :
    (g.set s (L ++ keep { l with total := t, orders := A ++ mid ++ B } ++ R)).abs = g.abs.adjust e.id f := by
  have hor := h.orders_split hg hl
  have hid := id_ne hor.ids
  have hsub : ∀ k ∈ s.front L R ++ s.back L R, k ∈ L ++ R := by
    intro k hk
    rw [List.mem_append] at hk ⊢
    exact s.mem_front_back.1 hk
  have hneLR : ∀ k ∈ L ++ R, k.orders ≠ [] := by
    intro k hk
    refine hne s k ?_
    rw [hg]
    exact mem_middle.2 (Or.inr hk)
  have hidLR : ∀ k ∈ L ++ R, ∀ o ∈ k.orders, o.id ≠ e.id := fun k hk o ho =>
    hid o (List.mem_append_right _ (mem_ordersOf.2 ⟨k, List.mem_append_left _ hk, ho⟩))
  funext s'
  rcases Side.eq_or_eq_flip s s' with rfl | rfl
  · rw [abs_set_self]
    change _ = PriceTime.adjust e.id f (g.abs s')
    rw [abs_focus hg]
    have habs : l.abs = (l.price, A.map Entry.abs ++ (e.id, e.qty.toNat) :: B.map Entry.abs) := l.abs_split hl
    rw [habs, adjust_split (abs_ne_nil fun k hk => hneLR k (hsub k (List.mem_append_left _ hk)))
      (abs_ne_nil fun k hk => hneLR k (hsub k (List.mem_append_right _ hk)))]
    · unfold Level.abs
      simp only [List.map_append, hmid]
    · rw [orders_map_abs, orders_map_abs]
      intro o ho
      simp only [List.mem_append, List.mem_map] at ho
      rcases ho with (⟨k, hk, rfl⟩ | ⟨k, hk, rfl⟩ | ⟨k, hk, rfl⟩) | ⟨k, hk, rfl⟩
      · obtain ⟨x, hx, hkx⟩ := mem_ordersOf.1 hk
        exact hidLR x (hsub x (List.mem_append_left _ hx)) k hkx
      · exact hid k (by simp [hk])
      · exact hid k (by simp [hk])
      · obtain ⟨x, hx, hkx⟩ := mem_ordersOf.1 hk
        exact hidLR x (hsub x (List.mem_append_right _ hx)) k hkx
  · rw [abs_set_flip]
    change _ = PriceTime.adjust e.id f (g.abs s.flip)
    rw [adjust_of_notMem]
    · intro x hx
      rw [Shape.abs, Side.mem_bestFirst] at hx
      exact abs_ne_nil (hne s.flip) x hx
    · intro o ho
      obtain ⟨k, hk, o', ho', rfl⟩ := mem_orders_abs ho
      refine hid o' (List.mem_append_right _ (mem_ordersOf.2 ⟨k, ?_, ho'⟩))
      exact List.mem_append_right _ hk

/-- **One order arrives.** -/
theorem abs_push {price : UInt32} (hl : LevelFor (g s) price L l R) (e : Entry) :
    (g.set s (L ++ l.push e :: R)).abs = g.abs.add s price e.id e.qty.toNat := by
  funext s'
  rcases Side.eq_or_eq_flip s s' with rfl | rfl
  · have hfront : ∀ k ∈ s'.front L R, s'.better k.price price := by
      intro k hk
      cases s' with
      | bid => exact hl.above k (List.mem_reverse.1 hk)
      | ask => exact hl.below k hk
    have hback : ∀ k ∈ s'.back L R, s'.better price k.price := by
      intro k hk
      cases s' with
      | bid => exact hl.below k (List.mem_reverse.1 hk)
      | ask => exact hl.above k hk
    have hold : g.abs s' = (s'.front L R).map Level.abs ++ live (price, l.orders.map Entry.abs) ++
        (s'.back L R).map Level.abs := by
      have := abs_set_self g s' L R l
      rw [← hl.split, Shape.set_eq_self] at this
      rw [this, Level.abs, hl.here]
    rw [AbstractBook.add, Function.update_self, hold, add_split (s'.better_irrefl price)]
    · rw [abs_focus (Shape.set_self g s' _)]
      simp only [Level.push, Level.abs, List.map_append, List.map_cons, List.map_nil, hl.here]
      rfl
    · intro x hx
      obtain ⟨k, hk, rfl⟩ := List.mem_map.1 hx
      exact hfront k hk
    · intro x hx
      obtain ⟨k, hk, rfl⟩ := List.mem_map.1 hx
      have hb := hback k hk
      exact ⟨fun hb' => s'.better_irrefl price (s'.better_trans hb hb'), fun e => s'.better_irrefl price (by
        have hk' : k.price = price := e
        rwa [hk'] at hb)⟩
  · rw [abs_set_flip, AbstractBook.add, Function.update_of_ne (by cases s <;> decide)]

/-- What is known of a live order from the queues. -/
theorem abs_lookup (h : Rep book g) (hg : g s = L ++ l :: R) (hl : l.orders = A ++ e :: B) :
    g.abs.lookup e.id = some (s, l.price, e.qty.toNat) := by
  have hor := h.orders_split hg hl
  have hid := id_ne hor.ids
  have hother : ∀ k ∈ ordersOf (g s.flip), k.id ≠ e.id := by
    intro k hk
    refine hid k (List.mem_append_right _ ?_)
    rw [ordersOf_append]
    exact List.mem_append_right _ hk
  have hhere : PriceTime.lookup e.id (g.abs s) = some (l.price, e.qty.toNat) := by
    rw [abs_focus hg]
    have habs : l.abs = (l.price, A.map Entry.abs ++ (e.id, e.qty.toNat) :: B.map Entry.abs) := l.abs_split hl
    rw [habs, lookup_split]
    rw [orders_map_abs]
    intro o ho
    simp only [List.mem_append, List.mem_map] at ho
    rcases ho with ⟨k, hk, rfl⟩ | ⟨k, hk, rfl⟩
    · obtain ⟨x, hx, hkx⟩ := mem_ordersOf.1 hk
      refine hid k (List.mem_append_right _ (mem_ordersOf.2 ⟨x, List.mem_append_left _ ?_, hkx⟩))
      exact List.mem_append.2 (s.mem_front_back.1 (Or.inl hx))
    · exact hid k (by simp [hk])
  have hthere : PriceTime.lookup e.id (g.abs s.flip) = none := by
    refine lookup_of_notMem fun o ho => ?_
    obtain ⟨k, hk, o', ho', rfl⟩ := mem_orders_abs ho
    exact hother o' (mem_ordersOf.2 ⟨k, hk, ho'⟩)
  unfold AbstractBook.lookup
  cases s with
  | bid => rw [hhere]
  | ask =>
    have hbid : PriceTime.lookup e.id (g.abs .bid) = none := hthere
    rw [hbid, hhere]
    rfl

end Changes

/-- **The queues of a book are well formed.** -/
theorem Inv.abs_ok {book : OrderBook maxOrders maxLevels} {g : Shape} (h : Inv book g) (s : Side) :
    PriceTime.Ok s.better (g.abs s) where
  sorted := by
    have hs := h.rep.sorted s
    unfold Shape.abs
    cases s with
    | bid =>
      simp only [Side.bestFirst, List.pairwise_reverse, List.pairwise_map]
      exact hs
    | ask =>
      simp only [Side.bestFirst, List.pairwise_map]
      exact hs
  nonempty x hx := by
    rw [Shape.abs, Side.mem_bestFirst] at hx
    exact abs_ne_nil (fun l hl => (h.wf s l hl).nonempty) x hx
  positive o ho := by
    obtain ⟨k, hk, e, he, rfl⟩ := mem_orders_abs ho
    exact UInt32.lt_iff_toNat_lt.1 ((h.wf s k hk).positive e he)

/-! ## The best level -/

section Best

variable {book : OrderBook maxOrders maxLevels} {g : Shape} {s : Side} {L R : List Level} {l : Level}
  {ls : Queues UInt32 UInt64}

/-- The best level heads the queues. -/
theorem abs_cons {x : UInt32 × Queue UInt64} (h : g.abs s = x :: ls) : ∃ L l R, g s = L ++ l :: R ∧ s.front L R = [] ∧
    l.abs = x ∧ (s.back L R).map Level.abs = ls := by
  unfold Shape.abs at h
  cases s with
  | bid =>
    have h' : ((g .bid).map Level.abs).reverse = x :: ls := h
    rw [← List.map_reverse] at h'
    obtain ⟨l, R, hrev, hl, hR⟩ := List.map_eq_cons_iff.1 h'
    refine ⟨R.reverse, l, [], ?_, rfl, hl, ?_⟩
    · rw [← List.reverse_reverse (g .bid), hrev, List.reverse_cons]
    · simpa [Side.back] using hR
  | ask =>
    obtain ⟨l, R, hg, hl, hR⟩ := List.map_eq_cons_iff.1 h
    exact ⟨[], l, R, hg, rfl, hl, hR⟩

theorem abs_nil (h : g.abs s = []) : g s = [] := by
  unfold Shape.abs at h
  cases s with
  | bid => simpa [Side.bestFirst] using h
  | ask => simpa [Side.bestFirst] using h

theorem bbo_empty (h : Rep book g) (hg : g s = []) : (book.side s).hasBbo = false := by
  have hbest : (book.side s).bboIdx = kInvalidPoolIndex := by
    rw [(h.sides s).tree.bbo, hg]
    unfold BookSide.bestOf
    split <;> rfl
  simp [BookSide.hasBbo, hbest]

theorem bbo_best (h : Rep book g) (hg : g s = L ++ l :: R) (hfront : s.front L R = []) : (book.side s).bboIdx = l.slot := by
  rw [(h.sides s).tree.bbo, (h.sides s).byte, hg]
  cases s with
  | bid =>
    have hR : R = [] := List.reverse_eq_nil_iff.1 hfront
    simp [BookSide.bestOf, Side.toByte, hR]
  | ask =>
    have hL : L = [] := hfront
    simp [BookSide.bestOf, Side.toByte, hL]

/-- **The cached best level** of a side that is not empty. -/
theorem bboLevel_eq (h : Rep book g) (hg : g s = L ++ l :: R) (hfront : s.front L R = []) :
    (book.side s).hasBbo = true ∧ (book.side s).bboLevel book.levelPool = pure (some (book.levelPool.slots l.slot)) := by
  have hbbo := bbo_best h hg hfront
  have hv := h.level_valid hg
  constructor
  · simp [BookSide.hasBbo, hbbo, hv.ne_invalid]
  · unfold BookSide.bboLevel
    rw [hbbo, if_neg hv.ne_invalid, get_eq _ hv, pure_bind]

theorem hasBbo_of_ne (h : Rep book g) (hne : g.abs s ≠ []) :
    (book.side s).hasBbo = true := by
  obtain ⟨x, ls, hx⟩ := List.exists_cons_of_ne_nil hne
  obtain ⟨L, l, R, hg, hfront, -⟩ := abs_cons hx
  exact (bboLevel_eq h hg hfront).1

/-- A level of a book has orders, so it is kept. -/
theorem Inv.focus_keep (h : Inv book g) (hg : g s = L ++ l :: R) :
    g s = L ++ keep l ++ R := by
  have hmem : l ∈ g s := by
    rw [hg]
    simp
  rw [keep_of_ne (h.wf s l hmem).nonempty, hg, List.append_assoc, List.singleton_append]

/-- No queue is longer than the pool. -/
theorem Rep.queue_length_le (h : Rep book g) (hg : g s = L ++ l :: R) :
    l.orders.length ≤ maxOrders.size := by
  have h1 := (h.orders_focus (X := [l]) (by simpa using hg)).length_le
  simp only [ordersOf_cons, ordersOf_nil, List.append_nil, List.length_append] at h1
  omega

end Best

end TradeCore
