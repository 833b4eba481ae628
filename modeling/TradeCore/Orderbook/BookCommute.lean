import TradeCore.Lib.PriceTimeQueues
import TradeCore.Orderbook.BookChanges
import TradeCore.Orderbook.DigestProofs
/-!
# Independent updates commute

An operation acts on each price queue by itself (`Inv.queueAt_effect`), and leaves the queues that it does not touch
alone. Two operations that touch different levels therefore give the same queues in either order, in books whose slots
and trees differ; each stays admissible after the other (`Inv.admissible_after`). What a book says about its content,
its best prices and its digest are functions of its queues (`Inv.content_eq`, `Inv.bestQuote_eq`).
-/

namespace TradeCore

open ObjectPool LinkedList PriceTime

variable {maxOrders maxLevels : PoolCapacity} {book book' : OrderBook maxOrders maxLevels} {g g' : Shape} {s : Side}
  {p : UInt32} {q : Queue UInt64} {u : BookUpdate} {op op' : BookOp} {a : AbstractBook}

namespace BookOp

/-- What the operation does to the queue at one price of one side. -/
def onQueue (s : Side) (p : UInt32) (q : Queue UInt64) : BookOp → Queue UInt64
  | add u => if sideOf u.side = s ∧ u.price = p then q ++ [(u.orderId, u.qty.toNat)] else q
  | cancel u | execute u => q.filterMap (adjustOrder u.orderId fun r => r - u.qty.toNat)
  | delete u => q.filterMap (adjustOrder u.orderId fun _ => 0)
  | modify u =>
    match q.find? fun o => o.1 = u.orderId with
    | none => q
    | some o =>
      if u.qty.toNat < o.2 then q.filterMap (adjustOrder u.orderId fun _ => u.qty.toNat)
      else if o.2 < u.qty.toNat then
        q.filterMap (adjustOrder u.orderId fun _ => 0) ++ [(u.orderId, u.qty.toNat)]
      else q
  | replace u =>
    let q := q.filterMap (adjustOrder u.orderId fun _ => 0)
    if sideOf u.side = s ∧ u.price = p then q ++ [(u.matchId, u.qty.toNat)] else q

/-- The operation has business with the queue `q` at this price of this side. -/
def Touches (s : Side) (p : UInt32) (q : Queue UInt64) : BookOp → Prop
  | add u => sideOf u.side = s ∧ u.price = p
  | cancel u | execute u | delete u | modify u => ∃ o ∈ q, o.1 = u.orderId
  | replace u => (∃ o ∈ q, o.1 = u.orderId) ∨ sideOf u.side = s ∧ u.price = p

/-- All operations but `replace`, which names two orders. -/
def OneOrder : BookOp → Prop
  | replace _ => False
  | _ => True

def newIds : BookOp → List UInt64
  | add u => [u.orderId]
  | _ => []

def newPlaces : BookOp → List (Side × UInt32)
  | add u => [(sideOf u.side, u.price)]
  | _ => []

theorem eq_of_mem_newIds {id : UInt64} (h : id ∈ op.newIds) : id = op.orderId := by
  cases op with
  | add u => exact List.mem_singleton.1 h
  | cancel u | execute u | delete u | modify u | replace u => cases h

theorem onQueue_of_not_touches (h : ¬ op.Touches s p q) : op.onQueue s p q = q := by
  have hnone : ∀ {id : UInt64}, (¬ ∃ o ∈ q, o.1 = id) → ∀ o ∈ q, o.1 ≠ id := fun hno o ho e => hno ⟨o, ho, e⟩
  cases op with
  | add u => exact if_neg h
  | cancel u | execute u | delete u => exact filterMap_adjustOrder (hnone h)
  | modify u =>
    have hfind : q.find? (fun o => o.1 = u.orderId) = none := by
      rw [List.find?_eq_none]
      intro o ho
      simpa using hnone h o ho
    simp only [onQueue, hfind]
  | replace u =>
    obtain ⟨hid, hplace⟩ := not_or.1 h
    simp only [onQueue, filterMap_adjustOrder (hnone hid), if_neg hplace]

/-- No id is new in a queue but that of an `add`, at its place. -/
theorem onQueue_ids (hone : op.OneOrder) {o : UInt64 × ℕ} (ho : o ∈ op.onQueue s p q) :
    (o.1 ∈ op.newIds ∧ (s, p) ∈ op.newPlaces) ∨ ∃ o' ∈ q, o'.1 = o.1 := by
  have hadjust : ∀ {id : UInt64} {f : ℕ → ℕ}, o ∈ q.filterMap (adjustOrder id f) → ∃ o' ∈ q, o'.1 = o.1 := by
    intro id f h
    obtain ⟨o', ho', e⟩ := List.mem_filterMap.1 h
    refine ⟨o', ho', ?_⟩
    unfold adjustOrder at e
    split at e
    · rename_i hid
      split at e
      · cases e
      · cases e
        exact hid
    · cases e
      rfl
  cases op with
  | add u =>
    rw [onQueue] at ho
    split at ho
    · rename_i hplace
      rcases List.mem_append.1 ho with ho | ho
      · exact Or.inr ⟨o, ho, rfl⟩
      · rw [List.mem_singleton.1 ho]
        exact Or.inl ⟨List.mem_singleton.2 rfl, by simp [newPlaces, hplace]⟩
    · exact Or.inr ⟨o, ho, rfl⟩
  | cancel u | execute u | delete u => exact Or.inr (hadjust ho)
  | modify u =>
    rw [onQueue] at ho
    split at ho
    · exact Or.inr ⟨o, ho, rfl⟩
    · rename_i o' hfind
      split at ho
      · exact Or.inr (hadjust ho)
      · split at ho
        · rcases List.mem_append.1 ho with ho | ho
          · exact Or.inr (hadjust ho)
          · -- the order that comes back was there
            rw [List.mem_singleton.1 ho]
            exact Or.inr ⟨o', List.mem_of_find?_eq_some hfind, by simpa using List.find?_some hfind⟩
        · exact Or.inr ⟨o, ho, rfl⟩
  | replace u => exact hone.elim

/-- An operation that does not touch a queue does not touch it after another one worked there. -/
theorem not_touches_onQueue (hone : op.OneOrder) (hone' : op'.OneOrder) (hid : op.orderId ≠ op'.orderId)
    (h : ¬ op'.Touches s p q) : ¬ op'.Touches s p (op.onQueue s p q) := by
  have hno : (∃ o ∈ op.onQueue s p q, o.1 = op'.orderId) → ∃ o ∈ q, o.1 = op'.orderId := by
    rintro ⟨o, ho, e⟩
    rcases onQueue_ids hone ho with ⟨hnew, -⟩ | ⟨o', ho', e'⟩
    · exact absurd ((eq_of_mem_newIds hnew).symm.trans e) hid
    · exact ⟨o', ho', e'.trans e⟩
  cases op' with
  | add u => exact h
  | cancel u | execute u | delete u | modify u => exact fun ht => h (hno ht)
  | replace u => exact hone'.elim

/-- **The diamond at one queue**: two operations of which at most one touches it. -/
theorem onQueue_comm (hone : op.OneOrder) (hone' : op'.OneOrder) (hid : op.orderId ≠ op'.orderId)
    (h : ¬ (op.Touches s p q ∧ op'.Touches s p q)) :
    op'.onQueue s p (op.onQueue s p q) = op.onQueue s p (op'.onQueue s p q) := by
  by_cases ht : op.Touches s p q
  · have ht' : ¬ op'.Touches s p q := fun ht' => h ⟨ht, ht'⟩
    rw [onQueue_of_not_touches ht', onQueue_of_not_touches (not_touches_onQueue hone hone' hid ht')]
  · rw [onQueue_of_not_touches ht, onQueue_of_not_touches (not_touches_onQueue hone' hone hid.symm ht)]

end BookOp

/-! ## Effects, queue by queue -/

theorem queueAt_bookAdd (hs : ∀ s, (a s).Pairwise fun x y => s.better x.1 y.1) (s₀ : Side) (p₀ : UInt32) (id : UInt64) (qty : ℕ)
    (s : Side) (p : UInt32) : queueAt p (a.add s₀ p₀ id qty s) =
      if s₀ = s ∧ p₀ = p then queueAt p (a s) ++ [(id, qty)] else queueAt p (a s) := by
  unfold AbstractBook.add
  by_cases hside : s = s₀
  · rw [hside, Function.update_self, queueAt_add (hs s₀)]
    by_cases hp : p₀ = p <;> simp [hp]
  · rw [Function.update_of_ne hside, if_neg fun e => hside e.1.symm]

theorem mem_queueAt_of_bookLookup {id : UInt64} {r : ℕ} (h : a.lookup id = some (s, p, r)) : (id, r) ∈ queueAt p (a s) := by
  unfold AbstractBook.lookup at h
  split at h
  · rename_i pr hbid
    cases h
    exact mem_queueAt_of_lookup hbid
  · obtain ⟨pr, hask, e⟩ := Option.map_eq_some_iff.1 h
    cases e
    exact mem_queueAt_of_lookup hask

/-- An order is found where it waits. -/
theorem Inv.lookup_of_mem (h : Inv book g) {o : UInt64 × ℕ} (ho : o ∈ queueAt p (g.abs s)) :
    g.abs.lookup o.1 = some (s, p, o.2) := by
  obtain ⟨x, hx, rfl, hox⟩ := mem_queueAt.1 ho
  rw [Shape.abs, Side.mem_bestFirst] at hx
  obtain ⟨l, hl, rfl⟩ := List.mem_map.1 hx
  obtain ⟨e, he, rfl⟩ := List.mem_map.1 hox
  obtain ⟨L, R, hg⟩ := List.append_of_mem hl
  obtain ⟨A, B, hAB⟩ := List.append_of_mem he
  exact abs_lookup h.rep hg hAB

theorem Inv.delete_sorted (h : Inv book g) (id : UInt64) (s : Side) :
    (g.abs.delete id s).Pairwise fun x y => s.better x.1 y.1 :=
  adjust_sorted (h.abs_ok s).sorted

/-- `modify` at one queue. -/
theorem Inv.queueAt_modify (h : Inv book g) (u : BookUpdate) (s : Side) (p : UInt32) :
    queueAt p (g.abs.modify u.orderId u.qty.toNat s) = (BookOp.modify u).onQueue s p (queueAt p (g.abs s)) := by
  have hsorted := h.delete_sorted u.orderId
  have hdelete : queueAt p (g.abs.delete u.orderId s) = (queueAt p (g.abs s)).filterMap (adjustOrder u.orderId fun _ => 0) :=
    queueAt_adjust p (g.abs s)
  by_cases ht : ∃ o ∈ queueAt p (g.abs s), o.1 = u.orderId
  · obtain ⟨o, ho, hid⟩ := ht
    have hlook := h.lookup_of_mem ho
    have hfind : (queueAt p (g.abs s)).find? (fun o => o.1 = u.orderId) = some o := by
      -- no other order has this id
      cases hf : (queueAt p (g.abs s)).find? fun o => o.1 = u.orderId with
      | none =>
        rw [List.find?_eq_none] at hf
        exact absurd hid (by simpa using hf o ho)
      | some o' =>
        have hid' : o'.1 = u.orderId := by simpa using List.find?_some hf
        have hlook' := h.lookup_of_mem (List.mem_of_find?_eq_some hf)
        rw [hid', ← hid, hlook] at hlook'
        have hr : o.2 = o'.2 := by simpa using hlook'
        rw [Prod.ext (hid'.trans hid.symm) hr.symm]
    rw [hid] at hlook
    unfold AbstractBook.modify
    simp only [hlook, BookOp.onQueue, hfind]
    by_cases hlt : u.qty.toNat < o.2
    · rw [if_pos hlt, if_pos hlt]
      exact queueAt_adjust p (g.abs s)
    · rw [if_neg hlt, if_neg hlt]
      by_cases hgt : o.2 < u.qty.toNat
      · rw [if_pos hgt, if_pos hgt, queueAt_bookAdd hsorted, if_pos ⟨rfl, rfl⟩, hdelete]
      · rw [if_neg hgt, if_neg hgt]
  · have hno : ∀ o ∈ queueAt p (g.abs s), o.1 ≠ u.orderId := fun o ho e => ht ⟨o, ho, e⟩
    rw [BookOp.onQueue_of_not_touches (show ¬ (BookOp.modify u).Touches s p _ from ht)]
    unfold AbstractBook.modify
    cases hlook : g.abs.lookup u.orderId with
    | none => rfl
    | some place =>
      obtain ⟨s₀, p₀, r⟩ := place
      have hplace : ¬ (s₀ = s ∧ p₀ = p) := by
        rintro ⟨rfl, rfl⟩
        exact ht ⟨_, mem_queueAt_of_bookLookup hlook, rfl⟩
      simp only
      split
      · exact (queueAt_adjust p (g.abs s)).trans (filterMap_adjustOrder hno)
      · split
        · rw [queueAt_bookAdd hsorted, if_neg hplace, hdelete, filterMap_adjustOrder hno]
        · rfl

/-- **An operation acts on each price queue by itself.** -/
theorem Inv.queueAt_effect (h : Inv book g) (op : BookOp) (s : Side) (p : UInt32) :
    queueAt p (op.effect g.abs s) = op.onQueue s p (queueAt p (g.abs s)) := by
  cases op with
  | add u => exact queueAt_bookAdd (fun s => (h.abs_ok s).sorted) _ _ _ _ s p
  | cancel u | execute u | delete u => exact queueAt_adjust p (g.abs s)
  | modify u => exact h.queueAt_modify u s p
  | replace u =>
    have hdelete : queueAt p (g.abs.delete u.orderId s) = (queueAt p (g.abs s)).filterMap (adjustOrder u.orderId fun _ => 0) :=
      queueAt_adjust p (g.abs s)
    change queueAt p ((g.abs.delete u.orderId).add _ _ _ _ s) = _
    rw [queueAt_bookAdd (h.delete_sorted u.orderId), hdelete]
    rfl

/-! ## Admissible after another operation -/

/-- The pools and the map have room for two new orders, and the level pool for the levels that they open. -/
structure OrderBook.RoomForBoth (book : OrderBook maxOrders maxLevels) (u u' : BookUpdate) : Prop where
  orders : book.orderPool.activeCount + 2 ≤ maxOrders.size
  map : 4 * (book.orderMap.size + 2) < 3 * book.orderMap.capacity
  levels : (book.side (sideOf u.side)).findByPrice book.levelPool u.price ≠ pure kInvalidPoolIndex ∨
    (book.side (sideOf u'.side)).findByPrice book.levelPool u'.price ≠ pure kInvalidPoolIndex ∨
    book.levelPool.activeCount + 2 ≤ maxLevels.size

theorem mem_queueAt_abs {o : UInt64 × ℕ} :
    o ∈ queueAt p (g.abs s) ↔ ∃ l ∈ g s, l.price = p ∧ ∃ e ∈ l.orders, e.abs = o := by
  rw [mem_queueAt]
  constructor
  · rintro ⟨x, hx, hp, ho⟩
    rw [Shape.abs, Side.mem_bestFirst] at hx
    obtain ⟨l, hl, rfl⟩ := List.mem_map.1 hx
    exact ⟨l, hl, hp, List.mem_map.1 ho⟩
  · rintro ⟨l, hl, hp, ho⟩
    refine ⟨l.abs, ?_, hp, List.mem_map.2 ho⟩
    rw [Shape.abs, Side.mem_bestFirst]
    exact List.mem_map.2 ⟨l, hl, rfl⟩

/-- The orders of a shape are those of its queues. -/
theorem exists_order_iff {P : UInt64 × ℕ → Prop} :
    (∃ e ∈ ordersOf g.levels, P e.abs) ↔ ∃ s p, ∃ o ∈ queueAt p (g.abs s), P o := by
  constructor
  · rintro ⟨e, he, hP⟩
    obtain ⟨s, L, l, R, A, B, hg, hl⟩ := focus_of_mem he
    exact ⟨s, l.price, e.abs, mem_queueAt_abs.2 ⟨l, by rw [hg]; simp, rfl, e, by rw [hl]; simp, rfl⟩, hP⟩
  · rintro ⟨s, p, o, ho, hP⟩
    obtain ⟨l, hl, -, e, he, rfl⟩ := mem_queueAt_abs.1 ho
    obtain ⟨L, R, hg⟩ := List.append_of_mem hl
    obtain ⟨A, B, hAB⟩ := List.append_of_mem he
    exact ⟨e, mem_of_focus hg hAB, hP⟩

theorem Rep.live_iff_queue (h : Rep book g) {id : UInt64} :
    book.Live id ↔ ∃ s p, ∃ o ∈ queueAt p (g.abs s), o.1 = id :=
  h.live_iff.trans (exists_order_iff (P := fun o => o.1 = id))

theorem Rep.reduceOk_iff_queue (h : Rep book g) :
    book.ReduceOk u ↔ ∃ s p, ∃ o ∈ queueAt p (g.abs s), o.1 = u.orderId ∧ u.qty.toNat ≤ o.2 := by
  rw [← exists_order_iff]
  constructor
  · rintro ⟨hlive, hqty⟩
    obtain ⟨e, he, hid⟩ := h.live_iff.1 hlive
    exact ⟨e, he, hid, UInt32.le_iff_toNat_le.1 (hqty e.qty (hid ▸ h.remainingOf he))⟩
  · rintro ⟨e, he, hid, hle⟩
    refine ⟨h.live_iff.2 ⟨e, he, hid⟩, fun r hr => ?_⟩
    have hid' : e.id = u.orderId := hid
    rw [← hid', h.remainingOf he] at hr
    rw [← Exec.pure_inj hr]
    exact UInt32.le_iff_toNat_le.2 hle

/-- A price has a level where it has a queue. -/
theorem Inv.listed_iff (h : Inv book g) : (∃ l ∈ g s, l.price = p) ↔ queueAt p (g.abs s) ≠ [] := by
  rw [queueAt_ne_nil_iff (h.abs_ok s).nonempty]
  constructor
  · rintro ⟨l, hl, hp⟩
    refine ⟨l.abs, ?_, hp⟩
    rw [Shape.abs, Side.mem_bestFirst]
    exact List.mem_map.2 ⟨l, hl, rfl⟩
  · rintro ⟨x, hx, hp⟩
    rw [Shape.abs, Side.mem_bestFirst] at hx
    obtain ⟨l, hl, rfl⟩ := List.mem_map.1 hx
    exact ⟨l, hl, hp⟩

theorem Inv.queueAt_after (h : Inv book g) (heffect : g'.abs = op.effect g.abs) (s : Side) (p : UInt32) :
    queueAt p (g'.abs s) = op.onQueue s p (queueAt p (g.abs s)) := by
  rw [heffect, h.queueAt_effect]

/-- No order is new but that of an `add`. -/
theorem Inv.ids_after (h : Inv book g) (heffect : g'.abs = op.effect g.abs) (hone : op.OneOrder) {e' : Entry}
    (he' : e' ∈ ordersOf g'.levels) : e'.id ∈ op.newIds ∨ ∃ e ∈ ordersOf g.levels, e.id = e'.id := by
  obtain ⟨s, p, o, ho, hid⟩ := (exists_order_iff (P := fun o => o.1 = e'.id)).1 ⟨e', he', rfl⟩
  rw [h.queueAt_after heffect] at ho
  rw [← hid]
  rcases BookOp.onQueue_ids hone ho with ⟨hnew, -⟩ | ⟨o', ho', e⟩
  · exact Or.inl hnew
  · exact Or.inr ((exists_order_iff (P := fun x => x.1 = o.1)).2 ⟨s, p, o', ho', e⟩)

/-- No level is new but that of an `add`. -/
theorem Inv.listed_after (h : Inv book g) (h' : Inv book' g') (heffect : g'.abs = op.effect g.abs) (hone : op.OneOrder)
    (hlisted : ∃ l ∈ g' s, l.price = p) : (s, p) ∈ op.newPlaces ∨ ∃ l ∈ g s, l.price = p := by
  rw [h'.listed_iff, h.queueAt_after heffect] at hlisted
  obtain ⟨o, ho⟩ := List.exists_mem_of_ne_nil _ hlisted
  rw [h.listed_iff]
  rcases BookOp.onQueue_ids hone ho with ⟨-, hplace⟩ | ⟨o', ho', -⟩
  · exact Or.inl hplace
  · exact Or.inr (List.ne_nil_of_mem ho')

/-- The places of the levels of a shape. -/
def Shape.places (g : Shape) : List (Side × UInt32) :=
  (g .bid).map (fun l => (.bid, l.price)) ++ (g .ask).map fun l => (.ask, l.price)

theorem Shape.mem_places : (s, p) ∈ g.places ↔ ∃ l ∈ g s, l.price = p := by
  unfold Shape.places
  rw [List.mem_append, List.mem_map, List.mem_map]
  cases s <;> simp

theorem Shape.length_places (g : Shape) : g.places.length = g.levels.length := by
  simp [Shape.places, Shape.levels]

theorem Rep.places_nodup (h : Rep book g) : g.places.Nodup := by
  have hside : ∀ s, ((g s).map fun l => (s, l.price)).Nodup := by
    intro s
    refine List.pairwise_map.2 ((h.sorted s).imp fun {a b} hlt e => ?_)
    rw [(Prod.mk.inj e).2] at hlt
    exact UInt32.lt_irrefl _ hlt
  unfold Shape.places
  rw [List.nodup_append]
  refine ⟨hside .bid, hside .ask, fun x hx y hy e => ?_⟩
  obtain ⟨l, -, rfl⟩ := List.mem_map.1 hx
  obtain ⟨l', -, rfl⟩ := List.mem_map.1 hy
  cases e

/-- The number of orders after an operation. -/
theorem Inv.orders_after (h : Inv book g) (h' : Inv book' g') (heffect : g'.abs = op.effect g.abs) (hone : op.OneOrder) :
    (ordersOf g'.levels).length ≤ op.newIds.length + (ordersOf g.levels).length := by
  have hsub : (ordersOf g'.levels).map Entry.id ⊆ op.newIds ++ (ordersOf g.levels).map Entry.id := by
    intro id hid
    obtain ⟨e', he', rfl⟩ := List.mem_map.1 hid
    rw [List.mem_append, List.mem_map]
    exact h.ids_after heffect hone he'
  have hle := (h'.rep.orders.ids.subperm hsub).length_le
  rwa [List.length_append, List.length_map, List.length_map] at hle

/-- The number of levels after an operation that opens levels at `new` at most. -/
theorem Inv.levels_after (h : Inv book g) (h' : Inv book' g') (heffect : g'.abs = op.effect g.abs) (hone : op.OneOrder)
    (new : List (Side × UInt32)) (hnew : ∀ s p, (s, p) ∈ op.newPlaces → (s, p) ∈ new ∨ ∃ l ∈ g s, l.price = p) :
    g'.levels.length ≤ new.length + g.levels.length := by
  have hsub : g'.places ⊆ new ++ g.places := by
    rintro ⟨s, p⟩ hplace
    rw [List.mem_append, Shape.mem_places]
    rcases h.listed_after h' heffect hone (Shape.mem_places.1 hplace) with hp | hp
    · exact hnew s p hp
    · exact Or.inr hp
  have hle := (h'.rep.places_nodup.subperm hsub).length_le
  rwa [List.length_append, Shape.length_places, Shape.length_places] at hle

/-- **Two independent operations.** They name different orders and touch different levels, and two `add`s both fit. -/
structure BookOp.Independent (book : OrderBook maxOrders maxLevels) (op op' : BookOp) : Prop where
  one : op.OneOrder
  one' : op'.OneOrder
  ids : op.orderId ≠ op'.orderId
  apart : ∀ s p, ¬ (op.Touches s p (queueAt p (book.abs s)) ∧ op'.Touches s p (queueAt p (book.abs s)))
  room : ∀ u u', op = .add u → op' = .add u' → book.RoomForBoth u u'

theorem OrderBook.RoomForBoth.symm {u' : BookUpdate} (h : book.RoomForBoth u u') : book.RoomForBoth u' u :=
  ⟨h.orders, h.map, h.levels.elim (fun hl => Or.inr (Or.inl hl)) fun hl => hl.elim Or.inl fun hl => Or.inr (Or.inr hl)⟩

theorem BookOp.Independent.symm (h : op.Independent book op') : op'.Independent book op where
  one := h.one'
  one' := h.one
  ids := h.ids.symm
  apart s p ht := h.apart s p ht.symm
  room _ _ hu hu' := (h.room _ _ hu' hu).symm

/-- A queue that the second operation touches is as it was before the first. -/
theorem Inv.queueAt_kept (h : Inv book g) (heffect : g'.abs = op.effect g.abs) (hind : op.Independent book op')
    (ht : op'.Touches s p (queueAt p (g.abs s))) : queueAt p (g'.abs s) = queueAt p (g.abs s) := by
  rw [h.queueAt_after heffect]
  refine BookOp.onQueue_of_not_touches fun ht' => hind.apart s p ?_
  rw [h.rep.abs_eq]
  exact ⟨ht', ht⟩

/-- An `add` that fits still fits after an independent operation. -/
theorem Inv.addFits_after (h : Inv book g) (h' : Inv book' g') (heffect : g'.abs = op.effect g.abs)
    (hind : op.Independent book (.add u)) (hu : AddFits book g u) : AddFits book' g' u := by
  have horders := h.orders_after h' heffect hind.one
  have hmap : book'.orderMap.size = (ordersOf g'.levels).length := h'.rep.orders.mapSize
  have hmap0 : book.orderMap.size = (ordersOf g.levels).length := h.rep.orders.mapSize
  have hcapacity : book'.orderMap.capacity = book.orderMap.capacity :=
    h'.rep.orders.capacity.trans h.rep.orders.capacity.symm
  have hroom := hu.room
  have hslot := hu.slot
  refine ⟨hu.id, fun k hk e => ?_, hu.qty, hu.price, hu.window, ?_, ?_, ?_⟩
  · rcases h.ids_after heffect hind.one hk with hnew | ⟨k', hk', e'⟩
    · exact hind.ids ((BookOp.eq_of_mem_newIds hnew).symm.trans e)
    · exact hu.fresh k' hk' (e'.trans e)
  · cases op with
    | add u' =>
      have := (hind.room _ _ rfl rfl).orders
      rw [h.rep.orders.activeCount] at this
      have hone : (BookOp.newIds (.add u')).length = 1 := rfl
      omega
    | cancel u' | execute u' | delete u' | modify u' | replace u' =>
      exact Nat.lt_of_le_of_lt (horders.trans (by simp [BookOp.newIds])) hslot
  · rw [hmap, hcapacity]
    rw [hmap0] at hroom
    cases op with
    | add u' =>
      have := (hind.room _ _ rfl rfl).map
      rw [hmap0] at this
      have hone : (BookOp.newIds (.add u')).length = 1 := rfl
      omega
    | cancel u' | execute u' | delete u' | modify u' | replace u' =>
      have hle : (ordersOf g'.levels).length ≤ (ordersOf g.levels).length := horders.trans (by simp [BookOp.newIds])
      omega
  · rcases hu.level with hlisted | hlevels
    · -- the level is still there
      refine Or.inl (h'.listed_iff.2 ?_)
      rw [h.queueAt_kept heffect hind (show BookOp.Touches _ _ _ (.add u) from ⟨rfl, rfl⟩)]
      exact h.listed_iff.1 hlisted
    · cases op with
      | add u' =>
        rcases (hind.room _ _ rfl rfl).levels with hlisted | hlisted | hboth
        · have hle := h.levels_after h' heffect hind.one [] fun s p hplace => by
            obtain ⟨rfl, rfl⟩ := Prod.mk.inj (List.mem_singleton.1 hplace)
            exact Or.inr (h.rep.find_iff.1 hlisted)
          exact Or.inr (Nat.lt_of_le_of_lt (hle.trans (by simp)) hlevels)
        · refine Or.inl (h'.listed_iff.2 ?_)
          rw [h.queueAt_kept heffect hind (show BookOp.Touches _ _ _ (.add u) from ⟨rfl, rfl⟩)]
          exact h.listed_iff.1 (h.rep.find_iff.1 hlisted)
        · rw [h.rep.levels.activeCount] at hboth
          have hle := h.levels_after h' heffect hind.one [(sideOf u'.side, u'.price)] fun s p hplace => Or.inl hplace
          exact Or.inr (Nat.lt_of_le_of_lt hle (by simp; omega))
      | cancel u' | execute u' | delete u' | modify u' | replace u' =>
        have hle := h.levels_after h' heffect hind.one [] fun s p hplace => absurd hplace (by simp [BookOp.newPlaces])
        exact Or.inr (Nat.lt_of_le_of_lt (hle.trans (by simp)) hlevels)

/-- **Each stays admissible after the other.** -/
theorem Inv.admissible_after (h : Inv book g) (h' : Inv book' g') (heffect : g'.abs = op.effect g.abs)
    (hind : op.Independent book op') (hop' : op'.Admissible book) : op'.Admissible book' := by
  cases op' with
  | add u => exact h'.rep.addOk_iff.2 (h.addFits_after h' heffect hind (h.rep.addOk_iff.1 hop'))
  | cancel u | execute u =>
    obtain ⟨s, p, o, ho, hid, hqty⟩ := h.rep.reduceOk_iff_queue.1 hop'
    refine h'.rep.reduceOk_iff_queue.2 ⟨s, p, o, ?_, hid, hqty⟩
    rw [h.queueAt_kept heffect hind ⟨o, ho, hid⟩]
    exact ho
  | delete u | modify u =>
    obtain ⟨s, p, o, ho, hid⟩ := h.rep.live_iff_queue.1 hop'
    refine h'.rep.live_iff_queue.2 ⟨s, p, o, ?_, hid⟩
    rw [h.queueAt_kept heffect hind ⟨o, ho, hid⟩]
    exact ho
  | replace u => exact hind.one'.elim

/-! ## What a book says is a function of its queues -/

/-- The content of a level, from its price and queue. -/
def LevelContent.ofQueue (x : UInt32 × Queue UInt64) : LevelContent where
  price := x.1
  totalQty := (x.2.map fun o => UInt32.ofNat o.2).sum
  orders := x.2.map fun o => (o.1, UInt32.ofNat o.2)

theorem Inv.levelContent_eq (h : Inv book g) {l : Level} (hl : l ∈ g s) :
    book.levelContent l.slot = LevelContent.ofQueue l.abs := by
  have hat := (h.rep.sides s).levels l hl
  have hqty : ∀ e : Entry, UInt32.ofNat e.abs.2 = e.qty := fun e => UInt32.ofNat_toNat
  unfold OrderBook.levelContent LevelContent.ofQueue
  rw [h.rep.queueSlots hl, hat.price, hat.total, (h.wf s l hl).total]
  simp only [Level.abs, List.map_map, Function.comp_def, hqty, LevelContent.mk.injEq, true_and]
  refine List.map_congr_left fun e he => ?_
  obtain ⟨ho, -⟩ := hat.orders e he
  rw [ho.id, ho.qty]
  rfl

/-- **The content of a book** is a function of its queues. -/
theorem Inv.content_eq (h : Inv book g) (s : Side) :
    book.content s = s.bestFirst ((g.abs s).map LevelContent.ofQueue) := by
  have hbest : s.bestFirst ((g.abs s).map LevelContent.ofQueue) = (g s).map fun l => LevelContent.ofQueue l.abs := by
    unfold Shape.abs
    cases s <;> simp [Side.bestFirst, Function.comp_def]
  rw [hbest]
  unfold OrderBook.content
  rw [h.rep.levelSlots, List.map_map]
  exact List.map_congr_left fun l hl => h.levelContent_eq hl

/-- What `best_bid` and `best_ask` say of a side. -/
def quoteOf : List LevelContent → BestQuote
  | [] => {}
  | c :: _ => { price := c.price, qty := c.totalQty, orderCount := UInt32.ofNat c.orders.length, valid := true }

theorem Inv.bestQuote_eq (h : Inv book g) (s : Side) :
    (book.side s).bestQuote book.levelPool = pure (quoteOf ((g.abs s).map LevelContent.ofQueue)) := by
  unfold BookSide.bestQuote
  cases habs : g.abs s with
  | nil =>
    have hnone := bbo_empty h.rep (abs_nil habs)
    rw [if_pos (by simpa [BookSide.hasBbo] using hnone)]
    rfl
  | cons x ls =>
    obtain ⟨L, l, R, hg, hfront, hl, -⟩ := abs_cons habs
    have hv := h.rep.level_valid hg
    have hlg : l ∈ g s := by
      rw [hg]
      simp
    have hat := (h.rep.sides s).levels l hlg
    rw [bbo_best h.rep hg hfront, if_neg hv.ne_invalid, get_eq _ hv, pure_bind, List.map_cons, ← hl, ← h.levelContent_eq hlg]
    simp only [quoteOf, OrderBook.levelContent, hat.count, h.rep.queueSlots hlg, List.length_map]

theorem Inv.bestBid_eq (h : Inv book g) :
    book.bids.bestBid book.levelPool = pure (quoteOf ((g.abs .bid).map LevelContent.ofQueue)) := by
  have hside : book.bids.side = 0 := (h.rep.sides .bid).byte
  unfold BookSide.bestBid
  simp only [hside, decide_true, tradecoreAssert_true, pure_bind]
  exact h.bestQuote_eq .bid

theorem Inv.bestAsk_eq (h : Inv book g) :
    book.asks.bestAsk book.levelPool = pure (quoteOf ((g.abs .ask).map LevelContent.ofQueue)) := by
  have hside : book.asks.side = 1 := (h.rep.sides .ask).byte
  unfold BookSide.bestAsk
  simp only [hside, decide_true, tradecoreAssert_true, pure_bind]
  exact h.bestQuote_eq .ask

/-- Two books that no reader can tell apart: queues, content, best prices and digest. -/
structure OrderBook.LooksLike (book book' : OrderBook maxOrders maxLevels) : Prop where
  abs : book.abs = book'.abs
  content : book.content = book'.content
  bestBid : ∃ quote, book.bids.bestBid book.levelPool = pure quote ∧ book'.bids.bestBid book'.levelPool = pure quote
  bestAsk : ∃ quote, book.asks.bestAsk book.levelPool = pure quote ∧ book'.asks.bestAsk book'.levelPool = pure quote
  digest : ∃ digest, BookDigest.compute book = pure digest ∧ BookDigest.compute book' = pure digest

/-- Books with the same queues look alike. -/
theorem Inv.looksLike (h : Inv book g) (h' : Inv book' g') (habs : g.abs = g'.abs) : book.LooksLike book' := by
  have hcontent : book.content = book'.content := by
    funext s
    rw [h.content_eq, h'.content_eq, habs]
  refine ⟨by rw [h.rep.abs_eq, h'.rep.abs_eq, habs], hcontent, ⟨_, h.bestBid_eq, ?_⟩, ⟨_, h.bestAsk_eq, ?_⟩,
    ⟨_, BookDigest.hashBook_eq _ h.rep _, ?_⟩⟩
  · rw [habs]
    exact h'.bestBid_eq
  · rw [habs]
    exact h'.bestAsk_eq
  · rw [hcontent]
    exact BookDigest.hashBook_eq _ h'.rep _

/-! ## Either order -/

/-- **Independent updates commute.** Each is admissible after the other, both orders return, and the two books look
alike. -/
theorem independent_updates_commute (h : BookReachable book) (op op' : BookOp) (hop : op.Admissible book)
    (hop' : op'.Admissible book) (hind : op.Independent book op') :
    ∃ book₁ book₂ book₁₂ book₂₁, op.run book = pure book₁ ∧ op'.Admissible book₁ ∧ op'.run book₁ = pure book₁₂ ∧
      op'.run book = pure book₂ ∧ op.Admissible book₂ ∧ op.run book₂ = pure book₂₁ ∧ book₁₂.LooksLike book₂₁ := by
  obtain ⟨g, hg⟩ := h.inv
  obtain ⟨book₁, g₁, e₁, h₁, ha₁⟩ := hg.run hop
  obtain ⟨book₂, g₂, e₂, h₂, ha₂⟩ := hg.run hop'
  have hadm₁ := hg.admissible_after h₁ ha₁ hind hop'
  have hadm₂ := hg.admissible_after h₂ ha₂ hind.symm hop
  obtain ⟨book₁₂, g₁₂, e₁₂, h₁₂, ha₁₂⟩ := h₁.run hadm₁
  obtain ⟨book₂₁, g₂₁, e₂₁, h₂₁, ha₂₁⟩ := h₂.run hadm₂
  refine ⟨book₁, book₂, book₁₂, book₂₁, e₁, hadm₁, e₁₂, e₂, hadm₂, e₂₁, h₁₂.looksLike h₂₁ ?_⟩
  funext s
  refine (h₁₂.abs_ok s).eq_of_queueAt (h₂₁.abs_ok s) (fun _ _ _ => s.better_trans) s.better_irrefl fun p => ?_
  rw [h₁.queueAt_after ha₁₂, hg.queueAt_after ha₁, h₂.queueAt_after ha₂₁, hg.queueAt_after ha₂]
  refine BookOp.onQueue_comm hind.one hind.one' hind.ids ?_
  rw [← hg.rep.abs_eq]
  exact hind.apart s p

/-- A bid and an ask, in either order. -/
theorem independent_updates_commute_first : ∃ book₁ book₂ book₁₂ book₂₁ : OrderBook four four,
    (OrderBook.new (fun _ => Order.zero) (fun _ => PriceLevel.zero)).addOrder firstOrder = pure book₁ ∧
      book₁.addOrder otherOrder = pure book₁₂ ∧
      (OrderBook.new (fun _ => Order.zero) (fun _ => PriceLevel.zero)).addOrder otherOrder = pure book₂ ∧
      book₂.addOrder firstOrder = pure book₂₁ ∧ book₁₂.LooksLike book₂₁ := by
  have hother : (BookOp.add otherOrder).Admissible
      (OrderBook.new (fun _ => Order.zero) (fun _ => PriceLevel.zero) : OrderBook four four) :=
    new_addOk (by decide) (by decide) (by decide) (by decide) (by decide)
  have hind : (BookOp.add firstOrder).Independent
      (OrderBook.new (fun _ => Order.zero) (fun _ => PriceLevel.zero) : OrderBook four four) (.add otherOrder) := by
    refine ⟨trivial, trivial, by decide, ?_, ?_⟩
    · rintro s p ⟨⟨hside, -⟩, hside', -⟩
      rw [← hside] at hside'
      exact absurd hside' (by decide)
    · intro u u' hu hu'
      cases hu
      cases hu'
      exact ⟨by decide, by decide, Or.inr (Or.inr (by decide))⟩
  obtain ⟨book₁, book₂, book₁₂, book₂₁, e₁, -, e₁₂, e₂, -, e₂₁, hlooks⟩ := independent_updates_commute
    (.new (fun _ => Order.zero) fun _ => PriceLevel.zero) (.add firstOrder) (.add otherOrder) firstOrder_admissible hother hind
  exact ⟨book₁, book₂, book₁₂, book₂₁, e₁, e₁₂, e₂, e₂₁, hlooks⟩

end TradeCore
