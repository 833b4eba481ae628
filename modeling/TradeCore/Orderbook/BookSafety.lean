import TradeCore.Orderbook.BookTotals
import TradeCore.Parser.BookUpdateValidator
/-!
# What `dispatch` does to updates that only the validator has seen

`BookUpdateValidator::validate` looks at the message, `dispatch` at the book; neither checks that the two fit.
`dispatch_safe_iff` says exactly when that is harmless: when the message is ignored, or when it satisfies the
assertions of the operation it selects and the total of the order's level, a `uint32_t`, covers what is taken off it.
Where an assertion fails a debug build aborts, and a release build faults or is left with a book that is neither the
old one nor the one the message asked for; where the total does not cover it, it underflows.

The call of `verify()` after a mutation is compiled out here as everywhere (`Exec.lean`): a debug build that has it
aborts after most messages already for another reason (`verifier_accepts_iff`). The load test of the id map is the exact
fraction (`FlatHashMap.lean`).
-/

namespace TradeCore

open ObjectPool PriceTime

variable {maxOrders maxLevels : PoolCapacity} {book book' : OrderBook maxOrders maxLevels} {g : Shape} {s : Side}
  {L R : List Level} {l : Level} {A B : List Entry} {e : Entry} {u : BookUpdate} {b : Build}

/-- The operation that `dispatch` selects; none for an ignored type. -/
def BookOp.ofUpdate (u : BookUpdate) : Option BookOp :=
  if u.type = UpdateType.addOrder.toByte then some (.add u)
  else if u.type = UpdateType.cancelOrder.toByte then some (.cancel u)
  else if u.type = UpdateType.executeOrder.toByte then some (.execute u)
  else if u.type = UpdateType.deleteOrder.toByte then some (.delete u)
  else if u.type = UpdateType.modifyOrder.toByte then some (.modify u)
  else none

theorem dispatch_eq (book : OrderBook maxOrders maxLevels) (u : BookUpdate) :
    book.dispatch u = match BookOp.ofUpdate u with
      | some op => op.run book
      | none => pure book := by
  unfold OrderBook.dispatch OrderBook.dispatchTable BookOp.ofUpdate
  split_ifs <;> rfl

/-- The message is ignored, or fits the book. -/
def Accepted (book : OrderBook maxOrders maxLevels) (u : BookUpdate) : Prop :=
  ∀ op, BookOp.ofUpdate u = some op → op.Admissible book

/-- What an operation takes off `remaining_qty` of an order that has `r` left, and off `total_qty` of its level:
`cancel_order` what it is told, `delete_order` all of it, `modify_order` the difference to a smaller quantity and, in its
delete leg, all of it for a larger one. -/
def BookOp.taken (r : ℕ) : BookOp → ℕ
  | add _ => 0
  | cancel u | execute u => u.qty.toNat
  | delete _ | replace _ => r
  | modify u => if u.qty.toNat < r then r - u.qty.toNat else if r < u.qty.toNat then r else 0

/-- The order that the map has under the operation's id, and the level that `find_by_price` finds for it, hold at least
what is taken off them. -/
def OrderBook.NoUnderflow (book : OrderBook maxOrders maxLevels) (op : BookOp) : Prop :=
  ∀ i j, book.orderMap.find op.orderId = pure i → i ≠ FlatHashMap.kEmpty →
    (book.side (sideOf (book.orderPool.slots i).side)).findByPrice book.levelPool (book.orderPool.slots i).price = pure j →
      op.taken (book.orderPool.slots i).remainingQty.toNat ≤ (book.orderPool.slots i).remainingQty.toNat ∧
        op.taken (book.orderPool.slots i).remainingQty.toNat ≤ (book.levelPool.slots j).totalQty.toNat

/-- What rests at the order's price, modulo 2^32, is at least what is taken off the order. -/
def BookOp.Covered (a : AbstractBook) (op : BookOp) : Prop :=
  ∀ s price r, a.lookup op.orderId = some (s, price, r) → op.taken r ≤ restingAt price (a s) % UInt32.size

/-- `dispatch` returns without an underflow, the book it leaves is in order, and the message was applied or had no
effect. -/
structure Safe (book : OrderBook maxOrders maxLevels) (u : BookUpdate) (b : Build) : Prop where
  noUnderflow : ∀ op, BookOp.ofUpdate u = some op → book.NoUnderflow op
  handled : ∃ book', book.dispatch u b = .ok book' ∧ book'.Consistent ∧
    (book' = book ∨ ∃ op, BookOp.ofUpdate u = some op ∧ book'.abs = op.effect book.abs)

/-! ## Underflow -/

/-- The order that is found rests in a level. -/
theorem Inv.lookup_focus (h : Inv book g) {id : UInt64} {price : UInt32} {r : ℕ} (hlook : g.abs.lookup id = some (s, price, r)) :
    ∃ L l R A e B, g s = L ++ l :: R ∧ l.orders = A ++ e :: B ∧ e.id = id ∧ l.price = price ∧ e.qty.toNat = r := by
  obtain ⟨e, he, hid⟩ : ∃ e ∈ ordersOf g.levels, e.id = id := by
    by_contra hno
    rw [abs_lookup_none fun k hk hkid => hno ⟨k, hk, hkid⟩] at hlook
    cases hlook
  obtain ⟨s', L, l, R, A, B, hg, hl⟩ := focus_of_mem he
  rw [← hid, abs_lookup h.rep hg hl] at hlook
  cases hlook
  exact ⟨L, l, R, A, e, B, hg, hl, hid, rfl, rfl⟩

/-- What the lookups of an operation find: the slot of the order and the slot of its level. -/
theorem Inv.found_eq (h : Inv book g) (hg : g s = L ++ l :: R) (hl : l.orders = A ++ e :: B) :
    book.orderMap.find e.id = pure e.slot ∧ e.slot ≠ FlatHashMap.kEmpty ∧
      (book.side (sideOf (book.orderPool.slots e.slot).side)).findByPrice book.levelPool (book.orderPool.slots e.slot).price =
        pure l.slot ∧
      (book.orderPool.slots e.slot).remainingQty = e.qty ∧
      (book.levelPool.slots l.slot).totalQty.toNat = restingAt l.price (g.abs s) % UInt32.size := by
  have he := mem_of_focus hg hl
  have hlg : l ∈ g s := by
    rw [hg]
    simp
  obtain ⟨hat, hside⟩ := (h.rep.level_at hg).orders e (by rw [hl]; simp)
  refine ⟨h.rep.orders.find he, (h.rep.orders.valid he).ne_invalid, ?_, hat.qty, ?_⟩
  · rw [hat.side, hside, hat.price]
    exact h.rep.find_level hg
  · rw [(h.rep.level_at hg).total, h.total_toNat hlg]

/-- An admissible operation takes no more off an order than it has. -/
theorem Inv.taken_le (h : Inv book g) {op : BookOp} (hop : op.Admissible book) (he : e ∈ ordersOf g.levels)
    (hid : op.orderId = e.id) : op.taken e.qty.toNat ≤ e.qty.toNat := by
  have hreduce : ∀ v : BookUpdate, book.ReduceOk v → v.orderId = e.id → v.qty.toNat ≤ e.qty.toNat := by
    intro v hv hvid
    refine UInt32.le_iff_toNat_le.1 (hv.qty e.qty ?_)
    rw [hvid]
    exact h.rep.remainingOf he
  cases op with
  | add v => exact Nat.zero_le _
  | cancel v | execute v => exact hreduce v hop hid
  | delete v | replace v => exact le_rfl
  | modify v =>
    change (if v.qty.toNat < e.qty.toNat then e.qty.toNat - v.qty.toNat
      else if e.qty.toNat < v.qty.toNat then e.qty.toNat else 0) ≤ e.qty.toNat
    split_ifs <;> omega

/-- **An admissible operation underflows nothing** exactly when what rests at the order's price covers what it takes. -/
theorem Inv.noUnderflow_iff (h : Inv book g) {op : BookOp} (hop : op.Admissible book) :
    book.NoUnderflow op ↔ op.Covered g.abs := by
  constructor
  · intro hno s price r hlook
    obtain ⟨L, l, R, A, e, B, hg, hl, hid, rfl, rfl⟩ := h.lookup_focus hlook
    obtain ⟨hfind, hne, hlevel, hqty, htotal⟩ := h.found_eq hg hl
    rw [hid] at hfind
    have htaken := (hno _ _ hfind hne hlevel).2
    rwa [hqty, htotal] at htaken
  · intro hcov i j hfind hne hlevel
    by_cases hlive : ∃ e ∈ ordersOf g.levels, e.id = op.orderId
    · obtain ⟨e, he, hid⟩ := hlive
      obtain ⟨s, L, l, R, A, B, hg, hl⟩ := focus_of_mem he
      obtain ⟨hfind', -, hlevel', hqty, htotal⟩ := h.found_eq hg hl
      rw [hid, hfind] at hfind'
      obtain rfl := Exec.pure_inj hfind'
      rw [hlevel] at hlevel'
      obtain rfl := Exec.pure_inj hlevel'
      have hlook := abs_lookup h.rep hg hl
      rw [hid] at hlook
      rw [hqty, htotal]
      exact ⟨h.taken_le hop he hid.symm, hcov s l.price e.qty.toNat hlook⟩
    · -- an add, which takes nothing
      have hzero : ∀ r, op.taken r = 0 := by
        cases op with
        | add v => exact fun r => rfl
        | cancel v | execute v => exact absurd (h.rep.live_iff.1 hop.live) hlive
        | delete v | modify v => exact absurd (h.rep.live_iff.1 hop) hlive
        | replace v => exact absurd (h.rep.live_iff.1 hop.1) hlive
      rw [hzero]
      exact ⟨Nat.zero_le _, Nat.zero_le _⟩

/-! ## Adds that do not fit -/

/-- The orders one reads are the linked ones. -/
theorem mem_abs_orders {o : UInt64 × ℕ} (ho : o ∈ orders (book.abs s)) :
    ∃ j ∈ book.allOrders, (book.orderPool.slots j).orderId = o.1 := by
  obtain ⟨x, hx, hox⟩ := List.mem_flatMap.1 ho
  rw [OrderBook.abs, Side.mem_bestFirst] at hx
  obtain ⟨i, hi, rfl⟩ := List.mem_map.1 hx
  obtain ⟨j, hj, rfl⟩ := List.mem_map.1 hox
  refine ⟨j, List.mem_flatMap.2 ⟨i, ?_, hj⟩, rfl⟩
  cases s with
  | bid => exact List.mem_append_left _ hi
  | ask => exact List.mem_append_right _ hi

/-- **An add that returned and left everything in order was admissible.** A taken id or a full map leaves more
orders than entries of the map, the id 0 an order that cannot be registered. -/
theorem Rep.addOk_of_safe (h : Rep book g) (hq : 0 < u.qty) (hp : 0 < u.price) (hrun : book.addOrder u b = .ok book')
    (hcons : book'.Consistent) (hres : book' = book ∨ book'.abs = (BookOp.add u).effect book.abs) : book.AddOk u := by
  obtain ⟨hw, hl, hs, halloc, ⟨i, inserted, hv, hins, -⟩, -⟩ := h.add_ok hrun
  have hactive := hcons.activeOrders
  rw [halloc, h.orders.activeCount] at hactive
  have hsize := h.orders.mapSize
  obtain ⟨m, hm, -, hkeys⟩ := h.orders.keys
  have h0 : u.orderId ≠ FlatHashMap.kEmptyKey := by
    intro h0
    rcases hres with rfl | habs
    · omega
    · have hmem : (u.orderId, u.qty.toNat) ∈ PriceTime.orders (book'.abs (sideOf u.side)) := by
        rw [habs]
        change _ ∈ PriceTime.orders (AbstractBook.add _ _ _ _ _ _)
        rw [AbstractBook.add, Function.update_self]
        exact mem_orders_add _ _ _ _
      obtain ⟨j, hj, hid⟩ := mem_abs_orders hmem
      exact hcons.named j hj (hid.trans h0)
  have hroom : 4 * (book.orderMap.size + 1) < 3 * book.orderMap.capacity := by
    by_contra hroom
    rw [h.orders.capacity] at hroom
    rw [hm.insert_full h0 i (by omega), Exec.pure_apply] at hins
    have hsame := congrArg Prod.snd (Except.ok.inj hins)
    simp only at hsame
    rw [← hsame] at hactive
    omega
  have hfresh : ∀ k ∈ ordersOf g.levels, k.id ≠ u.orderId := by
    intro k hk hid
    have hmem : u.orderId ∈ m.keys := by
      rw [hkeys, List.mem_toFinset]
      exact List.mem_map.2 ⟨k, hk, hid⟩
    obtain ⟨map', e1, hm'⟩ := hm.insert_ok h0 hv.ne_invalid (by rw [← h.orders.capacity]; exact hroom)
    rw [e1, Exec.pure_apply] at hins
    have hsame := congrArg Prod.snd (Except.ok.inj hins)
    simp only at hsame
    rw [← hsame, hm'.size, FlatHashMap.keys_insert, Finset.insert_eq_of_mem hmem, ← hm.size] at hactive
    omega
  exact h.addOk_iff.2 ⟨h0, hfresh, hq, hp, hw, hs, hroom, hl⟩

/-! ## Cancels of more than remains -/

/-- A cancel that returned wrote the difference, whether there was one or not. -/
theorem Inv.cancel_over (h : Inv book g) (hg : g s = L ++ l :: R) (hl : l.orders = A ++ e :: B) (hid : u.orderId = e.id)
    (hn : e.qty < u.qty) (hrun : book.cancelOrder u b = .ok book') : ∃ g', Rep book' g' ∧
      g'.abs.lookup e.id = some (s, l.price, (e.qty - u.qty).toNat) := by
  have he := mem_of_focus hg hl
  have hv := h.rep.orders.valid he
  have hat := (h.rep.level_at hg).orders e (by rw [hl]; simp)
  obtain ⟨hrep1, -⟩ := h.rep.write_qty hg hl (e.qty - u.qty)
  obtain ⟨hrep2, -⟩ := hrep1.write_total (Shape.set_self _ _ _) (l.total - u.qty)
  rw [Shape.set_set] at hrep2
  have hq := h.rep.decrement_qty hg hl u.qty
  have ht := h.rep.decrement_total hg u.qty
  have hne : e.slot ≠ FlatHashMap.kEmpty := hv.ne_invalid
  have hz : e.qty - u.qty ≠ 0 := by
    intro h0
    rw [(sub_eq_zero_iff_eq _ _).1 h0] at hn
    exact UInt32.lt_irrefl _ hn
  unfold OrderBook.cancelOrder at hrun
  rw [hid, h.rep.orders.find he, pure_bind] at hrun
  simp only [ne_eq, hne, not_false_eq_true, decide_true, tradecoreAssert_true, pure_bind, get_eq _ hv, hat.1.side, hat.1.price,
    hat.2, h.rep.find_level hg, (h.rep.level_valid hg).ne_invalid, get_eq _ (h.rep.level_valid hg), hq, ht,
    modify_slots_self, hz, if_false] at hrun
  obtain ⟨_, -, hrun⟩ := Exec.bind_eq_ok.1 hrun
  rw [Exec.pure_apply] at hrun
  cases hrun
  exact ⟨_, hrep2, abs_lookup hrep2 (Shape.set_self _ _ _) rfl⟩

/-- **A cancel that returned and left everything in order was admissible.** A quantity above the remaining one wraps
around and stays in the book. -/
theorem Inv.reduceOk_of_safe (h : Inv book g) (hrun : book.cancelOrder u b = .ok book')
    (hres : book' = book ∨ book'.abs = (BookOp.cancel u).effect book.abs) : book.ReduceOk u := by
  have hlive := h.rep.cancel_live hrun
  obtain ⟨e, he, hid⟩ := h.rep.live_iff.1 hlive
  obtain ⟨s, L, l, R, A, B, hg, hl⟩ := focus_of_mem he
  refine ⟨hlive, fun r hr => ?_⟩
  rw [← hid, h.rep.remainingOf he] at hr
  rw [← Exec.pure_inj hr]
  by_contra hle
  have hlt : e.qty < u.qty := UInt32.not_le.1 hle
  obtain ⟨g', hrep', hlook⟩ := h.cancel_over hg hl hid.symm hlt hrun
  rcases hres with rfl | habs
  · -- the book did change
    rw [hrep'.abs_unique h.rep, abs_lookup h.rep hg hl] at hlook
    have hsame : e.qty = e.qty - u.qty := by
      have := congrArg (fun x : Option (Side × UInt32 × ℕ) => x.map fun y => y.2.2) hlook
      simpa using UInt32.toNat_inj.1 (by simpa using this)
    have h0 : u.qty = 0 := by
      have := congrArg (fun x => e.qty - x) hsame
      simpa using this.symm
    rw [h0] at hlt
    exact absurd hlt (UInt32.not_lt.2 (UInt32.le_iff_toNat_le.2 (Nat.zero_le _)))
  · -- the order should have left
    have hgone := h.abs_cut hg hl (UInt32.le_refl e.qty) (fun r => r - u.qty.toNat)
      (by rw [Nat.sub_self]; exact Nat.sub_eq_zero_of_le (Nat.le_of_lt (UInt32.lt_iff_toNat_lt.1 hlt)))
    have hperm := (delete_orders hg hl).map Entry.id
    have hnd := hperm.nodup_iff.1 h.rep.orders.ids
    rw [List.map_cons, List.nodup_cons] at hnd
    have hnone : (g.set s (L ++ keep (l.cut A e B e.qty) ++ R)).abs.lookup e.id = none :=
      abs_lookup_none fun k hk hkid => hnd.1 (List.mem_map.2 ⟨k, hk, hkid⟩)
    rw [hgone] at hnone
    rw [← hrep'.abs_eq, habs, h.rep.abs_eq] at hlook
    change (g.abs.adjust u.orderId fun r => r - u.qty.toNat).lookup e.id = _ at hlook
    rw [← hid, hnone] at hlook
    cases hlook

/-! ## Runs of `dispatch` -/

/-- Updates one after another. -/
def OrderBook.dispatchAll (book : OrderBook maxOrders maxLevels) : List BookUpdate → Exec (OrderBook maxOrders maxLevels)
  | [] => return book
  | update :: updates => do
    let book ← book.dispatch update
    book.dispatchAll updates

/-- The books that accepted messages lead to, in one build. -/
inductive DispatchReachable (b : Build) : OrderBook maxOrders maxLevels → Prop where
  | new (orders : Index → Order) (levels : Index → PriceLevel) : DispatchReachable b (OrderBook.new orders levels)
  | step {book book' : OrderBook maxOrders maxLevels} {u : BookUpdate} : DispatchReachable b book →
      BookUpdateValidator.validate u = true → Accepted book u → book.dispatch u b = .ok book' → DispatchReachable b book'

/-- An accepted message is safe. -/
theorem Inv.safe (h : Inv book g) (hu : Accepted book u) : ∃ book' g', book.dispatch u = pure book' ∧ Inv book' g' ∧
      (book' = book ∨ ∃ op, BookOp.ofUpdate u = some op ∧ book'.abs = op.effect book.abs) := by
  rw [dispatch_eq]
  unfold Accepted at hu
  cases hop : BookOp.ofUpdate u with
  | none => exact ⟨book, g, rfl, h, Or.inl rfl⟩
  | some op =>
    obtain ⟨book', g', e1, h', ha⟩ := h.run (hu op hop)
    refine ⟨book', g', e1, h', Or.inr ⟨op, rfl, ?_⟩⟩
    rw [h'.rep.abs_eq, h.rep.abs_eq, ha]

theorem DispatchReachable.inv (h : DispatchReachable b book) : ∃ g, Inv book g := by
  induction h with
  | new orders levels => exact ⟨_, inv_new orders levels⟩
  | step _ _ hu hrun ih =>
    obtain ⟨g, hg⟩ := ih
    obtain ⟨book', g', e, hinv, -⟩ := hg.safe hu
    rw [e, Exec.pure_apply] at hrun
    cases hrun
    exact ⟨g', hinv⟩

/-- A message that `dispatch` takes in the checked build is one that fits. -/
theorem Inv.accepted_of_debug (h : Inv book g) (hrun : book.dispatch u .debug = .ok book') : Accepted book u := by
  intro op hop
  rw [dispatch_eq, hop] at hrun
  exact h.admissible_of_debug hrun

/-- A run of valid messages that the checked build takes is one of either build. -/
theorem DispatchReachable.dispatchAll {updates : List BookUpdate} (h : DispatchReachable b book)
    (hv : ∀ u ∈ updates, BookUpdateValidator.validate u = true) (hrun : book.dispatchAll updates .debug = .ok book') :
    DispatchReachable b book' := by
  induction updates generalizing book with
  | nil =>
    cases hrun
    exact h
  | cons u updates ih =>
    obtain ⟨book1, hone, hrest⟩ := Exec.bind_eq_ok.1 hrun
    obtain ⟨g, hg⟩ := h.inv
    obtain ⟨hu, hus⟩ := List.forall_mem_cons.1 hv
    have hacc := hg.accepted_of_debug hone
    obtain ⟨_, _, e, -⟩ := hg.safe hacc
    rw [e, Exec.pure_apply] at hone
    cases hone
    exact ih (.step h hu hacc (by rw [e, Exec.pure_apply])) hus hrest

/-- What the validator asks of a message that adds an order. -/
theorem validate_add (hv : BookUpdateValidator.validate u = true) (ht : u.type = UpdateType.addOrder.toByte) :
    0 < u.qty ∧ 0 < u.price := by
  have hpos : ∀ x : UInt32, x ≠ 0 → 0 < x := fun x hx =>
    UInt32.lt_iff_toNat_lt.2 (Nat.pos_of_ne_zero fun e => hx (UInt32.toNat_inj.1 e))
  unfold BookUpdateValidator.validate at hv
  rw [ht] at hv
  constructor
  · refine hpos _ fun e => ?_
    rw [e] at hv
    revert hv
    split <;> simp [UpdateType.toByte]
  · refine hpos _ fun e => ?_
    rw [e] at hv
    revert hv
    simp [UpdateType.toByte]

/-- The operation of a message carries the message. -/
theorem ofUpdate_cases {op : BookOp} (h : BookOp.ofUpdate u = some op) :
    (u.type = UpdateType.addOrder.toByte ∧ op = .add u) ∨ op = .cancel u ∨ op = .execute u ∨ op = .delete u ∨ op = .modify u := by
  unfold BookOp.ofUpdate at h
  split at h
  · rename_i ht
    exact Or.inl ⟨ht, (Option.some.inj h).symm⟩
  split at h
  · exact Or.inr (Or.inl (Option.some.inj h).symm)
  split at h
  · exact Or.inr (Or.inr (Or.inl (Option.some.inj h).symm))
  split at h
  · exact Or.inr (Or.inr (Or.inr (Or.inl (Option.some.inj h).symm)))
  split at h
  · exact Or.inr (Or.inr (Or.inr (Or.inr (Option.some.inj h).symm)))
  · cases h

/-- **Which validated messages are safe**, on every book a run of accepted messages leads to and in either build, `verify()`
compiled out of the debug one: exactly the ignored ones, and those that satisfy the assertions of their operation where the
total of the order's level covers what they take. -/
theorem dispatch_safe_iff (b : Build) (book : OrderBook maxOrders maxLevels) (hbook : DispatchReachable b book)
    (u : BookUpdate) (hu : BookUpdateValidator.validate u = true) :
    Safe book u b ↔ Accepted book u ∧ ∀ op, BookOp.ofUpdate u = some op → op.Covered book.abs := by
  obtain ⟨g, h⟩ := hbook.inv
  rw [h.rep.abs_eq]
  constructor
  · rintro ⟨hno, book', hrun, hcons, hres⟩
    have hacc : Accepted book u := by
      intro op hop
      rw [dispatch_eq, hop] at hrun
      have hres' : book' = book ∨ book'.abs = op.effect book.abs := by
        rcases hres with hres | ⟨op', hop', habs⟩
        · exact Or.inl hres
        · rw [hop] at hop'
          cases hop'
          exact Or.inr habs
      rcases ofUpdate_cases hop with ⟨ht, rfl⟩ | rfl | rfl | rfl | rfl
      · obtain ⟨hq, hp⟩ := validate_add hu ht
        exact h.rep.addOk_of_safe hq hp hrun hcons hres'
      · exact h.reduceOk_of_safe hrun hres'
      · exact h.reduceOk_of_safe hrun hres'
      · exact h.rep.delete_live hrun
      · exact h.rep.modify_live hrun
    exact ⟨hacc, fun op hop => (h.noUnderflow_iff (hacc op hop)).1 (hno op hop)⟩
  · rintro ⟨hacc, hcov⟩
    obtain ⟨book', g', e, h', hres⟩ := h.safe hacc
    exact ⟨fun op hop => (h.noUnderflow_iff (hacc op hop)).2 (hcov op hop), book', by rw [e, Exec.pure_apply], h'.consistent, hres⟩

/-- The first messages of a day: two bids at one price, and an ask. -/
def morning : List BookUpdate :=
  [message .addOrder 1 0 100 5, message .addOrder 2 0 100 3, message .addOrder 3 1 103 7]

/-- After them the bid 1 may be cut, which leaves 6 at its price. -/
theorem dispatch_safe_iff_morning : ∃ book, emptyBook.dispatchAll morning .debug = .ok book ∧
    book.queues = [[(100, [(1, 5), (2, 3)])], [(103, [(3, 7)])]] ∧ ∀ b, Safe book (message .cancelOrder 1 0 100 2) b := by
  have hrun : (do return (← emptyBook.dispatchAll morning).queues) .debug =
      .ok [[(100, [(1, 5), (2, 3)])], [(103, [(3, 7)])]] := by decide +kernel
  have hcut : (do
      let book ← emptyBook.dispatchAll morning
      return (← book.dispatch (message .cancelOrder 1 0 100 2)).queues) .debug =
      .ok [[(100, [(1, 3), (2, 3)])], [(103, [(3, 7)])]] := by decide +kernel
  obtain ⟨book, hmorning, hq⟩ := Exec.bind_eq_ok.1 hrun
  rw [Exec.bind_of_ok hmorning] at hcut
  obtain ⟨book', hcancel, -⟩ := Exec.bind_eq_ok.1 hcut
  have hreach : ∀ b, DispatchReachable b book := fun b => .dispatchAll (.new _ _) (by decide) hmorning
  obtain ⟨g, hg⟩ := (hreach .debug).inv
  obtain ⟨hbids, hasks⟩ := OrderBook.abs_of_queues (Except.ok.inj hq)
  refine ⟨book, hmorning, Except.ok.inj hq, fun b => (dispatch_safe_iff b book (hreach b) _ (by decide)).2
    ⟨hg.accepted_of_debug hcancel, fun op hop => ?_⟩⟩
  obtain rfl : op = .cancel (message .cancelOrder 1 0 100 2) := (Option.some.inj hop).symm
  intro s price r hlook
  have hfound : book.abs.lookup 1 = some (.bid, 100, 5) := by
    unfold AbstractBook.lookup
    rw [hbids, hasks]
    decide
  rw [show book.abs.lookup 1 = _ from hlook] at hfound
  cases hfound
  rw [hbids]
  decide

/-- A message that cancels 1 of order 7. -/
def strayCancel : BookUpdate := { BookUpdate.zero with type := 3, qty := 1, orderId := 7 }

/-- The validator lets it through, and the empty book does not survive it. -/
theorem stray_cancel_not_safe : BookUpdateValidator.validate strayCancel = true ∧ ∀ b,
    ¬ Safe (OrderBook.new (fun _ => Order.zero) (fun _ => PriceLevel.zero) : OrderBook four four) strayCancel b := by
  refine ⟨by decide, fun b => ?_⟩
  rintro ⟨-, book', hrun, -⟩
  rw [dispatch_eq] at hrun
  obtain ⟨e, he, -⟩ := (rep_new (fun _ => Order.zero) (fun _ => PriceLevel.zero)).live_iff.1
    ((rep_new (fun _ => Order.zero) (fun _ => PriceLevel.zero)).cancel_live hrun)
  cases he

end TradeCore
