import TradeCore.Orderbook.BookRuns
/-!
# How many orders the id map holds

The constructor sizes the id map by `next_power_of_two(MaxOrders)`, and `insert` refuses an entry that would
fill three quarters of it. `exists_reachable_with` loads a book with orders 1, 2, 3, … at one price for as long
as the map takes them; `map_holds_all_orders_iff` says for which `MaxOrders` that is as long as the pool does.
-/

namespace TradeCore

open ObjectPool

variable {maxOrders maxLevels : PoolCapacity} {book : OrderBook maxOrders maxLevels} {g : Shape} {s : Side}
  {L R : List Level} {l : Level} {u : BookUpdate}

/-- The orders of a shape to which one was pushed. -/
theorem LevelFor.orders {price : UInt32} (hl : LevelFor (g s) price L l R) (e : Entry) :
    (ordersOf (g.set s (L ++ l.push e :: R)).levels).Perm (e :: ordersOf g.levels) := by
  have h1 := ordersOf_perm (Shape.levels_perm g s L [l.push e] R)
  have h2 := ordersOf_perm (Shape.levels_focus hl.split)
  rw [ordersOf_append, ordersOf_keep] at h2
  rw [ordersOf_append, ordersOf_cons, ordersOf_nil, List.append_nil, List.append_assoc, List.singleton_append] at h1
  have h4 : ((l.push e).orders ++ ordersOf (L ++ R ++ g s.flip)).Perm
      (e :: (l.orders ++ ordersOf (L ++ R ++ g s.flip))) := by
    simp only [Level.push, List.append_assoc, List.singleton_append]
    exact List.perm_middle
  have h5 : L ++ (l.push e :: R) = L ++ l.push e :: R := rfl
  rw [← h5]
  exact h1.trans (h4.trans (h2.symm.cons e))

/-- Order `k` of the load: buy 1 at price 1. -/
def loadOrder (k : ℕ) : BookUpdate := { BookUpdate.zero with price := 1, qty := 1, orderId := UInt64.ofNat k }

theorem loadOrder_id {k : ℕ} (hk : k ≤ 2 ^ 32) : (loadOrder k).orderId.toNat = k :=
  UInt64.toNat_ofNat_of_lt' (by change k < 2 ^ 64; omega)

/-- **A book with `k` orders**, as long as the map takes them. -/
theorem exists_reachable_with (maxOrders maxLevels : PoolCapacity) {k : ℕ} (hk : k ≤ maxOrders.size)
    (hload : 4 * k < 3 * FlatHashMap.nextPowerOfTwo maxOrders.size) :
    ∃ (book : OrderBook maxOrders maxLevels) (g : Shape), BookReachable book ∧ Inv book g ∧
      (ordersOf g.levels).length = k ∧ (∀ e ∈ ordersOf g.levels, e.id.toNat ≤ k) ∧ (0 < k → ∃ l ∈ g .bid, l.price = 1) := by
  induction k with
  | zero =>
    refine ⟨_, _, .new (fun _ => Order.zero) (fun _ => PriceLevel.zero), inv_new _ _, rfl, ?_, nofun⟩
    intro e he
    cases he
  | succ k ih =>
    obtain ⟨book, g, hreach, hinv, hlen, hids, hlevel⟩ := ih (by omega) (by omega)
    have hid : (loadOrder (k + 1)).orderId.toNat = k + 1 := loadOrder_id (by have := maxOrders.lt; omega)
    have hfits : AddFits book g (loadOrder (k + 1)) := by
      refine ⟨?_, ?_, (by decide : (0 : UInt32) < 1), (by decide : (0 : UInt32) < 1),
        (by decide : (1 : UInt32).toNat < 10000), by omega, ?_, ?_⟩
      · intro h0
        rw [h0] at hid
        cases hid
      · intro e he hee
        have := hids e he
        rw [hee] at this
        omega
      · rw [hinv.rep.orders.mapSize, hinv.rep.orders.capacity, hlen]
        exact hload
      · rcases Nat.eq_zero_or_pos k with rfl | hpos
        · refine Or.inr ?_
          have hnil : g.levels = [] := by
            by_contra hne
            obtain ⟨l, hl⟩ := List.exists_mem_of_ne_nil _ hne
            obtain ⟨s, hs⟩ := Shape.mem_levels.1 hl
            obtain ⟨e, he⟩ := List.exists_mem_of_ne_nil _ (hinv.wf s l hs).nonempty
            have := List.length_pos_of_mem (mem_ordersOf.2 ⟨l, hl, he⟩)
            omega
          rw [hnil]
          exact maxLevels.pos
        · exact Or.inl (hlevel hpos)
    obtain ⟨book', L, l, R, i, e1, hfor, hinv', -⟩ := hinv.add_spec hfits
    have hperm := hfor.orders ((loadOrder (k + 1)).entry i)
    have hop : (BookOp.add (loadOrder (k + 1))).Admissible book := hinv.rep.addOk_iff.2 hfits
    have hstep : BookReachable book' := .step hreach hop (congrFun e1 .debug)
    refine ⟨book', _, hstep, hinv', ?_, ?_, fun _ => ?_⟩
    · have := hperm.length_eq
      rw [List.length_cons, hlen] at this
      exact this
    · intro e he
      rcases List.mem_cons.1 (hperm.mem_iff.1 he) with rfl | he
      · exact hid.le
      · exact (hids e he).trans (Nat.le_succ k)
    · refine ⟨l.push ((loadOrder (k + 1)).entry i), ?_, hfor.here⟩
      change _ ∈ g.set .bid (L ++ l.push _ :: R) .bid
      rw [Shape.set_self]
      simp

/-- The map takes a fresh id whenever the pool has a slot for it. -/
def MapHoldsAllOrders (maxOrders maxLevels : PoolCapacity) : Prop :=
  ∀ book : OrderBook maxOrders maxLevels, BookReachable book → book.orderPool.activeCount < maxOrders.size →
    ∀ id ≠ FlatHashMap.kEmptyKey, book.orderMap.contains id = pure false → ∀ i, Valid maxOrders i →
      ∃ map', book.orderMap.insert id i = pure (true, map')

/-- **The id map is large enough exactly when `MaxOrders` stays below three quarters of its capacity.** -/
theorem map_holds_all_orders_iff (maxOrders maxLevels : PoolCapacity) :
    MapHoldsAllOrders maxOrders maxLevels ↔ 4 * maxOrders.size < 3 * FlatHashMap.nextPowerOfTwo maxOrders.size := by
  constructor
  · intro hall
    by_contra hsmall
    -- the longest load the map takes leaves a slot of the pool free
    obtain ⟨k, hk⟩ : ∃ k, k = (3 * FlatHashMap.nextPowerOfTwo maxOrders.size - 1) / 4 := ⟨_, rfl⟩
    have hpos := FlatHashMap.le_nextPowerOfTwo maxOrders.size
    have hone := maxOrders.pos
    obtain ⟨book, g, hreach, hinv, hlen, hids, -⟩ := exists_reachable_with maxOrders maxLevels (k := k)
      (by omega) (by omega)
    have hid : (loadOrder (k + 1)).orderId.toNat = k + 1 := loadOrder_id (by have := maxOrders.lt; omega)
    have h0 : (loadOrder (k + 1)).orderId ≠ FlatHashMap.kEmptyKey := by
      intro h0
      rw [h0] at hid
      cases hid
    obtain ⟨m, hm, -⟩ := hinv.rep.orders.map
    have hfresh : book.orderMap.contains (loadOrder (k + 1)).orderId = pure false := by
      rw [hinv.rep.orders.contains h0]
      refine congrArg pure (decide_eq_false ?_)
      rintro ⟨e, he, hee⟩
      have := hids e he
      rw [hee] at this
      omega
    obtain ⟨map', e⟩ := hall book hreach (by rw [hinv.rep.orders.activeCount]; omega) _ h0 hfresh 0
      (by change 0 < maxOrders.size; exact hone)
    rw [hm.insert_full h0 _ (by rw [hinv.rep.orders.mapSize]; omega)] at e
    cases congrArg Prod.fst (Exec.pure_inj e)
  · intro hlarge book hreach hslot id h0 _ i hi
    obtain ⟨g, hinv⟩ := hreach.inv
    obtain ⟨m, hm, -⟩ := hinv.rep.orders.map
    have hroom : 4 * (book.orderMap.size + 1) < 3 * FlatHashMap.nextPowerOfTwo maxOrders.size := by
      rw [hinv.rep.orders.activeCount] at hslot
      rw [hinv.rep.orders.mapSize]
      omega
    obtain ⟨map', e, -⟩ := hm.insert_ok h0 hi.ne_invalid hroom
    exact ⟨map', e⟩

theorem map_too_small_for_four : ¬ MapHoldsAllOrders four four := by
  intro hall
  obtain ⟨book, g, hreach, hinv, hlen, hids, -⟩ := exists_reachable_with four four (k := 2) (by decide)
    (by decide)
  obtain ⟨m, hm, -⟩ := hinv.rep.orders.map
  have hfresh : book.orderMap.contains 3 = pure false := by
    rw [hinv.rep.orders.contains (by decide)]
    refine congrArg pure (decide_eq_false ?_)
    rintro ⟨e, he, hee⟩
    have := hids e he
    rw [hee] at this
    cases Nat.le_of_succ_le_succ (Nat.le_of_succ_le_succ this)
  obtain ⟨map', e⟩ := hall book hreach (by rw [hinv.rep.orders.activeCount, hlen]; decide) 3 (by decide) hfresh 0 (by decide)
  rw [hm.insert_full (by decide) _ (by rw [hinv.rep.orders.mapSize, hlen]; decide)] at e
  cases congrArg Prod.fst (Exec.pure_inj e)

end TradeCore
