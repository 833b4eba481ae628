import TradeCore.Orderbook.BookSideProofs
/-!
# The calls that move a level: `create_level`, `insert_level`, `remove_and_destroy_level`

A level is created (a slot of the pool, not yet on the side), inserted, and later removed and destroyed in one
call. `LevelsOk s pool created is`: the slots `created` hold levels on their way in, the slots `is` are the levels
of the side, and nothing else of the pool is in use. Each call is one lemma that says what it leaves.
-/

namespace TradeCore

open ObjectPool BookSide

variable {cap : PoolCapacity}

/-- A level without orders, as every level of these runs is. -/
structure NoOrders (pool : PriceLevelPool cap) (i : Index) : Prop where
  orderCount : (pool.slots i).orderCount = 0
  totalQty : (pool.slots i).totalQty = 0
  head : (pool.slots i).headOrderIdx = kInvalidPoolIndex
  tail : (pool.slots i).tailOrderIdx = kInvalidPoolIndex

structure LevelsOk (s : BookSide) (pool : PriceLevelPool cap) (created : Finset Index) (is : List Index) : Prop where
  tree : s.SideTree pool is
  slots : pool.PoolOk (is.toFinset ∪ created)
  apart : ∀ i ∈ created, i ∉ is
  empty : ∀ i ∈ is.toFinset ∪ created, NoOrders pool i

theorem NoOrders.congr {pool pool' : PriceLevelPool cap} {i : Index} (h : NoOrders pool i)
    (hp : pool'.slots i = { pool.slots i with node := (pool'.slots i).node }) : NoOrders pool' i := by
  obtain ⟨h1, h2, h3, h4⟩ := h
  constructor <;> rw [hp] <;> assumption

namespace LevelsOk

variable {s : BookSide} {pool : PriceLevelPool cap} {created : Finset Index} {is : List Index} {i : Index}

theorem new (side : UInt8) (slots : Index → PriceLevel) :
    LevelsOk (BookSide.new side) (ObjectPool.new slots : PriceLevelPool cap) ∅ [] where
  tree := sideTree_new side _
  slots := by simpa using new_ok slots
  apart := by simp
  empty := by simp

theorem valid_created (h : LevelsOk s pool created is) (hi : i ∈ created) : Valid cap i :=
  h.slots.valid i (Finset.mem_union_right _ hi)

/-- **`create_level`** while a slot is free: the new level is not on the side, and no other level is touched. -/
theorem create (h : LevelsOk s pool created is) (hfree : (is.toFinset ∪ created).card < cap.size) (price : UInt32) :
    ∃ i pool', s.createLevel price pool = pure (i, pool') ∧ LevelsOk s pool' (insert i created) is ∧ Valid cap i ∧
      i ∉ is.toFinset ∪ created ∧ (pool'.slots i).price = price ∧ ∀ j, j ≠ i → pool'.slots j = pool.slots j := by
  obtain ⟨i, pool', e, hv, hu, hok, hslots⟩ := createLevel_ok (s := s) h.slots hfree price
  have hself : pool'.slots i = s.freshLevel price := by rw [hslots, Function.update_self]
  have hother : ∀ j, j ≠ i → pool'.slots j = pool.slots j := fun j hj => by rw [hslots, Function.update_of_ne hj]
  have hne : ∀ j ∈ is, j ≠ i := by
    rintro j hj rfl
    exact hu (Finset.mem_union_left _ (List.mem_toFinset.2 hj))
  refine ⟨i, pool', e, ⟨?_, ?_, ?_, ?_⟩, hv, hu, by rw [hself]; rfl, hother⟩
  · refine h.tree.frame fun j hj => ?_
    unfold PriceLevelPool.node PriceLevelPool.priceOf
    rw [hother j (hne j hj)]
    exact ⟨rfl, rfl⟩
  · rw [Finset.union_insert]
    exact hok
  · intro j hj
    rcases Finset.mem_insert.1 hj with rfl | hj
    · exact fun hm => hne j hm rfl
    · exact h.apart j hj
  · intro j hj
    rw [Finset.union_insert] at hj
    rcases Finset.mem_insert.1 hj with rfl | hju
    · constructor <;> rw [hself] <;> rfl
    · exact (h.empty j hju).congr (by rw [hother j fun e => hu (e ▸ hju)])

/-- **`insert_level`** of a created level with a new price inside the window. -/
theorem insert (h : LevelsOk s pool created is) (hi : i ∈ created) (hw : (pool.slots i).price.toNat < 10000)
    (hp : ∀ j ∈ is, (pool.slots j).price ≠ (pool.slots i).price) (stats : AVLStatistics) :
    ∃ s' pool' stats' is', s.insertLevel i pool stats = pure (s', pool', stats') ∧
      LevelsOk s' pool' (created.erase i) is' ∧ (∀ j, j ∈ is' ↔ j = i ∨ j ∈ is) ∧ s'.side = s.side ∧
      ∀ j, (pool'.slots j).price = (pool.slots j).price := by
  have hp' : ∀ j ∈ is, pool.priceOf j ≠ pool.priceOf i := fun j hj e => hp j hj (UInt32.toNat_inj.1 e)
  obtain ⟨s', pool', stats', L, R, e, hLR, -, -, htree, hF, hside⟩ :=
    h.tree.insertLevel_spec (h.valid_created hi) (h.apart i hi) hp' hw stats
  have hmem : ∀ j, j ∈ L ++ i :: R ↔ j = i ∨ j ∈ is := fun j => by rw [hLR, LinkedList.mem_middle]
  -- the slot changes hands, and the slots in use stay the same
  have hused : (L ++ i :: R).toFinset ∪ created.erase i = is.toFinset ∪ created := by
    ext j
    simp only [Finset.mem_union, List.mem_toFinset, hmem, Finset.mem_erase]
    by_cases hj : j = i
    · simp [hj, hi]
    · simp [hj]
  refine ⟨s', pool', stats', L ++ i :: R, e, ⟨htree, ?_, ?_, ?_⟩, hmem, hside, fun j => by rw [hF.payload j]⟩
  · rw [hused]
    refine h.slots.congr hF.freeHead hF.activeCount fun j hj => hF.other j fun hm => hj ?_
    rcases List.mem_cons.1 hm with rfl | hm
    · exact Finset.mem_union_right _ hi
    · exact Finset.mem_union_left _ (List.mem_toFinset.2 hm)
  · intro j hj hm
    obtain ⟨hne, hj⟩ := Finset.mem_erase.1 hj
    exact h.apart j hj (((hmem j).1 hm).resolve_left hne)
  · rw [hused]
    exact fun j hj => (h.empty j hj).congr (hF.payload j)

/-- **`remove_and_destroy_level`** of a level of the side: its slot is free again. -/
theorem removeAndDestroy (h : LevelsOk s pool created is) (hi : i ∈ is) (stats : AVLStatistics) :
    ∃ s' pool' stats' is', s.removeAndDestroyLevel i pool stats = pure (s', pool', stats') ∧
      LevelsOk s' pool' created is' ∧ (∀ j, j ∈ is' ↔ j ≠ i ∧ j ∈ is) ∧ s'.side = s.side ∧
      ∀ j, j ≠ i → (pool'.slots j).price = (pool.slots j).price := by
  obtain ⟨L, R, rfl⟩ := List.append_of_mem hi
  obtain ⟨s', pool1, stats1, e1, htree, hF, hun, hside⟩ := h.tree.removeLevel_spec stats
  have hiu : i ∈ (L ++ i :: R).toFinset ∪ created := Finset.mem_union_left _ (List.mem_toFinset.2 hi)
  have hok1 : pool1.PoolOk ((L ++ i :: R).toFinset ∪ created) :=
    h.slots.congr hF.freeHead hF.activeCount fun j hj =>
      hF.other j fun hm => hj (Finset.mem_union_left _ (List.mem_toFinset.2 hm))
  have hempty1 : ∀ j ∈ (L ++ i :: R).toFinset ∪ created, NoOrders pool1 j := fun j hj =>
    (h.empty j hj).congr (hF.payload j)
  obtain ⟨h1, h2, h3, h4⟩ := hempty1 i hiu
  obtain ⟨pool2, stats2, e2, hok2, hother⟩ := destroyLevel_ok hok1 hiu ⟨h1, h2, h3, h4, hun⟩ stats1
  have hnd := h.tree.nodup
  have hmem : ∀ j, j ∈ L ++ R ↔ j ≠ i ∧ j ∈ L ++ i :: R := by
    intro j
    rw [LinkedList.mem_middle]
    constructor
    · intro hj
      refine ⟨?_, Or.inr hj⟩
      rintro rfl
      exact (List.nodup_cons.1 (List.nodup_middle.1 hnd)).1 hj
    · rintro ⟨hne, hj⟩
      exact hj.resolve_left hne
  have hic : i ∉ created := fun hc => h.apart i hc hi
  have hused : (L ++ R).toFinset ∪ created = ((L ++ i :: R).toFinset ∪ created).erase i := by
    ext j
    simp only [Finset.mem_union, List.mem_toFinset, hmem, Finset.mem_erase]
    by_cases hj : j = i
    · simp [hj, hic]
    · simp [hj]
  refine ⟨s', pool2, stats2, L ++ R, ?_, ⟨?_, ?_, ?_, ?_⟩, hmem, hside, fun j hj => by rw [hother j hj, hF.payload j]⟩
  · simp only [removeAndDestroyLevel, e1, e2, pure_bind]
  · refine htree.frame fun j hj => ?_
    unfold PriceLevelPool.node PriceLevelPool.priceOf
    rw [hother j ((hmem j).1 hj).1]
    exact ⟨rfl, rfl⟩
  · rw [hused]
    exact hok2
  · exact fun j hj hm => h.apart j hj ((hmem j).1 hm).2
  · intro j hj
    rw [hused] at hj
    obtain ⟨hne, hj⟩ := Finset.mem_erase.1 hj
    exact (hempty1 j hj).congr (by rw [hother j hne])

end LevelsOk

end TradeCore
