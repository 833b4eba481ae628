import TradeCore.Memory.ObjectPoolProofs
import TradeCore.Orderbook.AvlProofs
import TradeCore.Orderbook.BookSide
/-!
# The level lifecycle of `BookSide`

`SideTree s pool is`: the levels of side `s` are the slots `is`, in increasing price order, and the tree,
the dense array, the cached best level and the level count all say so. `insertLevel` and `removeLevel`
add and take out one slot, and touch nothing of the pool but tree links of the slots of this side.
-/

namespace TradeCore

open Avl Avl.BinTree ObjectPool

variable {cap : PoolCapacity}

namespace BookSide

/-- The best of the slots of a side, listed by increasing price: the last for bids, the first for asks. -/
def bestOf (side : UInt8) (is : List Index) : Index :=
  (if side = 0 then is.getLast? else is.head?).getD kInvalidPoolIndex

structure SideTree (s : BookSide) (pool : PriceLevelPool cap) (is : List Index) : Prop where
  tree : ∃ t, TreeAt pool t s.avlRoot kInvalidPoolIndex ∧ t.toList = is ∧ t.Balanced
  sorted : is.Pairwise fun i j => pool.priceOf i < pool.priceOf j
  window : ∀ i ∈ is, pool.priceOf i < 10000
  direct : s.denseLevels.Direct
  ticks : ∀ n < 10000, (∃ i ∈ is, pool.priceOf i = n ∧ s.denseLevels.levelIndices n = i) ∨
    (∀ i ∈ is, pool.priceOf i ≠ n) ∧ s.denseLevels.levelIndices n = kInvalidPoolIndex
  count : s.levelCount = is.length
  bbo : s.bboIdx = bestOf s.side is

theorem sideTree_new (side : UInt8) (pool : PriceLevelPool cap) : (BookSide.new side).SideTree pool [] where
  tree := ⟨nil, rfl, rfl, trivial⟩
  sorted := List.Pairwise.nil
  window := by simp
  direct := FlatPriceArray.direct_new
  ticks n _ := Or.inr ⟨by simp, rfl⟩
  count := rfl
  bbo := by
    unfold bestOf
    split <;> rfl

namespace SideTree

variable {s : BookSide} {pool pool' : PriceLevelPool cap} {is L R : List Index} {i : Index} {stats : AVLStatistics}

theorem nodup (h : s.SideTree pool is) : is.Nodup :=
  h.sorted.imp fun hlt e => absurd (congrArg pool.priceOf e) (ne_of_lt hlt)

theorem valid (h : s.SideTree pool is) : ∀ i ∈ is, Valid cap i := by
  obtain ⟨t, ht, rfl, -⟩ := h.tree
  exact ht.valid

/-- Two levels of a side with one price are one level. -/
theorem price_inj (h : s.SideTree pool is) {i j : Index} (hi : i ∈ is) (hj : j ∈ is)
    (e : pool.priceOf i = pool.priceOf j) : i = j := by
  obtain ⟨t, -, rfl, -⟩ := h.tree
  exact Sorted.key_inj h.sorted hi hj e

/-- Writes that spare the prices and the links of the levels of the side. -/
theorem frame (h : s.SideTree pool is)
    (hf : ∀ j ∈ is, pool'.node j = pool.node j ∧ pool'.priceOf j = pool.priceOf j) : s.SideTree pool' is where
  tree := by
    obtain ⟨t, ht, rfl, hb⟩ := h.tree
    exact ⟨t, ht.congr fun j hj => (hf j hj).1, rfl, hb⟩
  sorted := by
    refine List.Pairwise.imp_of_mem (fun ha hb hlt => ?_) h.sorted
    rwa [(hf _ ha).2, (hf _ hb).2]
  window i hi := by
    rw [(hf i hi).2]
    exact h.window i hi
  direct := h.direct
  ticks n hn := by
    rcases h.ticks n hn with ⟨i, hi, e, e'⟩ | ⟨hnone, e'⟩
    · exact Or.inl ⟨i, hi, by rw [(hf i hi).2, e], e'⟩
    · refine Or.inr ⟨fun i hi => ?_, e'⟩
      rw [(hf i hi).2]
      exact hnone i hi
  count := h.count
  bbo := h.bbo

/-! ## `findByPrice` -/

/-- The tree has one entry for a price on the side. -/
theorem avl_find_mem (h : s.SideTree pool is) (hi : i ∈ is) :
    avl.find pool s.avlRoot (pool.slots i).price = pure i := by
  obtain ⟨t, ht, rfl, -⟩ := h.tree
  have hsorted : Sorted pool.priceOf t := h.sorted
  have hf : BinTree.find? pool.priceOf (pool.slots i).price.toNat t = some i := (find?_eq_some hsorted).2 ⟨hi, rfl⟩
  rw [find_spec ht hsorted.nodup, hf, Option.getD_some]

theorem avl_find_none (h : s.SideTree pool is) {price : UInt32} (hp : ∀ i ∈ is, (pool.slots i).price ≠ price) :
    avl.find pool s.avlRoot price = pure kInvalidPoolIndex := by
  obtain ⟨t, ht, rfl, -⟩ := h.tree
  have hsorted : Sorted pool.priceOf t := h.sorted
  have hf : BinTree.find? pool.priceOf price.toNat t = none := by
    rw [Option.eq_none_iff_forall_ne_some]
    intro j e
    obtain ⟨hj, e⟩ := (find?_eq_some hsorted).1 e
    exact hp j hj (UInt32.toNat_inj.1 e)
  rw [find_spec ht hsorted.nodup, hf, Option.getD_none]

/-- **`find_by_price`** of a price on the side. -/
theorem find_mem (h : s.SideTree pool is) (hi : i ∈ is) :
    s.findByPrice pool (pool.slots i).price = pure i := by
  have hw : (pool.slots i).price.toNat < 10000 := h.window i hi
  have hd : s.denseLevels.find (pool.slots i).price = i := by
    rw [h.direct.find_eq, if_pos hw]
    rcases h.ticks _ hw with ⟨j, hj, e, e'⟩ | ⟨hnone, -⟩
    · rw [e', h.price_inj hj hi e]
    · exact absurd rfl (hnone i hi)
  unfold findByPrice
  simp only [hd, (h.valid i hi).ne_invalid, ne_eq, not_false_eq_true, if_true]

/-- **`find_by_price`** of a price that is not on the side, inside the window or not. -/
theorem find_none (h : s.SideTree pool is) {price : UInt32} (hp : ∀ i ∈ is, (pool.slots i).price ≠ price) :
    s.findByPrice pool price = pure kInvalidPoolIndex := by
  have hp' : ∀ i ∈ is, pool.priceOf i ≠ price.toNat := fun i hi e => hp i hi (UInt32.toNat_inj.1 e)
  have hd : s.denseLevels.find price = kInvalidPoolIndex := by
    rw [h.direct.find_eq]
    split
    · rename_i hw
      rcases h.ticks _ hw with ⟨j, hj, e, -⟩ | ⟨-, e'⟩
      · exact absurd e (hp' j hj)
      · exact e'
    · rfl
  unfold findByPrice
  simp only [hd, ne_eq, not_true_eq_false, if_false]
  exact h.avl_find_none hp

/-! ## `insertLevel` -/

theorem priceOf_lt_of_cons (h : (L ++ i :: R).Pairwise fun a b => pool.priceOf a < pool.priceOf b) :
    (∀ j ∈ L, pool.priceOf j < pool.priceOf i) ∧ ∀ j ∈ R, pool.priceOf i < pool.priceOf j := by
  obtain ⟨-, h2, h3⟩ := List.pairwise_append.1 h
  exact ⟨fun j hj => h3 j hj i List.mem_cons_self, (List.pairwise_cons.1 h2).1⟩

/-- **`update_bbo_on_insert`** keeps the best of the longer list. -/
theorem updateBbo_spec (hbbo : s.bboIdx = bestOf s.side (L ++ R))
    (hs : (L ++ i :: R).Pairwise fun a b => pool.priceOf a < pool.priceOf b) (hv : ∀ j ∈ L ++ i :: R, Valid cap j) :
    s.updateBboOnInsert pool i = pure { s with bboIdx := bestOf s.side (L ++ i :: R) } := by
  obtain ⟨hL, hR⟩ := priceOf_lt_of_cons hs
  have hi : Valid cap i := hv i (by simp)
  unfold updateBboOnInsert
  by_cases hside : s.side = 0
  · simp only [bestOf, hside, if_true] at hbbo ⊢
    -- bids: the new level is the best when nothing is above it
    rcases List.eq_nil_or_concat R with rfl | ⟨R', k, rfl⟩
    · rcases List.eq_nil_or_concat L with rfl | ⟨L', k, rfl⟩
      · have hb : s.bboIdx = kInvalidPoolIndex := by simpa using hbbo
        simp [hb]
      · have hb : s.bboIdx = k := by simpa using hbbo
        have hk : Valid cap k := hv k (by simp)
        have hlt : (pool.slots i).price > (pool.slots k).price := UInt32.lt_iff_toNat_lt.2 (hL k (by simp))
        simp [hb, hk.ne_invalid, get_eq _ hi, get_eq _ hk, hlt]
    · have hb : s.bboIdx = k := by simpa using hbbo
      have hk : Valid cap k := hv k (by simp)
      have hlt : ¬ (pool.slots i).price > (pool.slots k).price := by
        have := hR k (by simp)
        intro e
        have e' : pool.priceOf k < pool.priceOf i := UInt32.lt_iff_toNat_lt.1 e
        omega
      have he : ((L ++ i :: R'.concat k).getLast?.getD kInvalidPoolIndex) = k := by
        rw [show L ++ i :: R'.concat k = (L ++ i :: R') ++ [k] by simp, List.getLast?_append]
        simp
      have hsame : (⟨s.avlRoot, k, s.levelCount, 0, s.denseLevels⟩ : BookSide) = s := by rw [← hb, ← hside]
      rw [he, hsame]
      simp [hb, hk.ne_invalid, get_eq _ hi, get_eq _ hk, hlt]
  · simp only [bestOf, hside, if_false] at hbbo ⊢
    -- asks: the new level is the best when nothing is below it
    match L with
    | [] =>
      match R with
      | [] =>
        have hb : s.bboIdx = kInvalidPoolIndex := by simpa using hbbo
        simp [hb]
      | k :: R' =>
        have hb : s.bboIdx = k := by simpa using hbbo
        have hk : Valid cap k := hv k (by simp)
        have hlt : (pool.slots i).price < (pool.slots k).price := UInt32.lt_iff_toNat_lt.2 (hR k (by simp))
        simp [hb, hk.ne_invalid, get_eq _ hi, get_eq _ hk, hlt]
    | k :: L' =>
      have hb : s.bboIdx = k := by simpa using hbbo
      have hk : Valid cap k := hv k (by simp)
      have hlt : ¬ (pool.slots i).price < (pool.slots k).price := by
        have := hL k (by simp)
        intro e
        have e' : pool.priceOf i < pool.priceOf k := UInt32.lt_iff_toNat_lt.1 e
        omega
      have hsame : { s with bboIdx := k } = s := by rw [← hb]
      simp [hb, hk.ne_invalid, get_eq _ hi, get_eq _ hk, hlt, hsame]

/-- Writing the tick of a new level. -/
theorem ticks_insert {f : ℕ → Index} (hi : i ∉ L ++ R)
    (ht : ∀ n < 10000, (∃ j ∈ L ++ R, pool.priceOf j = n ∧ f n = j) ∨
      (∀ j ∈ L ++ R, pool.priceOf j ≠ n) ∧ f n = kInvalidPoolIndex)
    (hp : ∀ j ∈ L ++ R, pool.priceOf j ≠ pool.priceOf i) :
    ∀ n < 10000, (∃ j ∈ L ++ i :: R, pool.priceOf j = n ∧ Function.update f (pool.priceOf i) i n = j) ∨
      (∀ j ∈ L ++ i :: R, pool.priceOf j ≠ n) ∧ Function.update f (pool.priceOf i) i n = kInvalidPoolIndex := by
  intro n hn
  by_cases e : n = pool.priceOf i
  · refine Or.inl ⟨i, LinkedList.mem_middle.2 (Or.inl rfl), e.symm, ?_⟩
    rw [e, Function.update_self]
  · rw [Function.update_of_ne e]
    rcases ht n hn with ⟨j, hj, e1, e2⟩ | ⟨hnone, e2⟩
    · exact Or.inl ⟨j, LinkedList.mem_middle.2 (Or.inr hj), e1, e2⟩
    · refine Or.inr ⟨fun j hj => ?_, e2⟩
      rcases LinkedList.mem_middle.1 hj with rfl | hj
      · exact fun h => e h.symm
      · exact hnone j hj

/-- Freeing the tick of a level. -/
theorem ticks_remove {f : ℕ → Index}
    (ht : ∀ n < 10000, (∃ j ∈ L ++ i :: R, pool.priceOf j = n ∧ f n = j) ∨
      (∀ j ∈ L ++ i :: R, pool.priceOf j ≠ n) ∧ f n = kInvalidPoolIndex)
    (hp : ∀ j ∈ L ++ R, pool.priceOf j ≠ pool.priceOf i) :
    ∀ n < 10000, (∃ j ∈ L ++ R, pool.priceOf j = n ∧ Function.update f (pool.priceOf i) kInvalidPoolIndex n = j) ∨
      (∀ j ∈ L ++ R, pool.priceOf j ≠ n) ∧
        Function.update f (pool.priceOf i) kInvalidPoolIndex n = kInvalidPoolIndex := by
  intro n hn
  by_cases e : n = pool.priceOf i
  · refine Or.inr ⟨fun j hj => e ▸ hp j hj, ?_⟩
    rw [e, Function.update_self]
  · rw [Function.update_of_ne e]
    rcases ht n hn with ⟨j, hj, e1, e2⟩ | ⟨hnone, e2⟩
    · rcases LinkedList.mem_middle.1 hj with rfl | hj
      · exact absurd e1.symm e
      · exact Or.inl ⟨j, hj, e1, e2⟩
    · exact Or.inr ⟨fun j hj => hnone j (LinkedList.mem_middle.2 (Or.inr hj)), e2⟩

/-- **`insert_level`** of a slot with a new price inside the window. -/
theorem insertLevel_spec (h : s.SideTree pool is) (hv : Valid cap i) (hi : i ∉ is)
    (hp : ∀ j ∈ is, pool.priceOf j ≠ pool.priceOf i) (hw : pool.priceOf i < 10000) (stats : AVLStatistics) :
    ∃ s' pool' stats' L R, s.insertLevel i pool stats = pure (s', pool', stats') ∧ is = L ++ R ∧
      (∀ j ∈ L, pool.priceOf j < pool.priceOf i) ∧ (∀ j ∈ R, pool.priceOf i < pool.priceOf j) ∧
      s'.SideTree pool' (L ++ i :: R) ∧ NodeFrame (i :: is) pool pool' ∧ s'.side = s.side := by
  obtain ⟨t, ht, hts, hb⟩ := h.tree
  have hsorted : Sorted pool.priceOf t := by
    unfold Sorted
    rw [hts]
    exact h.sorted
  rw [← hts] at hp hi
  obtain ⟨pool', root, stats1, e1, t1, f1⟩ := insert_spec ht hsorted.nodup hv hi stats
  rw [ite_self] at t1
  obtain ⟨L, R, hLR, hins, hL, hR⟩ := insert_split hsorted hp
  have hs' : (L ++ i :: R).Pairwise fun a b => pool'.priceOf a < pool'.priceOf b := by
    rw [f1.priceOf_eq, ← hins]
    exact hsorted.insert hp
  obtain ⟨dense, e2, hdir, hidx⟩ := h.direct.insert_ok (show (pool.slots i).price.toNat < 10000 from hw) i
  obtain ⟨s1, hs1⟩ : ∃ s1 : BookSide, s1 = { s with denseLevels := dense, avlRoot := root, levelCount := s.levelCount + 1 } :=
    ⟨_, rfl⟩
  have e3 : s1.updateBboOnInsert pool' i = pure { s1 with bboIdx := bestOf s1.side (L ++ i :: R) } := by
    refine updateBbo_spec ?_ hs' ?_
    · rw [← hLR, hts, hs1]
      exact h.bbo
    · rw [← hins]
      exact t1.valid
  obtain ⟨stats2, e4, -⟩ := updateStatsHeight_eq t1 { stats1 with levelsCreated := stats1.levelsCreated + 1 }
  refine ⟨{ s1 with bboIdx := bestOf s1.side (L ++ i :: R) }, pool', stats2, L, R, ?_, by rw [← hts, hLR], hL, hR,
    ⟨⟨_, ?_, hins, hb.insert i⟩, hs', ?_, ?_, ?_, ?_, rfl⟩, ?_, ?_⟩
  · unfold insertLevel
    rw [get_eq _ hv, pure_bind, e2, pure_bind, e1, pure_bind]
    simp only [← hs1, e3, pure_bind]
    have hroot : s1.avlRoot = root := by rw [hs1]
    simp only [hroot, e4, pure_bind]
  · rw [hs1]
    exact t1
  · rw [f1.priceOf_eq]
    intro j hj
    rw [← hins, mem_insert] at hj
    rcases hj with rfl | hj
    · exact hw
    · exact h.window j (hts ▸ hj)
  · rw [hs1]
    exact hdir
  · rw [f1.priceOf_eq, hs1]
    simp only [hidx]
    have hti := h.ticks
    rw [← hts, hLR] at hti
    rw [hLR] at hi hp
    exact ticks_insert hi hti hp
  · rw [hs1]
    have := congrArg List.length hLR
    rw [hts] at this
    simp only [List.length_append, List.length_cons, h.count, this]
    omega
  · rw [← hts]
    exact f1
  · rw [hs1]

/-- The best of a list that loses a slot other than the best. -/
theorem bestOf_remove {side : UInt8} (hne : i ≠ bestOf side (L ++ i :: R)) :
    bestOf side (L ++ R) = bestOf side (L ++ i :: R) := by
  unfold bestOf at hne ⊢
  by_cases hside : side = 0
  · simp only [hside, if_true] at hne ⊢
    rcases List.eq_nil_or_concat R with rfl | ⟨R', k, rfl⟩
    · simp at hne
    · have e1 : (L ++ i :: R'.concat k).getLast? = some k := by
        rw [show L ++ i :: R'.concat k = (L ++ i :: R') ++ [k] by simp, List.getLast?_concat]
      have e2 : (L ++ R'.concat k).getLast? = some k := by
        rw [show L ++ R'.concat k = (L ++ R') ++ [k] by simp, List.getLast?_concat]
      rw [e1, e2]
  · simp only [hside, if_false] at hne ⊢
    match L with
    | [] => simp at hne
    | k :: L' => rfl

/-! ## `removeLevel` -/

/-- `find_max` and `find_min` as `remove_level` calls them: the best of the tree. -/
theorem best_of_tree {t : BinTree Index} {x p : Index} (ht : TreeAt pool t x p) (hnd : t.toList.Nodup) (side : UInt8) :
    (if side = 0 then avl.findMax pool x else avl.findMin pool x) = pure (bestOf side t.toList) := by
  unfold bestOf
  split
  · rw [findMax_spec ht hnd, last_eq_getLast?]
  · rw [findMin_spec ht hnd, first_eq_head?]

/-- **`remove_level`** of a level of the side. -/
theorem removeLevel_spec (h : s.SideTree pool (L ++ i :: R)) (stats : AVLStatistics) :
    ∃ s' pool' stats', s.removeLevel i pool stats = pure (s', pool', stats') ∧ s'.SideTree pool' (L ++ R) ∧
      NodeFrame (L ++ i :: R) pool pool' ∧ Unlinked pool' i ∧ s'.side = s.side := by
  obtain ⟨t, ht, hts, hb⟩ := h.tree
  have hnd := h.nodup
  have hi : i ∈ L ++ i :: R := by simp
  have hv : Valid cap i := h.valid i hi
  have hmem : ∀ j, j ∈ L ++ R → j ∈ L ++ i :: R ∧ j ≠ i := by
    intro j hj
    simp only [List.nodup_append, List.nodup_cons, List.mem_cons, List.mem_append] at hnd hj ⊢
    rcases hj with hj | hj
    · exact ⟨Or.inl hj, fun e => hnd.2.2 j hj i (Or.inl rfl) e⟩
    · exact ⟨Or.inr (Or.inr hj), fun e => hnd.2.1.1 (e ▸ hj)⟩
  have hp : ∀ j ∈ L ++ R, pool.priceOf j ≠ pool.priceOf i := fun j hj e =>
    (hmem j hj).2 (h.price_inj (hmem j hj).1 hi e)
  have hsorted : Sorted pool.priceOf t := by
    unfold Sorted
    rw [hts]
    exact h.sorted
  obtain ⟨pool', root, stats1, e1, t1, f1, u1⟩ := remove_spec ht hsorted (hts ▸ hi) stats
  have herase : (BinTree.erase pool.priceOf t (pool.priceOf i)).toList = L ++ R := by
    have hkeep : ∀ xs : List Index, (∀ j ∈ xs, j ∈ L ++ R) →
        xs.filter (fun x => pool.priceOf x ≠ pool.priceOf i) = xs := fun xs hxs =>
      List.filter_eq_self.2 fun j hj => by simpa using hp j (hxs j hj)
    rw [toList_erase _ hsorted, hts, List.filter_append, List.filter_cons, if_neg (by simp),
      hkeep L fun j hj => List.mem_append_left R hj, hkeep R fun j hj => List.mem_append_right L hj]
  have hs' : (L ++ R).Pairwise fun a b => pool'.priceOf a < pool'.priceOf b := by
    rw [f1.priceOf_eq, ← herase]
    exact hsorted.erase _
  obtain ⟨dense, e2, hdir, hidx⟩ := h.direct.remove_ok (show (pool.slots i).price.toNat < 10000 from h.window i hi)
  have hcount : s.levelCount > 0 := by
    rw [h.count]
    simp
  have hbest := best_of_tree t1 (hsorted.erase _).nodup s.side
  rw [herase] at hbest
  obtain ⟨stats2, e4, -⟩ := updateStatsHeight_eq t1 { stats1 with levelsDestroyed := stats1.levelsDestroyed + 1 }
  refine ⟨⟨root, bestOf s.side (L ++ R), s.levelCount - 1, s.side, dense⟩, pool', stats2, ?_,
    ⟨⟨_, t1, herase, hb.erase _⟩, hs', ?_, hdir, ?_, ?_, rfl⟩, ?_, u1, rfl⟩
  · unfold removeLevel
    simp only [hcount, decide_true, tradecoreAssert_true, pure_bind, get_eq _ hv, e2, e1]
    simp only [e4, pure_bind]
    by_cases hwas : i = s.bboIdx
    · by_cases hside : s.side = 0
      · rw [if_pos hside] at hbest
        rw [if_pos (decide_eq_true hwas), if_pos hside, hbest, pure_bind]
      · rw [if_neg hside] at hbest
        rw [if_pos (decide_eq_true hwas), if_neg hside, hbest, pure_bind]
    · rw [if_neg (by simpa using hwas), bestOf_remove (by rw [← h.bbo]; exact hwas), h.bbo]
  · rw [f1.priceOf_eq]
    exact fun j hj => h.window j (hmem j hj).1
  · rw [f1.priceOf_eq]
    simp only [hidx]
    exact ticks_remove h.ticks hp
  · have := h.count
    simp only [List.length_append, List.length_cons] at this ⊢
    omega
  · rw [← hts]
    exact f1

end SideTree

/-! ## `createLevel` and `destroyLevel` -/

section Lifecycle

variable {s : BookSide} {pool : PriceLevelPool cap} {used : Finset Index} {i : Index}

/-- What `create_level` writes into the slot. -/
def freshLevel (s : BookSide) (price : UInt32) : PriceLevel :=
  ⟨price, 0, 0, kInvalidPoolIndex, kInvalidPoolIndex, ⟨kInvalidPoolIndex, kInvalidPoolIndex, kInvalidPoolIndex, 1⟩, s.side⟩

/-- **`create_level`** while the pool has a free slot. -/
theorem createLevel_ok (h : pool.PoolOk used) (hlt : used.card < cap.size) (price : UInt32) :
    ∃ i pool', s.createLevel price pool = pure (i, pool') ∧ Valid cap i ∧ i ∉ used ∧ pool'.PoolOk (insert i used) ∧
      pool'.slots = Function.update pool.slots i (s.freshLevel price) := by
  obtain ⟨i, pool1, e, hv, hu, hok, hslots⟩ := h.allocate_ok hlt PriceLevel.zero
  refine ⟨i, _, by simp only [createLevel, e, pure_bind]; rfl, hv, hu, hok.modify (Finset.mem_insert_self i used) _, ?_⟩
  funext j
  rw [modify_slots]
  by_cases hj : j = i
  · rw [if_pos hj, hj, Function.update_self]
    rfl
  · rw [if_neg hj, hslots, Function.update_of_ne hj, Function.update_of_ne hj]

/-- **`create_level`** with the pool exhausted. -/
theorem createLevel_full (h : pool.PoolOk used) (hfull : used.card = cap.size) (price : UInt32) :
    s.createLevel price pool = pure (kInvalidPoolIndex, pool) := by
  simp only [createLevel, h.allocate_full hfull, pure_bind]

/-- What the checks of `destroy_level` ask for. -/
structure Recyclable (pool : PriceLevelPool cap) (i : Index) : Prop where
  orderCount : (pool.slots i).orderCount = 0
  totalQty : (pool.slots i).totalQty = 0
  head : (pool.slots i).headOrderIdx = kInvalidPoolIndex
  tail : (pool.slots i).tailOrderIdx = kInvalidPoolIndex
  unlinked : Unlinked pool i

/-- **`destroy_level`**: no check fails, and the slot is free again. -/
theorem destroyLevel_ok (h : pool.PoolOk used) (hi : i ∈ used) (hr : Recyclable pool i) (stats : AVLStatistics) :
    ∃ pool' stats', destroyLevel i pool stats = pure (pool', stats') ∧ pool'.PoolOk (used.erase i) ∧
      ∀ j, j ≠ i → pool'.slots j = pool.slots j := by
  obtain ⟨pool', e, hok, hs⟩ := h.deallocate_ok hi
  have hl : (pool.slots i).node.left = kInvalidPoolIndex := hr.unlinked.1
  have hn : (pool.slots i).node.right = kInvalidPoolIndex := hr.unlinked.2
  refine ⟨pool', { stats with levelsRecycled := stats.levelsRecycled + 1 }, ?_, hok, hs⟩
  unfold destroyLevel
  simp only [get_eq _ (h.valid i hi), pure_bind, hr.orderCount, hr.totalQty, hr.head, hr.tail, hl, hn, decide_true,
    tradecoreAssertM_true, e]

end Lifecycle

end BookSide

end TradeCore
