import TradeCore.Orderbook.BookSideProofs
/-!
# What `stats.insertions` and `stats.deletions` count

`insert` and `remove` count at the top of a function that calls itself, so they count nodes and not levels: an
insertion counts every node on the search path, and the empty place below them. A removal counts the nodes above the
level as well; the decrement takes back the call for the successor, but not the calls on the way to it.
-/

namespace TradeCore

open Avl Avl.BinTree ObjectPool

variable {cap : PoolCapacity}

namespace avl

/-- The nodes on the search path of a new price. -/
def nodesAbove (pool : PriceLevelPool cap) (price : UInt32) : ℕ → Index → ℕ
  | 0, _ => 0
  | fuel + 1, curr =>
    if curr = kInvalidPoolIndex then 0
    else nodesAbove pool price fuel (if price < (pool.slots curr).price then (pool.node curr).left else (pool.node curr).right) + 1

/-- The steps from a node to the smallest one below it. -/
def leftSteps (pool : PriceLevelPool cap) : ℕ → Index → ℕ
  | 0, _ => 0
  | fuel + 1, curr => if (pool.node curr).left = kInvalidPoolIndex then 0 else leftSteps pool fuel (pool.node curr).left + 1

/-- The nodes above the node with a price; and if it has two children, those between its right child and the successor. -/
def nodesPassed (pool : PriceLevelPool cap) (price : UInt32) : ℕ → Index → ℕ
  | 0, _ => 0
  | fuel + 1, curr =>
    if curr = kInvalidPoolIndex then 0
    else if price < (pool.slots curr).price then nodesPassed pool price fuel (pool.node curr).left + 1
    else if price > (pool.slots curr).price then nodesPassed pool price fuel (pool.node curr).right + 1
    else if (pool.node curr).left = kInvalidPoolIndex ∨ (pool.node curr).right = kInvalidPoolIndex then 0
    else leftSteps pool fuel (pool.node curr).right

end avl

/-- Two statistics with the same level counts. -/
def SameCounts (stats stats' : AVLStatistics) : Prop :=
  stats'.insertions = stats.insertions ∧ stats'.deletions = stats.deletions

section Trees

variable {pool pool' : PriceLevelPool cap} {t l r : BinTree Index} {x p i idx root target : Index} {stats stats' : AVLStatistics}
  {b : Build} {fuel : ℕ}

theorem SameCounts.refl (stats : AVLStatistics) : SameCounts stats stats := ⟨rfl, rfl⟩

/-! ## What leaves the counts alone -/

/-- **`rebalance`** counts rotations only. -/
theorem rebalance_counts (h : avl.rebalance pool idx stats b = .ok (pool', root, stats')) : SameCounts stats stats' := by
  unfold avl.rebalance at h
  obtain ⟨pool1, -, h⟩ := Exec.bind_eq_ok.1 h
  obtain ⟨bal, -, h⟩ := Exec.bind_eq_ok.1 h
  split_ifs at h
  · obtain ⟨bal', -, h⟩ := Exec.bind_eq_ok.1 h
    split_ifs at h
    · obtain ⟨r, -, h⟩ := Exec.bind_eq_ok.1 h
      cases h
      exact SameCounts.refl _
    · obtain ⟨r, -, h⟩ := Exec.bind_eq_ok.1 h
      obtain ⟨pool2, -, h⟩ := Exec.bind_eq_ok.1 h
      obtain ⟨r', -, h⟩ := Exec.bind_eq_ok.1 h
      cases h
      exact SameCounts.refl _
  · obtain ⟨bal', -, h⟩ := Exec.bind_eq_ok.1 h
    split_ifs at h
    · obtain ⟨r, -, h⟩ := Exec.bind_eq_ok.1 h
      cases h
      exact SameCounts.refl _
    · obtain ⟨r, -, h⟩ := Exec.bind_eq_ok.1 h
      obtain ⟨pool2, -, h⟩ := Exec.bind_eq_ok.1 h
      obtain ⟨r', -, h⟩ := Exec.bind_eq_ok.1 h
      cases h
      exact SameCounts.refl _
  · cases h
    exact SameCounts.refl _

theorem updateStatsHeight_counts (h : avl.updateStatsHeight pool root stats b = .ok stats') : SameCounts stats stats' := by
  unfold avl.updateStatsHeight at h
  obtain ⟨n, -, h⟩ := Exec.bind_eq_ok.1 h
  dsimp only at h
  split_ifs at h <;> cases h <;> exact SameCounts.refl _

/-- A slot that is read is the slot of the pool. -/
theorem get_eq_ok {l : PriceLevel} (h : pool.get i b = .ok l) : l = pool.slots i := by
  unfold ObjectPool.get at h
  obtain ⟨-, -, h⟩ := Exec.bind_eq_ok.1 h
  split_ifs at h
  · cases h
    rfl
  · cases h

theorem ofNat_add_one_add (a : UInt64) (n : ℕ) : a + 1 + UInt64.ofNat (n + 1) = a + UInt64.ofNat (n + 1 + 1) := by
  rw [UInt64.ofNat_add (n + 1) 1, add_comm (UInt64.ofNat (n + 1)), ← add_assoc]
  rfl

/-! ## `insert` -/

/-- A call of `insert` counts itself, on top of the call it makes. -/
theorem insert_counts_above {stats1 : AVLStatistics} {n : ℕ}
    (hrec : stats1.insertions = stats.insertions + 1 + UInt64.ofNat (n + 1) ∧ stats1.deletions = stats.deletions)
    (hsame : SameCounts stats1 stats') :
    stats'.insertions = stats.insertions + UInt64.ofNat (n + 1 + 1) ∧ stats'.deletions = stats.deletions := by
  obtain ⟨hins, hdel⟩ := hrec
  rw [hsame.1, hsame.2, hins, hdel]
  exact ⟨ofNat_add_one_add _ _, rfl⟩

/-- **`insert` counts** every node of the search path, and the place below. -/
theorem insertRec_counts {new : Index} : ∀ {fuel : ℕ} {x : Index} {stats : AVLStatistics} {pool' : PriceLevelPool cap} {root : Index}
    {stats' : AVLStatistics}, avl.insertRec new fuel pool x stats b = .ok (pool', root, stats') →
      stats'.insertions = stats.insertions + UInt64.ofNat (avl.nodesAbove pool (pool.slots new).price fuel x + 1) ∧
        stats'.deletions = stats.deletions
  | 0, x, stats, pool', root, stats', h => by cases h
  | fuel + 1, x, stats, pool', root, stats', h => by
    unfold avl.insertRec at h
    obtain ⟨-, -, h⟩ := Exec.bind_eq_ok.1 h
    dsimp only at h
    unfold avl.nodesAbove
    by_cases hx : x = kInvalidPoolIndex
    · rw [if_pos hx] at h ⊢
      obtain ⟨pool1, -, h⟩ := Exec.bind_eq_ok.1 h
      cases h
      exact ⟨rfl, rfl⟩
    · rw [if_neg hx] at h ⊢
      obtain ⟨lx, hlx, h⟩ := Exec.bind_eq_ok.1 h
      obtain ⟨ln, hln, h⟩ := Exec.bind_eq_ok.1 h
      rw [get_eq_ok hlx, get_eq_ok hln] at h
      split_ifs at h with hlt
      · obtain ⟨⟨pool1, y, stats1⟩, hrec, h⟩ := Exec.bind_eq_ok.1 h
        obtain ⟨-, -, h⟩ := Exec.bind_eq_ok.1 h
        rw [if_pos hlt]
        exact insert_counts_above (insertRec_counts hrec) (rebalance_counts h)
      · obtain ⟨⟨pool1, y, stats1⟩, hrec, h⟩ := Exec.bind_eq_ok.1 h
        obtain ⟨-, -, h⟩ := Exec.bind_eq_ok.1 h
        rw [if_neg hlt]
        exact insert_counts_above (insertRec_counts hrec) (rebalance_counts h)

/-! ## `remove` -/

/-- A call of `remove` that is counted once: it goes on in a child, or it is the last one. -/
def Counted (stats : AVLStatistics) : AVLStatistics := { stats with deletions := stats.deletions + 1 }

/-- A counted call of `remove` counts on top of the call it makes. -/
theorem remove_counts_above {stats1 : AVLStatistics} {n : ℕ}
    (hrec : stats1.deletions = (Counted stats).deletions + UInt64.ofNat (n + 1) ∧ stats1.insertions = (Counted stats).insertions)
    (hsame : SameCounts stats1 stats') :
    stats'.deletions = stats.deletions + UInt64.ofNat (n + 1 + 1) ∧ stats'.insertions = stats.insertions := by
  obtain ⟨hdel, hins⟩ := hrec
  rw [hsame.1, hsame.2, hdel, hins]
  exact ⟨ofNat_add_one_add _ _, rfl⟩

/-- **What one call of `remove` does** with the statistics. -/
theorem removeRec_cases (hx : x ≠ kInvalidPoolIndex)
    (h : avl.removeRec (fuel + 1) pool x target stats b = .ok (pool', root, stats')) :
    ((pool.slots target).price < (pool.slots x).price ∧ ∃ res,
        avl.removeRec fuel pool (pool.node x).left target (Counted stats) b = .ok res ∧ SameCounts res.2.2 stats') ∨
      ((pool.slots target).price > (pool.slots x).price ∧ ∃ res,
        avl.removeRec fuel pool (pool.node x).right target (Counted stats) b = .ok res ∧ SameCounts res.2.2 stats') ∨
      (¬(pool.slots target).price < (pool.slots x).price ∧ ¬(pool.slots target).price > (pool.slots x).price) ∧
        ((((pool.node x).left = kInvalidPoolIndex ∨ (pool.node x).right = kInvalidPoolIndex) ∧ SameCounts (Counted stats) stats') ∨
        (¬((pool.node x).left = kInvalidPoolIndex ∨ (pool.node x).right = kInvalidPoolIndex) ∧ ∃ succ res,
          avl.findMin pool (pool.node x).right b = .ok succ ∧
          avl.removeRec fuel pool (pool.node x).right succ stats b = .ok res ∧ SameCounts res.2.2 stats')) := by
  unfold avl.removeRec at h
  rw [if_neg hx] at h
  dsimp only at h
  obtain ⟨lx, hlx, h⟩ := Exec.bind_eq_ok.1 h
  obtain ⟨lt, hlt, h⟩ := Exec.bind_eq_ok.1 h
  rw [get_eq_ok hlx, get_eq_ok hlt] at h
  split_ifs at h with hless hmore hleft hright
  · obtain ⟨res, hrec, h⟩ := Exec.bind_eq_ok.1 h
    obtain ⟨pool1, -, h⟩ := Exec.bind_eq_ok.1 h
    exact Or.inl ⟨hless, res, hrec, rebalance_counts h⟩
  · obtain ⟨res, hrec, h⟩ := Exec.bind_eq_ok.1 h
    obtain ⟨pool1, -, h⟩ := Exec.bind_eq_ok.1 h
    exact Or.inr (Or.inl ⟨hmore, res, hrec, rebalance_counts h⟩)
  · obtain ⟨-, -, h⟩ := Exec.bind_eq_ok.1 h
    obtain ⟨pool1, -, h⟩ := Exec.bind_eq_ok.1 h
    cases h
    exact Or.inr (Or.inr ⟨⟨hless, hmore⟩, Or.inl ⟨Or.inl hleft, SameCounts.refl _⟩⟩)
  · obtain ⟨-, -, h⟩ := Exec.bind_eq_ok.1 h
    obtain ⟨-, -, h⟩ := Exec.bind_eq_ok.1 h
    cases h
    exact Or.inr (Or.inr ⟨⟨hless, hmore⟩, Or.inl ⟨Or.inr hright, SameCounts.refl _⟩⟩)
  · -- the decrement takes back what this call counted
    have hsame : ({ stats with deletions := stats.deletions + 1 - 1 } : AVLStatistics) = stats := by
      rw [UInt64.add_sub_cancel]
    obtain ⟨-, -, h⟩ := Exec.bind_eq_ok.1 h
    obtain ⟨succ, hmin, h⟩ := Exec.bind_eq_ok.1 h
    obtain ⟨res, hrec, h⟩ := Exec.bind_eq_ok.1 h
    rw [hsame] at hrec
    obtain ⟨-, -, h⟩ := Exec.bind_eq_ok.1 h
    obtain ⟨pool1, -, h⟩ := Exec.bind_eq_ok.1 h
    obtain ⟨pool2, -, h⟩ := Exec.bind_eq_ok.1 h
    exact Or.inr (Or.inr ⟨⟨hless, hmore⟩, Or.inr ⟨not_or.2 ⟨hleft, hright⟩, succ, res, hmin, hrec, rebalance_counts h⟩⟩)

/-- **Removing the smallest node** counts the steps to it. -/
theorem removeRec_first_counts : ∀ {t : BinTree Index} {fuel : ℕ} {x p s : Index} {stats : AVLStatistics} {pool' : PriceLevelPool cap}
    {root : Index} {stats' : AVLStatistics}, TreeAt pool t x p → Sorted pool.priceOf t → t.first = some s →
      avl.removeRec fuel pool x s stats b = .ok (pool', root, stats') →
      stats'.deletions = stats.deletions + UInt64.ofNat (avl.leftSteps pool fuel x + 1) ∧ stats'.insertions = stats.insertions
  | nil, _, _, _, _, _, _, _, _, _, _, hfirst, _ => by cases hfirst
  | node _ _ _, 0, _, _, _, _, _, _, _, _, _, _, h => by cases h
  | node nil i r, fuel + 1, x, p, s, stats, pool', root, stats', ht, hs, hfirst, h => by
    cases hfirst
    obtain ⟨rfl, hh, -⟩ := TreeAt.node_iff.1 ht
    have hleft : (pool.node x).left = kInvalidPoolIndex := hh.near
    rcases removeRec_cases hh.valid.ne_invalid h with ⟨hlt, -⟩ | ⟨hgt, -⟩ | ⟨-, ⟨-, hsame⟩ | ⟨hnot, -⟩⟩
    · exact absurd hlt (UInt32.lt_irrefl _)
    · exact absurd hgt (UInt32.lt_irrefl _)
    · rw [avl.leftSteps, if_pos hleft]
      exact ⟨hsame.2, hsame.1⟩
    · exact absurd (Or.inl hleft) hnot
  | node (node l1 a l2) i r, fuel + 1, x, p, s, stats, pool', root, stats', ht, hs, hfirst, h => by
    obtain ⟨rfl, hh, -⟩ := TreeAt.node_iff.1 ht
    obtain ⟨hsl, -, hlx, -⟩ := sorted_node.1 hs
    have hfirst' : (node l1 a l2).first = some s := hfirst
    have hmem : s ∈ (node l1 a l2).toList := by
      rw [first_eq_head?] at hfirst'
      exact List.mem_of_mem_head? hfirst'
    have hleft : (pool.node x).left ≠ kInvalidPoolIndex := fun e => by cases hh.near.nil_iff.2 e
    have hlt : (pool.slots s).price < (pool.slots x).price := UInt32.lt_iff_toNat_lt.2 (hlx s hmem)
    rcases removeRec_cases hh.valid.ne_invalid h with ⟨-, res, hrec, hsame⟩ | ⟨hgt, -⟩ | ⟨⟨hnot, -⟩, -⟩
    · rw [avl.leftSteps, if_neg hleft]
      exact remove_counts_above (removeRec_first_counts hh.near hsl hfirst' hrec) hsame
    · exact absurd hgt (UInt32.lt_asymm hlt)
    · exact absurd hlt hnot

/-- **`remove` counts** the nodes above the level and, if it has two children, those on the way to the successor. -/
theorem removeRec_counts : ∀ {t : BinTree Index} {fuel : ℕ} {x p target : Index} {stats : AVLStatistics} {pool' : PriceLevelPool cap}
    {root : Index} {stats' : AVLStatistics}, TreeAt pool t x p → Sorted pool.priceOf t → target ∈ t.toList →
      avl.removeRec fuel pool x target stats b = .ok (pool', root, stats') →
      stats'.deletions = stats.deletions + UInt64.ofNat (avl.nodesPassed pool (pool.slots target).price fuel x + 1) ∧
        stats'.insertions = stats.insertions
  | nil, _, _, _, _, _, _, _, _, _, _, hmem, _ => by cases hmem
  | node _ _ _, 0, _, _, _, _, _, _, _, _, _, _, h => by cases h
  | node l i r, fuel + 1, x, p, target, stats, pool', root, stats', ht, hs, hmem, h => by
    obtain ⟨rfl, hh, -⟩ := TreeAt.node_iff.1 ht
    obtain ⟨hsl, hsr, hlx, hxr⟩ := sorted_node.1 hs
    have hx := hh.valid.ne_invalid
    have hnd := hs.nodup
    rw [toList_node, List.mem_append, List.mem_cons] at hmem
    unfold avl.nodesPassed
    rw [if_neg hx]
    rcases removeRec_cases hx h with ⟨hlt, res, hrec, hsame⟩ | ⟨hgt, res, hrec, hsame⟩ | ⟨⟨hlt, hgt⟩, hroot⟩
    · have htarget : target ∈ l.toList := by
        rcases hmem with hl | rfl | hr
        · exact hl
        · exact absurd hlt (UInt32.lt_irrefl _)
        · exact absurd (UInt32.lt_iff_toNat_lt.1 hlt) (lt_asymm (hxr target hr))
      rw [if_pos hlt]
      exact remove_counts_above (removeRec_counts hh.near hsl htarget hrec) hsame
    · have htarget : target ∈ r.toList := by
        rcases hmem with hl | rfl | hr
        · exact absurd (UInt32.lt_iff_toNat_lt.1 hgt) (lt_asymm (hlx target hl))
        · exact absurd hgt (UInt32.lt_irrefl _)
        · exact hr
      rw [if_neg (UInt32.lt_asymm hgt), if_pos hgt]
      exact remove_counts_above (removeRec_counts hh.far hsr htarget hrec) hsame
    · rw [if_neg hlt, if_neg hgt]
      rcases hroot with ⟨hone, hsame⟩ | ⟨htwo, succ, res, hmin, hrec, hsame⟩
      · rw [if_pos hone]
        exact ⟨hsame.2, hsame.1⟩
      · rw [if_neg htwo, hsame.1, hsame.2]
        obtain ⟨-, hndr, -⟩ := nodup_nodeOn (d := .left).1 hnd
        have hfind := findMin_spec hh.far hndr
        rw [show avl.findMin pool (pool.node x).right = _ from hfind, Exec.pure_apply] at hmin
        cases hfirst : r.first with
        | none => exact absurd (Or.inr (hh.far.nil_iff.1 (first_eq_none.1 hfirst))) htwo
        | some s =>
          rw [hfirst] at hmin
          cases hmin
          exact removeRec_first_counts hh.far hsr hfirst hrec

/-! ## The calls of a side -/

theorem updateBboOnInsert_ok {s s' : BookSide} (h : s.updateBboOnInsert pool idx b = .ok s') :
    s'.avlRoot = s.avlRoot ∧ s'.denseLevels = s.denseLevels := by
  unfold BookSide.updateBboOnInsert at h
  split_ifs at h
  · cases h
    exact ⟨rfl, rfl⟩
  all_goals
    obtain ⟨n, -, h⟩ := Exec.bind_eq_ok.1 h
    obtain ⟨best, -, h⟩ := Exec.bind_eq_ok.1 h
    split_ifs at h <;> cases h <;> exact ⟨rfl, rfl⟩

/-- **`insert_level`, in its parts**: the dense array and the tree take the level each on their own. -/
theorem insertLevel_ok {s s' : BookSide} (h : s.insertLevel idx pool stats b = .ok (s', pool', stats')) :
    s.denseLevels.insert (pool.slots idx).price idx b = .ok s'.denseLevels ∧
      ∃ stats1, avl.insert pool s.avlRoot idx stats b = .ok (pool', s'.avlRoot, stats1) ∧ SameCounts stats1 stats' := by
  unfold BookSide.insertLevel at h
  obtain ⟨lvl, hlvl, h⟩ := Exec.bind_eq_ok.1 h
  rw [get_eq_ok hlvl] at h
  obtain ⟨dense, hdense, h⟩ := Exec.bind_eq_ok.1 h
  obtain ⟨⟨pool1, root, stats1⟩, hins, h⟩ := Exec.bind_eq_ok.1 h
  obtain ⟨s1, hbbo, h⟩ := Exec.bind_eq_ok.1 h
  obtain ⟨stats2, hheight, h⟩ := Exec.bind_eq_ok.1 h
  cases h
  obtain ⟨hroot, hlevels⟩ := updateBboOnInsert_ok hbbo
  rw [hroot, hlevels]
  obtain ⟨hins', hdel'⟩ := updateStatsHeight_counts hheight
  exact ⟨hdense, stats1, hins, hins', hdel'⟩

/-- **`remove_level`, in its parts.** -/
theorem removeLevel_ok {s s' : BookSide} (h : s.removeLevel idx pool stats b = .ok (s', pool', stats')) :
    s.denseLevels.remove (pool.slots idx).price b = .ok s'.denseLevels ∧
      ∃ stats1, avl.remove pool s.avlRoot idx stats b = .ok (pool', s'.avlRoot, stats1) ∧ SameCounts stats1 stats' := by
  unfold BookSide.removeLevel at h
  obtain ⟨-, -, h⟩ := Exec.bind_eq_ok.1 h
  obtain ⟨lvl, hlvl, h⟩ := Exec.bind_eq_ok.1 h
  rw [get_eq_ok hlvl] at h
  obtain ⟨dense, hdense, h⟩ := Exec.bind_eq_ok.1 h
  obtain ⟨⟨pool1, root, stats1⟩, hrem, h⟩ := Exec.bind_eq_ok.1 h
  dsimp only at h
  split_ifs at h
  all_goals
    obtain ⟨bbo, -, h⟩ := Exec.bind_eq_ok.1 h
    obtain ⟨stats2, hheight, h⟩ := Exec.bind_eq_ok.1 h
    cases h
    obtain ⟨hins', hdel'⟩ := updateStatsHeight_counts hheight
    exact ⟨hdense, stats1, hrem, hins', hdel'⟩

/-- **`insert_level`** counts the nodes that its level passes. -/
theorem insertLevel_counts {s s' : BookSide} (h : s.insertLevel idx pool stats b = .ok (s', pool', stats')) :
    stats'.insertions = stats.insertions +
        UInt64.ofNat (avl.nodesAbove pool (pool.slots idx).price (cap.size + 1) s.avlRoot + 1) ∧
      stats'.deletions = stats.deletions := by
  obtain ⟨-, stats1, hins, hins', hdel'⟩ := insertLevel_ok h
  rw [hins', hdel']
  exact insertRec_counts hins

/-- **`remove_level`** counts the nodes that the search passes, and those on the way to the successor. -/
theorem removeLevel_counts {s s' : BookSide} {is : List Index} (htree : s.SideTree pool is) (hi : idx ∈ is)
    (h : s.removeLevel idx pool stats b = .ok (s', pool', stats')) :
    stats'.deletions = stats.deletions +
        UInt64.ofNat (avl.nodesPassed pool (pool.slots idx).price (cap.size + 1) s.avlRoot + 1) ∧
      stats'.insertions = stats.insertions := by
  obtain ⟨t, ht, rfl, -⟩ := htree.tree
  obtain ⟨-, stats1, hrem, hins', hdel'⟩ := removeLevel_ok h
  rw [hins', hdel']
  exact removeRec_counts ht htree.sorted hi hrem

end Trees

end TradeCore
