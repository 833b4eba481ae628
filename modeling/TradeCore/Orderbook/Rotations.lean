import TradeCore.Lib.AvlRepairs
import TradeCore.Orderbook.TreeDepth
import TradeCore.Orderbook.TreeStatistics
/-!
# How many rotations the statistics count

`rebalance` counts one rotation where the tree is repaired and none elsewhere, so an insertion adds one at most
(`insert_turned`) and a removal one for each nested call at most (`remove_turned`). Over a run of level calls
`total_rotations` is therefore no more than the insertions, and for each removal the height of a tree that fills the pool
(`rotations_bounded`).

| here | there |
|---|---|
| `AVLStatistics.totalRotations` | `total_rotations` (`avl_statistics.hpp:31`) |
-/

namespace TradeCore

open Avl Avl.BinTree ObjectPool

variable {cap : PoolCapacity}

/-- The four rotation counters together. -/
def AVLStatistics.totalRotations (stats : AVLStatistics) : UInt64 :=
  stats.llRotations + stats.rrRotations + stats.lrRotations + stats.rlRotations

/-- `n` rotations were counted between two statistics. -/
def Turned (n : ℕ) (stats stats' : AVLStatistics) : Prop :=
  stats'.totalRotations = stats.totalRotations + UInt64.ofNat n

section Counters

variable {stats stats1 stats' : AVLStatistics} {n m : ℕ}

theorem Turned.zero (h : stats'.totalRotations = stats.totalRotations) : Turned 0 stats stats' := by
  unfold Turned
  rw [h]
  exact (add_zero _).symm

theorem Turned.trans (h : Turned n stats stats1) (h' : Turned m stats1 stats') : Turned (n + m) stats stats' := by
  unfold Turned at h h' ⊢
  rw [h', h, UInt64.ofNat_add, add_assoc]

end Counters

section Trees

variable {pool pool1 pool' : PriceLevelPool cap} {t l r near far : BinTree Index} {d : Dir} {x y p q i idx root target new : Index}
  {stats stats' : AVLStatistics} {b : Build} {fuel : ℕ}

/-! ## `rebalance` -/

/-- **`rebalance`** counts a rotation exactly in its two heavy branches. -/
theorem rebalance_branch (h : avl.rebalance pool idx stats b = .ok (pool', root, stats')) :
    ∃ pool1 bal, avl.updateHeight pool idx b = .ok pool1 ∧ avl.balanceFactor pool1 idx b = .ok bal ∧
      Turned (if bal < -1 ∨ bal > 1 then 1 else 0) stats stats' := by
  unfold avl.rebalance at h
  obtain ⟨pool1, hheight, h⟩ := Exec.bind_eq_ok.1 h
  obtain ⟨bal, hbal, h⟩ := Exec.bind_eq_ok.1 h
  refine ⟨pool1, bal, hheight, hbal, ?_⟩
  have hone : UInt64.ofNat 1 = 1 := rfl
  split_ifs at h with hleft hright
  · rw [if_pos (Or.inl hleft)]
    unfold Turned AVLStatistics.totalRotations
    obtain ⟨bal', -, h⟩ := Exec.bind_eq_ok.1 h
    split_ifs at h
    · obtain ⟨rot, -, h⟩ := Exec.bind_eq_ok.1 h
      cases h
      dsimp only
      rw [hone]
      ac_rfl
    · obtain ⟨rot, -, h⟩ := Exec.bind_eq_ok.1 h
      obtain ⟨pool2, -, h⟩ := Exec.bind_eq_ok.1 h
      obtain ⟨rot', -, h⟩ := Exec.bind_eq_ok.1 h
      cases h
      dsimp only
      rw [hone]
      ac_rfl
  · rw [if_pos (Or.inr hright)]
    unfold Turned AVLStatistics.totalRotations
    obtain ⟨bal', -, h⟩ := Exec.bind_eq_ok.1 h
    split_ifs at h
    · obtain ⟨rot, -, h⟩ := Exec.bind_eq_ok.1 h
      cases h
      dsimp only
      rw [hone]
      ac_rfl
    · obtain ⟨rot, -, h⟩ := Exec.bind_eq_ok.1 h
      obtain ⟨pool2, -, h⟩ := Exec.bind_eq_ok.1 h
      obtain ⟨rot', -, h⟩ := Exec.bind_eq_ok.1 h
      cases h
      dsimp only
      rw [hone]
      ac_rfl
  · rw [if_neg (not_or.2 ⟨hleft, hright⟩)]
    cases h
    exact Turned.zero rfl

/-- A call of `rebalance` rotates once at most. -/
theorem rebalance_turned_le (h : avl.rebalance pool idx stats b = .ok (pool', root, stats')) :
    ∃ n ≤ 1, Turned n stats stats' := by
  obtain ⟨-, bal, -, -, hturned⟩ := rebalance_branch h
  refine ⟨_, ?_, hturned⟩
  split <;> omega

/-- Where the slots are a tree, it rotates where the tree is repaired. -/
theorem HeadAt.rebalance_turned (hh : HeadAt pool .left l i r p) (hl : i ∉ l.toList) (hr : i ∉ r.toList)
    (h : avl.rebalance pool i stats b = .ok (pool', root, stats')) : Turned (repairs l i r) stats stats' := by
  obtain ⟨pool1, bal, hheight, hbal, hturned⟩ := rebalance_branch h
  obtain ⟨pool2, e, ht, -⟩ := hh.updateHeight_spec hl hr
  rw [e] at hheight
  cases hheight
  rw [(show HeadAt _ .left l i r p from TreeAt.head ht).balanceFactor_eq] at hbal
  cases hbal
  exact hturned

/-! ## `insert` -/

/-- The node that takes back the subtree with the new slot. -/
theorem HeadAt.insert_link (h : HeadAt pool d near i far p) (hnd : (nodeOn d near i far).toList.Nodup)
    (hni : new ∉ (nodeOn d near i far).toList) (hF : NodeFrame (new :: near.toList) pool pool1)
    (ht : TreeAt pool1 (BinTree.insert pool.priceOf new near) y q) :
    HeadAt ((pool1.setChild d i y).setParent y i) d (BinTree.insert pool.priceOf new near) i far p ∧
      i ∉ (BinTree.insert pool.priceOf new near).toList ∧ i ∉ far.toList := by
  obtain ⟨hnear, hfar, hin, hif, hdis⟩ := nodup_nodeOn.1 hnd
  rw [mem_nodeOn, not_or, not_or] at hni
  obtain ⟨hnn, hne, hnf⟩ := hni
  have hi : i ∉ new :: near.toList := List.not_mem_cons_of_ne_of_not_mem (Ne.symm hne) hin
  have hsub : ∀ j ∈ (BinTree.insert pool.priceOf new near).toList, j ∈ new :: near.toList :=
    fun j hj => List.mem_cons.2 (mem_insert.1 hj)
  have hdis' : ∀ j ∈ far.toList, j ∉ new :: near.toList := by
    intro j hj hj'
    rcases List.mem_cons.1 hj' with rfl | hj'
    · exact hnf hj
    · exact hdis j hj' hj
  have hnd' : (nodeOn d (BinTree.insert pool.priceOf new near) i far).toList.Nodup :=
    nodup_nodeOn.2 ⟨(insert_perm new near).nodup_iff.2 (List.nodup_cons.2 ⟨hnn, hnear⟩), hfar, fun hm => hi (hsub i hm), hif,
      fun j hj hj' => hdis' j hj' (hsub j hj)⟩
  have hy : y ≠ kInvalidPoolIndex := by
    intro e
    have hm : new ∈ (BinTree.insert pool.priceOf new near).toList := mem_insert.2 (Or.inl rfl)
    rw [ht.nil_iff.2 e] at hm
    cases hm
  obtain ⟨hlink, -⟩ := h.link hF hi hdis' ht hnd'
  refine ⟨?_, fun hm => hi (hsub i hm), hif⟩
  rwa [PriceLevelPool.reparent, if_neg hy] at hlink

/-- **`insert`** counts the nodes that an insertion into the tree repairs. -/
theorem insertRec_turned (hv : Valid cap new) : ∀ {t : BinTree Index} {pool : PriceLevelPool cap} {x p : Index} {fuel : ℕ}
    {stats : AVLStatistics} {pool' : PriceLevelPool cap} {root : Index} {stats' : AVLStatistics}, TreeAt pool t x p →
      t.toList.Nodup → new ∉ t.toList → t.height < fuel →
      avl.insertRec new fuel pool x stats b = .ok (pool', root, stats') →
      Turned (insertRepairs pool.priceOf new t) stats stats'
  | _, _, _, _, 0, _, _, _, _, _, _, _, hf, _ => by omega
  | nil, pool, x, p, fuel + 1, stats, pool', root, stats', ht, _, _, _, h => by
    have hx : x = kInvalidPoolIndex := ht
    unfold avl.insertRec at h
    obtain ⟨-, -, h⟩ := Exec.bind_eq_ok.1 h
    dsimp only at h
    rw [if_pos hx] at h
    obtain ⟨pool1, -, h⟩ := Exec.bind_eq_ok.1 h
    cases h
    exact Turned.zero rfl
  | node l i r, pool, x, p, fuel + 1, stats, pool', root, stats', ht, hnd, hni, hf, h => by
    obtain ⟨rfl, hh, -⟩ := TreeAt.node_iff.1 ht
    rw [height_node] at hf
    obtain ⟨hl, hr, -, -, -⟩ := nodup_nodeOn (d := .left).1 hnd
    have hnl : new ∉ l.toList := fun hm => hni (mem_nodeOn (d := .left).2 (Or.inl hm))
    have hnr : new ∉ r.toList := fun hm => hni (mem_nodeOn (d := .left).2 (Or.inr (Or.inr hm)))
    have hcount : Turned 0 stats { stats with insertions := stats.insertions + 1 } := Turned.zero rfl
    unfold avl.insertRec at h
    obtain ⟨-, -, h⟩ := Exec.bind_eq_ok.1 h
    dsimp only at h
    rw [if_neg hh.valid.ne_invalid] at h
    obtain ⟨lx, hlx, h⟩ := Exec.bind_eq_ok.1 h
    obtain ⟨ln, hln, h⟩ := Exec.bind_eq_ok.1 h
    rw [get_eq_ok hlx, get_eq_ok hln] at h
    unfold insertRepairs
    split_ifs at h with hlt
    · have hlt' : pool.priceOf new < pool.priceOf x := UInt32.lt_iff_toNat_lt.1 hlt
      rw [if_pos hlt']
      obtain ⟨⟨pool1, y, stats1⟩, hrec, h⟩ := Exec.bind_eq_ok.1 h
      obtain ⟨-, -, h⟩ := Exec.bind_eq_ok.1 h
      have hbelow := insertRec_turned hv hh.near hl hnl (by omega : l.height < fuel) hrec
      obtain ⟨pool2, y2, stats2, e, ht1, hF⟩ := insertRec_spec hv { stats with insertions := stats.insertions + 1 }
        hh.near hl hnl (by omega : l.height < fuel)
      rw [show avl.insertRec new fuel pool (pool.slots x).node.left _ = _ from e, Exec.pure_apply] at hrec
      cases hrec
      obtain ⟨hlink, hx, hxr⟩ := hh.insert_link hnd hni hF ht1
      have hhere := (hcount.trans hbelow).trans (hlink.rebalance_turned hx hxr h)
      rwa [Nat.zero_add] at hhere
    · have hlt' : ¬ pool.priceOf new < pool.priceOf x := fun h => hlt (UInt32.lt_iff_toNat_lt.2 h)
      rw [if_neg hlt']
      obtain ⟨⟨pool1, y, stats1⟩, hrec, h⟩ := Exec.bind_eq_ok.1 h
      obtain ⟨-, -, h⟩ := Exec.bind_eq_ok.1 h
      have hbelow := insertRec_turned hv hh.far hr hnr (by omega : r.height < fuel) hrec
      obtain ⟨pool2, y2, stats2, e, ht1, hF⟩ := insertRec_spec hv { stats with insertions := stats.insertions + 1 }
        hh.far hr hnr (by omega : r.height < fuel)
      rw [show avl.insertRec new fuel pool (pool.slots x).node.right _ = _ from e, Exec.pure_apply] at hrec
      cases hrec
      obtain ⟨hlink, hx, hxl⟩ := hh.flip.insert_link hnd hni hF ht1
      have hhere := (hcount.trans hbelow).trans (hlink.flip.rebalance_turned hxl hx h)
      rwa [Nat.zero_add] at hhere

/-! ## `remove` -/

/-- A call of `remove` that made another one: it returned with fuel left, and at most one rotation came on top. -/
theorem remove_turned_above {stats0 stats1 : AVLStatistics} {pool2 : PriceLevelPool cap} {root2 : Index}
    (hcount : Turned 0 stats stats0) (hrec : avl.removeRec fuel pool x target stats0 b = .ok (pool2, root2, stats1))
    (hbelow : ∃ n, n ≤ fuel - 1 ∧ Turned n stats0 stats1) (hhere : ∃ n ≤ 1, Turned n stats1 stats') :
    ∃ n, n ≤ fuel + 1 - 1 ∧ Turned n stats stats' := by
  obtain ⟨n, hn, hbelow⟩ := hbelow
  obtain ⟨m, hm, hhere⟩ := hhere
  cases fuel with
  | zero => cases hrec
  | succ fuel => exact ⟨0 + n + m, by omega, (hcount.trans hbelow).trans hhere⟩

/-- **`remove`** rotates once at most for each nested call. -/
theorem removeRec_turned : ∀ {fuel : ℕ} {pool : PriceLevelPool cap} {x target : Index} {stats : AVLStatistics}
    {pool' : PriceLevelPool cap} {root : Index} {stats' : AVLStatistics},
      avl.removeRec fuel pool x target stats b = .ok (pool', root, stats') → ∃ n, n ≤ fuel - 1 ∧ Turned n stats stats'
  | 0, _, _, _, _, _, _, _, h => by cases h
  | fuel + 1, pool, x, target, stats, pool', root, stats', h => by
    have hcount : Turned 0 stats { stats with deletions := stats.deletions + 1 } := Turned.zero rfl
    have hback : Turned 0 stats { stats with deletions := stats.deletions + 1 - 1 } := Turned.zero rfl
    unfold avl.removeRec at h
    by_cases hx : x = kInvalidPoolIndex
    · rw [if_pos hx] at h
      cases h
      exact ⟨0, Nat.zero_le _, Turned.zero rfl⟩
    rw [if_neg hx] at h
    dsimp only at h
    obtain ⟨lx, -, h⟩ := Exec.bind_eq_ok.1 h
    obtain ⟨lt, -, h⟩ := Exec.bind_eq_ok.1 h
    split_ifs at h with hless hmore hleft hright
    · obtain ⟨res, hrec, h⟩ := Exec.bind_eq_ok.1 h
      obtain ⟨pool1, -, h⟩ := Exec.bind_eq_ok.1 h
      exact remove_turned_above hcount hrec (removeRec_turned hrec) (rebalance_turned_le h)
    · obtain ⟨res, hrec, h⟩ := Exec.bind_eq_ok.1 h
      obtain ⟨pool1, -, h⟩ := Exec.bind_eq_ok.1 h
      exact remove_turned_above hcount hrec (removeRec_turned hrec) (rebalance_turned_le h)
    · obtain ⟨-, -, h⟩ := Exec.bind_eq_ok.1 h
      obtain ⟨pool1, -, h⟩ := Exec.bind_eq_ok.1 h
      cases h
      exact ⟨0, Nat.zero_le _, hcount⟩
    · obtain ⟨-, -, h⟩ := Exec.bind_eq_ok.1 h
      obtain ⟨-, -, h⟩ := Exec.bind_eq_ok.1 h
      cases h
      exact ⟨0, Nat.zero_le _, hcount⟩
    · obtain ⟨-, -, h⟩ := Exec.bind_eq_ok.1 h
      obtain ⟨succ, -, h⟩ := Exec.bind_eq_ok.1 h
      obtain ⟨res, hrec, h⟩ := Exec.bind_eq_ok.1 h
      obtain ⟨-, -, h⟩ := Exec.bind_eq_ok.1 h
      obtain ⟨pool1, -, h⟩ := Exec.bind_eq_ok.1 h
      obtain ⟨pool2, -, h⟩ := Exec.bind_eq_ok.1 h
      exact remove_turned_above hback hrec (removeRec_turned hrec) (rebalance_turned_le h)

/-! ## The calls of a side -/

theorem updateStatsHeight_turned (h : avl.updateStatsHeight pool root stats b = .ok stats') : Turned 0 stats stats' := by
  unfold avl.updateStatsHeight at h
  obtain ⟨n, -, h⟩ := Exec.bind_eq_ok.1 h
  dsimp only at h
  split_ifs at h <;> cases h <;> exact Turned.zero rfl

variable {s s' : BookSide} {is : List Index}

/-- **`insert_level`** rotates once at most. -/
theorem insertLevel_turned (htree : s.SideTree pool is) (hv : Valid cap idx) (hnot : idx ∉ is)
    (h : s.insertLevel idx pool stats b = .ok (s', pool', stats')) : ∃ n ≤ 1, Turned n stats stats' := by
  obtain ⟨t, ht, rfl, hbal⟩ := htree.tree
  have hcap := height_le_cap ht htree.nodup
  unfold BookSide.insertLevel at h
  obtain ⟨lvl, -, h⟩ := Exec.bind_eq_ok.1 h
  obtain ⟨dense, -, h⟩ := Exec.bind_eq_ok.1 h
  obtain ⟨⟨pool1, root, stats1⟩, hins, h⟩ := Exec.bind_eq_ok.1 h
  obtain ⟨s1, -, h⟩ := Exec.bind_eq_ok.1 h
  obtain ⟨stats2, hheight, h⟩ := Exec.bind_eq_ok.1 h
  cases h
  have hturned := insertRec_turned hv ht htree.nodup hnot (by omega) hins
  have hrest : Turned 0 { stats1 with levelsCreated := stats1.levelsCreated + 1 } stats' := updateStatsHeight_turned hheight
  exact ⟨_, insertRepairs_le_one idx hbal, hturned.trans hrest⟩

/-- **`remove_level`** rotates once at most for each level of the tree. -/
theorem removeLevel_turned (ht : TreeAt pool t s.avlRoot p) (hnd : t.toList.Nodup)
    (h : s.removeLevel idx pool stats b = .ok (s', pool', stats')) : ∃ n ≤ t.height, Turned n stats stats' := by
  have hcap := height_le_cap ht hnd
  unfold BookSide.removeLevel at h
  obtain ⟨-, -, h⟩ := Exec.bind_eq_ok.1 h
  obtain ⟨lvl, -, h⟩ := Exec.bind_eq_ok.1 h
  obtain ⟨dense, -, h⟩ := Exec.bind_eq_ok.1 h
  obtain ⟨⟨pool1, root, stats1⟩, hrem, h⟩ := Exec.bind_eq_ok.1 h
  -- the public fuel is more than the tree is high, and one call more than it is high does the same
  rw [avl.remove, removeRec_fuel ht (Nat.lt_succ_of_le hcap) (Nat.lt_succ_self t.height)] at hrem
  obtain ⟨n, hn, hturned⟩ := removeRec_turned hrem
  refine ⟨n, hn, ?_⟩
  dsimp only at h
  split_ifs at h
  all_goals
    obtain ⟨bbo, -, h⟩ := Exec.bind_eq_ok.1 h
    obtain ⟨stats2, hheight, h⟩ := Exec.bind_eq_ok.1 h
    cases h
    have hrest : Turned 0 { stats1 with levelsDestroyed := stats1.levelsDestroyed + 1 } stats' := updateStatsHeight_turned hheight
    exact hturned.trans hrest

theorem destroyLevel_turned (h : BookSide.destroyLevel idx pool stats b = .ok (pool', stats')) : Turned 0 stats stats' := by
  unfold BookSide.destroyLevel at h
  obtain ⟨-, -, h⟩ := Exec.bind_eq_ok.1 h
  obtain ⟨-, -, h⟩ := Exec.bind_eq_ok.1 h
  obtain ⟨-, -, h⟩ := Exec.bind_eq_ok.1 h
  obtain ⟨-, -, h⟩ := Exec.bind_eq_ok.1 h
  obtain ⟨-, -, h⟩ := Exec.bind_eq_ok.1 h
  obtain ⟨-, -, h⟩ := Exec.bind_eq_ok.1 h
  obtain ⟨-, -, h⟩ := Exec.bind_eq_ok.1 h
  obtain ⟨pool1, -, h⟩ := Exec.bind_eq_ok.1 h
  cases h
  exact Turned.zero rfl

/-- **`remove_and_destroy_level`** rotates about `1.44 * log2 (n + 2)` times at most on a side of `n` levels. -/
theorem removeAndDestroyLevel_turned (htree : s.SideTree pool is)
    (h : s.removeAndDestroyLevel idx pool stats b = .ok (s', pool', stats')) :
    ∃ n : ℕ, (n : ℝ) ≤ 1.4405 * Real.logb 2 (is.length + 2) ∧ Turned n stats stats' := by
  obtain ⟨t, ht, rfl, hbal⟩ := htree.tree
  unfold BookSide.removeAndDestroyLevel at h
  obtain ⟨⟨s1, pool1, stats1⟩, hremove, h⟩ := Exec.bind_eq_ok.1 h
  obtain ⟨⟨pool2, stats2⟩, hdestroy, h⟩ := Exec.bind_eq_ok.1 h
  cases h
  obtain ⟨n, hn, hturned⟩ := removeLevel_turned ht htree.nodup hremove
  refine ⟨n, ?_, hturned.trans (destroyLevel_turned hdestroy)⟩
  have hle : (n : ℝ) ≤ t.height := by exact_mod_cast hn
  have hpos : 0 ≤ Real.logb 2 (t.size + 2) := Real.logb_nonneg (by norm_num) (by
    have : (0 : ℝ) ≤ t.size := Nat.cast_nonneg _
    linarith)
  rw [length_toList]
  exact (hle.trans hbal.height_le_logb).trans (mul_le_mul_of_nonneg_right (by norm_num) hpos)

end Trees

/-! ## Runs -/

/-- The calls that insert a level, and those that remove one. -/
def LevelCall.insertions (calls : List LevelCall) : ℕ := calls.countP fun
  | .insert _ => true
  | _ => false

def LevelCall.removals (calls : List LevelCall) : ℕ := calls.countP fun
  | .removeAndDestroy _ => true
  | _ => false

variable {c c' : LevelClient cap} {side : UInt8} {is : List Index} {call : LevelCall} {calls : List LevelCall} {b : Build}

/-- **One call**: an insertion rotates once at most, a removal as often as a tree that fills the pool is high. -/
theorem LevelClient.Ok.turned (h : c.Ok side is) (ha : call.Admissible c) (hrun : call.run c b = .ok c') :
    ∃ n : ℕ, (n : ℝ) ≤ LevelCall.insertions [call] + LevelCall.removals [call] * (1.4405 * Real.logb 2 (cap.size + 2)) ∧
      Turned n c.stats c'.stats := by
  cases call with
  | create price =>
    obtain ⟨⟨i, pool⟩, -, hrun⟩ := Exec.bind_eq_ok.1 hrun
    cases hrun
    exact ⟨0, by simp [LevelCall.insertions, LevelCall.removals], Turned.zero rfl⟩
  | insert idx =>
    obtain ⟨⟨s, pool, stats⟩, hcall, hrun⟩ := Exec.bind_eq_ok.1 hrun
    cases hrun
    obtain ⟨n, hn, hturned⟩ := insertLevel_turned h.levels.tree (h.levels.valid_created ha.1) (h.levels.apart idx ha.1) hcall
    refine ⟨n, ?_, hturned⟩
    have hle : (n : ℝ) ≤ 1 := by exact_mod_cast hn
    simpa [LevelCall.insertions, LevelCall.removals] using hle
  | removeAndDestroy idx =>
    obtain ⟨⟨s, pool, stats⟩, hcall, hrun⟩ := Exec.bind_eq_ok.1 hrun
    cases hrun
    obtain ⟨n, hn, hturned⟩ := removeAndDestroyLevel_turned h.levels.tree hcall
    refine ⟨n, hn.trans ?_, hturned⟩
    obtain ⟨t, ht, hts, -⟩ := h.levels.tree.tree
    have hsize : is.length ≤ cap.size := by
      rw [← hts, length_toList]
      exact size_le_cap ht (hts ▸ h.levels.tree.nodup)
    have hsize' : (is.length : ℝ) ≤ cap.size := by exact_mod_cast hsize
    have hpos : (0 : ℝ) < is.length + 2 := by positivity
    have hlog : Real.logb 2 (is.length + 2) ≤ Real.logb 2 (cap.size + 2) :=
      Real.logb_le_logb_of_le (by norm_num) hpos (by linarith)
    have hins : LevelCall.insertions [.removeAndDestroy idx] = 0 := rfl
    have hrem : LevelCall.removals [.removeAndDestroy idx] = 1 := rfl
    rw [hins, hrem, Nat.cast_zero, Nat.cast_one, zero_add, one_mul]
    exact mul_le_mul_of_nonneg_left hlog (by norm_num)

/-- **The rotations of a run.** After every run of level calls `total_rotations` has counted at most one rotation for each
insertion, and for each removal at most `1.4405 * log2 (cap + 2)`, the height of a tree that fills the pool. -/
theorem rotations_bounded (h : (levelRuns cap side).Trace calls c) :
    ∃ n : ℕ, c.stats.totalRotations = UInt64.ofNat n ∧
      (n : ℝ) ≤ LevelCall.insertions calls + LevelCall.removals calls * (1.4405 * Real.logb 2 (cap.size + 2)) := by
  have hrun : (∃ is, c.Ok side is) ∧ ∃ n : ℕ, Turned n AVLStatistics.zero c.stats ∧
      (n : ℝ) ≤ LevelCall.insertions calls + LevelCall.removals calls * (1.4405 * Real.logb 2 (cap.size + 2)) := by
    refine h.invariant (fun calls c => (∃ is, c.Ok side is) ∧ ∃ n : ℕ, Turned n AVLStatistics.zero c.stats ∧
      (n : ℝ) ≤ LevelCall.insertions calls + LevelCall.removals calls * (1.4405 * Real.logb 2 (cap.size + 2))) ?_ ?_
    · rintro c ⟨slots, rfl⟩
      exact ⟨⟨[], LevelClient.ok_new side slots⟩, 0, Turned.zero rfl, by simp [LevelCall.insertions, LevelCall.removals]⟩
    · rintro calls c call c' ⟨⟨is, hok⟩, n, hturned, hn⟩ ⟨ha, b, hrun⟩
      obtain ⟨m, hm, hturned'⟩ := hok.turned ha hrun
      obtain ⟨c1, is', e, hok'⟩ := hok.step ha
      rw [e, Exec.pure_apply] at hrun
      cases hrun
      refine ⟨⟨is', hok'⟩, n + m, hturned.trans hturned', ?_⟩
      have hins : LevelCall.insertions (calls ++ [call]) = LevelCall.insertions calls + LevelCall.insertions [call] :=
        List.countP_append
      have hrem : LevelCall.removals (calls ++ [call]) = LevelCall.removals calls + LevelCall.removals [call] :=
        List.countP_append
      rw [hins, hrem]
      push_cast
      linarith
  obtain ⟨-, n, hturned, hn⟩ := hrun
  refine ⟨n, ?_, hn⟩
  have hzero : AVLStatistics.zero.totalRotations = 0 := rfl
  rw [Turned, hzero, zero_add] at hturned
  exact hturned

/-- Two rotations, one of an insertion and one of a removal. -/
theorem rotations_bounded_bids : ∃ c, ∃ n : ℕ, (levelRuns fiveLevels 0).Trace bidCalls c ∧ c.stats.rrRotations = 1 ∧
    c.stats.llRotations = 1 ∧ c.stats.totalRotations = UInt64.ofNat n ∧ (n : ℝ) ≤ 5 + 2 * (1.4405 * Real.logb 2 (5 + 2)) := by
  obtain ⟨c, h, -, -, -, hrr, hll⟩ := bidCalls_trace
  obtain ⟨n, e, hn⟩ := rotations_bounded h
  exact ⟨c, n, h, hrr, hll, e, hn⟩

end TradeCore
