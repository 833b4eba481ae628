import TradeCore.Matching.FillOrKill
import TradeCore.Orderbook.BookDigest
import TradeCore.Orderbook.LevelLifecycle
/-!
# How deep the recursions over a side's tree go

Each recursion of the source over the tree of a side takes fuel here, one unit a nested call. More fuel than the
tree is high changes nothing (the `_fuel` lemmas), and a balanced tree is logarithmically high: so the nesting of
`find`, `insert`, `remove`, `scan_tree` and the digest is logarithmic in the number of levels, in every run of level
calls (`tree_height_logarithmic`).
-/

namespace TradeCore

open ObjectPool BookSide Avl Avl.BinTree

variable {cap maxOrders : PoolCapacity}

section Fuel

variable {pool : PriceLevelPool cap}

theorem findLoop_fuel (price : UInt32) : ∀ {t : BinTree Index} {x p : Index} {fuel fuel' : ℕ}, TreeAt pool t x p →
    t.height < fuel → t.height < fuel' → avl.findLoop pool price fuel x = avl.findLoop pool price fuel' x := by
  intro t x p fuel fuel' h hf hf'
  rw [findLoop_spec price h hf, findLoop_spec price h hf']

theorem insertRec_fuel (new : Index) : ∀ {t : BinTree Index} {x p : Index} {fuel fuel' : ℕ}, TreeAt pool t x p →
    t.height < fuel → t.height < fuel' → ∀ stats, avl.insertRec new fuel pool x stats = avl.insertRec new fuel' pool x stats
  | _, _, _, 0, _, _, hf, _ => by omega
  | _, _, _, _ + 1, 0, _, _, hf' => by omega
  | nil, x, p, fuel + 1, fuel' + 1, h, _, _ => by
    intro stats
    have hx : x = kInvalidPoolIndex := h
    simp only [avl.insertRec, hx, if_true]
  | node l i r, x, p, fuel + 1, fuel' + 1, h, hf, hf' => by
    intro stats
    obtain ⟨rfl, hh, -⟩ := TreeAt.node_iff.1 h
    simp only [height_node] at hf hf'
    have hleft : ∀ stats, avl.insertRec new fuel pool (pool.slots x).node.left stats =
        avl.insertRec new fuel' pool (pool.slots x).node.left stats :=
      insertRec_fuel new hh.near (by omega) (by omega)
    have hright : ∀ stats, avl.insertRec new fuel pool (pool.slots x).node.right stats =
        avl.insertRec new fuel' pool (pool.slots x).node.right stats :=
      insertRec_fuel new hh.far (by omega) (by omega)
    simp only [avl.insertRec, get_eq _ hh.valid, pure_bind, hleft, hright]

theorem removeRec_fuel : ∀ {t : BinTree Index} {x p : Index} {fuel fuel' : ℕ}, TreeAt pool t x p →
    t.height < fuel → t.height < fuel' → ∀ target stats,
      avl.removeRec fuel pool x target stats = avl.removeRec fuel' pool x target stats
  | _, _, _, 0, _, _, hf, _ => by omega
  | _, _, _, _ + 1, 0, _, _, hf' => by omega
  | nil, x, p, fuel + 1, fuel' + 1, h, _, _ => by
    intro target stats
    have hx : x = kInvalidPoolIndex := h
    simp only [avl.removeRec, hx, if_true]
  | node l i r, x, p, fuel + 1, fuel' + 1, h, hf, hf' => by
    intro target stats
    obtain ⟨rfl, hh, -⟩ := TreeAt.node_iff.1 h
    simp only [height_node] at hf hf'
    have hleft : ∀ target stats, avl.removeRec fuel pool (pool.slots x).node.left target stats =
        avl.removeRec fuel' pool (pool.slots x).node.left target stats :=
      removeRec_fuel hh.near (by omega) (by omega)
    have hright : ∀ target stats, avl.removeRec fuel pool (pool.slots x).node.right target stats =
        avl.removeRec fuel' pool (pool.slots x).node.right target stats :=
      removeRec_fuel hh.far (by omega) (by omega)
    simp only [avl.removeRec, get_eq _ hh.valid, pure_bind, hleft, hright]

theorem scanTree_fuel (side : UInt8) : ∀ {t : BinTree Index} {x p : Index} {fuel fuel' : ℕ}, TreeAt pool t x p →
    t.height < fuel → t.height < fuel' → ∀ remaining,
      LiquidityAnalyzer.scanTree side pool fuel x remaining = LiquidityAnalyzer.scanTree side pool fuel' x remaining
  | _, _, _, 0, _, _, hf, _ => by omega
  | _, _, _, _ + 1, 0, _, _, hf' => by omega
  | nil, x, p, fuel + 1, fuel' + 1, h, _, _ => by
    intro remaining
    have hx : x = kInvalidPoolIndex := h
    simp only [LiquidityAnalyzer.scanTree, hx, true_or, if_true]
  | node l i r, x, p, fuel + 1, fuel' + 1, h, hf, hf' => by
    intro remaining
    obtain ⟨rfl, hh, -⟩ := TreeAt.node_iff.1 h
    simp only [height_node] at hf hf'
    have hleft : ∀ remaining, LiquidityAnalyzer.scanTree side pool fuel (pool.slots x).node.left remaining =
        LiquidityAnalyzer.scanTree side pool fuel' (pool.slots x).node.left remaining :=
      scanTree_fuel side hh.near (by omega) (by omega)
    have hright : ∀ remaining, LiquidityAnalyzer.scanTree side pool fuel (pool.slots x).node.right remaining =
        LiquidityAnalyzer.scanTree side pool fuel' (pool.slots x).node.right remaining :=
      scanTree_fuel side hh.far (by omega) (by omega)
    by_cases hside : side = 0
    · simp only [LiquidityAnalyzer.scanTree, get_eq _ hh.valid, pure_bind, if_pos hside, hleft, hright]
    · simp only [LiquidityAnalyzer.scanTree, get_eq _ hh.valid, pure_bind, if_neg hside, hleft, hright]

theorem traverse_fuel {α : Type} (combine : α → UInt64 → α) (first : Dir) (orders : OrderPool maxOrders) :
    ∀ {t : BinTree Index} {x p : Index} {fuel fuel' : ℕ}, TreeAt pool t x p → t.height < fuel → t.height < fuel' →
      ∀ hash, BookDigest.traverse combine first pool orders fuel hash x =
        BookDigest.traverse combine first pool orders fuel' hash x
  | _, _, _, 0, _, _, hf, _ => by omega
  | _, _, _, _ + 1, 0, _, _, hf' => by omega
  | nil, x, p, fuel + 1, fuel' + 1, h, _, _ => by
    intro hash
    have hx : x = kInvalidPoolIndex := h
    simp only [BookDigest.traverse, hx, if_true]
  | node l i r, x, p, fuel + 1, fuel' + 1, h, hf, hf' => by
    intro hash
    obtain ⟨rfl, hh, -⟩ := TreeAt.node_iff.1 h
    simp only [height_node] at hf hf'
    have hchild : ∀ d hash, BookDigest.traverse combine first pool orders fuel hash ((pool.slots x).node.child d) =
        BookDigest.traverse combine first pool orders fuel' hash ((pool.slots x).node.child d) := by
      intro d
      cases d with
      | left => exact traverse_fuel combine first orders hh.near (by omega) (by omega)
      | right => exact traverse_fuel combine first orders hh.far (by omega) (by omega)
    simp only [BookDigest.traverse, get_eq _ hh.valid, pure_bind, hchild]

end Fuel

/-- `depth` nested calls are enough for each recursion over the tree of the side: what comes out is what the callers get,
who allow as many as the pool has slots, and one more. -/
structure RecursionsWithin (c : LevelClient cap) (depth : ℕ) : Prop where
  find : ∀ price, avl.findLoop c.pool price depth c.side.avlRoot = avl.find c.pool c.side.avlRoot price ∧
    ∃ i, avl.find c.pool c.side.avlRoot price = pure i
  insert : ∀ idx ∈ c.created, ∀ stats,
    avl.insertRec idx depth c.pool c.side.avlRoot stats = avl.insert c.pool c.side.avlRoot idx stats ∧
      ∃ res, avl.insert c.pool c.side.avlRoot idx stats = pure res
  remove : ∀ idx ∈ c.present, ∀ stats,
    avl.removeRec depth c.pool c.side.avlRoot idx stats = avl.remove c.pool c.side.avlRoot idx stats ∧
      ∃ res, avl.remove c.pool c.side.avlRoot idx stats = pure res
  scanTree : ∀ side remaining, LiquidityAnalyzer.scanTree side c.pool depth c.side.avlRoot remaining =
      LiquidityAnalyzer.scanTree side c.pool (cap.size + 1) c.side.avlRoot remaining ∧
    ∃ res, LiquidityAnalyzer.scanTree side c.pool (cap.size + 1) c.side.avlRoot remaining = pure res
  digest : ∀ {maxOrders : PoolCapacity} {α : Type} (combine : α → UInt64 → α) first (orders : OrderPool maxOrders) hash,
    BookDigest.traverse combine first c.pool orders depth hash c.side.avlRoot =
      BookDigest.traverse combine first c.pool orders (cap.size + 1) hash c.side.avlRoot

/-- **One more nested call than the tree is high.** -/
theorem LevelClient.Ok.recursions {c : LevelClient cap} {side : UInt8} {is : List Index} {t : BinTree Index} {p : Index}
    (hok : c.Ok side is) (ht : TreeAt c.pool t c.side.avlRoot p) (hts : t.toList = is) :
    RecursionsWithin c (t.height + 1) := by
  have htree := hok.levels.tree
  have hsorted : Sorted c.pool.priceOf t := by
    unfold Sorted
    rw [hts]
    exact htree.sorted
  have hcap := height_le_cap ht hsorted.nodup
  have hpub : t.height < cap.size + 1 := Nat.lt_succ_of_le hcap
  have hdepth : t.height < t.height + 1 := Nat.lt_succ_self _
  constructor
  · intro price
    exact ⟨findLoop_fuel price ht hdepth hpub, _, find_spec ht hsorted.nodup price⟩
  · intro idx hidx stats
    have hnot : idx ∉ t.toList := by
      rw [hts]
      exact hok.levels.apart idx hidx
    obtain ⟨pool', root, stats', e, -⟩ := insert_spec ht hsorted.nodup (hok.levels.valid_created hidx) hnot stats
    exact ⟨insertRec_fuel idx ht hdepth hpub stats, _, e⟩
  · intro idx hidx stats
    have hmem : idx ∈ t.toList := by
      rw [hts]
      exact hok.mem_present.1 hidx
    obtain ⟨pool', root, stats', e, -⟩ := remove_spec ht hsorted hmem stats
    exact ⟨removeRec_fuel ht hdepth hpub idx stats, _, e⟩
  · intro side remaining
    obtain ⟨found, e, -⟩ := LiquidityAnalyzer.scanTree_spec side remaining ht hpub
    exact ⟨scanTree_fuel side ht hdepth hpub remaining, _, e⟩
  · intro maxOrders α combine first orders hash
    exact traverse_fuel combine first orders ht hdepth hpub hash

/-- **Logarithmic height.** After every run of level calls the tree of `n` levels with stored height `h` satisfies
`n ≥ fib (h + 2) - 1`, so `h` is at most about `1.44 * log2 (n + 2)`, and `h + 1` nested calls are enough for `find`,
`insert`, `remove`, `scan_tree` and the digest. -/
theorem tree_height_logarithmic {side : UInt8} {calls : List LevelCall} {c : LevelClient cap}
    (h : (levelRuns cap side).Trace calls c) :
    ∃ height : ℕ, avl.height c.pool c.side.avlRoot = pure (height : ℤ) ∧
      Nat.fib (height + 2) - 1 ≤ c.side.levelCount ∧
      (height : ℝ) ≤ 1.4405 * Real.logb 2 (c.side.levelCount + 2) ∧
      RecursionsWithin c (height + 1) := by
  obtain ⟨is, hok⟩ := LevelClient.ok_of_trace h
  obtain ⟨t, ht, hts, hbal⟩ := hok.levels.tree.tree
  have hcount : c.side.levelCount = t.size := by rw [hok.levels.tree.count, ← hts, length_toList]
  refine ⟨t.height, ht.height_eq, ?_, ?_, hok.recursions ht hts⟩
  · have := hbal.fib_le_size
    omega
  · have hlog : 0 ≤ Real.logb 2 (t.size + 2) := Real.logb_nonneg (by norm_num) (by
      have : (0 : ℝ) ≤ t.size := Nat.cast_nonneg _
      linarith)
    rw [hcount]
    exact hbal.height_le_logb.trans (mul_le_mul_of_nonneg_right (by norm_num) hlog)

theorem tree_height_logarithmic_bids : ∃ c height, (levelRuns fiveLevels 0).Trace bidCalls c ∧ c.present = {0, 1, 3} ∧
    avl.height c.pool c.side.avlRoot = pure ((height : ℕ) : ℤ) ∧ Nat.fib (height + 2) - 1 ≤ c.side.levelCount ∧
      (height : ℝ) ≤ 1.4405 * Real.logb 2 (c.side.levelCount + 2) ∧ RecursionsWithin c (height + 1) := by
  obtain ⟨c, h, hpresent, -⟩ := bidCalls_trace
  obtain ⟨height, e, hbounds⟩ := tree_height_logarithmic h
  exact ⟨c, height, h, hpresent, e, hbounds⟩

end TradeCore
