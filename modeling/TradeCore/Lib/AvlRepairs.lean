import TradeCore.Lib.AvlTree
/-!
# How often an AVL tree is repaired

`repairs l a r` is 1 where `rebalance l a r` rotates and 0 where it leaves the node alone, `insertRepairs` adds this up over the
nodes that an insertion comes back through. An insertion repairs at most one node (`insertRepairs_le_one`): what grew by one
level is heavy on one side, so the node that repairs it has the height of before, and the nodes above see no change.
-/

namespace Avl.BinTree

variable {α κ : Type*} {l r : BinTree α} {a : α}

/-- Whether `rebalance` rotates at a node. -/
def repairs (l : BinTree α) (a : α) (r : BinTree α) : ℕ :=
  if (node l a r).balance < -1 ∨ (node l a r).balance > 1 then 1 else 0

theorem repairs_le_one (l : BinTree α) (a : α) (r : BinTree α) : repairs l a r ≤ 1 := by
  unfold repairs
  split <;> omega

theorem repairs_of_balanced (a : α) (h1 : l.height ≤ r.height + 1) (h2 : r.height ≤ l.height + 1) : repairs l a r = 0 := by
  have hbal := balance_node l a r
  unfold repairs
  rw [if_neg (by omega)]

/-! ## A repair that takes the growth back -/

/-- A right subtree that is taller by two and leans to a side: the repaired node is no higher than it. -/
theorem height_repair_right (ha : r.height = l.height + 2) (hr : r.Balanced) (hlean : r.balance ≠ 0) :
    (rebalance l a r).height = r.height := by
  have hbal := balance_node l a r
  cases r with
  | nil =>
    rw [height_nil] at ha
    omega
  | node u y x =>
    obtain ⟨hu, hx, h1, h2⟩ := hr
    rw [balance_node] at hlean
    simp only [height_node] at ha hbal
    unfold rebalance
    rw [if_neg (by omega), if_pos (by omega)]
    by_cases hb : (node u y x).balance ≥ 0
    · rw [if_pos hb]
      rw [balance_node] at hb
      simp only [rotateLeft, height_node]
      omega
    · rw [if_neg hb]
      rw [balance_node] at hb
      cases u with
      | nil =>
        rw [height_nil] at hb
        omega
      | node v w s =>
        obtain ⟨hv, hs, h3, h4⟩ := hu
        simp only [height_node] at ha hb h1 h2
        simp only [rotateRight, rotateLeft, height_node]
        omega

theorem height_repair_left (ha : l.height = r.height + 2) (hl : l.Balanced) (hlean : l.balance ≠ 0) :
    (rebalance l a r).height = l.height := by
  have hbal := balance_node l a r
  cases l with
  | nil =>
    rw [height_nil] at ha
    omega
  | node x y u =>
    obtain ⟨hx, hu, h1, h2⟩ := hl
    rw [balance_node] at hlean
    simp only [height_node] at ha hbal
    unfold rebalance
    rw [if_pos (by omega)]
    by_cases hb : (node x y u).balance ≤ 0
    · rw [if_pos hb]
      rw [balance_node] at hb
      simp only [rotateRight, height_node]
      omega
    · rw [if_neg hb]
      rw [balance_node] at hb
      cases u with
      | nil =>
        rw [height_nil] at hb
        omega
      | node v w s =>
        obtain ⟨hv, hs, h3, h4⟩ := hu
        simp only [height_node] at ha hb h1 h2
        simp only [rotateRight, rotateLeft, height_node]
        omega

/-! ## Insertion -/

section Keyed

variable [LinearOrder κ] (key : α → κ)

/-- The nodes at which an insertion rotates. -/
def insertRepairs (x : α) : BinTree α → ℕ
  | nil => 0
  | node l a r =>
    if key x < key a then insertRepairs x l + repairs (insert key x l) a r
    else insertRepairs x r + repairs l a (insert key x r)

/-- What an insertion does to the height: it was repaired back, or it grew by a level, leans, and needed no repair yet. -/
def Regrown (t t' : BinTree α) (n : ℕ) : Prop :=
  (t'.height = t.height ∧ n ≤ 1) ∨ (t'.height = t.height + 1 ∧ n = 0 ∧ (t = nil ∨ t'.balance ≠ 0))

variable {key}

/-- The node above a left subtree that was inserted into. -/
theorem Regrown.left {l' : BinTree α} {n : ℕ} (h : Regrown l l' n) (a : α) (hl' : l'.Balanced)
    (h1 : l.height ≤ r.height + 1) (h2 : r.height ≤ l.height + 1) :
    Regrown (node l a r) (rebalance l' a r) (n + repairs l' a r) := by
  rcases h with ⟨hheight, hn⟩ | ⟨hheight, rfl, hlean⟩
  · -- the subtree is as high as it was
    have hb1 : l'.height ≤ r.height + 1 := by omega
    have hb2 : r.height ≤ l'.height + 1 := by omega
    rw [rebalance_of_balanced a hb1 hb2, repairs_of_balanced a hb1 hb2]
    exact Or.inl ⟨by rw [height_node, height_node, hheight], hn⟩
  · by_cases hb1 : l'.height ≤ r.height + 1
    · have hb2 : r.height ≤ l'.height + 1 := by omega
      rw [rebalance_of_balanced a hb1 hb2, repairs_of_balanced a hb1 hb2]
      by_cases hgrow : l'.height ≤ r.height
      · refine Or.inl ⟨?_, by omega⟩
        rw [height_node, height_node]
        omega
      · refine Or.inr ⟨?_, rfl, Or.inr ?_⟩
        · rw [height_node, height_node]
          omega
        · rw [balance_node]
          omega
    · -- the subtree was the higher one and grew: it leans, and the repair takes the growth back
      have hlean' : l'.balance ≠ 0 := by
        refine hlean.resolve_left fun hnil => ?_
        rw [hnil, height_nil] at hheight
        omega
      refine Or.inl ⟨?_, by have := repairs_le_one l' a r; omega⟩
      rw [height_repair_left (by omega) hl' hlean', height_node]
      omega

theorem Regrown.right {r' : BinTree α} {n : ℕ} (h : Regrown r r' n) (a : α) (hr' : r'.Balanced)
    (h1 : l.height ≤ r.height + 1) (h2 : r.height ≤ l.height + 1) :
    Regrown (node l a r) (rebalance l a r') (n + repairs l a r') := by
  rcases h with ⟨hheight, hn⟩ | ⟨hheight, rfl, hlean⟩
  · have hb1 : l.height ≤ r'.height + 1 := by omega
    have hb2 : r'.height ≤ l.height + 1 := by omega
    rw [rebalance_of_balanced a hb1 hb2, repairs_of_balanced a hb1 hb2]
    exact Or.inl ⟨by rw [height_node, height_node, hheight], hn⟩
  · by_cases hb2 : r'.height ≤ l.height + 1
    · have hb1 : l.height ≤ r'.height + 1 := by omega
      rw [rebalance_of_balanced a hb1 hb2, repairs_of_balanced a hb1 hb2]
      by_cases hgrow : r'.height ≤ l.height
      · refine Or.inl ⟨?_, by omega⟩
        rw [height_node, height_node]
        omega
      · refine Or.inr ⟨?_, rfl, Or.inr ?_⟩
        · rw [height_node, height_node]
          omega
        · rw [balance_node]
          omega
    · have hlean' : r'.balance ≠ 0 := by
        refine hlean.resolve_left fun hnil => ?_
        rw [hnil, height_nil] at hheight
        omega
      refine Or.inl ⟨?_, by have := repairs_le_one l a r'; omega⟩
      rw [height_repair_right (by omega) hr' hlean', height_node]
      omega

theorem insert_regrown (x : α) : ∀ {t : BinTree α}, t.Balanced → Regrown t (insert key x t) (insertRepairs key x t)
  | nil, _ => Or.inr ⟨rfl, rfl, Or.inl rfl⟩
  | node l a r, ⟨hl, hr, h1, h2⟩ => by
    unfold insert insertRepairs
    split
    · exact (insert_regrown x hl).left a (hl.insert x) h1 h2
    · exact (insert_regrown x hr).right a (hr.insert x) h1 h2

/-- **An insertion rotates at one node at most.** -/
theorem insertRepairs_le_one {t : BinTree α} (x : α) (ht : t.Balanced) : insertRepairs key x t ≤ 1 := by
  obtain ⟨-, hn⟩ | ⟨-, hn, -⟩ : Regrown t (insert key x t) (insertRepairs key x t) := insert_regrown x ht
  · omega
  · omega

end Keyed

end Avl.BinTree
