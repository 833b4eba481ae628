import Mathlib
/-!
# AVL trees as values

A binary tree with a payload at every node, its rotations, and insertion and deletion with the usual
height repair. Keys are read off the payload by a function `key : α → κ`; the order of the tree is
the order of the keys. Heights are computed, not stored: an implementation that stores them refines
these functions node by node (`LinkedTree.lean`).

`erase` moves the in-order successor up: it removes the least entry of the right subtree by the same
function and puts it in the place of the erased root.

Main results: `toList_rebalance`, `rebalance_spec`, `Balanced.insert`, `Balanced.erase`,
`insert_split`, `toList_erase`, `Balanced.fib_le_size`, `Balanced.height_le_logb`.
-/

namespace Avl

inductive BinTree (α : Type*) where
  | nil
  | node (l : BinTree α) (a : α) (r : BinTree α)
deriving DecidableEq, Repr

/-- The two sides of a node. -/
inductive Dir where
  | left
  | right
deriving DecidableEq, Repr

def Dir.flip : Dir → Dir
  | left => right
  | right => left

@[simp] theorem Dir.flip_flip (d : Dir) : d.flip.flip = d := by cases d <;> rfl

@[simp] theorem Dir.flip_ne (d : Dir) : d.flip ≠ d := by cases d <;> decide

@[simp] theorem Dir.ne_flip (d : Dir) : d ≠ d.flip := by cases d <;> decide

/-- The listing of a tree as a walk meets it that turns to side `d` first. -/
def Dir.visit {α : Type*} : Dir → List α → List α
  | left, xs => xs
  | right, xs => xs.reverse

theorem Dir.visit_perm {α : Type*} (d : Dir) (xs : List α) : (d.visit xs).Perm xs := by
  cases d
  · exact List.Perm.refl xs
  · exact List.reverse_perm xs

namespace BinTree

variable {α κ : Type*}

/-- The node with subtree `near` on side `d` and `far` on the other side. -/
def nodeOn (d : Dir) (near : BinTree α) (a : α) (far : BinTree α) : BinTree α :=
  match d with
  | .left => node near a far
  | .right => node far a near

/-- In-order listing. -/
def toList : BinTree α → List α
  | nil => []
  | node l a r => l.toList ++ a :: r.toList

def height : BinTree α → ℕ
  | nil => 0
  | node l _ r => 1 + max l.height r.height

def size : BinTree α → ℕ
  | nil => 0
  | node l _ r => l.size + 1 + r.size

/-- Height of the right subtree minus height of the left one. -/
def balance : BinTree α → ℤ
  | nil => 0
  | node l _ r => (r.height : ℤ) - l.height

def rotateRight : BinTree α → BinTree α
  | node (node x y t) z u => node x y (node t z u)
  | t => t

def rotateLeft : BinTree α → BinTree α
  | node t z (node u y x) => node (node t z u) y x
  | t => t

/-- The height repair at a node whose subtrees are balanced and differ by at most two. -/
def rebalance (l : BinTree α) (a : α) (r : BinTree α) : BinTree α :=
  if (node l a r).balance < -1 then
    if l.balance ≤ 0 then rotateRight (node l a r) else rotateRight (node (rotateLeft l) a r)
  else if (node l a r).balance > 1 then
    if r.balance ≥ 0 then rotateLeft (node l a r) else rotateLeft (node l a (rotateRight r))
  else node l a r

/-- The leftmost entry. -/
def first : BinTree α → Option α
  | nil => none
  | node nil a _ => some a
  | node (node l b r) _ _ => first (node l b r)

/-- The rightmost entry. -/
def last : BinTree α → Option α
  | nil => none
  | node _ a nil => some a
  | node _ _ (node l b r) => last (node l b r)

/-- What takes the place of an erased root: its only subtree, or the repaired node with the in-order
successor `s` on top, `del s` being the right subtree without `s`. -/
def eraseRoot (l r : BinTree α) (del : α → BinTree α) : BinTree α :=
  match l, r.first with
  | nil, _ => r
  | l, none => l
  | l, some s => rebalance l s (del s)

section Keyed
variable [LinearOrder κ] (key : α → κ)

def insert (x : α) : BinTree α → BinTree α
  | nil => node nil x nil
  | node l a r => if key x < key a then rebalance (insert x l) a r else rebalance l a (insert x r)

/-- Remove the entry with key `k`; its in-order successor takes its place when it has two children. -/
def erase : BinTree α → κ → BinTree α
  | nil, _ => nil
  | node l a r, k =>
    if k < key a then rebalance (erase l k) a r
    else if key a < k then rebalance l a (erase r k)
    else eraseRoot l r fun s => erase r (key s)

/-- Search by key. -/
def find? (k : κ) : BinTree α → Option α
  | nil => none
  | node l a r => if k = key a then some a else if k < key a then find? k l else find? k r

/-- The keys increase strictly from left to right. -/
def Sorted (t : BinTree α) : Prop := t.toList.Pairwise fun a b => key a < key b

end Keyed

/-- At every node the subtree heights differ by at most one. -/
def Balanced : BinTree α → Prop
  | nil => True
  | node l _ r => l.Balanced ∧ r.Balanced ∧ l.height ≤ r.height + 1 ∧ r.height ≤ l.height + 1

@[simp] theorem toList_nil : (nil : BinTree α).toList = [] := rfl

@[simp] theorem toList_node (l : BinTree α) (a : α) (r : BinTree α) :
    (node l a r).toList = l.toList ++ a :: r.toList := rfl

@[simp] theorem height_nil : (nil : BinTree α).height = 0 := rfl

@[simp] theorem height_node (l : BinTree α) (a : α) (r : BinTree α) :
    (node l a r).height = 1 + max l.height r.height := rfl

theorem mem_nodeOn {d : Dir} {near far : BinTree α} {a x : α} :
    x ∈ (nodeOn d near a far).toList ↔ x ∈ near.toList ∨ x = a ∨ x ∈ far.toList := by
  cases d <;> simp [nodeOn]
  tauto

/-- The listing of a node has no repetition when its three parts have none and are disjoint. -/
theorem nodup_nodeOn {d : Dir} {near far : BinTree α} {a : α} :
    (nodeOn d near a far).toList.Nodup ↔ near.toList.Nodup ∧ far.toList.Nodup ∧ a ∉ near.toList ∧ a ∉ far.toList ∧
      ∀ x ∈ near.toList, x ∉ far.toList := by
  cases d <;> simp only [nodeOn, toList_node, List.nodup_append, List.nodup_cons, List.mem_cons, ne_eq,
    forall_eq_or_imp]
  · constructor
    · rintro ⟨h1, ⟨h2, h3⟩, h4⟩
      exact ⟨h1, h3, fun h => (h4 a h).1 rfl, h2, fun x hx hx' => (h4 x hx).2 x hx' rfl⟩
    · rintro ⟨h1, h2, h3, h4, h5⟩
      exact ⟨h1, ⟨h4, h2⟩, fun x hx => ⟨fun e => h3 (e ▸ hx), fun y hy e => h5 x hx (e ▸ hy)⟩⟩
  · constructor
    · rintro ⟨h1, ⟨h2, h3⟩, h4⟩
      exact ⟨h3, h1, h2, fun h => (h4 a h).1 rfl, fun x hx hx' => (h4 x hx').2 x hx rfl⟩
    · rintro ⟨h1, h2, h3, h4, h5⟩
      exact ⟨h2, ⟨h3, h1⟩, fun x hx => ⟨fun e => h4 (e ▸ hx), fun y hy e => h5 y hy (e ▸ hx)⟩⟩

theorem height_nodeOn (d : Dir) (near : BinTree α) (a : α) (far : BinTree α) :
    (nodeOn d near a far).height = 1 + max near.height far.height := by
  cases d
  · rfl
  · simp [nodeOn, Nat.max_comm]

theorem balance_node (l : BinTree α) (a : α) (r : BinTree α) :
    (node l a r).balance = (r.height : ℤ) - l.height := rfl

theorem length_toList (t : BinTree α) : t.toList.length = t.size := by
  induction t with
  | nil => rfl
  | node l a r ihl ihr => simp only [toList_node, List.length_append, List.length_cons, size, ihl, ihr]; omega

theorem toList_eq_nil {t : BinTree α} : t.toList = [] ↔ t = nil := by
  cases t <;> simp

theorem height_le_size (t : BinTree α) : t.height ≤ t.size := by
  induction t with
  | nil => exact Nat.le_refl _
  | node l a r ihl ihr => simp only [height_node, size]; omega

/-! ## Rotations and the repair keep the listing -/

@[simp] theorem toList_rotateRight (t : BinTree α) : t.rotateRight.toList = t.toList := by
  rcases t with _ | ⟨_ | ⟨x, y, t⟩, z, u⟩ <;> simp [rotateRight]

@[simp] theorem toList_rotateLeft (t : BinTree α) : t.rotateLeft.toList = t.toList := by
  rcases t with _ | ⟨t, z, _ | ⟨u, y, x⟩⟩ <;> simp [rotateLeft]

@[simp] theorem toList_rebalance (l : BinTree α) (a : α) (r : BinTree α) :
    (rebalance l a r).toList = l.toList ++ a :: r.toList := by
  unfold rebalance
  split
  · split <;> simp
  · split
    · split <;> simp
    · rfl

/-! ## Heights -/

/-- Repair of a node whose right subtree is taller by two. -/
theorem balanced_rotateLeft_cases {l r : BinTree α} {a : α} (hl : l.Balanced) (hr : r.Balanced)
    (h : r.height = l.height + 2) :
    let t := if r.balance ≥ 0 then rotateLeft (node l a r) else rotateLeft (node l a (rotateRight r))
    t.Balanced ∧ r.height ≤ t.height ∧ t.height ≤ r.height + 1 := by
  match r, hr with
  | node u y x, ⟨hu, hx, h1, h2⟩ =>
    simp only [height_node] at h
    simp only [balance]
    by_cases hb : (x.height : ℤ) - u.height ≥ 0
    · simp only [hb, if_true, rotateLeft, Balanced, height_node]
      refine ⟨⟨⟨hl, hu, ?_, ?_⟩, hx, ?_, ?_⟩, ?_, ?_⟩ <;> omega
    · simp only [hb, if_false]
      match u, hu with
      | nil, _ => simp only [height_nil] at *; omega
      | node v w s, ⟨hv, hs, h3, h4⟩ =>
        simp only [height_node] at *
        simp only [rotateRight, rotateLeft, Balanced, height_node]
        refine ⟨⟨⟨hl, hv, ?_, ?_⟩, ⟨hs, hx, ?_, ?_⟩, ?_, ?_⟩, ?_, ?_⟩ <;> omega

/-- Repair of a node whose left subtree is taller by two. -/
theorem balanced_rotateRight_cases {l r : BinTree α} {a : α} (hl : l.Balanced) (hr : r.Balanced)
    (h : l.height = r.height + 2) :
    let t := if l.balance ≤ 0 then rotateRight (node l a r) else rotateRight (node (rotateLeft l) a r)
    t.Balanced ∧ l.height ≤ t.height ∧ t.height ≤ l.height + 1 := by
  match l, hl with
  | node x y u, ⟨hx, hu, h1, h2⟩ =>
    simp only [height_node] at h
    simp only [balance]
    by_cases hb : (u.height : ℤ) - x.height ≤ 0
    · simp only [hb, if_true, rotateRight, Balanced, height_node]
      refine ⟨⟨hx, ⟨hu, hr, ?_, ?_⟩, ?_, ?_⟩, ?_, ?_⟩ <;> omega
    · simp only [hb, if_false]
      match u, hu with
      | nil, _ => simp only [height_nil] at *; omega
      | node v w s, ⟨hv, hs, h3, h4⟩ =>
        simp only [height_node] at *
        simp only [rotateRight, rotateLeft, Balanced, height_node]
        refine ⟨⟨⟨hx, hv, ?_, ?_⟩, ⟨hs, hr, ?_, ?_⟩, ?_, ?_⟩, ?_, ?_⟩ <;> omega

/-- **The height repair.** Balanced subtrees that differ by at most two give a balanced tree, at most
as high as the unrepaired node and at most one lower. -/
theorem rebalance_spec {l r : BinTree α} (a : α) (hl : l.Balanced) (hr : r.Balanced)
    (h1 : l.height ≤ r.height + 2) (h2 : r.height ≤ l.height + 2) :
    (rebalance l a r).Balanced ∧ max l.height r.height ≤ (rebalance l a r).height ∧
      (rebalance l a r).height ≤ 1 + max l.height r.height := by
  have hbal := balance_node l a r
  unfold rebalance
  by_cases hL : (node l a r).balance < -1
  · obtain ⟨hb, hlo, hhi⟩ := balanced_rotateRight_cases (a := a) hl hr (by omega)
    rw [if_pos hL]
    exact ⟨hb, by omega, by omega⟩
  · rw [if_neg hL]
    by_cases hR : (node l a r).balance > 1
    · obtain ⟨hb, hlo, hhi⟩ := balanced_rotateLeft_cases (a := a) hl hr (by omega)
      rw [if_pos hR]
      exact ⟨hb, by omega, by omega⟩
    · rw [if_neg hR]
      simp only [Balanced, height_node]
      exact ⟨⟨hl, hr, by omega, by omega⟩, by omega, by omega⟩

/-- A node that is balanced already is left alone. -/
theorem rebalance_of_balanced {l r : BinTree α} (a : α) (h1 : l.height ≤ r.height + 1)
    (h2 : r.height ≤ l.height + 1) : rebalance l a r = node l a r := by
  have hbal := balance_node l a r
  unfold rebalance
  rw [if_neg (by omega), if_neg (by omega)]

section Keyed
variable [LinearOrder κ] {key : α → κ}

theorem insert_balanced (x : α) : ∀ {t : BinTree α}, t.Balanced →
    (insert key x t).Balanced ∧ t.height ≤ (insert key x t).height ∧
      (insert key x t).height ≤ t.height + 1
  | nil, _ => by simp [insert, Balanced]
  | node l a r, ⟨hl, hr, h1, h2⟩ => by
    simp only [insert]
    split
    · obtain ⟨hb, hlo, hhi⟩ := insert_balanced x hl
      have := rebalance_of_balanced (l := insert key x l) (r := r) a
      obtain ⟨hb', hlo', hhi'⟩ := rebalance_spec a hb hr (by omega) (by omega)
      refine ⟨hb', ?_, by simp only [height_node]; omega⟩
      by_cases hc : (insert key x l).height ≤ r.height + 1
      · rw [this hc (by omega)]; simp only [height_node]; omega
      · simp only [height_node]; omega
    · obtain ⟨hb, hlo, hhi⟩ := insert_balanced x hr
      have := rebalance_of_balanced (l := l) (r := insert key x r) a
      obtain ⟨hb', hlo', hhi'⟩ := rebalance_spec a hl hb (by omega) (by omega)
      refine ⟨hb', ?_, by simp only [height_node]; omega⟩
      by_cases hc : (insert key x r).height ≤ l.height + 1
      · rw [this (by omega) hc]; simp only [height_node]; omega
      · simp only [height_node]; omega

theorem Balanced.insert {t : BinTree α} (x : α) (ht : t.Balanced) : (insert key x t).Balanced :=
  (insert_balanced x ht).1

/-- The repair after one subtree has lost at most one level of a balanced node. -/
theorem rebalance_shrink {l r l' r' : BinTree α} (a : α) (hl : l'.Balanced) (hr : r'.Balanced)
    (h1 : l.height ≤ r.height + 1) (h2 : r.height ≤ l.height + 1)
    (hl' : l'.height ≤ l.height ∧ l.height ≤ l'.height + 1)
    (hr' : r'.height ≤ r.height ∧ r.height ≤ r'.height + 1) :
    (rebalance l' a r').Balanced ∧ (rebalance l' a r').height ≤ 1 + max l.height r.height ∧
      1 + max l.height r.height ≤ (rebalance l' a r').height + 1 := by
  obtain ⟨hb, hlo, hhi⟩ := rebalance_spec a hl hr (by omega) (by omega)
  refine ⟨hb, by omega, ?_⟩
  by_cases hc : l'.height ≤ r'.height + 1 ∧ r'.height ≤ l'.height + 1
  · rw [rebalance_of_balanced a hc.1 hc.2]
    simp only [height_node]
    omega
  · omega

/-- The leftmost entry heads the listing. -/
theorem first_eq_head? (t : BinTree α) : t.first = t.toList.head? := by
  fun_induction first t with
  | case1 => rfl
  | case2 a r => rfl
  | case3 l b r a r' ih => simp [ih]

theorem first_eq_none {t : BinTree α} : t.first = none ↔ t = nil := by
  rw [first_eq_head?, List.head?_eq_none_iff, toList_eq_nil]

theorem eraseRoot_of_first {l r : BinTree α} {s : α} (del : α → BinTree α) (hl : l ≠ nil) (hs : r.first = some s) :
    eraseRoot l r del = rebalance l s (del s) := by
  unfold eraseRoot
  rw [hs]
  match l, hl with
  | node _ _ _, _ => rfl

theorem last_eq_getLast? (t : BinTree α) : t.last = t.toList.getLast? := by
  fun_induction last t with
  | case1 => rfl
  | case2 l a => simp
  | case3 l a l' b r ih => rw [ih]; simp [List.getLast?_append, List.getLast?_cons]

theorem erase_balanced : ∀ {t : BinTree α} (k : κ), t.Balanced →
    (erase key t k).Balanced ∧ (erase key t k).height ≤ t.height ∧
      t.height ≤ (erase key t k).height + 1
  | nil, _, _ => by simp [erase, Balanced]
  | node l a r, k, ⟨hl, hr, h1, h2⟩ => by
    simp only [erase]
    split
    · obtain ⟨hb, hlo, hhi⟩ := erase_balanced k hl
      exact rebalance_shrink a hb hr h1 h2 ⟨hlo, hhi⟩ ⟨Nat.le_refl _, by omega⟩
    · split
      · obtain ⟨hb, hlo, hhi⟩ := erase_balanced k hr
        exact rebalance_shrink a hl hb h1 h2 ⟨Nat.le_refl _, by omega⟩ ⟨hlo, hhi⟩
      · unfold eraseRoot
        split
        · simp only [height_node, height_nil] at *
          exact ⟨hr, by omega, by omega⟩
        · rename_i hf
          rw [first_eq_none] at hf
          subst hf
          simp only [height_node, height_nil] at *
          exact ⟨hl, by omega, by omega⟩
        · rename_i s _ _
          obtain ⟨hb, hlo, hhi⟩ := erase_balanced (key s) hr
          exact rebalance_shrink s hl hb h1 h2 ⟨Nat.le_refl _, by omega⟩ ⟨hlo, hhi⟩

theorem Balanced.erase {t : BinTree α} (k : κ) (ht : t.Balanced) : (erase key t k).Balanced :=
  (erase_balanced k ht).1

/-! ## Height against size -/

/-- **A balanced tree of height `h` has at least `fib (h + 2) - 1` entries.** -/
theorem Balanced.fib_le_size : ∀ {t : BinTree α}, t.Balanced → Nat.fib (t.height + 2) ≤ t.size + 1
  | nil, _ => Nat.le_refl _
  | node l a r, ⟨hl, hr, h1, h2⟩ => by
    have ihl := hl.fib_le_size
    have ihr := hr.fib_le_size
    have hfib : Nat.fib ((node l a r).height + 2) =
        Nat.fib (max l.height r.height + 1) + Nat.fib (max l.height r.height + 2) := by
      rw [height_node, show 1 + max l.height r.height + 2 = max l.height r.height + 1 + 2 by omega, Nat.fib_add_two]
    -- the higher subtree pays for the second summand, the other one for the first
    rw [hfib, size]
    rcases Nat.le_total l.height r.height with hle | hle
    · have hlow := Nat.fib_mono (show r.height + 1 ≤ l.height + 2 by omega)
      rw [Nat.max_eq_right hle]
      omega
    · have hlow := Nat.fib_mono (show l.height + 1 ≤ r.height + 2 by omega)
      rw [Nat.max_eq_left hle]
      omega

theorem goldenRatio_pow_le_fib : ∀ n : ℕ, Real.goldenRatio ^ n ≤ Nat.fib (n + 2)
  | 0 => by simp
  | 1 => by
    have h : Nat.fib (1 + 2) = 2 := rfl
    rw [h, pow_one]
    exact_mod_cast Real.goldenRatio_lt_two.le
  | n + 2 => by
    rw [Nat.fib_add_two, Nat.cast_add, pow_add, Real.goldenRatio_sq, mul_add, mul_one, ← pow_succ, add_comm]
    exact add_le_add (goldenRatio_pow_le_fib n) (goldenRatio_pow_le_fib (n + 1))

/-- `121 / 84` bounds the logarithm of 2 to the base of the golden ratio. -/
theorem two_pow_le_goldenRatio_pow : (2 : ℝ) ^ 84 ≤ Real.goldenRatio ^ 121 := by
  have hφ : (1.61803 : ℝ) ≤ Real.goldenRatio := by
    have h5 : (2.23606 : ℝ) ≤ √5 := Real.le_sqrt_of_sq_le (by norm_num)
    unfold Real.goldenRatio
    linarith
  calc (2 : ℝ) ^ 84 ≤ 1.61803 ^ 121 := by norm_num
    _ ≤ Real.goldenRatio ^ 121 := pow_le_pow_left₀ (by norm_num) hφ 121

/-- **The height of a balanced tree is logarithmic in its size.** -/
theorem Balanced.height_le_logb {t : BinTree α} (ht : t.Balanced) :
    (t.height : ℝ) ≤ 121 / 84 * Real.logb 2 (t.size + 2) := by
  have hpow : Real.goldenRatio ^ t.height ≤ (t.size + 2 : ℝ) := by
    have h1 := goldenRatio_pow_le_fib t.height
    have h2 : (Nat.fib (t.height + 2) : ℝ) ≤ t.size + 1 := by exact_mod_cast ht.fib_le_size
    linarith
  have hlog := Real.log_le_log (pow_pos Real.goldenRatio_pos _) hpow
  have hbase := Real.log_le_log (by positivity) two_pow_le_goldenRatio_pow
  simp only [Real.log_pow] at hlog hbase
  push_cast at hbase
  have h2 : 0 < Real.log 2 := Real.log_pos (by norm_num)
  rw [Real.logb, ← mul_div_assoc, le_div_iff₀ h2]
  nlinarith [Nat.cast_nonneg (α := ℝ) t.height]

/-! ## Sorted trees -/

theorem sorted_node {l r : BinTree α} {a : α} :
    Sorted key (node l a r) ↔ Sorted key l ∧ Sorted key r ∧ (∀ x ∈ l.toList, key x < key a) ∧
      (∀ x ∈ r.toList, key a < key x) := by
  simp only [Sorted, toList_node, List.pairwise_append, List.pairwise_cons, List.mem_cons, forall_eq_or_imp]
  constructor
  · rintro ⟨hl, ⟨har, hr⟩, hx⟩
    exact ⟨hl, hr, fun x hxl => (hx x hxl).1, har⟩
  · rintro ⟨hl, hr, hla, har⟩
    exact ⟨hl, ⟨har, hr⟩, fun x hxl => ⟨hla x hxl, fun y hy => lt_trans (hla x hxl) (har y hy)⟩⟩

theorem Sorted.nodup {t : BinTree α} (h : Sorted key t) : t.toList.Nodup :=
  h.imp fun hlt e => absurd (congrArg key e) (ne_of_lt hlt)

theorem Sorted.congr {key' : α → κ} {t : BinTree α} (h : Sorted key t) (hk : ∀ x ∈ t.toList, key' x = key x) :
    Sorted key' t := by
  refine List.Pairwise.imp_of_mem (fun ha hb hlt => ?_) h
  rw [hk _ ha, hk _ hb]
  exact hlt

/-- Two entries of a sorted tree with one key are one entry. -/
theorem Sorted.key_inj {t : BinTree α} (h : Sorted key t) {x y : α} (hx : x ∈ t.toList) (hy : y ∈ t.toList)
    (e : key x = key y) : x = y := by
  unfold Sorted at h
  generalize t.toList = xs at h hx hy
  induction xs with
  | nil => cases hx
  | cons z zs ih =>
    obtain ⟨hz, hzs⟩ := List.pairwise_cons.1 h
    rcases List.mem_cons.1 hx with rfl | hx' <;> rcases List.mem_cons.1 hy with rfl | hy'
    · rfl
    · exact absurd e (ne_of_lt (hz y hy'))
    · exact absurd e.symm (ne_of_lt (hz x hx'))
    · exact ih hzs hx' hy'

/-- **Insertion** puts the new entry between the smaller and the larger keys. -/
theorem insert_split {x : α} : ∀ {t : BinTree α}, Sorted key t → (∀ y ∈ t.toList, key y ≠ key x) →
    ∃ L R, t.toList = L ++ R ∧ (insert key x t).toList = L ++ x :: R ∧
      (∀ y ∈ L, key y < key x) ∧ (∀ y ∈ R, key x < key y)
  | nil, _, _ => ⟨[], [], by simp [insert]⟩
  | node l a r, hs, hne => by
    obtain ⟨hl, hr, hla, har⟩ := sorted_node.1 hs
    simp only [toList_node, List.mem_append, List.mem_cons] at hne
    simp only [insert]
    split
    · rename_i hlt
      obtain ⟨L, R, e, e', hL, hR⟩ := insert_split hl (fun y hy => hne y (Or.inl hy))
      refine ⟨L, R ++ a :: r.toList, by simp [e], by simp [e'], hL, ?_⟩
      intro y hy
      simp only [List.mem_append, List.mem_cons] at hy
      rcases hy with hy | rfl | hy
      · exact hR y hy
      · exact hlt
      · exact lt_trans hlt (har y hy)
    · rename_i hge
      have hlt : key a < key x := lt_of_le_of_ne (not_lt.1 hge) (hne a (Or.inr (Or.inl rfl)))
      obtain ⟨L, R, e, e', hL, hR⟩ := insert_split hr (fun y hy => hne y (Or.inr (Or.inr hy)))
      refine ⟨l.toList ++ a :: L, R, by simp [e], by simp [e'], ?_, hR⟩
      intro y hy
      simp only [List.mem_append, List.mem_cons] at hy
      rcases hy with hy | rfl | hy
      · exact lt_trans (hla y hy) hlt
      · exact hlt
      · exact hL y hy

theorem Sorted.insert {x : α} {t : BinTree α} (hs : Sorted key t) (hne : ∀ y ∈ t.toList, key y ≠ key x) :
    Sorted key (insert key x t) := by
  obtain ⟨L, R, e, e', hL, hR⟩ := insert_split hs hne
  have hs' : (L ++ R).Pairwise fun a b => key a < key b := e ▸ hs
  obtain ⟨h1, h2, h3⟩ := List.pairwise_append.1 hs'
  simp only [Sorted, e', List.pairwise_append, List.pairwise_cons, List.mem_cons, forall_eq_or_imp]
  exact ⟨h1, ⟨hR, h2⟩, fun y hy => ⟨hL y hy, h3 y hy⟩⟩

/-- Insertion adds one entry, whatever the order of the tree. -/
theorem insert_perm (x : α) (t : BinTree α) : (insert key x t).toList.Perm (x :: t.toList) := by
  induction t with
  | nil => exact List.Perm.refl _
  | node l a r ihl ihr =>
    simp only [insert]
    split
    · rw [toList_rebalance]
      exact ihl.append_right _
    · rw [toList_rebalance]
      exact ((ihr.cons a).append_left l.toList).trans (((List.Perm.swap x a _).append_left _).trans List.perm_middle)

theorem mem_insert {x y : α} {t : BinTree α} : y ∈ (insert key x t).toList ↔ y = x ∨ y ∈ t.toList := by
  rw [(insert_perm x t).mem_iff, List.mem_cons]

/-- **Deletion** takes out exactly the entry with the key. -/
theorem toList_erase : ∀ {t : BinTree α} (k : κ), Sorted key t →
    (erase key t k).toList = t.toList.filter (fun x => key x ≠ k)
  | nil, _, _ => rfl
  | node l a r, k, hs => by
    obtain ⟨hl, hr, hla, har⟩ := sorted_node.1 hs
    simp only [erase, toList_node, List.filter_append]
    split
    · rename_i hlt
      have hr' : r.toList.filter (fun x => key x ≠ k) = r.toList :=
        List.filter_eq_self.2 fun x hx => by simpa using (ne_of_lt (lt_trans hlt (har x hx))).symm
      rw [toList_rebalance, toList_erase k hl, List.filter_cons, hr', if_pos (by simpa using (ne_of_lt hlt).symm)]
    · rename_i hge
      split
      · rename_i hgt
        have hl' : l.toList.filter (fun x => key x ≠ k) = l.toList :=
          List.filter_eq_self.2 fun x hx => by simpa using ne_of_lt (lt_trans (hla x hx) hgt)
        rw [toList_rebalance, toList_erase k hr, hl', List.filter_cons, if_pos (by simpa using ne_of_lt hgt)]
      · rename_i hle
        obtain rfl : key a = k := le_antisymm (not_lt.1 hge) (not_lt.1 hle)
        have hl' : l.toList.filter (fun x => key x ≠ key a) = l.toList :=
          List.filter_eq_self.2 fun x hx => by simpa using ne_of_lt (hla x hx)
        have hr' : r.toList.filter (fun x => key x ≠ key a) = r.toList :=
          List.filter_eq_self.2 fun x hx => by simpa using (ne_of_lt (har x hx)).symm
        rw [hl', List.filter_cons, hr', if_neg (by simp)]
        unfold eraseRoot
        split
        · simp
        · rename_i hf
          rw [first_eq_none] at hf
          simp [hf]
        · rename_i s _ hf
          rw [toList_rebalance, toList_erase (key s) hr]
          rw [first_eq_head?, List.head?_eq_some_iff] at hf
          obtain ⟨rest, hrest⟩ := hf
          have hs' : (s :: rest).Pairwise fun a b => key a < key b := hrest ▸ hr
          rw [hrest, List.filter_cons, if_neg (by simp), List.filter_eq_self.2 fun x hx => by
            simpa using (ne_of_lt ((List.pairwise_cons.1 hs').1 x hx)).symm]

theorem Sorted.erase {t : BinTree α} (k : κ) (hs : Sorted key t) : Sorted key (erase key t k) := by
  unfold Sorted
  rw [toList_erase k hs]
  exact List.Pairwise.filter _ hs

theorem mem_erase {t : BinTree α} (hs : Sorted key t) {k : κ} {x : α} :
    x ∈ (erase key t k).toList ↔ x ∈ t.toList ∧ key x ≠ k := by
  rw [toList_erase k hs, List.mem_filter]
  simp

/-- **Search** finds the entry with the key, if there is one. -/
theorem find?_eq_some {k : κ} {x : α} : ∀ {t : BinTree α}, Sorted key t →
    (find? key k t = some x ↔ x ∈ t.toList ∧ key x = k)
  | nil, _ => by simp [find?]
  | node l a r, hs => by
    obtain ⟨hl, hr, hla, har⟩ := sorted_node.1 hs
    simp only [find?, toList_node, List.mem_append, List.mem_cons]
    split
    · rename_i e
      subst e
      constructor
      · rintro h; cases h; exact ⟨Or.inr (Or.inl rfl), rfl⟩
      · rintro ⟨h | h | h, e⟩
        · exact absurd e (ne_of_lt (hla x h))
        · rw [h]
        · exact absurd e (ne_of_lt (har x h)).symm
    · rename_i hne
      split
      · rename_i hlt
        rw [find?_eq_some hl]
        constructor
        · exact fun ⟨h, e⟩ => ⟨Or.inl h, e⟩
        · rintro ⟨h | rfl | h, rfl⟩
          · exact ⟨h, rfl⟩
          · exact absurd rfl hne
          · exact absurd hlt (lt_asymm (har x h))
      · rename_i hge
        rw [find?_eq_some hr]
        constructor
        · exact fun ⟨h, e⟩ => ⟨Or.inr (Or.inr h), e⟩
        · rintro ⟨h | rfl | h, rfl⟩
          · exact absurd (hla x h) hge
          · exact absurd rfl hne
          · exact ⟨h, rfl⟩

end Keyed

end BinTree

end Avl
