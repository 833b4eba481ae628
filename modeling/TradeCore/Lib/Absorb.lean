import Mathlib
/-!
# Folds that lose nothing of the state

A hash absorbs its input item by item. If each item permutes the states and two items never take one state to the
same one, then inputs that differ in one place leave different states, however much follows.
-/

namespace Absorb

variable {σ α : Type*} {step : σ → α → σ} {xs ys : List α}

theorem foldl_injective (hinj : ∀ x, Function.Injective (step · x)) (xs : List α) :
    Function.Injective fun s => xs.foldl step s := by
  induction xs with
  | nil => exact Function.injective_id
  | cons x xs ih => exact ih.comp (hinj x)

/-- **One different item** is never made up for. -/
theorem foldl_ne (hinj : ∀ x, Function.Injective (step · x)) (hsep : ∀ s, Function.Injective (step s)) {x y : α} (hxy : x ≠ y)
    (l r : List α) (s : σ) : (l ++ x :: r).foldl step s ≠ (l ++ y :: r).foldl step s := by
  rw [List.foldl_append, List.foldl_append, List.foldl_cons, List.foldl_cons]
  intro h
  exact hxy (hsep _ (foldl_injective hinj r h))

/-! ## Lists that differ in one place -/

/-- As long as each other, and different at exactly one index. -/
structure OneApart (xs ys : List α) : Prop where
  length : xs.length = ys.length
  index : ∃! n : ℕ, xs[n]? ≠ ys[n]?

theorem OneApart.split (h : OneApart xs ys) : ∃ l x y r, xs = l ++ x :: r ∧ ys = l ++ y :: r ∧ x ≠ y := by
  obtain ⟨hlen, n, hn, huniq⟩ := h
  induction xs generalizing ys n with
  | nil =>
    obtain rfl := List.length_eq_zero_iff.1 hlen.symm
    exact absurd rfl hn
  | cons x xs ih =>
    obtain ⟨y, ys, rfl⟩ := List.exists_cons_of_length_eq_add_one hlen.symm
    by_cases hxy : x = y
    · subst hxy
      cases n with
      | zero => exact absurd rfl hn
      | succ n =>
        obtain ⟨l, x', y', r, hl, hr, hne⟩ := ih (Nat.succ.inj hlen) n hn fun m hm => Nat.succ.inj (huniq (m + 1) hm)
        exact ⟨x :: l, x', y', r, by rw [hl]; rfl, by rw [hr]; rfl, hne⟩
    · -- the heads differ, so the tails do not
      have hzero : 0 = n := huniq 0 fun he => hxy (Option.some.inj he)
      have htail : xs = ys := by
        apply List.ext_getElem?
        intro m
        by_contra hm
        have := huniq (m + 1) hm
        omega
      exact ⟨[], x, y, xs, rfl, by rw [htail]; rfl, hxy⟩

theorem oneApart_of_split {x y : α} (hxy : x ≠ y) (l r : List α) : OneApart (l ++ x :: r) (l ++ y :: r) where
  length := by simp
  index := by
    refine ⟨l.length, by simp [hxy], fun n hn => ?_⟩
    by_contra hne
    apply hn
    rcases Nat.lt_or_gt_of_ne hne with hlt | hgt
    · rw [List.getElem?_append_left hlt, List.getElem?_append_left hlt]
    · obtain ⟨k, rfl⟩ := Nat.exists_eq_add_of_lt hgt
      rw [List.getElem?_append_right (by omega), List.getElem?_append_right (by omega),
        show l.length + k + 1 - l.length = k + 1 by omega]
      rfl

/-- **Different at one index, different folds.** -/
theorem OneApart.foldl_ne (h : OneApart xs ys) (hinj : ∀ x, Function.Injective (step · x)) (hsep : ∀ s, Function.Injective (step s))
    (s : σ) : xs.foldl step s ≠ ys.foldl step s := by
  obtain ⟨l, x, y, r, rfl, rfl, hxy⟩ := h.split
  exact Absorb.foldl_ne hinj hsep hxy l r s

end Absorb
