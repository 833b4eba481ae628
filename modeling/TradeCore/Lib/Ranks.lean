import Mathlib
/-!
# Ranks in a list of samples

`atMost S v` is how many of the samples are at or below `v`. The sample of rank `r` is the smallest one with at least
`r` samples at or below it; the rank need not be whole, so that the `p`-th percentile is the sample of rank
`p / 100 * S.length`. A scan that looks for the first value with some other property of that count finds it exactly
when the two agree on every sample up to it.
-/

namespace Ranks

variable {α : Type*} [LinearOrder α] {S : List α} {u v w : α} {r : ℚ} {P : α → Prop}

def atMost (S : List α) (v : α) : ℕ := S.countP (· ≤ v)

/-- The smallest sample with a property. -/
structure IsLeastSample (S : List α) (P : α → Prop) (v : α) : Prop where
  mem : v ∈ S
  holds : P v
  least : ∀ u ∈ S, P u → v ≤ u

/-- **The sample of rank `r`**. -/
abbrev IsRanked (S : List α) (r : ℚ) (v : α) : Prop := IsLeastSample S (fun u => r ≤ atMost S u) v

/-! ## Counting -/

theorem atMost_mono (h : u ≤ v) : atMost S u ≤ atMost S v := by
  apply List.countP_mono_left
  intro x _ hx
  simp only [decide_eq_true_eq] at hx ⊢
  exact hx.trans h

theorem atMost_le_length (S : List α) (v : α) : atMost S v ≤ S.length := List.countP_le_length

theorem atMost_pos (h : v ∈ S) : 0 < atMost S v :=
  List.countP_pos_iff.2 ⟨v, h, decide_eq_true (le_refl v)⟩

theorem atMost_eq_length (h : ∀ u ∈ S, u ≤ v) : atMost S v = S.length :=
  List.countP_eq_length.2 fun u hu => decide_eq_true (h u hu)

/-- The largest sample at or below a value. -/
theorem exists_mem_atMost_eq (h : 0 < atMost S v) : ∃ u ∈ S, u ≤ v ∧ atMost S u = atMost S v := by
  obtain ⟨t, ht, htv⟩ := List.countP_pos_iff.1 h
  obtain ⟨u, hu, hmax⟩ := (S.toFinset.filter (· ≤ v)).exists_max_image id
    ⟨t, Finset.mem_filter.2 ⟨List.mem_toFinset.2 ht, of_decide_eq_true htv⟩⟩
  obtain ⟨huS, huv⟩ := Finset.mem_filter.1 hu
  refine ⟨u, List.mem_toFinset.1 huS, huv, ?_⟩
  apply List.countP_congr
  intro x hx
  simp only [decide_eq_true_eq]
  exact ⟨fun hxu => hxu.trans huv, fun hxv => hmax x (Finset.mem_filter.2 ⟨List.mem_toFinset.2 hx, hxv⟩)⟩

/-! ## The smallest sample -/

theorem IsLeastSample.not_below (h : IsLeastSample S P v) (hu : u ∈ S) (hlt : u < v) : ¬P u :=
  fun hP => (h.least u hu hP).not_gt hlt

theorem exists_isLeastSample (h : u ∈ S) (hu : P u) : ∃ v, IsLeastSample S P v := by
  classical
  obtain ⟨v, hv, hmin⟩ := (S.toFinset.filter P).exists_min_image id ⟨u, Finset.mem_filter.2 ⟨List.mem_toFinset.2 h, hu⟩⟩
  obtain ⟨hvS, hPv⟩ := Finset.mem_filter.1 hv
  exact ⟨v, List.mem_toFinset.1 hvS, hPv, fun x hx hPx => hmin x (Finset.mem_filter.2 ⟨List.mem_toFinset.2 hx, hPx⟩)⟩

/-- Every rank up to the number of samples has a sample. -/
theorem exists_isRanked (hne : S ≠ []) (hr : r ≤ S.length) : ∃ v, IsRanked S r v := by
  obtain ⟨t, ht⟩ := List.exists_mem_of_ne_nil S hne
  obtain ⟨v, hv, hmax⟩ := S.toFinset.exists_max_image id ⟨t, List.mem_toFinset.2 ht⟩
  have htop : ∀ u ∈ S, u ≤ v := fun u hu => hmax u (List.mem_toFinset.2 hu)
  apply exists_isLeastSample (List.mem_toFinset.1 hv)
  rwa [atMost_eq_length htop]

/-- A value below which nothing has the property is a sample, if only the count decides. -/
theorem isLeastSample_of_count {Q : ℕ → Prop} (hQ : ¬Q 0) (hv : Q (atMost S v)) (hleast : ∀ u < v, ¬Q (atMost S u)) :
    IsLeastSample S (fun u => Q (atMost S u)) v := by
  have hpos : 0 < atMost S v := Nat.pos_of_ne_zero fun h0 => hQ (h0 ▸ hv)
  obtain ⟨u, hu, huv, heq⟩ := exists_mem_atMost_eq hpos
  obtain rfl : u = v := by
    rcases huv.lt_or_eq with hlt | rfl
    · exact absurd (heq ▸ hv) (hleast u hlt)
    · rfl
  exact ⟨hu, hv, fun t _ ht => not_lt.1 fun hlt => hleast t hlt ht⟩

/-- **A scan for another property finds the sample of rank `r` exactly when** the two agree up to it. -/
theorem IsLeastSample.isRanked_iff (h : IsLeastSample S P v) (hr : r ≤ S.length) :
    IsRanked S r v ↔ ∀ u ∈ S, (∀ t ∈ S, t < u → atMost S t < r) → (P u ↔ r ≤ atMost S u) := by
  constructor
  · intro hv u hu hbelow
    rcases lt_trichotomy u v with hlt | rfl | hgt
    · exact iff_of_false (h.not_below hu hlt) (hv.not_below hu hlt)
    · exact iff_of_true h.holds hv.holds
    · exact absurd (hbelow v hv.mem hgt) hv.holds.not_gt
  · intro hagree
    obtain ⟨w, hw⟩ := exists_isRanked (List.ne_nil_of_mem h.mem) hr
    have hbelow : ∀ u ≤ w, ∀ t ∈ S, t < u → (atMost S t : ℚ) < r :=
      fun u hu t ht htu => not_le.1 (hw.not_below ht (htu.trans_le hu))
    have hvw : v ≤ w := h.least w hw.mem ((hagree w hw.mem (hbelow w le_rfl)).2 hw.holds)
    have hwv : w ≤ v := hw.least v h.mem ((hagree v h.mem (hbelow v hvw)).1 h.holds)
    rwa [le_antisymm hvw hwv]

end Ranks
