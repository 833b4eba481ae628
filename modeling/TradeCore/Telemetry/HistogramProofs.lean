import TradeCore.Lib.Ranks
import TradeCore.Telemetry.Histogram
/-!
# Percentiles against the recorded samples

`Recorded` ties each counter to the list of samples. The loop of `percentile` then looks for the first value with
enough samples at or below it. It truncates `p / 100 * count`: the value has the rank it should have unless a sample
with exactly the truncated number at or below it stands in the way. Truncated or not, the percentiles are in order.
-/

namespace TradeCore

open Ranks

namespace Histogram

variable {maxValueNs : UInt32} {h : Histogram maxValueNs} {samples : List UInt64} {v : UInt64} {p q : ℚ}

/-! ## What `record` does to each counter -/

/-- `record`, field by field. -/
theorem record_eq (h : Histogram maxValueNs) (v : UInt64) : h.record v =
    { buckets := if v < maxValueNs.toUInt64 then Function.update h.buckets v.toNat (h.buckets v.toNat + 1) else h.buckets
      overflowCount := if v < maxValueNs.toUInt64 then h.overflowCount else h.overflowCount + 1
      count := h.count + 1
      sumNs := h.sumNs + v
      maxNs := if v > h.maxNs then v else h.maxNs
      minNs := if v < h.minNs then v else h.minNs } := by
  simp only [record]
  split_ifs <;> rfl

@[simp] theorem record_buckets : (h.record v).buckets =
    if v < maxValueNs.toUInt64 then Function.update h.buckets v.toNat (h.buckets v.toNat + 1) else h.buckets := by
  rw [record_eq]

@[simp] theorem record_overflowCount : (h.record v).overflowCount =
    if v < maxValueNs.toUInt64 then h.overflowCount else h.overflowCount + 1 := by
  rw [record_eq]

@[simp] theorem record_count : (h.record v).count = h.count + 1 := by
  rw [record_eq]

@[simp] theorem record_sumNs : (h.record v).sumNs = h.sumNs + v := by
  rw [record_eq]

@[simp] theorem record_maxNs : (h.record v).maxNs = if v > h.maxNs then v else h.maxNs := by
  rw [record_eq]

@[simp] theorem record_minNs : (h.record v).minNs = if v < h.minNs then v else h.minNs := by
  rw [record_eq]

end Histogram

/-! ## The invariant -/

/-- The samples as numbers. -/
def values (samples : List UInt64) : List ℕ := samples.map UInt64.toNat

/-- **The counters of a histogram** that recorded these samples. -/
structure Recorded {maxValueNs : UInt32} (samples : List UInt64) (h : Histogram maxValueNs) : Prop where
  buckets : ∀ i < maxValueNs.toNat, h.buckets i = UInt64.ofNat ((values samples).count i)
  overflow : h.overflowCount = UInt64.ofNat ((values samples).countP (maxValueNs.toNat ≤ ·))
  count : h.count = UInt64.ofNat samples.length
  sum : h.sumNs = samples.sum
  le_max : ∀ v ∈ samples, v ≤ h.maxNs
  max_mem : h.maxNs ∈ samples ∨ h.maxNs = 0 ∧ samples = []
  min_le : ∀ v ∈ samples, h.minNs ≤ v
  min_mem : h.minNs ∈ samples ∨ h.minNs = UInt64.ofNat (2 ^ 64 - 1) ∧ samples = []

variable {maxValueNs : UInt32} {h : Histogram maxValueNs} {samples : List UInt64} {v : UInt64} {p q : ℚ}

theorem values_concat (samples : List UInt64) (v : UInt64) : values (samples ++ [v]) = values samples ++ [v.toNat] :=
  List.map_append

theorem recorded_new : Recorded [] (Histogram.new : Histogram maxValueNs) where
  buckets i hi := rfl
  overflow := rfl
  count := rfl
  sum := rfl
  le_max := by simp
  max_mem := Or.inr ⟨rfl, rfl⟩
  min_le := by simp
  min_mem := Or.inr ⟨rfl, rfl⟩

/-- **One more sample.** -/
theorem Recorded.record (hr : Recorded samples h) (v : UInt64) : Recorded (samples ++ [v]) (h.record v) where
  buckets i hi := by
    rw [Histogram.record_buckets, values_concat, List.count_append]
    by_cases hv : v.toNat = i
    · subst hv
      have hlt : v < maxValueNs.toUInt64 := UInt64.lt_iff_toNat_lt.2 hi
      rw [if_pos hlt, Function.update_self, hr.buckets _ hi, List.count_singleton_self, UInt64.ofNat_add]
      rfl
    · have hcount : [v.toNat].count i = 0 := List.count_eq_zero.2 (by simpa using Ne.symm hv)
      rw [hcount, Nat.add_zero, ← hr.buckets i hi]
      split_ifs
      · exact Function.update_of_ne (Ne.symm hv) _ _
      · rfl
  overflow := by
    rw [Histogram.record_overflowCount, values_concat, List.countP_append, List.countP_singleton, hr.overflow]
    by_cases hlt : v < maxValueNs.toUInt64
    · have hlt' : v.toNat < maxValueNs.toNat := UInt64.lt_iff_toNat_lt.1 hlt
      rw [if_pos hlt, if_neg (by simpa using hlt'), Nat.add_zero]
    · have hle : maxValueNs.toNat ≤ v.toNat := Nat.not_lt.1 fun hlt' => hlt (UInt64.lt_iff_toNat_lt.2 hlt')
      rw [if_neg hlt, if_pos (by simpa using hle), UInt64.ofNat_add]
      rfl
  count := by
    rw [Histogram.record_count, hr.count, List.length_append, List.length_singleton, UInt64.ofNat_add]
    rfl
  sum := by rw [Histogram.record_sumNs, hr.sum, List.sum_append, List.sum_singleton]
  le_max u hu := by
    rw [Histogram.record_maxNs]
    rcases List.mem_append.1 hu with hu | hu
    · have := hr.le_max u hu
      split_ifs with hv
      · exact UInt64.le_trans this (UInt64.le_of_lt hv)
      · exact this
    · rw [List.mem_singleton.1 hu]
      split_ifs with hv
      · exact UInt64.le_refl v
      · exact UInt64.not_lt.1 hv
  max_mem := by
    rw [Histogram.record_maxNs]
    left
    split_ifs with hv
    · simp
    · rcases hr.max_mem with hmem | ⟨hzero, -⟩
      · exact List.mem_append_left _ hmem
      · rw [hzero] at hv ⊢
        have : 0 = v := UInt64.le_antisymm UInt64.zero_le (UInt64.not_lt.1 hv)
        exact List.mem_append_right _ (List.mem_singleton.2 this)
  min_le u hu := by
    rw [Histogram.record_minNs]
    rcases List.mem_append.1 hu with hu | hu
    · have := hr.min_le u hu
      split_ifs with hv
      · exact UInt64.le_trans (UInt64.le_of_lt hv) this
      · exact this
    · rw [List.mem_singleton.1 hu]
      split_ifs with hv
      · exact UInt64.le_refl v
      · exact UInt64.not_lt.1 hv
  min_mem := by
    rw [Histogram.record_minNs]
    left
    split_ifs with hv
    · simp
    · rcases hr.min_mem with hmem | ⟨htop, -⟩
      · exact List.mem_append_left _ hmem
      · rw [htop] at hv ⊢
        have : UInt64.ofNat (2 ^ 64 - 1) = v := by
          rw [UInt64.lt_iff_toNat_lt] at hv
          have hlt := v.toNat_lt
          have htop : (UInt64.ofNat (2 ^ 64 - 1)).toNat = 2 ^ 64 - 1 := rfl
          rw [← UInt64.toNat_inj]
          omega
        exact List.mem_append_right _ (List.mem_singleton.2 this)

/-- **Every histogram** has recorded its samples. -/
theorem recorded_recordAll (samples : List UInt64) : Recorded samples (Histogram.recordAll samples : Histogram maxValueNs) := by
  induction samples using List.reverseRecOn with
  | nil => exact recorded_new
  | append_singleton samples v ih =>
    rw [Histogram.recordAll, List.foldl_append]
    exact ih.record v

/-! ## The loop of `percentile` -/

/-- What `cumulative` is after bucket `i`. -/
theorem atMost_eq_add (S : List ℕ) (i : ℕ) : atMost S i = S.countP (· < i) + S.count i := by
  induction S with
  | nil => rfl
  | cons x S ih =>
    unfold atMost at ih ⊢
    rw [List.countP_cons, List.countP_cons, List.count_cons, ih]
    simp only [decide_eq_true_eq, beq_iff_eq]
    split_ifs <;> omega

theorem countP_lt_succ (S : List ℕ) (i : ℕ) : S.countP (· < i + 1) = atMost S i := by
  apply List.countP_congr
  simp

/-- **The loop looks for the first value** with enough samples at or below it. -/
theorem Recorded.scan_eq (hr : Recorded samples h) (target : UInt64) (left i : ℕ) (hle : i + left ≤ maxValueNs.toNat) :
    h.scan target left i (UInt64.ofNat ((values samples).countP (· < i))) =
      ((List.range' i left).find? fun j => UInt64.ofNat (atMost (values samples) j) ≥ target).map UInt64.ofNat := by
  induction left generalizing i with
  | zero => rfl
  | succ left ih =>
    rw [Histogram.scan, hr.buckets i (by omega), ← UInt64.ofNat_add, ← atMost_eq_add, List.range'_succ, List.find?_cons]
    by_cases hreached : UInt64.ofNat (atMost (values samples) i) ≥ target
    · simp [hreached]
    · simp only [hreached, if_false, decide_false]
      rw [← countP_lt_succ]
      exact ih (i + 1) (by omega)

/-- The rank that `percentile` looks for: truncated, and at least 1. -/
def targetRank (S : List ℕ) (p : ℚ) : ℕ := max 1 ⌊p / 100 * (S.length % 2 ^ 64 : ℕ)⌋₊

/-- A value at which the loop stops. -/
def Reached (S : List ℕ) (p : ℚ) (v : ℕ) : Prop := targetRank S p ≤ atMost S v % 2 ^ 64

instance (S : List ℕ) (p : ℚ) (v : ℕ) : Decidable (Reached S p v) := inferInstanceAs (Decidable (_ ≤ _))

theorem Recorded.count_toNat (hr : Recorded samples h) : h.count.toNat = (values samples).length % 2 ^ 64 := by
  rw [hr.count, values, List.length_map]
  rfl

theorem Recorded.targetCount_toNat (hr : Recorded samples h) (hp : p < 100) :
    (h.targetCount p).toNat = targetRank (values samples) p := by
  have hcount := h.count.toNat_lt
  have hle : ⌊p / 100 * h.count.toNat⌋₊ ≤ h.count.toNat := by
    apply Nat.floor_le_of_le
    have hc : (0 : ℚ) ≤ h.count.toNat := Nat.cast_nonneg _
    exact mul_le_of_le_one_left hc (by linarith)
  unfold Histogram.targetCount targetRank
  rw [← hr.count_toNat]
  generalize ⌊p / 100 * h.count.toNat⌋₊ = n at hle ⊢
  have hn : (UInt64.ofNat n).toNat = n := Nat.mod_eq_of_lt (by omega)
  dsimp only
  split_ifs with hzero
  · have : n = 0 := by rw [← hn, hzero]; rfl
    rw [this]
    rfl
  · have : n ≠ 0 := fun h0 => hzero (by rw [h0]; rfl)
    rw [hn]
    omega

theorem Recorded.reached_iff (hr : Recorded samples h) (hp : p < 100) (v : ℕ) :
    UInt64.ofNat (atMost (values samples) v) ≥ h.targetCount p ↔ Reached (values samples) p v := by
  rw [ge_iff_le, UInt64.le_iff_toNat_le, hr.targetCount_toNat hp]
  rfl

theorem not_reached_zero (S : List ℕ) (p : ℚ) : ¬targetRank S p ≤ 0 % 2 ^ 64 := by
  have : 1 ≤ targetRank S p := le_max_left _ _
  omega

/-- **Between 0 and 100** `percentile` is the smallest sample that the loop stops at, or the maximum. -/
theorem Recorded.percentile_between (hr : Recorded samples h) (hcount : h.count ≠ 0) (hp0 : 0 < p) (hp : p < 100) :
    ((h.percentile p).toNat < maxValueNs.toNat ∧ IsLeastSample (values samples) (Reached (values samples) p) (h.percentile p).toNat) ∨
      h.percentile p = h.max ∧ ∀ v < maxValueNs.toNat, ¬Reached (values samples) p v := by
  have hscan := hr.scan_eq (h.targetCount p) maxValueNs.toNat 0 (by omega)
  have hstart : UInt64.ofNat ((values samples).countP (· < 0)) = 0 := by simp
  have hpercentile : h.percentile p = (h.scan (h.targetCount p) maxValueNs.toNat 0 0).getD h.max := by
    unfold Histogram.percentile
    rw [if_neg hcount, if_neg hp0.not_ge, if_neg hp.not_ge]
  rw [hstart] at hscan
  rw [hpercentile, hscan]
  cases hfind : (List.range' 0 maxValueNs.toNat).find? fun j => UInt64.ofNat (atMost (values samples) j) ≥ h.targetCount p with
  | none =>
    right
    refine ⟨rfl, fun v hv hreached => ?_⟩
    have := List.find?_range'_eq_none.1 hfind v (Nat.zero_le _) (by omega)
    rw [← hr.reached_iff hp] at hreached
    simp [hreached] at this
  | some v =>
    left
    obtain ⟨hreached, hv, hbelow⟩ := List.find?_range'_eq_some.1 hfind
    have hlt : v < maxValueNs.toNat := by simpa using hv
    have hmax := maxValueNs.toNat_lt
    have htoNat : (UInt64.ofNat v).toNat = v := Nat.mod_eq_of_lt (by omega)
    simp only [Option.map_some, Option.getD_some, htoNat]
    refine ⟨hlt, ?_⟩
    apply isLeastSample_of_count (Q := fun n => targetRank (values samples) p ≤ n % 2 ^ 64) (not_reached_zero _ p)
    · exact (hr.reached_iff hp v).1 (of_decide_eq_true hreached)
    · intro u hu hreached'
      have := hbelow u (Nat.zero_le _) hu
      rw [decide_eq_true ((hr.reached_iff hp u).2 hreached')] at this
      cases this

/-! ## The rank of a percentile -/

/-- **When `percentile` has its rank**: up to the sample of rank `p / 100 * S.length` the loop stops where that rank
is reached. A count that came around to zero makes it return 0. -/
def RankKept (S : List ℕ) (p : ℚ) : Prop :=
  if S.length % 2 ^ 64 = 0 then p / 100 * S.length ≤ atMost S 0
  else ∀ v ∈ S, (∀ u ∈ S, u < v → (atMost S u : ℚ) < p / 100 * S.length) → (Reached S p v ↔ p / 100 * S.length ≤ atMost S v)

/-- Fewer than 2^64 samples: the truncated rank is below the true one, and a sample is in between. -/
theorem rankKept_iff {S : List ℕ} (hp0 : 0 < p) (hne : S ≠ []) (hlt : S.length < 2 ^ 64) :
    RankKept S p ↔ ¬∃ v ∈ S, atMost S v = ⌊p / 100 * S.length⌋₊ ∧ (atMost S v : ℚ) < p / 100 * S.length := by
  have hlen : 0 < S.length := List.length_pos_iff.2 hne
  have hr : (0 : ℚ) ≤ p / 100 * S.length := by positivity
  have hreached : ∀ v ∈ S, Reached S p v ↔ ⌊p / 100 * S.length⌋₊ ≤ atMost S v := by
    intro v hv
    have hpos := atMost_pos hv
    have hle := atMost_le_length S v
    unfold Reached targetRank
    rw [Nat.mod_eq_of_lt hlt, Nat.mod_eq_of_lt (by omega), max_le_iff]
    exact and_iff_right hpos
  unfold RankKept
  rw [if_neg (by omega)]
  generalize p / 100 * (S.length : ℚ) = r at hr hreached ⊢
  constructor
  · rintro hkept ⟨v, hv, heq, hbelow⟩
    have hfirst : ∀ u ∈ S, u < v → (atMost S u : ℚ) < r :=
      fun u _ huv => (Nat.cast_le.2 (atMost_mono huv.le)).trans_lt hbelow
    exact ((hkept v hv hfirst).1 ((hreached v hv).2 heq.ge)).not_gt hbelow
  · intro hnone v hv _
    rw [hreached v hv]
    constructor
    · intro hfloor
      by_contra hbelow
      have hge : atMost S v ≤ ⌊r⌋₊ := Nat.le_floor (not_le.1 hbelow).le
      exact hnone ⟨v, hv, le_antisymm hge hfloor, not_le.1 hbelow⟩
    · exact fun hle => Nat.floor_le_of_le hle

/-- **A percentile has its rank exactly when** the truncation meets no sample. -/
theorem percentile_isRanked_iff (hne : samples ≠ []) (hlt : ∀ v ∈ samples, v.toNat < maxValueNs.toNat) (hp0 : 0 < p) (hp : p < 100) :
    (IsRanked (values samples) (p / 100 * samples.length)
        ((Histogram.recordAll samples : Histogram maxValueNs).percentile p).toNat ↔ RankKept (values samples) p) ∧
      (samples.length < 2 ^ 64 → (RankKept (values samples) p ↔ ¬∃ v ∈ values samples,
        atMost (values samples) v = ⌊p / 100 * samples.length⌋₊ ∧ (atMost (values samples) v : ℚ) < p / 100 * samples.length)) := by
  have hr : Recorded samples (Histogram.recordAll samples : Histogram maxValueNs) := recorded_recordAll samples
  have hlength : (values samples).length = samples.length := List.length_map _
  have hne' : values samples ≠ [] := by simpa [values] using hne
  have hpos : 0 < samples.length := List.length_pos_iff.2 hne
  have hrank : p / 100 * samples.length ≤ (values samples).length := by
    rw [hlength]
    exact mul_le_of_le_one_left (Nat.cast_nonneg _) (by linarith)
  have hrank0 : 0 < p / 100 * (samples.length : ℚ) := by positivity
  rw [← hlength]
  refine ⟨?_, rankKept_iff hp0 hne'⟩
  rw [hlength]
  generalize (Histogram.recordAll samples : Histogram maxValueNs) = h at hr ⊢
  by_cases hcount : h.count = 0
  · -- the count came around to zero
    have hzero : (values samples).length % 2 ^ 64 = 0 := by rw [← hr.count_toNat, hcount]; rfl
    have hpercentile : (h.percentile p).toNat = 0 := by unfold Histogram.percentile; rw [if_pos hcount]; rfl
    rw [hpercentile, RankKept, if_pos hzero, hlength]
    refine ⟨fun h => h.holds, fun hle => ?_⟩
    apply isLeastSample_of_count (Q := fun n => p / 100 * (samples.length : ℚ) ≤ (n : ℚ)) _ hle
    · intro u hu
      exact absurd hu (Nat.not_lt_zero u)
    · simpa using hrank0
  · have hzero : (values samples).length % 2 ^ 64 ≠ 0 := by
      rw [← hr.count_toNat]
      exact fun h0 => hcount (UInt64.toNat_inj.1 h0)
    rw [RankKept, if_neg hzero, hlength]
    obtain ⟨-, hleast⟩ | ⟨-, hnone⟩ := hr.percentile_between hcount hp0 hp
    · exact hleast.isRanked_iff hrank
    · -- the largest sample has all of them at or below it
      obtain ⟨v, hv⟩ := exists_isRanked (r := (values samples).length) hne' le_rfl
      obtain ⟨x, hx, rfl⟩ := List.mem_map.1 hv.mem
      refine absurd ?_ (hnone _ (hlt x hx))
      have hall : atMost (values samples) x.toNat = (values samples).length :=
        le_antisymm (atMost_le_length _ _) (by exact_mod_cast hv.holds)
      unfold Reached targetRank
      rw [hall, max_le_iff]
      refine ⟨Nat.pos_of_ne_zero hzero, Nat.floor_le_of_le ?_⟩
      exact mul_le_of_le_one_left (Nat.cast_nonneg _) (by linarith)

/-- Two samples, and the median has its rank; three, and it has not. -/
theorem percentile_isRanked_iff_median :
    IsRanked (values [10, 20]) (50 / 100 * ([10, 20] : List UInt64).length)
        ((Histogram.recordAll [10, 20] : Histogram 1000).percentile 50).toNat ∧
      ¬IsRanked (values [10, 20, 30]) (50 / 100 * ([10, 20, 30] : List UInt64).length)
        ((Histogram.recordAll [10, 20, 30] : Histogram 1000).percentile 50).toNat := by
  constructor
  · obtain ⟨hkept, hiff⟩ := @percentile_isRanked_iff 1000 [10, 20] 50
      (by decide) (by simp) (by norm_num) (by norm_num)
    exact hkept.2 ((hiff (by simp)).2 (by decide +kernel))
  · obtain ⟨hkept, hiff⟩ := @percentile_isRanked_iff 1000 [10, 20, 30] 50
      (by decide) (by simp) (by norm_num) (by norm_num)
    intro h
    exact (hiff (by simp)).1 (hkept.1 h) (by decide +kernel)

/-- **The median of 10, 20 and 30 is reported as 10**. -/
theorem percentile_below_rank : ¬∀ (maxValueNs : UInt32) (samples : List UInt64) (p : ℚ), samples ≠ [] →
    (∀ v ∈ samples, v.toNat < maxValueNs.toNat) → 0 < p → p < 100 →
    IsRanked (values samples) (p / 100 * samples.length)
      ((Histogram.recordAll samples : Histogram maxValueNs).percentile p).toNat := by
  intro hranked
  have h := (hranked 1000 [10, 20, 30] 50 (by decide) (by simp) (by norm_num) (by norm_num)).holds
  have hten : (Histogram.recordAll [10, 20, 30] : Histogram 1000).percentile 50 = 10 := by decide +kernel
  rw [hten] at h
  revert h
  decide +kernel

/-! ## Order and bounds -/

theorem Recorded.minNs_le_maxNs (hr : Recorded samples h) (hne : samples ≠ []) : h.minNs ≤ h.maxNs := by
  rcases hr.min_mem with hmem | ⟨-, hnil⟩
  · exact hr.le_max _ hmem
  · exact absurd hnil hne

theorem Recorded.count_ne_zero (hr : Recorded samples h) (hne : samples ≠ []) (hlt : samples.length < 2 ^ 64) : h.count ≠ 0 := by
  intro hzero
  have hcount := hr.count_toNat
  have hpos : 0 < samples.length := List.length_pos_iff.2 hne
  rw [hzero, values, List.length_map, Nat.mod_eq_of_lt hlt] at hcount
  change 0 = samples.length at hcount
  omega

/-- A higher percentile asks for more samples. -/
theorem Reached.anti {S : List ℕ} {v : ℕ} (h : Reached S q v) (hpq : p ≤ q) : Reached S p v := by
  refine le_trans ?_ h
  apply max_le_max le_rfl
  apply Nat.floor_le_floor
  exact mul_le_mul_of_nonneg_right (by linarith) (Nat.cast_nonneg _)

/-- **The bounds**, on each of the five ways out of `percentile`. -/
theorem Recorded.percentile_bounds (hr : Recorded samples h) (hne : samples ≠ []) (hcount : h.count ≠ 0) (p : ℚ) :
    h.min ≤ h.percentile p ∧ h.percentile p ≤ h.max := by
  have hminmax := hr.minNs_le_maxNs hne
  have hmin : h.min = h.minNs := if_neg hcount
  have hmax : h.max = h.maxNs := if_neg hcount
  rw [hmin, hmax]
  by_cases hp0 : p ≤ 0
  · rw [Histogram.percentile, if_neg hcount, if_pos hp0, hmin]
    exact ⟨UInt64.le_refl _, hminmax⟩
  by_cases hp : p ≥ 100
  · rw [Histogram.percentile, if_neg hcount, if_neg hp0, if_pos hp, hmax]
    exact ⟨hminmax, UInt64.le_refl _⟩
  obtain ⟨-, hleast⟩ | ⟨heq, -⟩ := hr.percentile_between hcount (not_le.1 hp0) (not_le.1 hp)
  · obtain ⟨x, hx, heq⟩ := List.mem_map.1 hleast.mem
    rw [← UInt64.toNat_inj.1 heq]
    exact ⟨hr.min_le x hx, hr.le_max x hx⟩
  · rw [heq, hmax]
    exact ⟨hminmax, UInt64.le_refl _⟩

/-- **Percentiles are in order.** -/
theorem Recorded.percentile_mono (hr : Recorded samples h) (hne : samples ≠ []) (hcount : h.count ≠ 0) (hpq : p ≤ q) :
    h.percentile p ≤ h.percentile q := by
  by_cases hp0 : p ≤ 0
  · have hmin : h.percentile p = h.min := by rw [Histogram.percentile, if_neg hcount, if_pos hp0]
    rw [hmin]
    exact (hr.percentile_bounds hne hcount q).1
  by_cases hq : q ≥ 100
  · have hq0 : ¬q ≤ 0 := fun hq0 => hp0 (hpq.trans hq0)
    have hmax : h.percentile q = h.max := by rw [Histogram.percentile, if_neg hcount, if_neg hq0, if_pos hq]
    rw [hmax]
    exact (hr.percentile_bounds hne hcount p).2
  rw [not_le] at hp0 hq
  obtain ⟨hlt, hleast⟩ | ⟨heq, -⟩ := hr.percentile_between hcount (hp0.trans_le hpq) hq
  · -- where the scan for `q` stops, the scan for `p` has stopped
    have hreached := hleast.holds.anti hpq
    obtain ⟨-, hleast'⟩ | ⟨-, hnone⟩ := hr.percentile_between hcount hp0 (hpq.trans_lt hq)
    · exact UInt64.le_iff_toNat_le.2 (hleast'.least _ hleast.mem hreached)
    · exact absurd hreached (hnone _ hlt)
  · rw [heq]
    exact (hr.percentile_bounds hne hcount p).2

/-- **Percentiles are monotone and bounded**, whatever was recorded. -/
theorem percentile_monotone_bounded (samples : List UInt64) (hlt : samples.length < 2 ^ 64) (hpq : p ≤ q) :
    let h : Histogram maxValueNs := .recordAll samples
    h.percentile p ≤ h.percentile q ∧ (samples ≠ [] → ∀ r, h.min ≤ h.percentile r ∧ h.percentile r ≤ h.max) := by
  intro h
  have hr : Recorded samples h := recorded_recordAll samples
  by_cases hne : samples = []
  · subst hne
    exact ⟨UInt64.le_refl _, fun h => absurd rfl h⟩
  · have hcount := hr.count_ne_zero hne hlt
    exact ⟨hr.percentile_mono hne hcount hpq, fun _ r => hr.percentile_bounds hne hcount r⟩

/-- One sample in the buckets and two in the overflow. -/
theorem percentile_monotone_bounded_overflow :
    let h : Histogram 100 := .recordAll [50, 150, 200]
    h.percentile 33 = 50 ∧ h.percentile 99 = 200 ∧ h.percentile 33 ≤ h.percentile 99 ∧ h.percentile 99 ≤ h.max := by
  intro h
  obtain ⟨hmono, hbounds⟩ := @percentile_monotone_bounded 100 33 99 [50, 150, 200] (by simp) (by norm_num)
  exact ⟨by decide +kernel, by decide +kernel, hmono, (hbounds (by decide) 99).2⟩

end TradeCore
