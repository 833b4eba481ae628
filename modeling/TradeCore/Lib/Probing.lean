import Mathlib
/-!
# Linear probing on a cyclic table

Slots are named by `ZMod n`. The entry of key `k` is looked for from `home k` on, one slot after the
other, until the key or a free slot is met. `Sound`: every slot on the way from the home of an entry to
the entry is taken, and no key is stored twice.

Deletion frees a slot and re-inserts, one by one, every entry of the cluster that follows it. `Rehashing`
is the invariant of that loop: the entries before the cursor are in order, the entries from the cursor
to the end of the cluster are still where they were, and their way from home leads over taken slots
to a slot no later than the cursor.

Main results: `Sound.put`, `Sound.rehashing`, `Rehashing.step`, `Rehashing.sound`.
-/

namespace Probing

variable {κ ν : Type*} {n : ℕ}

/-! ## Steps around the table -/

/-- How many steps lead from `i` to `j`. -/
def dist (i j : ZMod n) : ℕ := (j - i).val

theorem dist_lt [NeZero n] (i j : ZMod n) : dist i j < n := ZMod.val_lt _

@[simp] theorem dist_self (i : ZMod n) : dist i i = 0 := by simp [dist]

theorem add_dist [NeZero n] (i j : ZMod n) : i + (dist i j : ℕ) = j := by simp [dist]

theorem dist_add (i : ZMod n) {m : ℕ} (h : m < n) : dist i (i + (m : ℕ)) = m := by
  simp [dist, ZMod.val_natCast, Nat.mod_eq_of_lt h]

theorem dist_inj [NeZero n] {p i j : ZMod n} (h : dist p i = dist p j) : i = j := by
  rw [← add_dist p i, h, add_dist]

/-- Steps from `i` to `j`, counted by somebody who stands at `p`. -/
theorem dist_rebase [NeZero n] (p i j : ZMod n) :
    dist i j = if dist p i ≤ dist p j then dist p j - dist p i else dist p j + n - dist p i := by
  have e : j - i = (j - p) - (i - p) := by abel
  unfold dist
  rw [e]
  split
  · rename_i h
    exact ZMod.val_sub h
  · rename_i h
    have h1 : (i - p).val < n := ZMod.val_lt _
    have h2 : ((j - p) - (i - p)).val + (i - p).val = (j - p).val + n := by
      have hs : (j - p) - (i - p) + (i - p) = j - p := by abel
      have hv := ZMod.val_add ((j - p) - (i - p)) (i - p)
      have hl : ((j - p) - (i - p)).val < n := ZMod.val_lt _
      rw [hs] at hv
      by_cases hlt : ((j - p) - (i - p)).val + (i - p).val < n
      · rw [Nat.mod_eq_of_lt hlt] at hv
        omega
      · rw [Nat.mod_eq_sub_mod (by omega), Nat.mod_eq_of_lt (by omega)] at hv
        omega
    omega

/-! ## Tables -/

abbrev Table (n : ℕ) (κ ν : Type*) := ZMod n → Option (κ × ν)

/-- The table stores `v` under `k`. -/
def Binds (T : Table n κ ν) (k : κ) (v : ν) : Prop := ∃ j, T j = some (k, v)

variable (home : κ → ZMod n)

/-- Every slot on the way from the home of the entry in slot `j` to `j` is taken. -/
def Settled (T : Table n κ ν) (j : ZMod n) : Prop :=
  ∀ k v, T j = some (k, v) → ∀ i, dist (home k) i < dist (home k) j → T i ≠ none

/-- No key is stored twice. -/
def KeyInj (T : Table n κ ν) : Prop :=
  ∀ i j k v w, T i = some (k, v) → T j = some (k, w) → i = j

structure Sound (T : Table n κ ν) : Prop where
  settled : ∀ j, Settled home T j
  inj : KeyInj T

/-- `s` is where the search for `k` stops. -/
structure Found (T : Table n κ ν) (k : κ) (s : ZMod n) : Prop where
  stop : T s = none ∨ ∃ v, T s = some (k, v)
  before : ∀ i, dist (home k) i < dist (home k) s → ∃ k' v, T i = some (k', v) ∧ k' ≠ k

variable {home} {T : Table n κ ν} {k : κ} {v : ν} {s : ZMod n}

/-- A table with a free slot ends every search. -/
theorem exists_found [NeZero n] (home : κ → ZMod n) (hfree : ∃ e, T e = none) (k : κ) : ∃ s, Found home T k s := by
  classical
  have hex : ∃ m, T (home k + (m : ℕ)) = none ∨ ∃ v, T (home k + (m : ℕ)) = some (k, v) := by
    obtain ⟨e, he⟩ := hfree
    exact ⟨dist (home k) e, Or.inl (by rw [add_dist]; exact he)⟩
  have hlt : Nat.find hex < n := by
    obtain ⟨e, he⟩ := hfree
    have hle : Nat.find hex ≤ dist (home k) e := Nat.find_min' hex (Or.inl (by rw [add_dist]; exact he))
    exact lt_of_le_of_lt hle (dist_lt _ _)
  refine ⟨home k + (Nat.find hex : ℕ), Nat.find_spec hex, fun i hi => ?_⟩
  rw [dist_add _ hlt] at hi
  have hmin := Nat.find_min hex hi
  rw [add_dist, not_or] at hmin
  cases hT : T i with
  | none => exact absurd hT hmin.1
  | some p =>
    refine ⟨p.1, p.2, rfl, fun e => hmin.2 ⟨p.2, ?_⟩⟩
    rw [hT, ← e]

/-- A search that stops at a free slot says that the key is not stored. -/
theorem Found.not_binds [NeZero n] (hs : Found home T k s) (hT : ∀ j, Settled home T j) (hnone : T s = none) (v : ν) :
    ¬ Binds T k v := by
  rintro ⟨j, hj⟩
  have hle : ¬ dist (home k) s < dist (home k) j := fun hlt => hT j k v hj s hlt hnone
  rcases Nat.lt_or_ge (dist (home k) j) (dist (home k) s) with hlt | hge
  · obtain ⟨k', w, e, hne⟩ := hs.before j hlt
    rw [hj] at e
    cases e
    exact hne rfl
  · have : j = s := dist_inj (p := home k) (by omega)
    rw [this, hnone] at hj
    cases hj

/-- A stored key is found where it is. -/
theorem Found.eq_of_some [NeZero n] (hs : Found home T k s) (hT : Sound home T) {j : ZMod n} (hj : T j = some (k, v)) : s = j := by
  rcases hs.stop with hn | ⟨w, hw⟩
  · exact absurd ⟨j, hj⟩ (hs.not_binds hT.settled hn v)
  · exact hT.inj s j k w v hw hj

/-! ## Writing one slot -/

/-- Writing an entry for `k` into the slot where the search for `k` stopped. -/
theorem binds_update [DecidableEq κ] (hinj : KeyInj T) (hs : T s = none ∧ (∀ w, ¬ Binds T k w) ∨ ∃ w, T s = some (k, w))
    {k' : κ} {v' : ν} :
    Binds (Function.update T s (some (k, v))) k' v' ↔ if k' = k then v' = v else Binds T k' v' := by
  constructor
  · rintro ⟨j, hj⟩
    by_cases hjs : j = s
    · subst hjs
      rw [Function.update_self] at hj
      cases hj
      simp
    · rw [Function.update_of_ne hjs] at hj
      have hne : k' ≠ k := by
        rintro rfl
        rcases hs with ⟨-, hnb⟩ | ⟨w, hw⟩
        · exact hnb v' ⟨j, hj⟩
        · exact hjs (hinj j s k' v' w hj hw)
      rw [if_neg hne]
      exact ⟨j, hj⟩
  · intro h
    by_cases hk : k' = k
    · rw [if_pos hk] at h
      rw [hk, h]
      exact ⟨s, Function.update_self _ _ _⟩
    · rw [if_neg hk] at h
      obtain ⟨j, hj⟩ := h
      have hjs : j ≠ s := by
        rintro rfl
        rcases hs with ⟨hn, -⟩ | ⟨w, hw⟩
        · rw [hn] at hj
          cases hj
        · rw [hw] at hj
          cases hj
          exact hk rfl
      exact ⟨j, by rw [Function.update_of_ne hjs]; exact hj⟩

theorem keyInj_update (hinj : KeyInj T) (hs : T s = none ∧ (∀ w, ¬ Binds T k w) ∨ ∃ w, T s = some (k, w)) :
    KeyInj (Function.update T s (some (k, v))) := by
  have key : ∀ {i : ZMod n} {k' : κ} {w : ν}, Function.update T s (some (k, v)) i = some (k', w) →
      i ≠ s → T i = some (k', w) ∧ k' ≠ k := by
    intro i k' w hi his
    rw [Function.update_of_ne his] at hi
    refine ⟨hi, ?_⟩
    rintro rfl
    rcases hs with ⟨-, hnb⟩ | ⟨u, hu⟩
    · exact hnb w ⟨i, hi⟩
    · exact his (hinj i s k' w u hi hu)
  intro i j k' w w' hi hj
  by_cases his : i = s <;> by_cases hjs : j = s
  · rw [his, hjs]
  · subst his
    rw [Function.update_self] at hi
    cases hi
    exact absurd rfl (key hj hjs).2
  · subst hjs
    rw [Function.update_self] at hj
    cases hj
    exact absurd rfl (key hi his).2
  · exact hinj i j k' w w' (key hi his).1 (key hj hjs).1

/-- A slot that is taken stays taken. -/
theorem update_ne_none {i : ZMod n} (h : T i ≠ none) : Function.update T s (some (k, v)) i ≠ none := by
  by_cases his : i = s
  · rw [his, Function.update_self]
    simp
  · rwa [Function.update_of_ne his]

/-- The entry written where the search for its key stopped is settled. -/
theorem Found.settled_update (hs : Found home T k s) : Settled home (Function.update T s (some (k, v))) s := by
  intro k' w h i hi
  rw [Function.update_self] at h
  cases h
  obtain ⟨k', w', e, -⟩ := hs.before i hi
  exact update_ne_none (by rw [e]; simp)

theorem Settled.update {j : ZMod n} (hj : Settled home T j) (hjs : j ≠ s) :
    Settled home (Function.update T s (some (k, v))) j := by
  intro k' w h i hi
  rw [Function.update_of_ne hjs] at h
  exact update_ne_none (hj k' w h i hi)

theorem Found.slot [NeZero n] (hs : Found home T k s) (hT : ∀ j, Settled home T j) :
    T s = none ∧ (∀ w, ¬ Binds T k w) ∨ ∃ w, T s = some (k, w) :=
  hs.stop.imp_left fun hn => ⟨hn, hs.not_binds hT hn⟩

/-- **Insertion or update.** -/
theorem Sound.put [NeZero n] (hT : Sound home T) (hs : Found home T k s) (v : ν) : Sound home (Function.update T s (some (k, v))) where
  settled j := by
    by_cases hjs : j = s
    · rw [hjs]
      exact hs.settled_update
    · exact (hT.settled j).update hjs
  inj := keyInj_update hT.inj (hs.slot hT.settled)

/-- The table without the entry in slot `p`. -/
theorem binds_clear (hinj : KeyInj T) {p : ZMod n} (hp : T p = some (k, v)) {k' : κ} {v' : ν} :
    Binds (Function.update T p none) k' v' ↔ Binds T k' v' ∧ k' ≠ k := by
  constructor
  · rintro ⟨j, hj⟩
    have hjp : j ≠ p := by
      rintro rfl
      rw [Function.update_self] at hj
      cases hj
    rw [Function.update_of_ne hjp] at hj
    refine ⟨⟨j, hj⟩, ?_⟩
    rintro rfl
    exact hjp (hinj j p k' v' v hj hp)
  · rintro ⟨⟨j, hj⟩, hne⟩
    have hjp : j ≠ p := by
      rintro rfl
      rw [hp] at hj
      cases hj
      exact hne rfl
    exact ⟨j, by rw [Function.update_of_ne hjp]; exact hj⟩

theorem KeyInj.clear (hinj : KeyInj T) (p : ZMod n) : KeyInj (Function.update T p none) := by
  intro i j k' w w' hi hj
  have key : ∀ {i : ZMod n} {w : ν}, Function.update T p none i = some (k', w) → T i = some (k', w) := by
    intro i w hi
    by_cases hip : i = p
    · rw [hip, Function.update_self] at hi
      cases hi
    · rwa [Function.update_of_ne hip] at hi
  exact hinj i j k' w w' (key hi) (key hj)

/-- Moving an entry to a free slot changes no binding. -/
theorem binds_move [DecidableEq κ] (hinj : KeyInj T) {q : ZMod n} (hq : T q = some (k, v))
    (hs : Function.update T q none s = none) {k' : κ} {v' : ν} :
    Binds (Function.update (Function.update T q none) s (some (k, v))) k' v' ↔ Binds T k' v' := by
  have hnb : ∀ w, ¬ Binds (Function.update T q none) k w := fun w hb => ((binds_clear hinj hq).1 hb).2 rfl
  rw [binds_update (hinj.clear q) (Or.inl ⟨hs, hnb⟩)]
  by_cases hk : k' = k
  · rw [if_pos hk, hk]
    constructor
    · rintro rfl
      exact ⟨q, hq⟩
    · rintro ⟨j, hj⟩
      obtain rfl := hinj j q k v' v hj hq
      rw [hq] at hj
      cases hj
      rfl
  · rw [if_neg hk, binds_clear hinj hq]
    exact and_iff_left hk

/-! ## Deletion -/

/-- The re-insertion loop after the entry in slot `p` was deleted. The cursor stands `c` steps behind `p`,
and the cluster ends `g` steps behind it. -/
structure Rehashing (home : κ → ZMod n) (T : Table n κ ν) (p : ZMod n) (g c : ℕ) : Prop where
  pos : 0 < c
  le : c ≤ g
  lt : g < n
  /-- The free slot that ends the cluster. -/
  gap : ∀ i, dist p i = g → T i = none
  /-- The slots from the cursor to the end of the cluster are taken. -/
  cluster : ∀ i, c ≤ dist p i → dist p i < g → T i ≠ none
  /-- Everything else is in order. -/
  settled : ∀ j, dist p j < c ∨ g ≤ dist p j → Settled home T j
  /-- The home of an entry still to be moved is no later than the cursor, or behind the gap with every slot
  from there on taken. -/
  pending : ∀ j k v, c ≤ dist p j → dist p j < g → T j = some (k, v) →
    dist p (home k) ≤ dist p j ∨ g < dist p (home k) ∧ ∀ i, dist p (home k) ≤ dist p i → T i ≠ none
  inj : KeyInj T

/-- The loop starts in order when an entry of a sound table with a free slot is deleted. -/
theorem Sound.rehashing [NeZero n] (hT : Sound home T) {p : ZMod n} (hp : T p = some (k, v)) (hfree : ∃ e, T e = none) :
    ∃ g, Rehashing home (Function.update T p none) p g 1 := by
  classical
  -- the first free slot behind `p`
  have hex : ∃ m, 0 < m ∧ m < n ∧ T (p + (m : ℕ)) = none := by
    obtain ⟨e, he⟩ := hfree
    refine ⟨dist p e, Nat.pos_of_ne_zero fun h0 => ?_, dist_lt _ _, by rw [add_dist]; exact he⟩
    have : e = p := dist_inj (p := p) (by simpa using h0)
    rw [this, hp] at he
    cases he
  obtain ⟨hg0, hgn, hgap⟩ := Nat.find_spec hex
  have hmin : ∀ m, 0 < m → m < Nat.find hex → T (p + (m : ℕ)) ≠ none := fun m h0 hm e =>
    Nat.find_min hex hm ⟨h0, by omega, e⟩
  generalize Nat.find hex = g at hg0 hgn hgap hmin
  have hne : ∀ {i : ZMod n}, 0 < dist p i → i ≠ p := by
    rintro i hi rfl
    simp at hi
  have hup : ∀ {i : ZMod n}, 0 < dist p i → Function.update T p none i = T i := fun hi =>
    Function.update_of_ne (hne hi) _ _
  have hgapI : ∀ i, dist p i = g → T i = none := by
    intro i hi
    rw [← add_dist p i, hi]
    exact hgap
  -- the way of an entry does not cross the gap
  have hcross : ∀ j k' v', T j = some (k', v') → ¬ dist (home k') (p + (g : ℕ)) < dist (home k') j :=
    fun j k' v' hj hlt => hT.settled j k' v' hj _ hlt hgap
  have hdg : dist p (p + (g : ℕ)) = g := dist_add p hgn
  refine ⟨g, ⟨one_pos, hg0, hgn, ?_, ?_, ?_, ?_, hT.inj.clear p⟩⟩
  · intro i hi
    rw [hup (by omega)]
    exact hgapI i hi
  · intro i h1 h2
    rw [hup (by omega), ← add_dist p i]
    exact hmin _ (by omega) h2
  · intro j hj k' v' h i hi
    rcases Nat.eq_zero_or_pos (dist p j) with h0 | h0
    · rw [dist_inj (p := p) (show dist p j = dist p p by simpa using h0), Function.update_self] at h
      cases h
    · rw [hup h0] at h
      have hc := hcross j k' v' h
      have hjg : dist p j ≠ g := fun e => by
        rw [hgapI j e] at h
        cases h
      have hi0 : 0 < dist p i := by
        rw [dist_rebase p (home k') i, dist_rebase p (home k') j] at hi
        rw [dist_rebase p (home k') (p + (g : ℕ)), dist_rebase p (home k') j, hdg] at hc
        have := dist_lt p (home k')
        have := dist_lt p j
        split_ifs at hi hc <;> omega
      rw [hup hi0]
      exact hT.settled j k' v' h i hi
  · intro j k' v' h1 h2 h
    rw [hup (by omega)] at h
    have hc := hcross j k' v' h
    rcases Nat.lt_or_ge (dist p j) (dist p (home k')) with hlt | hge
    · right
      rw [dist_rebase p (home k') (p + (g : ℕ)), dist_rebase p (home k') j, hdg] at hc
      have hgh : g < dist p (home k') := by
        by_contra hle
        rw [if_pos (by omega), if_neg (by omega)] at hc
        omega
      refine ⟨hgh, fun i hi => ?_⟩
      rw [hup (by omega)]
      refine hT.settled j k' v' h i ?_
      have := dist_lt p i
      rw [dist_rebase p (home k') i, dist_rebase p (home k') j, if_pos hi, if_neg (by omega)]
      omega
    · exact Or.inl hge

/-- **One round.** The entry under the cursor is taken out and written where the search for its key stops,
which is a free slot no later than the cursor. -/
theorem Rehashing.step [NeZero n] {p : ZMod n} {g c : ℕ} (h : Rehashing home T p g c) {q : ZMod n} (hq : dist p q = c) (hcg : c < g)
    (hk : T q = some (k, v)) (hs : Found home (Function.update T q none) k s) :
    Function.update T q none s = none ∧
      Rehashing home (Function.update (Function.update T q none) s (some (k, v))) p g (c + 1) := by
  have hc0 := h.pos
  have hgn := h.lt
  have hup : ∀ {i : ZMod n}, dist p i ≠ c → Function.update T q none i = T i := fun hi =>
    Function.update_of_ne (fun e => hi (by rw [e, hq])) _ _
  -- the key is nowhere else
  have hnb : ∀ w, ¬ Binds (Function.update T q none) k w := fun w hb => ((binds_clear h.inj hk).1 hb).2 rfl
  have hnone : Function.update T q none s = none := hs.stop.resolve_right fun ⟨w, hw⟩ => hnb w ⟨s, hw⟩
  have hqs : ¬ dist (home k) q < dist (home k) s := by
    intro hlt
    obtain ⟨k', w, e, -⟩ := hs.before q hlt
    rw [Function.update_self] at e
    cases e
  have hsc : dist p s ≤ c := by
    by_contra hgt
    have hpend := h.pending q k v (by omega) (by omega) hk
    rw [dist_rebase p (home k) q, dist_rebase p (home k) s, hq] at hqs
    rw [hq] at hpend
    rcases hpend with hle | ⟨hgh, hocc⟩
    · rw [if_pos hle, if_pos (by omega)] at hqs
      omega
    · have hsh : dist p (home k) ≤ dist p s := by
        by_contra hlt
        have := dist_lt p (home k)
        rw [if_neg (by omega), if_neg (by omega)] at hqs
        omega
      refine hocc s hsh ?_
      rw [← hup (by omega)]
      exact hnone
  have hup' : ∀ {i : ZMod n}, c < dist p i →
      Function.update (Function.update T q none) s (some (k, v)) i = T i := by
    intro i hi
    rw [Function.update_of_ne (by rintro rfl; omega), hup (by omega)]
  refine ⟨hnone, ⟨by omega, hcg, h.lt, ?_, ?_, ?_, ?_, keyInj_update (h.inj.clear q) (Or.inl ⟨hnone, hnb⟩)⟩⟩
  · intro i hi
    rw [hup' (by omega)]
    exact h.gap i hi
  · intro i h1 h2
    rw [hup' (by omega)]
    exact h.cluster i (by omega) h2
  · intro j hj
    by_cases hjs : j = s
    · rw [hjs]
      exact hs.settled_update
    · refine Settled.update ?_ hjs
      intro k' v' hj' i hi
      have hjc : dist p j ≠ c := by
        intro e
        rw [dist_inj (p := p) (e.trans hq.symm), Function.update_self] at hj'
        cases hj'
      rw [hup hjc] at hj'
      have hset := h.settled j (by omega) k' v' hj'
      -- the slot that was freed is not on the way: the way would cross the gap
      have hic : dist p i ≠ c := by
        intro e
        have hgap : T (p + (g : ℕ)) = none := h.gap _ (dist_add p hgn)
        have hg : ¬ dist (home k') (p + (g : ℕ)) < dist (home k') j := fun hlt => hset _ hlt hgap
        have hdg : dist p (p + (g : ℕ)) = g := dist_add p hgn
        have hjg : dist p j ≠ g := fun e => by
          rw [h.gap j e] at hj'
          cases hj'
        have := dist_lt p (home k')
        have := dist_lt p j
        rw [dist_rebase p (home k') i, dist_rebase p (home k') j] at hi
        rw [dist_rebase p (home k') (p + (g : ℕ)), dist_rebase p (home k') j, hdg] at hg
        split_ifs at hi hg <;> omega
      rw [hup hic]
      exact hset i hi
  · intro j k' v' h1 h2 hj
    rw [hup' (by omega)] at hj
    rcases h.pending j k' v' (by omega) h2 hj with hle | ⟨hgh, hocc⟩
    · exact Or.inl hle
    · refine Or.inr ⟨hgh, fun i hi => ?_⟩
      rw [hup' (by omega)]
      exact hocc i hi

/-- At the end of the cluster the whole table is in order. -/
theorem Rehashing.sound {p : ZMod n} {g : ℕ} (h : Rehashing home T p g g) : Sound home T where
  settled j := h.settled j (by omega)
  inj := h.inj

/-- A table with fewer keys than slots has a free one. -/
theorem exists_free [NeZero n] (hinj : KeyInj T) (ks : Finset κ) (hks : ∀ k v, Binds T k v → k ∈ ks) (hlt : ks.card < n) :
    ∃ e, T e = none := by
  by_contra hno
  have hsome : ∀ i, ∃ e : κ × ν, T i = some e := fun i => Option.ne_none_iff_exists'.1 fun e => hno ⟨i, e⟩
  choose f hf using hsome
  have hmaps : ∀ i ∈ (Finset.univ : Finset (ZMod n)), (f i).1 ∈ ks := fun i _ => hks _ (f i).2 ⟨i, hf i⟩
  have hfi : Set.InjOn (fun i => (f i).1) ((Finset.univ : Finset (ZMod n)) : Set (ZMod n)) := by
    intro i _ j _ e
    have hj : T j = some ((f i).1, (f j).2) := by
      rw [hf j, show (f i).1 = (f j).1 from e]
    exact hinj i j _ _ _ (hf i) hj
  have := Finset.card_le_card_of_injOn _ hmaps hfi
  rw [Finset.card_univ, ZMod.card] at this
  omega

end Probing
