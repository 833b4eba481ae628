import TradeCore.Lib.PriceTime
/-!
# One queue at a time

`queueAt p ls` is the queue of a side at price `p`. Rewriting an order acts on each queue by itself, an arrival on the
queue of its price only, and a side that is sorted without empty queues is determined by its queues
(`Ok.eq_of_queueAt`). So two changes of a side commute as soon as they commute on each queue.
-/

namespace PriceTime

variable {π ι : Type*}

/-- Rewriting an order keeps the prices in order. -/
theorem adjust_sorted [DecidableEq ι] {id : ι} {f : ℕ → ℕ} {better : π → π → Prop} {ls : Queues π ι}
    (h : ls.Pairwise fun a b => better a.1 b.1) :
    (adjust id f ls).Pairwise fun a b => better a.1 b.1 := by
  induction ls with
  | nil => exact List.Pairwise.nil
  | cons l ls ih =>
    rw [List.pairwise_cons] at h
    have hcons : adjust id f (l :: ls) = live (l.1, l.2.filterMap (adjustOrder id f)) ++ adjust id f ls := rfl
    rw [hcons, List.pairwise_append]
    refine ⟨?_, ih h.2, fun a ha b hb => ?_⟩
    · unfold live
      split <;> simp
    · have ha' : a.1 = l.1 := by
        unfold live at ha
        split at ha
        · cases ha
        · rw [List.mem_singleton.1 ha]
      obtain ⟨l', hl', hp⟩ := adjust_prices hb
      rw [ha', ← hp]
      exact h.1 l' hl'

variable [DecidableEq π]

/-- The orders at one price, oldest first. -/
def queueAt (p : π) (ls : Queues π ι) : Queue ι := ls.flatMap fun l => if l.1 = p then l.2 else []

variable {p p' : π} {q : Queue ι} {l : π × Queue ι} {ls ls' : Queues π ι} {better : π → π → Prop}

@[simp] theorem queueAt_nil (p : π) : queueAt p ([] : Queues π ι) = [] := rfl

@[simp] theorem queueAt_cons (p : π) (l : π × Queue ι) (ls : Queues π ι) :
    queueAt p (l :: ls) = (if l.1 = p then l.2 else []) ++ queueAt p ls := rfl

@[simp] theorem queueAt_append (p : π) (ls ls' : Queues π ι) : queueAt p (ls ++ ls') = queueAt p ls ++ queueAt p ls' :=
  List.flatMap_append

@[simp] theorem queueAt_live (p : π) (l : π × Queue ι) : queueAt p (live l) = if l.1 = p then l.2 else [] := by
  unfold live
  split
  · rename_i h
    simp [h]
  · simp

theorem mem_queueAt {o : ι × ℕ} : o ∈ queueAt p ls ↔ ∃ l ∈ ls, l.1 = p ∧ o ∈ l.2 := by
  unfold queueAt
  rw [List.mem_flatMap]
  refine exists_congr fun l => and_congr_right fun _ => ?_
  by_cases hp : l.1 = p <;> simp [hp]

/-- No queue at a price that is not listed. -/
theorem queueAt_eq_nil (h : ∀ l ∈ ls, l.1 ≠ p) : queueAt p ls = [] := by
  unfold queueAt
  rw [List.flatMap_eq_nil_iff]
  intro l hl
  exact if_neg (h l hl)

/-- A price is listed where it has a queue. -/
theorem queueAt_ne_nil_iff (hne : ∀ l ∈ ls, l.2 ≠ []) : queueAt p ls ≠ [] ↔ ∃ l ∈ ls, l.1 = p := by
  constructor
  · intro h
    by_contra hno
    exact h (queueAt_eq_nil fun l hl e => hno ⟨l, hl, e⟩)
  · rintro ⟨l, hl, rfl⟩ hnil
    obtain ⟨o, ho⟩ := List.exists_mem_of_ne_nil _ (hne l hl)
    have hmem : o ∈ queueAt l.1 ls := mem_queueAt.2 ⟨l, hl, rfl, ho⟩
    rw [hnil] at hmem
    cases hmem

/-- A side lists a price once. -/
theorem queueAt_of_mem (hs : ls.Pairwise fun a b => better a.1 b.1) (hirr : ∀ a, ¬ better a a) (h : (p, q) ∈ ls) :
    queueAt p ls = q := by
  induction ls with
  | nil => cases h
  | cons l ls ih =>
    rw [List.pairwise_cons] at hs
    rw [queueAt_cons]
    rcases List.mem_cons.1 h with rfl | h
    · have hnil : queueAt p ls = [] := by
        refine queueAt_eq_nil fun l hl e => hirr p ?_
        have := hs.1 l hl
        rwa [e] at this
      rw [if_pos rfl, hnil, List.append_nil]
    · have hne : l.1 ≠ p := by
        intro e
        have := hs.1 _ h
        rw [e] at this
        exact hirr p this
      rw [if_neg hne, ih hs.2 h, List.nil_append]

/-- **A side is its queues.** -/
theorem Ok.eq_of_queueAt (hok : Ok better ls) (hok' : Ok better ls') (htrans : ∀ a b c, better a b → better b c → better a c)
    (hirr : ∀ a, ¬ better a a) (h : ∀ p, queueAt p ls = queueAt p ls') : ls = ls' := by
  -- a level of a side is a price and the queue there
  have hsub : ∀ {ls ls' : Queues π ι}, ls.Pairwise (fun a b => better a.1 b.1) → ls'.Pairwise (fun a b => better a.1 b.1) →
      (∀ l ∈ ls, l.2 ≠ []) → (∀ p, queueAt p ls = queueAt p ls') → ∀ l ∈ ls, l ∈ ls' := by
    rintro ls ls' hs hs' hne h ⟨p, q⟩ hl
    have hq := queueAt_of_mem hs hirr hl
    have hlisted : ∃ l ∈ ls', l.1 = p := by
      by_contra hno
      rw [h p, queueAt_eq_nil fun l hl e => hno ⟨l, hl, e⟩] at hq
      exact hne _ hl hq.symm
    obtain ⟨⟨p', q'⟩, hl', rfl⟩ := hlisted
    have hq' := queueAt_of_mem hs' hirr hl'
    rw [← h p', hq] at hq'
    rw [hq']
    exact hl'
  have hnodup : ∀ {ls : Queues π ι}, ls.Pairwise (fun a b => better a.1 b.1) → ls.Nodup := by
    intro ls hs
    refine hs.imp fun {a b} hab => ?_
    rintro rfl
    exact hirr _ hab
  have hperm : ls.Perm ls' := by
    rw [List.perm_ext_iff_of_nodup (hnodup hok.sorted) (hnodup hok'.sorted)]
    exact fun l => ⟨hsub hok.sorted hok'.sorted hok.nonempty h l,
      hsub hok'.sorted hok.sorted hok'.nonempty (fun p => (h p).symm) l⟩
  exact hperm.eq_of_pairwise (fun a b _ _ hab hba => absurd (htrans _ _ _ hab hba) (hirr _)) hok.sorted hok'.sorted

/-! ## Changes of a side -/

section Resting

variable [DecidableEq ι] {id : ι} {f : ℕ → ℕ}

/-- An order that is found waits in the queue of its price. -/
theorem mem_queueAt_of_lookup {r : ℕ} (h : lookup id ls = some (p, r)) : (id, r) ∈ queueAt p ls := by
  obtain ⟨l, hl, hf⟩ := List.exists_of_findSome?_eq_some h
  obtain ⟨o, ho, e⟩ := Option.map_eq_some_iff.1 hf
  obtain ⟨hp, hr⟩ := Prod.mk.inj e
  have hid : o.1 = id := by simpa using List.find?_some ho
  refine mem_queueAt.2 ⟨l, hl, hp, ?_⟩
  rw [← hid, ← hr]
  exact List.mem_of_find?_eq_some ho

/-- **`adjust`** works on each queue by itself. -/
theorem queueAt_adjust (p : π) (ls : Queues π ι) :
    queueAt p (adjust id f ls) = (queueAt p ls).filterMap (adjustOrder id f) := by
  induction ls with
  | nil => rfl
  | cons l ls ih =>
    have hcons : adjust id f (l :: ls) = live (l.1, l.2.filterMap (adjustOrder id f)) ++ adjust id f ls := rfl
    rw [hcons, queueAt_append, ih, queueAt_live, queueAt_cons, List.filterMap_append]
    split <;> rfl

/-- Rewriting an order leaves the queue of the others alone. -/
theorem filter_filterMap_adjustOrder {id : ι} {f : ℕ → ℕ} {P : ι × ℕ → Bool} (hP : ∀ r, P (id, r) = false) (q : Queue ι) :
    (q.filterMap (adjustOrder id f)).filter P = q.filter P := by
  induction q with
  | nil => rfl
  | cons o q ih =>
    rw [List.filterMap_cons]
    by_cases hid : o.1 = id
    · have ho : P o = false := by
        rw [← hP o.2, ← hid]
      rw [List.filter_cons_of_neg (by simp [ho])]
      unfold adjustOrder
      rw [if_pos hid]
      split_ifs
      · exact ih
      · rw [List.filter_cons_of_neg (by simp [hP])]
        exact ih
    · have hkeep : adjustOrder id f o = some o := if_neg hid
      rw [hkeep]
      by_cases ho : P o = true
      · rw [List.filter_cons_of_pos ho, List.filter_cons_of_pos ho, ih]
      · rw [List.filter_cons_of_neg ho, List.filter_cons_of_neg ho, ih]

end Resting

/-- **`add`** works on the queue of its price. -/
theorem queueAt_add [DecidableRel better] {o : ι × ℕ} (hs : ls.Pairwise fun a b => better a.1 b.1)
    (p p' : π) : queueAt p' (add better p o ls) = if p = p' then queueAt p' ls ++ [o] else queueAt p' ls := by
  induction ls with
  | nil => by_cases hp : p = p' <;> simp [add, hp]
  | cons l ls ih =>
    rw [List.pairwise_cons] at hs
    unfold add
    split
    · rw [queueAt_cons, queueAt_cons, ih hs.2]
      by_cases hpp : p = p'
      · rw [if_pos hpp, if_pos hpp, List.append_assoc]
      · rw [if_neg hpp, if_neg hpp]
    · rename_i hnot
      -- the price is not listed further on
      have hnil : queueAt p ls = [] := queueAt_eq_nil fun l' hl' e => hnot (e ▸ hs.1 l' hl')
      split
      · rename_i hp
        by_cases hpp : p = p'
        · subst hpp
          simp [hp, hnil]
        · simp [hp, hpp]
      · rename_i hne
        by_cases hpp : p = p'
        · subst hpp
          simp [hne, hnil]
        · simp [hpp]

end PriceTime
