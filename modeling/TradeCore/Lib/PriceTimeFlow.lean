import TradeCore.Lib.PriceTime
/-!
# Where the quantity goes

Every fill takes from an order that rests, and what a sweep leaves of an order is what it did not fill:
`sweep_held` is that balance order by order. `Rests p id r ls` says that `r` remains of order `id` at price `p`;
`sweep_fill_rests` and `sweep_rests` trace a fill and a remaining order back to it. `Serves` is the order in which a
queue is taken (`sweep_serves`). `restingAt` is the quantity at one price.
-/

namespace PriceTime

variable {π ι : Type*}

/-- `r` remains of order `id`, which rests at price `p`. -/
def Rests (p : π) (id : ι) (r : ℕ) (ls : Queues π ι) : Prop := ∃ q, (p, q) ∈ ls ∧ (id, r) ∈ q

section Rests

variable {p : π} {id : ι} {r n : ℕ} {l : π × Queue ι} {q : Queue ι} {ls : Queues π ι} {accepts : π → Bool}

@[simp] theorem not_rests_nil : ¬ Rests p id r ([] : Queues π ι) := by
  rintro ⟨q, hq, -⟩
  cases hq

theorem rests_cons : Rests p id r (l :: ls) ↔ (p = l.1 ∧ (id, r) ∈ l.2) ∨ Rests p id r ls := by
  unfold Rests
  constructor
  · rintro ⟨q, hq, ho⟩
    rcases List.mem_cons.1 hq with rfl | hq
    · exact Or.inl ⟨rfl, ho⟩
    · exact Or.inr ⟨q, hq, ho⟩
  · rintro (⟨rfl, ho⟩ | ⟨q, hq, ho⟩)
    · exact ⟨l.2, List.mem_cons_self, ho⟩
    · exact ⟨q, List.mem_cons_of_mem l hq, ho⟩

theorem rests_append {ls' : Queues π ι} : Rests p id r (ls ++ ls') ↔ Rests p id r ls ∨ Rests p id r ls' := by
  induction ls with
  | nil => simp
  | cons l ls ih => rw [List.cons_append, rests_cons, rests_cons, ih, or_assoc]

theorem rests_live : Rests p id r (live l) ↔ p = l.1 ∧ (id, r) ∈ l.2 := by
  unfold live
  split
  · rename_i h
    simp [h]
  · simp [rests_cons]

theorem rests_of_mem_orders {o : ι × ℕ} (h : o ∈ orders ls) : ∃ p, Rests p o.1 o.2 ls := by
  obtain ⟨l, hl, ho⟩ := List.mem_flatMap.1 h
  exact ⟨l.1, l.2, hl, ho⟩

/-- A fill of a queue takes from an order of the queue, and no more than that order has or the incoming one needs. -/
theorem fillQueue_fill_mem {t : Fill π ι} (ht : t ∈ (fillQueue p q n).1) :
    t.price = p ∧ t.qty ≤ n ∧ ∃ r, (t.maker, r) ∈ q ∧ t.qty ≤ r := by
  induction q generalizing n with
  | nil => cases ht
  | cons o q ih =>
    by_cases h0 : n = 0
    · rw [h0, fillQueue_zero] at ht
      cases ht
    · by_cases h : n < o.2
      · rw [fillQueue_short h0 h] at ht
        obtain rfl := List.mem_singleton.1 ht
        exact ⟨rfl, le_rfl, o.2, List.mem_cons_self, h.le⟩
      · rw [fillQueue_whole h0 (by omega)] at ht
        rcases List.mem_cons.1 ht with rfl | ht
        · exact ⟨rfl, Nat.le_of_not_lt h, o.2, List.mem_cons_self, le_rfl⟩
        · obtain ⟨hp, hn, r, hr, hle⟩ := ih ht
          exact ⟨hp, by omega, r, List.mem_cons_of_mem o hr, hle⟩

/-- What stays in a queue was there, with no less. -/
theorem fillQueue_rest_mem (ho : (id, r) ∈ (fillQueue p q n).2.1) : ∃ r', (id, r') ∈ q ∧ r ≤ r' := by
  induction q generalizing n with
  | nil => cases ho
  | cons o q ih =>
    by_cases h0 : n = 0
    · rw [h0, fillQueue_zero] at ho
      exact ⟨r, ho, le_rfl⟩
    · by_cases h : n < o.2
      · rw [fillQueue_short h0 h] at ho
        rcases List.mem_cons.1 ho with e | ho
        · obtain ⟨rfl, rfl⟩ := Prod.mk.inj e
          exact ⟨o.2, List.mem_cons_self, Nat.sub_le _ _⟩
        · exact ⟨r, List.mem_cons_of_mem o ho, le_rfl⟩
      · rw [fillQueue_whole h0 (by omega)] at ho
        obtain ⟨r', hr', hle⟩ := ih ho
        exact ⟨r', List.mem_cons_of_mem o hr', hle⟩

/-- **A fill takes from an order that rests**, and no more than that order has or the incoming one needs. -/
theorem sweep_fill_rests {t : Fill π ι} (ht : t ∈ (sweep accepts ls n).1) :
    t.qty ≤ n ∧ ∃ r, Rests t.price t.maker r ls ∧ t.qty ≤ r := by
  induction ls generalizing n with
  | nil => cases ht
  | cons l ls ih =>
    obtain ⟨p, q⟩ := l
    by_cases h : n = 0 ∨ accepts p = false
    · rw [sweep_stop h] at ht
      cases ht
    · rw [not_or] at h
      rw [sweep_cons h.1 (by simpa using h.2)] at ht
      rcases List.mem_append.1 ht with ht | ht
      · obtain ⟨rfl, hn, r, hr, hle⟩ := fillQueue_fill_mem ht
        exact ⟨hn, r, rests_cons.2 (Or.inl ⟨rfl, hr⟩), hle⟩
      · obtain ⟨hn, r, hr, hle⟩ := ih ht
        have hleft := fillQueue_left p q n
        exact ⟨by omega, r, rests_cons.2 (Or.inr hr), hle⟩

/-- **What rests after a sweep rested before**, with no less. -/
theorem sweep_rests (h : Rests p id r (sweep accepts ls n).2.1) : ∃ r', Rests p id r' ls ∧ r ≤ r' := by
  induction ls generalizing n with
  | nil => exact absurd h not_rests_nil
  | cons l ls ih =>
    obtain ⟨p', q⟩ := l
    by_cases hs : n = 0 ∨ accepts p' = false
    · rw [sweep_stop hs] at h
      exact ⟨r, h, le_rfl⟩
    · rw [not_or] at hs
      rw [sweep_cons hs.1 (by simpa using hs.2), rests_append, rests_live] at h
      rcases h with ⟨rfl, ho⟩ | h
      · obtain ⟨r', hr', hle⟩ := fillQueue_rest_mem ho
        exact ⟨r', rests_cons.2 (Or.inl ⟨rfl, hr'⟩), hle⟩
      · obtain ⟨r', hr', hle⟩ := ih h
        exact ⟨r', rests_cons.2 (Or.inr hr'), hle⟩

/-- A queue that is met is filled from. -/
theorem fillQueue_ne_nil (h0 : n ≠ 0) (hq : q ≠ []) : (fillQueue p q n).1 ≠ [] := by
  obtain ⟨o, q', rfl⟩ := List.exists_cons_of_ne_nil hq
  by_cases h : n < o.2
  · rw [fillQueue_short h0 h]
    exact List.cons_ne_nil _ _
  · rw [fillQueue_whole h0 (by omega)]
    exact List.cons_ne_nil _ _

/-- **A sweep that meets an accepted price trades.** -/
theorem sweep_ne_nil (h0 : n ≠ 0) (ha : accepts p = true) (hq : q ≠ []) : (sweep accepts ((p, q) :: ls) n).1 ≠ [] := by
  rw [sweep_cons h0 ha]
  exact List.append_ne_nil_of_left_ne_nil (fillQueue_ne_nil h0 hq) _

theorem fillQueue_fill_pos (hpos : ∀ o ∈ q, 0 < o.2) : ∀ t ∈ (fillQueue p q n).1, 0 < t.qty := by
  induction q generalizing n with
  | nil => nofun
  | cons o q ih =>
    by_cases h0 : n = 0
    · rw [h0, fillQueue_zero]
      nofun
    · by_cases h : n < o.2
      · rw [fillQueue_short h0 h]
        intro t ht
        rw [List.mem_singleton.1 ht]
        exact Nat.pos_of_ne_zero h0
      · rw [fillQueue_whole h0 (by omega)]
        intro t ht
        rcases List.mem_cons.1 ht with rfl | ht
        · exact hpos o List.mem_cons_self
        · exact ih (fun o' ho' => hpos o' (List.mem_cons_of_mem o ho')) t ht

/-- **No fill is empty.** -/
theorem sweep_fill_pos (hpos : ∀ o ∈ orders ls, 0 < o.2) : ∀ t ∈ (sweep accepts ls n).1, 0 < t.qty := by
  induction ls generalizing n with
  | nil => nofun
  | cons l ls ih =>
    obtain ⟨p, q⟩ := l
    by_cases h : n = 0 ∨ accepts p = false
    · rw [sweep_stop h]
      nofun
    · rw [not_or] at h
      rw [sweep_cons h.1 (by simpa using h.2)]
      intro t ht
      rcases List.mem_append.1 ht with ht | ht
      · exact fillQueue_fill_pos (fun o ho => hpos o (List.mem_append_left _ ho)) t ht
      · exact ih (fun o ho => hpos o (List.mem_append_right _ ho)) t ht

/-- **What rests after an order arrived** is that order or rested before. -/
theorem add_rests {better : π → π → Prop} [DecidableRel better] [DecidableEq π] {p₀ : π} {o : ι × ℕ}
    (h : Rests p id r (add better p₀ o ls)) : (p = p₀ ∧ (id, r) = o) ∨ Rests p id r ls := by
  induction ls with
  | nil =>
    rw [add, rests_cons] at h
    rcases h with ⟨rfl, ho⟩ | h
    · exact Or.inl ⟨rfl, List.mem_singleton.1 ho⟩
    · exact absurd h not_rests_nil
  | cons l ls ih =>
    unfold add at h
    split at h
    · rw [rests_cons] at h ⊢
      rcases h with h | h
      · exact Or.inr (Or.inl h)
      · rcases ih h with h | h
        · exact Or.inl h
        · exact Or.inr (Or.inr h)
    · split at h
      · rename_i hp
        rw [rests_cons] at h ⊢
        rcases h with ⟨rfl, ho⟩ | h
        · rcases List.mem_append.1 ho with ho | ho
          · exact Or.inr (Or.inl ⟨hp.symm, ho⟩)
          · exact Or.inl ⟨rfl, List.mem_singleton.1 ho⟩
        · exact Or.inr (Or.inr h)
      · rw [rests_cons] at h
        rcases h with ⟨rfl, ho⟩ | h
        · exact Or.inl ⟨rfl, List.mem_singleton.1 ho⟩
        · exact Or.inr h

end Rests

/-! ## The balance of an order -/

section Held

variable [DecidableEq ι] {p : π} {id : ι} {r n : ℕ} {q : Queue ι} {ls : Queues π ι} {accepts : π → Bool}

/-- What a queue holds of order `id`. -/
def heldIn (id : ι) (q : Queue ι) : ℕ := (q.map fun o => if o.1 = id then o.2 else 0).sum

/-- What a side holds of order `id`. -/
def held (id : ι) (ls : Queues π ι) : ℕ := heldIn id (orders ls)

/-- What fills took from order `id`. -/
def filled (id : ι) (ts : List (Fill π ι)) : ℕ := (ts.map fun t => if t.maker = id then t.qty else 0).sum

@[simp] theorem heldIn_nil (id : ι) : heldIn id [] = 0 := rfl

@[simp] theorem heldIn_cons (id : ι) (o : ι × ℕ) (q : Queue ι) :
    heldIn id (o :: q) = (if o.1 = id then o.2 else 0) + heldIn id q := rfl

@[simp] theorem heldIn_append (id : ι) (q q' : Queue ι) : heldIn id (q ++ q') = heldIn id q + heldIn id q' := by
  simp [heldIn]

@[simp] theorem held_nil (id : ι) : held id ([] : Queues π ι) = 0 := rfl

@[simp] theorem held_cons (id : ι) (l : π × Queue ι) (ls : Queues π ι) : held id (l :: ls) = heldIn id l.2 + held id ls := by
  simp [held]

@[simp] theorem held_append (id : ι) (ls ls' : Queues π ι) : held id (ls ++ ls') = held id ls + held id ls' := by
  simp [held]

@[simp] theorem held_live (id : ι) (l : π × Queue ι) : held id (live l) = heldIn id l.2 := by
  simp [held]

@[simp] theorem filled_nil (id : ι) : filled id ([] : List (Fill π ι)) = 0 := rfl

@[simp] theorem filled_cons (id : ι) (t : Fill π ι) (ts : List (Fill π ι)) :
    filled id (t :: ts) = (if t.maker = id then t.qty else 0) + filled id ts := rfl

@[simp] theorem filled_append (id : ι) (ts ts' : List (Fill π ι)) : filled id (ts ++ ts') = filled id ts + filled id ts' := by
  simp [filled]

theorem fillQueue_held (id : ι) (p : π) (q : Queue ι) (n : ℕ) :
    filled id (fillQueue p q n).1 + heldIn id (fillQueue p q n).2.1 = heldIn id q := by
  induction q generalizing n with
  | nil => rfl
  | cons o q ih =>
    by_cases h0 : n = 0
    · rw [h0, fillQueue_zero]
      simp
    · by_cases h : n < o.2
      · rw [fillQueue_short h0 h]
        simp only [filled_cons, filled_nil, heldIn_cons]
        split <;> omega
      · rw [fillQueue_whole h0 (by omega)]
        have := ih (n - o.2)
        simp only [filled_cons, heldIn_cons]
        omega

/-- **The balance of a sweep**, order by order. -/
theorem sweep_held (id : ι) (accepts : π → Bool) (ls : Queues π ι) (n : ℕ) :
    filled id (sweep accepts ls n).1 + held id (sweep accepts ls n).2.1 = held id ls := by
  induction ls generalizing n with
  | nil => rfl
  | cons l ls ih =>
    obtain ⟨p, q⟩ := l
    by_cases h : n = 0 ∨ accepts p = false
    · rw [sweep_stop h]
      simp
    · rw [not_or] at h
      rw [sweep_cons h.1 (by simpa using h.2)]
      have h1 := fillQueue_held id p q n
      have h2 := ih (fillQueue p q n).2.2
      simp only [filled_append, held_append, held_live, held_cons]
      omega

/-- **The balance of an arrival.** -/
theorem add_held (better : π → π → Prop) [DecidableRel better] [DecidableEq π] (id : ι) (p : π) (o : ι × ℕ)
    (ls : Queues π ι) : held id (add better p o ls) = held id ls + if o.1 = id then o.2 else 0 := by
  induction ls with
  | nil => simp [add]
  | cons l ls ih =>
    unfold add
    split
    · rw [held_cons, held_cons, ih, Nat.add_assoc]
    · split
      · simp only [held_cons, heldIn_append, heldIn_cons, heldIn_nil]
        omega
      · simp only [held_cons, heldIn_cons, heldIn_nil]
        omega

theorem held_eq_zero (h : ∀ o ∈ orders ls, o.1 ≠ id) : held id ls = 0 := by
  unfold held heldIn
  rw [List.sum_eq_zero]
  intro x hx
  obtain ⟨o, ho, rfl⟩ := List.mem_map.1 hx
  exact if_neg (h o ho)

theorem filled_eq_zero {ts : List (Fill π ι)} (h : ∀ t ∈ ts, t.maker ≠ id) : filled id ts = 0 := by
  unfold filled
  rw [List.sum_eq_zero]
  intro x hx
  obtain ⟨t, ht, rfl⟩ := List.mem_map.1 hx
  exact if_neg (h t ht)

theorem heldIn_perm {q' : Queue ι} (h : q.Perm q') : heldIn id q = heldIn id q' := (h.map _).sum_eq

/-- An order is held once. -/
theorem heldIn_of_mem (hnd : (q.map Prod.fst).Nodup) (h : (id, r) ∈ q) : heldIn id q = r := by
  induction q with
  | nil => cases h
  | cons o q ih =>
    rw [List.map_cons, List.nodup_cons] at hnd
    rw [heldIn_cons]
    rcases List.mem_cons.1 h with rfl | h
    · have hzero : heldIn id q = 0 := by
        unfold heldIn
        rw [List.sum_eq_zero]
        intro x hx
        obtain ⟨o, ho, rfl⟩ := List.mem_map.1 hx
        exact if_neg fun e => hnd.1 (List.mem_map.2 ⟨o, ho, e⟩)
      rw [hzero, if_pos rfl, Nat.add_zero]
    · have hne : o.1 ≠ id := fun e => hnd.1 (List.mem_map.2 ⟨(id, r), h, e.symm⟩)
      rw [if_neg hne, ih hnd.2 h, Nat.zero_add]

end Held

/-! ## What rests at one price -/

section RestingAt

variable [DecidableEq π] {p p' : π} {q : Queue ι} {ls ls' : Queues π ι}

/-- The quantity at one price. -/
def restingAt (p : π) (ls : Queues π ι) : ℕ := (ls.map fun l => if l.1 = p then (l.2.map Prod.snd).sum else 0).sum

@[simp] theorem restingAt_nil (p : π) : restingAt p ([] : Queues π ι) = 0 := rfl

@[simp] theorem restingAt_cons (p : π) (l : π × Queue ι) (ls : Queues π ι) :
    restingAt p (l :: ls) = (if l.1 = p then (l.2.map Prod.snd).sum else 0) + restingAt p ls := rfl

@[simp] theorem restingAt_append (p : π) (ls ls' : Queues π ι) : restingAt p (ls ++ ls') = restingAt p ls + restingAt p ls' := by
  simp [restingAt]

@[simp] theorem restingAt_live (p : π) (l : π × Queue ι) :
    restingAt p (live l) = if l.1 = p then (l.2.map Prod.snd).sum else 0 := by
  unfold live
  split
  · rename_i h
    simp [h]
  · simp

/-- **An arrival** counts at its price. -/
theorem add_restingAt (better : π → π → Prop) [DecidableRel better] (p p' : π) (o : ι × ℕ) (ls : Queues π ι) :
    restingAt p' (add better p o ls) = restingAt p' ls + if p = p' then o.2 else 0 := by
  induction ls with
  | nil => simp [add]
  | cons l ls ih =>
    unfold add
    split
    · rw [restingAt_cons, restingAt_cons, ih, Nat.add_assoc]
    · split
      · rename_i hp
        simp only [restingAt_cons, hp, List.map_append, List.sum_append, List.map_cons, List.map_nil, List.sum_cons, List.sum_nil]
        split <;> omega
      · simp only [restingAt_cons, List.map_cons, List.map_nil, List.sum_cons, List.sum_nil, Nat.add_zero]
        omega

theorem sum_filterMap_adjustOrder_le [DecidableEq ι] {id : ι} {f : ℕ → ℕ} (hf : ∀ o ∈ q, o.1 = id → f o.2 ≤ o.2) :
    ((q.filterMap (adjustOrder id f)).map Prod.snd).sum ≤ (q.map Prod.snd).sum := by
  induction q with
  | nil => exact le_rfl
  | cons o q ih =>
    have hq := ih fun o' ho' => hf o' (List.mem_cons_of_mem o ho')
    rw [List.filterMap_cons]
    by_cases hid : o.1 = id
    · have ho := hf o List.mem_cons_self hid
      by_cases h0 : f o.2 = 0
      · simp only [adjustOrder, hid, if_true, h0, List.map_cons, List.sum_cons]
        omega
      · simp only [adjustOrder, hid, if_true, h0, if_false, List.map_cons, List.sum_cons]
        omega
    · simp only [adjustOrder, hid, if_false, List.map_cons, List.sum_cons]
      omega

/-- **An order that shrinks** adds nothing anywhere. -/
theorem adjust_restingAt_le [DecidableEq ι] {id : ι} {f : ℕ → ℕ} (hf : ∀ o ∈ orders ls, o.1 = id → f o.2 ≤ o.2) (p : π) :
    restingAt p (adjust id f ls) ≤ restingAt p ls := by
  induction ls with
  | nil => exact le_rfl
  | cons l ls ih =>
    have hrest := ih fun o ho => hf o (List.mem_append_right _ ho)
    have hqueue := sum_filterMap_adjustOrder_le fun o (ho : o ∈ l.2) => hf o (List.mem_append_left _ ho)
    have hcons : adjust id f (l :: ls) = live (l.1, l.2.filterMap (adjustOrder id f)) ++ adjust id f ls := rfl
    rw [hcons, restingAt_append, restingAt_live, restingAt_cons]
    simp only
    split <;> omega

/-- Nothing rests at a price that is not listed. -/
theorem restingAt_eq_zero (h : ∀ l ∈ ls, l.1 ≠ p) : restingAt p ls = 0 := by
  unfold restingAt
  rw [List.sum_eq_zero]
  intro x hx
  obtain ⟨l, hl, rfl⟩ := List.mem_map.1 hx
  exact if_neg (h l hl)

/-- A side lists a price once. -/
theorem restingAt_of_mem {better : π → π → Prop} (hs : ls.Pairwise fun a b => better a.1 b.1) (hirr : ∀ a, ¬ better a a)
    (h : (p, q) ∈ ls) : restingAt p ls = (q.map Prod.snd).sum := by
  induction ls with
  | nil => cases h
  | cons l ls ih =>
    rw [List.pairwise_cons] at hs
    rw [restingAt_cons]
    rcases List.mem_cons.1 h with rfl | h
    · have hzero : restingAt p ls = 0 := by
        refine restingAt_eq_zero fun l hl e => hirr p ?_
        have := hs.1 l hl
        rwa [e] at this
      rw [if_pos rfl, hzero, Nat.add_zero]
    · have hne : l.1 ≠ p := by
        intro e
        have := hs.1 _ h
        rw [e] at this
        exact hirr p this
      rw [if_neg hne, ih hs.2 h, Nat.zero_add]

end RestingAt

/-! ## In which order a side is served -/

/-- `fills` take a queue from its front, one order after the other and each as a whole, but for the last one, which may
leave a part behind; `rest` is what stays. -/
inductive Serves : Queue ι → List (Fill π ι) → Queue ι → Prop where
  | stop (q : Queue ι) : Serves q [] q
  | whole {o : ι × ℕ} {q rest : Queue ι} {fills : List (Fill π ι)} (p : π) :
      Serves q fills rest → Serves (o :: q) (⟨p, o.1, o.2⟩ :: fills) rest
  | part {o : ι × ℕ} {x : ℕ} (p : π) (q : Queue ι) : x < o.2 → Serves (o :: q) [⟨p, o.1, x⟩] ((o.1, o.2 - x) :: q)

namespace Serves

variable {q q' rest rest' : Queue ι} {fills fills' : List (Fill π ι)}

/-- What is behind the queue stays. -/
theorem append_right (h : Serves q fills rest) (q' : Queue ι) : Serves (q ++ q') fills (rest ++ q') := by
  induction h with
  | stop q => exact stop (q ++ q')
  | whole p _ ih => exact whole p ih
  | part p q hx => exact part p (q ++ q') hx

/-- A queue that was served to its end, and then the one behind it. -/
theorem append (h : Serves q fills rest) (hrest : rest = []) (h' : Serves q' fills' rest') :
    Serves (q ++ q') (fills ++ fills') rest' := by
  induction h with
  | stop q => rw [hrest]; exact h'
  | whole p _ ih => exact whole p (ih hrest)
  | part p q hx => cases hrest

theorem makers (h : Serves q fills rest) : (fills.map Fill.maker).Sublist (q.map Prod.fst) := by
  induction h with
  | stop q => exact List.nil_sublist _
  | whole p _ ih => exact ih.cons_cons _
  | part p q hx => exact (List.nil_sublist _).cons_cons _

/-- Who stays was there. -/
theorem rest_ids (h : Serves q fills rest) : (rest.map Prod.fst).Sublist (q.map Prod.fst) := by
  induction h with
  | stop q => exact List.Sublist.refl _
  | whole p _ ih => exact ih.cons _
  | part p q hx => exact List.Sublist.refl _

/-- **Every fill but the last one takes all of its order**, which is gone then. -/
theorem exhausts (h : Serves q fills rest) (hnd : (q.map Prod.fst).Nodup) :
    ∀ f ∈ fills.dropLast, (f.maker, f.qty) ∈ q ∧ f.maker ∉ rest.map Prod.fst := by
  induction h with
  | stop q => simp
  | @whole o q rest fills p h ih =>
    rw [List.map_cons, List.nodup_cons] at hnd
    intro f hf
    cases fills with
    | nil => cases hf
    | cons f' fills =>
      rw [List.dropLast_cons_cons] at hf
      rcases List.mem_cons.1 hf with rfl | hf
      · exact ⟨List.mem_cons_self, fun hm => hnd.1 (h.rest_ids.subset hm)⟩
      · obtain ⟨hmem, hgone⟩ := ih hnd.2 f hf
        exact ⟨List.mem_cons_of_mem o hmem, hgone⟩
  | part p q hx =>
    intro f hf
    cases hf

end Serves

theorem fillQueue_serves (p : π) (q : Queue ι) (n : ℕ) : Serves q (fillQueue p q n).1 (fillQueue p q n).2.1 := by
  induction q generalizing n with
  | nil => exact .stop []
  | cons o q ih =>
    by_cases h0 : n = 0
    · rw [h0, fillQueue_zero]
      exact .stop _
    · by_cases h : n < o.2
      · rw [fillQueue_short h0 h]
        exact .part p q h
      · rw [fillQueue_whole h0 (by omega)]
        exact .whole p (ih _)

/-- **A sweep serves the orders of a side in priority order.** -/
theorem sweep_serves (accepts : π → Bool) (ls : Queues π ι) (n : ℕ) :
    Serves (orders ls) (sweep accepts ls n).1 (orders (sweep accepts ls n).2.1) := by
  induction ls generalizing n with
  | nil => exact .stop []
  | cons l ls ih =>
    obtain ⟨p, q⟩ := l
    by_cases h : n = 0 ∨ accepts p = false
    · rw [sweep_stop h]
      exact .stop _
    · rw [not_or] at h
      have hq := fillQueue_serves p q n
      rw [sweep_cons h.1 (by simpa using h.2), orders_cons, orders_append, orders_live]
      by_cases hstop : (fillQueue p q n).2.1 = []
      · rw [hstop, List.nil_append]
        exact hq.append hstop (ih _)
      · rw [(fillQueue_stop p q n).resolve_left hstop, sweep_zero, List.append_nil]
        exact hq.append_right _

end PriceTime
