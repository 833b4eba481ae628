import TradeCore.Lib.PriceTimeFlow
/-!
# Who is served first

`Before x y q` says that order `x` is ahead of order `y` in a queue. While a queue is served, `y` gets its turn only when
`x` has been taken as a whole (`Serves.behind`), and `x` stays ahead until then (`Serves.before`). A new order does not
come between two others in any way that matters (`Before.add`).
-/

namespace PriceTime

variable {π ι : Type*} {x y : ι} {q q' rest : Queue ι} {fills : List (Fill π ι)}

/-- Order `x` is ahead of order `y`. -/
def Before (x y : ι) (q : Queue ι) : Prop := [x, y].Sublist (q.map Prod.fst)

theorem Before.left (h : Before x y q) : x ∈ q.map Prod.fst := h.subset List.mem_cons_self

theorem Before.right (h : Before x y q) : y ∈ q.map Prod.fst := h.subset (List.mem_cons_of_mem _ List.mem_cons_self)

/-- Behind the first order of a queue. -/
theorem Before.cons {o : ι × ℕ} (h : Before x y (o :: q)) (hnd : ((o :: q).map Prod.fst).Nodup) :
    y ≠ o.1 ∧ (x ≠ o.1 → Before x y q) := by
  unfold Before at h ⊢
  rw [List.map_cons] at h hnd
  rw [List.nodup_cons] at hnd
  rcases List.sublist_cons_iff.1 h with hsub | ⟨tail, htail, hsub⟩
  · refine ⟨?_, fun _ => hsub⟩
    rintro rfl
    exact hnd.1 (hsub.subset (List.mem_cons_of_mem _ List.mem_cons_self))
  · obtain ⟨rfl, rfl⟩ := List.cons.inj htail
    refine ⟨?_, fun hne => absurd rfl hne⟩
    rintro rfl
    exact hnd.1 (hsub.subset List.mem_cons_self)

/-- What a fill took, as an order and a quantity. -/
def Fill.taken (f : Fill π ι) : ι × ℕ := (f.maker, f.qty)

section Served

variable [DecidableEq ι]

theorem heldIn_eq_zero {id : ι} (h : id ∉ q.map Prod.fst) : heldIn id q = 0 := by
  unfold heldIn
  rw [List.sum_eq_zero]
  intro n hn
  obtain ⟨o, ho, rfl⟩ := List.mem_map.1 hn
  exact if_neg fun e => h (List.mem_map.2 ⟨o, ho, e⟩)

/-- **What is taken of an order and what stays of it** make up what there was. -/
theorem Serves.balance (h : Serves q fills rest) (id : ι) : heldIn id q = heldIn id (fills.map Fill.taken) + heldIn id rest := by
  induction h with
  | stop q => rw [List.map_nil, heldIn_nil, Nat.zero_add]
  | whole p _ ih =>
    rw [heldIn_cons, List.map_cons, heldIn_cons, ih, Nat.add_assoc]
    rfl
  | @part o n p q hn =>
    rw [heldIn_cons, List.map_singleton, heldIn_cons, heldIn_cons, heldIn_nil]
    unfold Fill.taken
    dsimp only
    split_ifs <;> omega

/-- **An order stays ahead until it is exhausted.** -/
theorem Serves.before (h : Serves q fills rest) (hnd : (q.map Prod.fst).Nodup) (hb : Before x y q) :
    Before x y rest ∨ heldIn x rest = 0 := by
  induction h with
  | stop q => exact Or.inl hb
  | @whole o q rest fills p h ih =>
    have hnd' := hnd
    rw [List.map_cons, List.nodup_cons] at hnd'
    by_cases hx : x = o.1
    · refine Or.inr (heldIn_eq_zero fun hmem => ?_)
      rw [hx] at hmem
      exact hnd'.1 (h.rest_ids.subset hmem)
    · exact ih hnd'.2 ((hb.cons hnd).2 hx)
  | part p q hn => exact Or.inl hb

/-- **An order is taken as a whole before the next one is touched.** -/
theorem Serves.behind (h : Serves q fills rest) (hnd : (q.map Prod.fst).Nodup) (hb : Before x y q) {pre post : Queue ι} {n : ℕ}
    (hfills : fills.map Fill.taken = pre ++ (y, n) :: post) : heldIn x q = heldIn x pre := by
  induction h generalizing pre with
  | stop q => cases pre <;> cases hfills
  | @whole o q rest fills p h ih =>
    have hnd' := hnd
    rw [List.map_cons, List.nodup_cons] at hnd'
    cases pre with
    | nil =>
      have hy := congrArg Prod.fst (List.cons.inj hfills).1
      exact absurd hy.symm (hb.cons hnd).1
    | cons o' pre =>
      rw [List.map_cons, List.cons_append] at hfills
      obtain ⟨rfl, hrest⟩ := List.cons.inj hfills
      rw [heldIn_cons, heldIn_cons]
      by_cases hx : x = o.1
      · -- the order was first in the queue: nothing of it is behind
        have hq : heldIn x q = 0 := heldIn_eq_zero (by rw [hx]; exact hnd'.1)
        have hpre : heldIn x pre = 0 := by
          refine heldIn_eq_zero fun hmem => ?_
          have htaken : x ∈ (fills.map Fill.taken).map Prod.fst := by
            rw [hrest, List.map_append]
            exact List.mem_append_left _ hmem
          rw [List.map_map] at htaken
          exact hnd'.1 (hx ▸ h.makers.subset htaken)
        rw [hq, hpre]
        rfl
      · rw [ih hnd'.2 ((hb.cons hnd).2 hx) hrest]
        rfl
  | @part o n' p q hn =>
    cases pre with
    | nil =>
      have hy := congrArg Prod.fst (List.cons.inj hfills).1
      exact absurd hy.symm (hb.cons hnd).1
    | cons o' pre =>
      have hnil := (List.cons.inj hfills).2
      cases pre <;> cases hnil

end Served

/-! ## New orders -/

variable {better : π → π → Prop} [DecidableRel better] [DecidableEq π]

/-- A new order is put somewhere between the others. -/
theorem add_between (better : π → π → Prop) [DecidableRel better] (p : π) (o : ι × ℕ) (ls : Queues π ι) :
    ∃ front back, orders ls = front ++ back ∧ orders (add better p o ls) = front ++ o :: back := by
  induction ls with
  | nil => exact ⟨[], [], rfl, by simp [add]⟩
  | cons l ls ih =>
    obtain ⟨front, back, hsplit, hadd⟩ := ih
    unfold add
    split_ifs with hbetter hprice
    · exact ⟨l.2 ++ front, back, by rw [orders_cons, hsplit, List.append_assoc], by rw [orders_cons, hadd, List.append_assoc]⟩
    · exact ⟨l.2, orders ls, orders_cons l ls, by simp⟩
    · exact ⟨[], orders (l :: ls), rfl, by simp⟩

theorem Before.add {ls : Queues π ι} (h : Before x y (orders ls)) (p : π) (o : ι × ℕ) : Before x y (orders (add better p o ls)) := by
  obtain ⟨front, back, hsplit, hadd⟩ := add_between better p o ls
  unfold Before at h ⊢
  rw [hsplit] at h
  rw [hadd]
  exact h.trans (((List.sublist_cons_self o back).append_left front).map Prod.fst)

end PriceTime
