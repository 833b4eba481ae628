import Mathlib
/-!
# Codes that end by themselves

`Delimited P encode`: on the items that satisfy `P`, a code in front of anything determines the item and where its
code ends. Such a code can be put in sequence. A run of items has no end of its own: `Delimited.weighed` ends it by
the sum of its positive weights, `Delimited.flatMap_inj` by the end of the whole word sequence.
-/

namespace Code

variable {α β ω : Type*}

/-- Equal streams that start with a code start with the same item and go on with the same rest. -/
def Delimited (P : α → Prop) (encode : α → List ω) : Prop :=
  ∀ a b, P a → P b → ∀ r r', encode a ++ r = encode b ++ r' → a = b ∧ r = r'

variable {P : α → Prop} {encode : α → List ω}

/-- **Two codes in a row.** The second may depend on what the first says. -/
theorem Delimited.pair (h : Delimited P encode) {Q : α → β → Prop} {encode' : α → β → List ω}
    (h' : ∀ a, P a → Delimited (Q a) (encode' a)) :
    Delimited (fun x : α × β => P x.1 ∧ Q x.1 x.2) fun x => encode x.1 ++ encode' x.1 x.2 := by
  rintro ⟨a, c⟩ ⟨b, d⟩ ⟨hPa, hQc⟩ ⟨hPb, hQd⟩ r r' e
  simp only [List.append_assoc] at e
  obtain ⟨hab, hrest⟩ := h a b hPa hPb _ _ e
  subst hab
  obtain ⟨hcd, hr⟩ := h' a hPa c d hQc hQd _ _ hrest
  exact ⟨by rw [hcd], hr⟩

/-- **A run of items that ends when its weights add up.** -/
theorem Delimited.weighed (h : Delimited P encode) {weight : α → ℕ} (hpos : ∀ a, P a → 0 < weight a) (total : ℕ) :
    Delimited (fun as => (∀ a ∈ as, P a) ∧ (as.map weight).sum = total) fun as : List α => as.flatMap encode := by
  intro as
  induction as generalizing total with
  | nil =>
    rintro bs ⟨-, hsum⟩ ⟨hP, hsum'⟩ r r' e
    cases bs with
    | nil => exact ⟨rfl, e⟩
    | cons b bs =>
      have := hpos b (hP b List.mem_cons_self)
      simp only [List.map_nil, List.sum_nil, List.map_cons, List.sum_cons] at hsum hsum'
      omega
  | cons a as ih =>
    rintro bs ⟨hP, hsum⟩ ⟨hP', hsum'⟩ r r' e
    have hapos := hpos a (hP a List.mem_cons_self)
    cases bs with
    | nil =>
      simp only [List.map_nil, List.sum_nil, List.map_cons, List.sum_cons] at hsum hsum'
      omega
    | cons b bs =>
      simp only [List.flatMap_cons, List.append_assoc] at e
      obtain ⟨hab, hrest⟩ := h a b (hP a List.mem_cons_self) (hP' b List.mem_cons_self) _ _ e
      subst hab
      rw [List.map_cons, List.sum_cons] at hsum hsum'
      obtain ⟨htail, hr⟩ := ih (total - weight a) bs ⟨fun x hx => hP x (List.mem_cons_of_mem a hx), by omega⟩
        ⟨fun x hx => hP' x (List.mem_cons_of_mem a hx), by omega⟩ r r' hrest
      exact ⟨by rw [htail], hr⟩

/-- **A run of items that ends with the stream.** -/
theorem Delimited.flatMap_inj (h : Delimited P encode) (hne : ∀ a, encode a ≠ []) {as bs : List α} (ha : ∀ a ∈ as, P a)
    (hb : ∀ b ∈ bs, P b) (e : as.flatMap encode = bs.flatMap encode) : as = bs := by
  induction as generalizing bs with
  | nil =>
    cases bs with
    | nil => rfl
    | cons b bs =>
      rw [List.flatMap_nil, List.flatMap_cons, eq_comm, List.append_eq_nil_iff] at e
      exact absurd e.1 (hne b)
  | cons a as ih =>
    cases bs with
    | nil =>
      rw [List.flatMap_nil, List.flatMap_cons, List.append_eq_nil_iff] at e
      exact absurd e.1 (hne a)
    | cons b bs =>
      rw [List.flatMap_cons, List.flatMap_cons] at e
      obtain ⟨hab, htail⟩ := h a b (ha a List.mem_cons_self) (hb b List.mem_cons_self) _ _ e
      subst hab
      rw [ih (fun x hx => ha x (List.mem_cons_of_mem a hx)) (fun x hx => hb x (List.mem_cons_of_mem a hx)) htail]

end Code
