import Mathlib
/-!
# Traces of a transition system

Steps carry labels, and a trace is the labels of a run in order. What a run has done so far is a function of its
trace, so it need not be part of the state: an invariant is about a trace and the state it ended in.
-/

/-- A transition system with labelled steps. -/
structure TransitionSystem (σ ℓ : Type*) where
  init : σ → Prop
  step : σ → ℓ → σ → Prop

namespace TransitionSystem

variable {σ ℓ : Type*} (S : TransitionSystem σ ℓ)

/-- A run with these labels ends in this state. -/
inductive Trace : List ℓ → σ → Prop where
  | init {s : σ} : S.init s → Trace [] s
  | step {trace : List ℓ} {s s' : σ} {l : ℓ} : Trace trace s → S.step s l s' → Trace (trace ++ [l]) s'

/-- A run with these labels leads from one state to another. -/
inductive Run : σ → List ℓ → σ → Prop where
  | refl (s : σ) : Run s [] s
  | step {s s' s'' : σ} {labels : List ℓ} {l : ℓ} : Run s labels s' → S.step s' l s'' → Run s (labels ++ [l]) s''

variable {S}

/-- **The invariant rule**: what holds at first and is kept by each step holds after every run. -/
theorem Trace.invariant (Inv : List ℓ → σ → Prop) {trace : List ℓ} {s : σ} (h : S.Trace trace s)
    (hinit : ∀ s, S.init s → Inv [] s)
    (hstep : ∀ trace s l s', Inv trace s → S.step s l s' → Inv (trace ++ [l]) s') : Inv trace s := by
  induction h with
  | init hs => exact hinit _ hs
  | step _ hl ih => exact hstep _ _ _ _ ih hl

/-- The last step of a run. -/
theorem Trace.last_step {trace : List ℓ} {s' : σ} {l : ℓ} (h : S.Trace (trace ++ [l]) s') :
    ∃ s, S.Trace trace s ∧ S.step s l s' := by
  generalize hall : trace ++ [l] = all at h
  cases h with
  | init => simp at hall
  | step hrun hl =>
    obtain ⟨rfl, rfl⟩ := List.append_singleton_inj.1 hall
    exact ⟨_, hrun, hl⟩

/-- A run passed through the states of its first part. -/
theorem Trace.of_append {trace more : List ℓ} {s : σ} (h : S.Trace (trace ++ more) s) : ∃ s₀, S.Trace trace s₀ := by
  induction more using List.reverseRecOn generalizing s with
  | nil =>
    rw [List.append_nil] at h
    exact ⟨s, h⟩
  | append_singleton rest l ih =>
    rw [← List.append_assoc] at h
    obtain ⟨s', hrest, -⟩ := h.last_step
    exact ih hrest

/-- **The potential rule**: when no step of a run raises a quantity and each counted step lowers it, the quantity
bounds their number. The states of the run have a property that its steps keep. -/
theorem Run.potential (P : σ → Prop) (Φ : σ → ℕ) (counted : ℓ → Bool) {labels : List ℓ} {s s' : σ} (h : S.Run s labels s') (hs : P s)
    (hstep : ∀ l ∈ labels, ∀ s s', P s → S.step s l s' → P s' ∧ Φ s' + (if counted l then 1 else 0) ≤ Φ s) :
    P s' ∧ Φ s' + labels.countP counted ≤ Φ s := by
  induction h with
  | refl => exact ⟨hs, Nat.le_refl _⟩
  | @step s₁ s₂ labels l _ hl ih =>
    obtain ⟨hP, hle⟩ := ih fun l hl => hstep l (List.mem_append_left _ hl)
    obtain ⟨hP', hle'⟩ := hstep l (by simp) _ _ hP hl
    refine ⟨hP', ?_⟩
    rw [List.countP_append, List.countP_singleton]
    omega

/-- A run goes on from where another ended. -/
theorem Trace.append {trace more : List ℓ} {s s' : σ} (h : S.Trace trace s) (hmore : S.Run s more s') : S.Trace (trace ++ more) s' := by
  induction hmore with
  | refl => rwa [List.append_nil]
  | step _ hl ih =>
    rw [← List.append_assoc]
    exact ih.step hl

/-- **A computed run** is a trace, where each computed step is a step. -/
theorem Trace.foldlM {next : σ → ℓ → Option σ} (hnext : ∀ s l s', next s l = some s' → S.step s l s') {trace labels : List ℓ} {s s' : σ}
    (h : S.Trace trace s) (hrun : labels.foldlM next s = some s') : S.Trace (trace ++ labels) s' := by
  induction labels generalizing trace s with
  | nil =>
    cases hrun
    rwa [List.append_nil]
  | cons l labels ih =>
    obtain ⟨s₁, hone, hrest⟩ := Option.bind_eq_some_iff.1 hrun
    rw [List.append_cons]
    exact ih (h.step (hnext s l s₁ hone)) hrest

/-- A run begins with any of its first steps. -/
theorem Run.head {s s' s'' : σ} {l : ℓ} {labels : List ℓ} (hl : S.step s l s') (h : S.Run s' labels s'') : S.Run s (l :: labels) s'' := by
  induction h with
  | refl => exact Run.step (.refl s) hl
  | step _ hlast ih => exact Run.step ih hlast

end TransitionSystem
