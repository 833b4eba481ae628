import TradeCore.Lib.PriceTimeFlow
/-!
# A sweep in two parts

A quantity that comes in two parts does to a side what it does in one: the same orders stay, as much of it is left, and the
fills weigh as much (`sweep_add`). They may differ at one order, that both parts take from.
-/

namespace PriceTime

variable {π ι : Type*}

/-- The quantity of some fills, each weighed by its price and its order. -/
def worth (w : π → ι → ℕ) (fs : List (Fill π ι)) : ℕ := (fs.map fun f => w f.price f.maker * f.qty).sum

section Worth

variable (w : π → ι → ℕ)

@[simp] theorem worth_nil : worth w [] = 0 := rfl

@[simp] theorem worth_cons (f : Fill π ι) (fs : List (Fill π ι)) : worth w (f :: fs) = w f.price f.maker * f.qty + worth w fs := rfl

@[simp] theorem worth_append (fs fs' : List (Fill π ι)) : worth w (fs ++ fs') = worth w fs + worth w fs' := by
  simp [worth]

/-- The outcome of a quantity in one part, from the outcomes of its two parts. -/
structure Adds {α : Type*} (whole first second : List (Fill π ι) × α × ℕ) : Prop where
  rest : whole.2.1 = second.2.1
  left : whole.2.2 = first.2.2 + second.2.2
  worth : worth w whole.1 = worth w first.1 + worth w second.1

/-- **One queue.** -/
theorem fillQueue_add (p : π) (q : Queue ι) (m n : ℕ) :
    Adds w (fillQueue p q (m + n)) (fillQueue p q m) (fillQueue p (fillQueue p q m).2.1 n) := by
  induction q generalizing m with
  | nil => exact ⟨rfl, rfl, rfl⟩
  | cons o q ih =>
    by_cases hm : m = 0
    · rw [hm, fillQueue_zero, Nat.zero_add]
      exact ⟨rfl, (Nat.zero_add _).symm, (Nat.zero_add _).symm⟩
    by_cases hn : n = 0
    · rw [hn, fillQueue_zero, Nat.add_zero]
      exact ⟨rfl, rfl, rfl⟩
    by_cases hfirst : m < o.2
    · rw [fillQueue_short hm hfirst]
      dsimp only
      by_cases hboth : m + n < o.2
      · -- both parts take from the first order, and something of it stays
        rw [fillQueue_short (by omega) hboth, fillQueue_short hn (by dsimp only; omega)]
        refine ⟨by rw [Nat.sub_sub], rfl, ?_⟩
        simp only [worth_cons, worth_nil]
        ring
      · -- the second part takes what the first one left
        have hle : o.2 ≤ m + n := Nat.not_lt.1 hboth
        have hleft : m + n - o.2 = n - (o.2 - m) := by omega
        rw [fillQueue_whole (by omega) hle, fillQueue_whole hn (by dsimp only; omega), hleft]
        refine ⟨rfl, (Nat.zero_add _).symm, ?_⟩
        obtain ⟨k, hk⟩ := Nat.exists_eq_add_of_lt hfirst
        simp only [worth_cons, worth_nil]
        rw [show o.2 - m = k + 1 by omega, hk]
        ring
    · -- the first part takes the first order as a whole
      have hle : o.2 ≤ m := Nat.not_lt.1 hfirst
      have hih := ih (m - o.2)
      have hleft : m + n - o.2 = m - o.2 + n := by omega
      rw [fillQueue_whole hm hle, fillQueue_whole (by omega) (by omega), hleft]
      refine ⟨hih.rest, hih.left, ?_⟩
      rw [worth_cons, worth_cons, hih.worth, Nat.add_assoc]

/-- **A side.** -/
theorem sweep_add (accepts : π → Bool) (ls : Queues π ι) (m n : ℕ) :
    Adds w (sweep accepts ls (m + n)) (sweep accepts ls m) (sweep accepts (sweep accepts ls m).2.1 n) := by
  induction ls generalizing m with
  | nil => exact ⟨rfl, rfl, rfl⟩
  | cons l ls ih =>
    obtain ⟨p, q⟩ := l
    by_cases hstop : accepts p = false
    · rw [sweep_stop (Or.inr hstop), sweep_stop (Or.inr hstop), sweep_stop (Or.inr hstop)]
      exact ⟨rfl, rfl, rfl⟩
    by_cases hm : m = 0
    · rw [hm, sweep_zero, Nat.zero_add]
      exact ⟨rfl, (Nat.zero_add _).symm, (Nat.zero_add _).symm⟩
    have haccept : accepts p = true := by simpa using hstop
    have hqueue := fillQueue_add w p q m n
    obtain ⟨hrest, hleft, hworth⟩ := hqueue
    rw [sweep_cons (n := m + n) (by omega) haccept, sweep_cons hm haccept]
    by_cases hempty : (fillQueue p q m).2.1 = []
    · -- the first part goes on behind the queue
      rw [hempty, fillQueue_nil] at hrest hleft hworth
      have hih := ih (fillQueue p q m).2.2
      rw [hempty, live_nil, List.nil_append, hrest, hleft, live_nil, List.nil_append]
      refine ⟨hih.rest, hih.left, ?_⟩
      rw [worth_append, worth_append, hih.worth, hworth, worth_nil, Nat.add_zero, Nat.add_assoc]
    · -- the first part ends in the queue
      have hdone : (fillQueue p q m).2.2 = 0 := (fillQueue_stop p q m).resolve_left hempty
      rw [hdone, Nat.zero_add] at hleft
      have hlive : live (p, (fillQueue p q m).2.1) = [(p, (fillQueue p q m).2.1)] := live_of_ne hempty
      rw [hdone, sweep_zero, hlive, List.append_nil, List.singleton_append, hrest, hleft]
      dsimp only
      by_cases hn : n = 0
      · rw [hn, fillQueue_zero] at hworth ⊢
        rw [sweep_zero, sweep_zero, hlive]
        refine ⟨rfl, rfl, ?_⟩
        rw [List.append_nil]
        exact hworth
      · rw [sweep_cons hn haccept]
        refine ⟨rfl, (Nat.zero_add _).symm, ?_⟩
        rw [worth_append, worth_append, hworth, Nat.add_assoc]

end Worth

end PriceTime
