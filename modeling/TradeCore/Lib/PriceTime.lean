import Mathlib
/-!
# Price-time priority

One side of a book is a list of prices, best first, and at each price a queue of orders, oldest first, each
with the quantity that remains of it. `add` and `adjust` are what happens to a resting order, `sweep` is the
reference matcher: it walks the side in priority order against an incoming quantity.

The order of the prices is a parameter: `better p p'` says that `p` is served before `p'`.
-/

namespace PriceTime

variable {π ι : Type*}

/-- The orders at one price, oldest first. -/
abbrev Queue (ι : Type*) := List (ι × ℕ)

/-- One side of a book, best price first. -/
abbrev Queues (π ι : Type*) := List (π × Queue ι)

/-- A price is listed only while orders rest there. -/
def live (l : π × Queue ι) : Queues π ι := if l.2 = [] then [] else [l]

@[simp] theorem live_nil (p : π) : live (p, ([] : Queue ι)) = [] := rfl

@[simp] theorem live_cons (p : π) (o : ι × ℕ) (q : Queue ι) : live (p, o :: q) = [(p, o :: q)] := rfl

theorem live_of_ne {l : π × Queue ι} (h : l.2 ≠ []) : live l = [l] := if_neg h

/-- All orders of a side, in the order they are served. -/
def orders (ls : Queues π ι) : Queue ι := ls.flatMap Prod.snd

@[simp] theorem orders_nil : orders ([] : Queues π ι) = [] := rfl

@[simp] theorem orders_cons (l : π × Queue ι) (ls : Queues π ι) : orders (l :: ls) = l.2 ++ orders ls := rfl

@[simp] theorem orders_append (ls ls' : Queues π ι) : orders (ls ++ ls') = orders ls ++ orders ls' :=
  List.flatMap_append

@[simp] theorem orders_live (l : π × Queue ι) : orders (live l) = l.2 := by
  obtain ⟨p, q⟩ := l
  cases q <;> simp

/-- A side that is well formed for the order `better`. -/
structure Ok (better : π → π → Prop) (ls : Queues π ι) : Prop where
  sorted : ls.Pairwise fun a b => better a.1 b.1
  nonempty : ∀ l ∈ ls, l.2 ≠ []
  positive : ∀ o ∈ orders ls, 0 < o.2

/-! ## Resting orders -/

section Resting

variable [DecidableEq ι]

/-- `f` rewrites the remaining quantity of order `id`; at zero the order is gone. -/
def adjustOrder (id : ι) (f : ℕ → ℕ) (o : ι × ℕ) : Option (ι × ℕ) :=
  if o.1 = id then (if f o.2 = 0 then none else some (id, f o.2)) else some o

/-- Rewrite the remaining quantity of order `id`. It keeps its place, and an emptied price disappears. -/
def adjust (id : ι) (f : ℕ → ℕ) (ls : Queues π ι) : Queues π ι :=
  ls.flatMap fun l => live (l.1, l.2.filterMap (adjustOrder id f))

/-- Where order `id` rests and what remains of it. -/
def lookup (id : ι) (ls : Queues π ι) : Option (π × ℕ) :=
  ls.findSome? fun l => (l.2.find? fun o => o.1 = id).map fun o => (l.1, o.2)

variable {id : ι} {f : ℕ → ℕ} {A B ls : Queues π ι} {X Y q : Queue ι} {p : π} {r : ℕ}

theorem filterMap_adjustOrder (h : ∀ o ∈ q, o.1 ≠ id) : q.filterMap (adjustOrder id f) = q := by
  induction q with
  | nil => rfl
  | cons o q ih =>
    have ho : o.1 ≠ id := h o List.mem_cons_self
    rw [List.filterMap_cons, adjustOrder, if_neg ho]
    simp only [ih fun o' ho' => h o' (List.mem_cons_of_mem o ho')]

theorem adjust_append : adjust id f (A ++ B) = adjust id f A ++ adjust id f B := List.flatMap_append

/-- An order that does not rest on the side. -/
theorem adjust_of_notMem (hne : ∀ l ∈ ls, l.2 ≠ []) (h : ∀ o ∈ orders ls, o.1 ≠ id) : adjust id f ls = ls := by
  induction ls with
  | nil => rfl
  | cons l ls ih =>
    have hl : l.2.filterMap (adjustOrder id f) = l.2 :=
      filterMap_adjustOrder fun o ho => h o (List.mem_append_left _ ho)
    have hls := ih (fun l' hl' => hne l' (List.mem_cons_of_mem l hl')) fun o ho => h o (List.mem_append_right _ ho)
    calc adjust id f (l :: ls) = live (l.1, l.2.filterMap (adjustOrder id f)) ++ adjust id f ls := rfl
      _ = [l] ++ ls := by rw [hl, hls, live_of_ne (hne l List.mem_cons_self)]

/-- **`adjust`** of an order that rests at price `p` behind `X` and in front of `Y`. -/
theorem adjust_split (hA : ∀ l ∈ A, l.2 ≠ []) (hB : ∀ l ∈ B, l.2 ≠ []) (hid : ∀ o ∈ orders A ++ (X ++ Y) ++ orders B, o.1 ≠ id) :
    adjust id f (A ++ (p, X ++ (id, r) :: Y) :: B) =
      A ++ live (p, X ++ (if f r = 0 then [] else [(id, f r)]) ++ Y) ++ B := by
  simp only [List.mem_append] at hid
  have hmid : (X ++ (id, r) :: Y).filterMap (adjustOrder id f) = X ++ (if f r = 0 then [] else [(id, f r)]) ++ Y := by
    rw [List.filterMap_append, List.filterMap_cons, filterMap_adjustOrder fun o ho => hid o (by tauto),
      filterMap_adjustOrder fun o ho => hid o (by tauto)]
    unfold adjustOrder
    by_cases h0 : f r = 0 <;> simp [h0]
  have hcons : adjust id f ((p, X ++ (id, r) :: Y) :: B) =
      live (p, (X ++ (id, r) :: Y).filterMap (adjustOrder id f)) ++ adjust id f B := rfl
  rw [adjust_append, hcons, hmid, adjust_of_notMem hA fun o ho => hid o (by tauto),
    adjust_of_notMem hB fun o ho => hid o (by tauto)]
  simp only [List.append_assoc]

theorem lookup_of_notMem (h : ∀ o ∈ orders ls, o.1 ≠ id) : lookup id ls = none := by
  unfold lookup
  rw [List.findSome?_eq_none_iff]
  intro l hl
  rw [Option.map_eq_none_iff, List.find?_eq_none]
  intro o ho
  simpa using h o (List.mem_flatMap.2 ⟨l, hl, ho⟩)

theorem lookup_split (hid : ∀ o ∈ orders A ++ X, o.1 ≠ id) :
    lookup id (A ++ (p, X ++ (id, r) :: Y) :: B) = some (p, r) := by
  simp only [List.mem_append] at hid
  have hA := lookup_of_notMem (π := π) fun o ho => hid o (Or.inl ho)
  have hX : X.find? (fun o => o.1 = id) = none := by
    rw [List.find?_eq_none]
    intro o ho
    simpa using hid o (Or.inr ho)
  unfold lookup at hA ⊢
  rw [List.findSome?_append, hA, Option.none_or, List.findSome?_cons, List.find?_append, hX, Option.none_or]
  simp

/-- No price is new. -/
theorem adjust_prices {l : π × Queue ι} (hl : l ∈ adjust id f ls) : ∃ l' ∈ ls, l'.1 = l.1 := by
  obtain ⟨l', hl', hmem⟩ := List.mem_flatMap.1 hl
  refine ⟨l', hl', ?_⟩
  unfold live at hmem
  split at hmem
  · cases hmem
  · rw [List.mem_singleton.1 hmem]

/-- An order that is found rests at a listed price. -/
theorem lookup_price (h : lookup id ls = some (p, r)) : ∃ l ∈ ls, l.1 = p := by
  obtain ⟨l, hl, hf⟩ := List.exists_of_findSome?_eq_some h
  obtain ⟨o, -, ho⟩ := Option.map_eq_some_iff.1 hf
  exact ⟨l, hl, congrArg Prod.fst ho⟩

end Resting

section Add

variable (better : π → π → Prop) [DecidableRel better] [DecidableEq π]

/-- A new order: at the tail of its price, which is opened when it is not there. -/
def add (p : π) (o : ι × ℕ) : Queues π ι → Queues π ι
  | [] => [(p, [o])]
  | l :: ls =>
    if better l.1 p then l :: add p o ls
    else if l.1 = p then (p, l.2 ++ [o]) :: ls
    else (p, [o]) :: l :: ls

variable {better} {p : π} {o : ι × ℕ} {A B : Queues π ι}

/-- **`add`** between better and worse prices; `q` is the queue of the price, empty when it is not there. -/
theorem add_split (hirr : ¬ better p p) (hA : ∀ l ∈ A, better l.1 p) (hB : ∀ l ∈ B, ¬ better l.1 p ∧ l.1 ≠ p) (q : Queue ι) :
    add better p o (A ++ live (p, q) ++ B) = A ++ (p, q ++ [o]) :: B := by
  induction A with
  | nil =>
    cases q with
    | nil =>
      cases B with
      | nil => rfl
      | cons l B =>
        obtain ⟨h1, h2⟩ := hB l List.mem_cons_self
        simp only [live_nil, List.nil_append]
        rw [add, if_neg h1, if_neg h2]
    | cons o' q =>
      simp only [live_cons, List.nil_append, List.singleton_append]
      rw [add, if_neg hirr, if_pos rfl]
  | cons l A ih =>
    have hl : better l.1 p := hA l List.mem_cons_self
    rw [List.cons_append, List.cons_append, add, if_pos hl, ih fun l' hl' => hA l' (List.mem_cons_of_mem l hl'),
      List.cons_append]

/-- A new order rests on the side. -/
theorem mem_orders_add (better : π → π → Prop) [DecidableRel better] (p : π) (o : ι × ℕ) (ls : Queues π ι) :
    o ∈ orders (add better p o ls) := by
  induction ls with
  | nil => simp [add]
  | cons l ls ih =>
    unfold add
    split
    · rw [orders_cons]
      exact List.mem_append_right _ ih
    · split <;> simp

/-- No price is new but that of the order. -/
theorem add_prices (better : π → π → Prop) [DecidableRel better] {p : π} {o : ι × ℕ} {ls : Queues π ι} {l : π × Queue ι}
    (hl : l ∈ add better p o ls) : l.1 = p ∨ ∃ l' ∈ ls, l'.1 = l.1 := by
  induction ls with
  | nil =>
    rw [add, List.mem_singleton] at hl
    exact Or.inl (by rw [hl])
  | cons l' ls ih =>
    unfold add at hl
    split at hl
    · rcases List.mem_cons.1 hl with rfl | hl
      · exact Or.inr ⟨l, List.mem_cons_self, rfl⟩
      · rcases ih hl with h | ⟨x, hx, hp⟩
        · exact Or.inl h
        · exact Or.inr ⟨x, List.mem_cons_of_mem _ hx, hp⟩
    · split at hl
      · rcases List.mem_cons.1 hl with rfl | hl
        · exact Or.inl rfl
        · exact Or.inr ⟨l, List.mem_cons_of_mem _ hl, rfl⟩
      · rcases List.mem_cons.1 hl with rfl | hl
        · exact Or.inl rfl
        · exact Or.inr ⟨l, hl, rfl⟩

end Add

/-! ## The reference matcher -/

/-- A fill of a resting order. -/
structure Fill (π ι : Type*) where
  price : π
  maker : ι
  qty : ℕ
deriving DecidableEq, Repr

/-- An incoming quantity against one queue: the fills, what rests afterwards, what is left to fill. -/
def fillQueue (p : π) : Queue ι → ℕ → List (Fill π ι) × Queue ι × ℕ
  | [], n => ([], [], n)
  | o :: q, n =>
    if n = 0 then ([], o :: q, 0)
    else if n < o.2 then ([⟨p, o.1, n⟩], (o.1, o.2 - n) :: q, 0)
    else
      let (fills, q', n') := fillQueue p q (n - o.2)
      (⟨p, o.1, o.2⟩ :: fills, q', n')

/-- An incoming quantity against a side: best price first, while quantity is left and the price is accepted. -/
def sweep (accepts : π → Bool) : Queues π ι → ℕ → List (Fill π ι) × Queues π ι × ℕ
  | [], n => ([], [], n)
  | (p, q) :: ls, n =>
    if n = 0 ∨ accepts p = false then ([], (p, q) :: ls, n)
    else
      let (fills, q', n') := fillQueue p q n
      if q' = [] then
        let (fills', ls', n'') := sweep accepts ls n'
        (fills ++ fills', ls', n'')
      else (fills, (p, q') :: ls, n')

section Matcher

variable {p : π} {q : Queue ι} {n : ℕ} {accepts : π → Bool} {ls : Queues π ι} {better : π → π → Prop}

@[simp] theorem fillQueue_nil (p : π) (n : ℕ) : fillQueue p ([] : Queue ι) n = ([], [], n) := rfl

@[simp] theorem fillQueue_zero (p : π) (q : Queue ι) : fillQueue p q 0 = ([], q, 0) := by
  cases q <;> simp [fillQueue]

theorem fillQueue_short {o : ι × ℕ} (h0 : n ≠ 0) (h : n < o.2) :
    fillQueue p (o :: q) n = ([⟨p, o.1, n⟩], (o.1, o.2 - n) :: q, 0) := by
  rw [fillQueue, if_neg h0, if_pos h]

theorem fillQueue_whole {o : ι × ℕ} (h0 : n ≠ 0) (h : o.2 ≤ n) : fillQueue p (o :: q) n =
    (⟨p, o.1, o.2⟩ :: (fillQueue p q (n - o.2)).1, (fillQueue p q (n - o.2)).2.1, (fillQueue p q (n - o.2)).2.2) := by
  rw [fillQueue, if_neg h0, if_neg (by omega)]

/-- **Nothing is lost**: what is filled and what is left make up the incoming quantity. -/
theorem fillQueue_sum (p : π) (q : Queue ι) (n : ℕ) :
    ((fillQueue p q n).1.map Fill.qty).sum + (fillQueue p q n).2.2 = n := by
  induction q generalizing n with
  | nil => simp
  | cons o q ih =>
    by_cases h0 : n = 0
    · rw [h0, fillQueue_zero]
      rfl
    · by_cases h : n < o.2
      · rw [fillQueue_short h0 h]
        simp
      · rw [fillQueue_whole h0 (by omega)]
        have := ih (n - o.2)
        simp only [List.map_cons, List.sum_cons]
        omega

/-- Orders are left in the queue only when nothing is left to fill. -/
theorem fillQueue_stop (p : π) (q : Queue ι) (n : ℕ) : (fillQueue p q n).2.1 = [] ∨ (fillQueue p q n).2.2 = 0 := by
  induction q generalizing n with
  | nil => exact Or.inl rfl
  | cons o q ih =>
    by_cases h0 : n = 0
    · rw [h0, fillQueue_zero]
      exact Or.inr rfl
    · by_cases h : n < o.2
      · rw [fillQueue_short h0 h]
        exact Or.inr rfl
      · rw [fillQueue_whole h0 (by omega)]
        exact ih _

/-- What is left of an incoming quantity after a queue. -/
theorem fillQueue_left (p : π) (q : Queue ι) (n : ℕ) : (fillQueue p q n).2.2 = n - (q.map Prod.snd).sum := by
  induction q generalizing n with
  | nil => simp
  | cons o q ih =>
    rw [List.map_cons, List.sum_cons]
    by_cases h0 : n = 0
    · rw [h0, fillQueue_zero]
      simp
    · by_cases h : n < o.2
      · rw [fillQueue_short h0 h]
        simp only
        omega
      · rw [fillQueue_whole h0 (by omega)]
        simp only [ih]
        omega

theorem fillQueue_price (p : π) (q : Queue ι) (n : ℕ) : ∀ t ∈ (fillQueue p q n).1, t.price = p := by
  induction q generalizing n with
  | nil => simp
  | cons o q ih =>
    by_cases h0 : n = 0
    · rw [h0, fillQueue_zero]
      simp
    · by_cases h : n < o.2
      · rw [fillQueue_short h0 h]
        simp
      · rw [fillQueue_whole h0 (by omega)]
        intro t ht
        rcases List.mem_cons.1 ht with rfl | ht
        · rfl
        · exact ih _ t ht

@[simp] theorem sweep_nil (n : ℕ) : sweep accepts ([] : Queues π ι) n = ([], [], n) := rfl

theorem sweep_stop (h : n = 0 ∨ accepts p = false) : sweep accepts ((p, q) :: ls) n = ([], (p, q) :: ls, n) := by
  rw [sweep, if_pos h]

theorem sweep_zero (accepts : π → Bool) (ls : Queues π ι) : sweep accepts ls 0 = ([], ls, 0) := by
  cases ls with
  | nil => rfl
  | cons l ls => exact sweep_stop (Or.inl rfl)

/-- **One price of the sweep**: its queue, then the rest when the queue is used up. -/
theorem sweep_cons (h0 : n ≠ 0) (ha : accepts p = true) : sweep accepts ((p, q) :: ls) n =
    ((fillQueue p q n).1 ++ (sweep accepts ls (fillQueue p q n).2.2).1,
      live (p, (fillQueue p q n).2.1) ++ (sweep accepts ls (fillQueue p q n).2.2).2.1,
      (sweep accepts ls (fillQueue p q n).2.2).2.2) := by
  rw [sweep, if_neg (by simp [h0, ha])]
  by_cases hq : (fillQueue p q n).2.1 = []
  · simp only [hq, if_true, live_nil, List.nil_append]
  · have h0' := (fillQueue_stop p q n).resolve_left hq
    simp only [hq, if_false, h0', sweep_zero, List.append_nil]
    rw [live_of_ne hq]
    rfl

/-- **One order of the sweep**, filled as a whole: on with what is behind it. -/
theorem sweep_whole {o : ι × ℕ} (h0 : n ≠ 0) (ha : accepts p = true) (h : o.2 ≤ n) : sweep accepts ((p, o :: q) :: ls) n =
    (⟨p, o.1, o.2⟩ :: (sweep accepts (live (p, q) ++ ls) (n - o.2)).1, (sweep accepts (live (p, q) ++ ls) (n - o.2)).2.1,
      (sweep accepts (live (p, q) ++ ls) (n - o.2)).2.2) := by
  rw [sweep_cons h0 ha, fillQueue_whole h0 h]
  cases q with
  | nil => simp
  | cons o' q =>
    rw [live_cons, List.singleton_append]
    by_cases hz : n - o.2 = 0
    · simp [hz, sweep_zero]
    · rw [sweep_cons hz ha]
      rfl

/-- An order that is too large for what is left keeps a part, and the sweep ends. -/
theorem sweep_short {o : ι × ℕ} (h0 : n ≠ 0) (ha : accepts p = true) (h : n < o.2) : sweep accepts ((p, o :: q) :: ls) n =
    ([⟨p, o.1, n⟩], (p, (o.1, o.2 - n) :: q) :: ls, 0) := by
  rw [sweep_cons h0 ha, fillQueue_short h0 h]
  simp [sweep_zero]

/-- **Nothing is lost** over a whole side. -/
theorem sweep_sum (accepts : π → Bool) (ls : Queues π ι) (n : ℕ) :
    ((sweep accepts ls n).1.map Fill.qty).sum + (sweep accepts ls n).2.2 = n := by
  induction ls generalizing n with
  | nil => simp
  | cons l ls ih =>
    obtain ⟨p, q⟩ := l
    by_cases h : n = 0 ∨ accepts p = false
    · rw [sweep_stop h]
      simp
    · rw [not_or] at h
      rw [sweep_cons h.1 (by simpa using h.2)]
      have h1 := fillQueue_sum p q n
      have h2 := ih (fillQueue p q n).2.2
      simp only [List.map_append, List.sum_append]
      omega

/-- Every fill is at an accepted price. -/
theorem sweep_price (accepts : π → Bool) (ls : Queues π ι) (n : ℕ) : ∀ t ∈ (sweep accepts ls n).1, accepts t.price = true := by
  induction ls generalizing n with
  | nil => simp
  | cons l ls ih =>
    obtain ⟨p, q⟩ := l
    by_cases h : n = 0 ∨ accepts p = false
    · rw [sweep_stop h]
      simp
    · rw [not_or] at h
      have ha : accepts p = true := by simpa using h.2
      rw [sweep_cons h.1 ha]
      intro t ht
      rcases List.mem_append.1 ht with ht | ht
      · rw [fillQueue_price p q n t ht]
        exact ha
      · exact ih _ t ht

/-- The prices that remain were there before. -/
theorem sweep_prices (accepts : π → Bool) (ls : Queues π ι) (n : ℕ) :
    List.Sublist ((sweep accepts ls n).2.1.map Prod.fst) (ls.map Prod.fst) := by
  induction ls generalizing n with
  | nil => simp
  | cons l ls ih =>
    obtain ⟨p, q⟩ := l
    by_cases h : n = 0 ∨ accepts p = false
    · rw [sweep_stop h]
    · rw [not_or] at h
      rw [sweep_cons h.1 (by simpa using h.2)]
      simp only [List.map_append, List.map_cons]
      by_cases hq : (fillQueue p q n).2.1 = []
      · rw [hq, live_nil]
        exact (ih _).cons p
      · rw [live_of_ne hq]
        exact (ih _).cons_cons p

/-- What rests at the accepted prices. -/
def crossing (accepts : π → Bool) (ls : Queues π ι) : ℕ :=
  ((orders (ls.filter fun l => accepts l.1)).map Prod.snd).sum

@[simp] theorem crossing_nil : crossing accepts ([] : Queues π ι) = 0 := rfl

theorem crossing_cons_pos (ha : accepts p = true) :
    crossing accepts ((p, q) :: ls) = (q.map Prod.snd).sum + crossing accepts ls := by
  unfold crossing
  rw [List.filter_cons_of_pos (by simpa using ha), orders_cons, List.map_append, List.sum_append]

/-- Nothing is accepted behind a price that is not. -/
theorem filter_of_not_accepts (hmono : ∀ a b, better a b → accepts b = true → accepts a = true)
    (hs : ((p, q) :: ls).Pairwise fun a b => better a.1 b.1) (ha : accepts p = false) :
    ((p, q) :: ls).filter (fun l => accepts l.1) = [] := by
  rw [List.filter_eq_nil_iff]
  intro l hl hl'
  rcases List.mem_cons.1 hl with rfl | hl
  · rw [ha] at hl'
    cases hl'
  · have := hmono _ _ ((List.pairwise_cons.1 hs).1 l hl) hl'
    rw [ha] at this
    cases this

theorem crossing_of_not_accepts (hmono : ∀ a b, better a b → accepts b = true → accepts a = true)
    (hs : ((p, q) :: ls).Pairwise fun a b => better a.1 b.1) (ha : accepts p = false) :
    crossing accepts ((p, q) :: ls) = 0 := by
  unfold crossing
  rw [filter_of_not_accepts hmono hs ha]
  rfl

/-- **What a sweep leaves to fill**: the incoming quantity less all that rests at accepted prices. -/
theorem sweep_left (hmono : ∀ a b, better a b → accepts b = true → accepts a = true)
    (hs : ls.Pairwise fun a b => better a.1 b.1) (n : ℕ) : (sweep accepts ls n).2.2 = n - crossing accepts ls := by
  induction ls generalizing n with
  | nil => simp
  | cons l ls ih =>
    obtain ⟨p, q⟩ := l
    by_cases h0 : n = 0
    · rw [h0, sweep_zero]
      simp
    · by_cases ha : accepts p = true
      · rw [sweep_cons h0 ha, crossing_cons_pos ha]
        simp only
        rw [ih (List.pairwise_cons.1 hs).2, fillQueue_left]
        omega
      · rw [Bool.not_eq_true] at ha
        rw [sweep_stop (Or.inr ha), crossing_of_not_accepts hmono hs ha]
        rfl

/-- **The matcher stops for a reason**: while quantity is left, no accepted price remains. -/
theorem sweep_residual (hmono : ∀ a b, better a b → accepts b = true → accepts a = true)
    (hs : ls.Pairwise fun a b => better a.1 b.1) (hn : (sweep accepts ls n).2.2 ≠ 0) :
    ∀ l ∈ (sweep accepts ls n).2.1, accepts l.1 = false := by
  induction ls generalizing n with
  | nil => simp
  | cons l ls ih =>
    obtain ⟨p, q⟩ := l
    by_cases h0 : n = 0
    · rw [h0, sweep_zero] at hn
      exact absurd rfl hn
    · by_cases ha : accepts p = true
      · rw [sweep_cons h0 ha] at hn ⊢
        have hn' : (fillQueue p q n).2.2 ≠ 0 := by
          intro e
          simp only [e, sweep_zero] at hn
          exact hn rfl
        rw [(fillQueue_stop p q n).resolve_right hn', live_nil, List.nil_append]
        exact ih (List.pairwise_cons.1 hs).2 hn
      · rw [Bool.not_eq_true] at ha
        rw [sweep_stop (Or.inr ha)]
        intro l hl
        rcases List.mem_cons.1 hl with rfl | hl
        · exact ha
        · by_contra hl'
          rw [Bool.not_eq_false] at hl'
          rw [hmono _ _ ((List.pairwise_cons.1 hs).1 l hl) hl'] at ha
          cases ha

/-! ### How many fills -/

/-- The number of resting quantities an incoming quantity touches. -/
def touched : List ℕ → ℕ → ℕ
  | [], _ => 0
  | r :: rs, n => if n = 0 then 0 else touched rs (n - r) + 1

@[simp] theorem touched_zero (rs : List ℕ) : touched rs 0 = 0 := by
  cases rs <;> simp [touched]

theorem touched_append (rs rs' : List ℕ) (n : ℕ) : touched (rs ++ rs') n = touched rs n + touched rs' (n - rs.sum) := by
  induction rs generalizing n with
  | nil => simp [touched]
  | cons r rs ih =>
    by_cases h0 : n = 0
    · simp [h0]
    · have hsub : n - r - rs.sum = n - (r + rs.sum) := by omega
      rw [List.cons_append, touched, if_neg h0, touched, if_neg h0, ih, List.sum_cons, hsub]
      omega

/-- At most `k` are touched exactly when the first `k` are enough, or all there are. -/
theorem touched_le_iff (rs : List ℕ) (n k : ℕ) : touched rs n ≤ k ↔ n ≤ (rs.take k).sum ∨ rs.length ≤ k := by
  induction rs generalizing n k with
  | nil => simp [touched]
  | cons r rs ih =>
    by_cases h0 : n = 0
    · simp [h0]
    · rw [touched, if_neg h0]
      cases k with
      | zero => simp [h0]
      | succ k =>
        rw [List.take_succ_cons, List.sum_cons, List.length_cons, Nat.add_le_add_iff_right, Nat.add_le_add_iff_right, ih]
        have hsub : n - r ≤ (rs.take k).sum ↔ n ≤ r + (rs.take k).sum := by omega
        rw [hsub]

theorem touched_eq_zero {rs : List ℕ} {n : ℕ} (hn : n ≠ 0) : touched rs n = 0 ↔ rs = [] := by
  cases rs <;> simp [touched, hn]

theorem fillQueue_length (p : π) (q : Queue ι) (n : ℕ) : (fillQueue p q n).1.length = touched (q.map Prod.snd) n := by
  induction q generalizing n with
  | nil => rfl
  | cons o q ih =>
    by_cases h0 : n = 0
    · rw [h0, fillQueue_zero, touched_zero]
      rfl
    · rw [List.map_cons, touched, if_neg h0]
      by_cases h : n < o.2
      · have hsub : n - o.2 = 0 := by omega
        rw [fillQueue_short h0 h, hsub, touched_zero]
        rfl
      · rw [fillQueue_whole h0 (by omega), List.length_cons, ih]

/-- The orders that rest at accepted prices, in the order they are served. -/
def crossingOrders (accepts : π → Bool) (ls : Queues π ι) : Queue ι := orders (ls.filter fun l => accepts l.1)

theorem crossing_eq_sum (accepts : π → Bool) (ls : Queues π ι) :
    crossing accepts ls = ((crossingOrders accepts ls).map Prod.snd).sum := rfl

theorem crossingOrders_cons_pos (ha : accepts p = true) :
    crossingOrders accepts ((p, q) :: ls) = q ++ crossingOrders accepts ls := by
  unfold crossingOrders
  rw [List.filter_cons_of_pos (by simpa using ha), orders_cons]

/-- **The fills of a sweep**, counted on the accepted orders. -/
theorem sweep_length (hmono : ∀ a b, better a b → accepts b = true → accepts a = true)
    (hs : ls.Pairwise fun a b => better a.1 b.1) (n : ℕ) :
    (sweep accepts ls n).1.length = touched ((crossingOrders accepts ls).map Prod.snd) n := by
  induction ls generalizing n with
  | nil => rfl
  | cons l ls ih =>
    obtain ⟨p, q⟩ := l
    by_cases h0 : n = 0
    · rw [h0, sweep_zero, touched_zero]
      rfl
    · by_cases ha : accepts p = true
      · rw [sweep_cons h0 ha, crossingOrders_cons_pos ha, List.map_append, touched_append, List.length_append,
          fillQueue_length, ih (List.pairwise_cons.1 hs).2, fillQueue_left]
      · rw [Bool.not_eq_true] at ha
        have hnil := filter_of_not_accepts hmono hs ha
        unfold crossingOrders
        rw [sweep_stop (Or.inr ha), hnil]
        rfl

/-- Whether the best price is accepted decides whether anything is. -/
theorem crossingOrders_eq_nil (h : Ok better ((p, q) :: ls)) (hnil : crossingOrders accepts ((p, q) :: ls) = []) :
    accepts p = false := by
  by_contra ha
  rw [Bool.not_eq_false] at ha
  rw [crossingOrders_cons_pos ha, List.append_eq_nil_iff] at hnil
  exact h.nonempty (p, q) List.mem_cons_self hnil.1

/-- **The whole quantity is filled within `k` fills** exactly when the first `k` accepted orders hold it. -/
theorem sweep_whole_iff (hmono : ∀ a b, better a b → accepts b = true → accepts a = true)
    (hs : ls.Pairwise fun a b => better a.1 b.1) (n k : ℕ) :
    ((sweep accepts ls n).1.length ≤ k ∧ (sweep accepts ls n).2.2 = 0) ↔
      n ≤ (((crossingOrders accepts ls).take k).map Prod.snd).sum := by
  have htake : ((crossingOrders accepts ls).map Prod.snd).take k = ((crossingOrders accepts ls).take k).map Prod.snd :=
    List.map_take.symm
  have hsplit := List.sum_take_add_sum_drop ((crossingOrders accepts ls).map Prod.snd) k
  rw [sweep_length hmono hs, sweep_left hmono hs, crossing_eq_sum, touched_le_iff, ← htake]
  constructor
  · rintro ⟨hfew | hfew, h0⟩
    · exact hfew
    · rw [List.take_of_length_le hfew]
      omega
  · intro hn
    exact ⟨Or.inl hn, by omega⟩

end Matcher

example : sweep (fun p => decide (p ≤ 11)) [(10, [(1, 5), (2, 5)]), (11, [(3, 4)]), (12, [(4, 9)])] 12 =
    ([⟨10, 1, 5⟩, ⟨10, 2, 5⟩, ⟨11, 3, 2⟩], [(11, [(3, 2)]), (12, [(4, 9)])], 0) := by decide

end PriceTime
