import TradeCore.Lib.LinkedTree
import TradeCore.Lib.LinkedList
import TradeCore.Orderbook.OrderBookVerifier
/-!
# What the verifier accepts

Each check passes exactly where a property of its arguments holds, and then leaves the result alone (`Passes`): so a
sequence of checks passes where all properties hold (`Passes.seq`, `Passes.early`). For the walks that is a list that
ends (`QueueIn`) and an AVL tree linked through the array (`TreeIn`). `verify_ok_iff` puts the nine checks together.
-/

namespace TradeCore

open Avl Avl.BinTree LinkedList

/-! ## Checks -/

@[simp] theorem VerificationResult.fail_ok (result : VerificationResult) (msg : String) : (result.fail msg).ok = false := by
  unfold fail
  split
  · rfl
  · rename_i h
    simpa using h

/-- A test that records a failure. -/
theorem VerificationResult.ite_fail_ok {c : Prop} [Decidable c] (result : VerificationResult) (msg : String) :
    (if c then result.fail msg else result).ok = true ↔ ¬ c ∧ result.ok = true := by
  by_cases hc : c
  · simp [hc]
  · simp [hc]

namespace OrderBookVerifier

/-- The check passes where `P` holds, and nowhere else. -/
def Passes (check : VerificationResult → Exec VerificationResult) (P : Prop) : Prop :=
  ∀ result result', (check result .debug = .ok result' ∧ result'.ok = true) ↔ (result.ok = true ∧ result' = result ∧ P)

namespace Passes

variable {check check' : VerificationResult → Exec VerificationResult} {P Q : Prop}

theorem congr (h : Passes check P) (hPQ : P ↔ Q) : Passes check Q := fun result result' => by
  rw [h result result', hPQ]

theorem accept : Passes (fun result => pure result) True := by
  intro result result'
  simp only [Exec.pure_apply, Except.ok.injEq, and_true]
  constructor
  · rintro ⟨rfl, h⟩
    exact ⟨h, rfl⟩
  · rintro ⟨h, rfl⟩
    exact ⟨rfl, h⟩

/-- A check that no result survives. -/
theorem reject (h : ∀ result result', check result .debug = .ok result' → result'.ok = false) : Passes check False := by
  intro result result'
  simp only [and_false, iff_false, not_and, Bool.not_eq_true]
  exact h result result'

theorem fail (msg : String) : Passes (fun result => pure (result.fail msg)) False := by
  refine reject fun result result' h => ?_
  simp only [Exec.pure_apply, Except.ok.injEq] at h
  rw [← h, VerificationResult.fail_ok]

/-- One check after another. -/
theorem seq (h : Passes check P) (h' : Passes check' Q) : Passes (fun result => check result >>= check') (P ∧ Q) := by
  intro result result'
  simp only [Exec.bind_eq_ok]
  constructor
  · rintro ⟨⟨result1, hc, hc'⟩, hok⟩
    obtain ⟨hok1, rfl, hQ⟩ := (h' _ _).1 ⟨hc', hok⟩
    obtain ⟨hr, rfl, hP⟩ := (h _ _).1 ⟨hc, hok1⟩
    exact ⟨hr, rfl, hP, hQ⟩
  · rintro ⟨hr, rfl, hP, hQ⟩
    obtain ⟨hc, -⟩ := (h result' result').2 ⟨hr, rfl, hP⟩
    obtain ⟨hc', hok⟩ := (h' result' result').2 ⟨hr, rfl, hQ⟩
    exact ⟨⟨result', hc, hc'⟩, hok⟩

/-- A check that is left out after a failure. -/
theorem ifOk (h : Passes check P) : Passes (fun result => if result.ok = false then pure result else check result) P := by
  intro result result'
  by_cases hr : result.ok = false
  · simp only [hr, if_true, Exec.pure_apply, Except.ok.injEq, Bool.false_eq_true, false_and, iff_false, not_and,
      Bool.not_eq_true]
    rintro rfl
    exact hr
  · simp only [if_neg hr]
    exact h result result'

/-- A check behind a failure. -/
theorem afterFail (h : Passes check P) (msg : String) : Passes (fun result => check (result.fail msg)) False := by
  refine reject fun result result' hc => ?_
  by_contra hok
  rw [Bool.not_eq_false] at hok
  have := ((h _ _).1 ⟨hc, hok⟩).1
  simp at this

section Walk

variable {α : Type} {m : Exec α} {f : α → VerificationResult → Exec VerificationResult}

/-- A check that begins with a walk that returns. -/
theorem walk {x : α} (hm : m .debug = .ok x) (h : Passes (f x) P) : Passes (fun result => m >>= fun x => f x result) P := by
  intro result result'
  simp only [Exec.bind_apply, hm]
  exact h result result'

theorem faulty {e : Fault} (hm : m .debug = .error e) : Passes (fun result => m >>= fun x => f x result) False := by
  refine reject fun result result' h => ?_
  rw [Exec.bind_eq_error hm] at h
  cases h

end Walk

end Passes

/-! ## The level arrays -/

/-- Neighbours with a price are in order. -/
def Ordered (ascending : Bool) (levels : List PriceLevel) : Prop :=
  levels.IsChain fun prev curr =>
    prev.price = 0 ∨ curr.price = 0 ∨ if ascending then prev.price < curr.price else curr.price < prev.price

theorem checkLevelOrdering_passes (ascending : Bool) :
    ∀ levels, Passes (fun result => pure (checkLevelOrdering ascending levels result)) (Ordered ascending levels)
  | [] => Passes.accept.congr (by simp [Ordered])
  | [level] => Passes.accept.congr (by simp [Ordered])
  | prev :: curr :: levels => by
    have ih := checkLevelOrdering_passes ascending (curr :: levels)
    unfold Ordered at ih ⊢
    rw [List.isChain_cons_cons]
    by_cases h0 : prev.price = 0 ∨ curr.price = 0
    · simp only [checkLevelOrdering, if_pos h0]
      exact ih.congr (by tauto)
    · simp only [checkLevelOrdering, if_neg h0]
      cases ascending with
      | true =>
        by_cases hp : prev.price ≥ curr.price
        · simp only [if_true, if_pos hp]
          exact (Passes.fail _).congr (by simp; grind)
        · simp only [if_true, if_neg hp]
          exact ih.congr (by simp; grind)
      | false =>
        by_cases hp : prev.price ≤ curr.price
        · simp only [Bool.false_eq_true, if_false, if_pos hp]
          exact (Passes.fail _).congr (by simp; grind)
        · simp only [Bool.false_eq_true, if_false, if_neg hp]
          exact ih.congr (by simp; grind)

/-- The best levels, where there are two, do not cross. -/
def NotCrossed (bidLevels askLevels : List PriceLevel) (bestBidIdx bestAskIdx : Index) : Prop :=
  bestBidIdx ≠ kInvalidPoolIndex → bestAskIdx ≠ kInvalidPoolIndex →
    ∀ bid ask, bidLevels[bestBidIdx.toNat]? = some bid → askLevels[bestAskIdx.toNat]? = some ask → bid.price < ask.price

theorem checkNoCrossedBook_passes (bidLevels askLevels : List PriceLevel) (bestBidIdx bestAskIdx : Index) :
    Passes (fun result => pure (checkNoCrossedBook bidLevels askLevels bestBidIdx bestAskIdx result))
      (NotCrossed bidLevels askLevels bestBidIdx bestAskIdx) := by
  unfold checkNoCrossedBook NotCrossed
  by_cases h0 : bestBidIdx = kInvalidPoolIndex ∨ bestAskIdx = kInvalidPoolIndex
  · simp only [if_pos h0]
    exact Passes.accept.congr (by tauto)
  · simp only [if_neg h0]
    rw [not_or] at h0
    cases hb : bidLevels[bestBidIdx.toNat]? with
    | none => exact Passes.accept.congr (by simp)
    | some bid =>
      cases ha : askLevels[bestAskIdx.toNat]? with
      | none => exact Passes.accept.congr (by simp)
      | some ask =>
        by_cases hc : bid.price ≥ ask.price
        · simp only [if_pos hc]
          exact (Passes.fail _).congr (by simp; grind)
        · simp only [if_neg hc]
          exact Passes.accept.congr (by simp; grind)

/-! ## The id map -/

/-- The entries lead to slots with their id. -/
def MapsTo (orderPool : List Order) (entries : List (UInt64 × Index)) : Prop :=
  ∀ id i, (id, i) ∈ entries → ∃ order, orderPool[i.toNat]? = some order ∧ order.orderId = id

theorem checkOrderMapConsistency_passes (orderPool : List Order) :
    ∀ entries, Passes (fun result => pure (checkOrderMapConsistency orderPool entries result)) (MapsTo orderPool entries)
  | [] => Passes.accept.congr (by simp [MapsTo])
  | (id, i) :: entries => by
    have ih := checkOrderMapConsistency_passes orderPool entries
    have hcons : MapsTo orderPool ((id, i) :: entries) ↔
        (∃ order, orderPool[i.toNat]? = some order ∧ order.orderId = id) ∧ MapsTo orderPool entries := by
      unfold MapsTo
      simp only [List.mem_cons, Prod.mk.injEq]
      constructor
      · intro h
        exact ⟨h id i (Or.inl ⟨rfl, rfl⟩), fun id' i' hm => h id' i' (Or.inr hm)⟩
      · rintro ⟨h, h'⟩ id' i' (⟨rfl, rfl⟩ | hm)
        · exact h
        · exact h' id' i' hm
    unfold checkOrderMapConsistency
    cases ho : orderPool[i.toNat]? with
    | none => exact (Passes.fail _).congr (by simp [hcons, ho])
    | some order =>
      by_cases he : order.orderId = id
      · simp only [he, ne_eq, not_true, if_false]
        exact ih.congr (by simp [hcons, ho, he])
      · simp only [he, ne_eq, not_false_eq_true, if_true]
        exact (Passes.fail _).congr (by simp [hcons, ho, he])

/-! ## The lists of orders -/

/-- Different indices of an array are no more than its elements. -/
theorem length_le_of_nodup {is : List Index} {n : ℕ} (hnd : is.Nodup) (hlt : ∀ i ∈ is, i.toNat < n) : is.length ≤ n := by
  have hnd' : (is.map UInt32.toNat).Nodup := hnd.map fun _ _ e => UInt32.toNat_inj.1 e
  have hsub : is.map UInt32.toNat ⊆ List.range n := by
    intro k hk
    obtain ⟨i, hi, rfl⟩ := List.mem_map.1 hk
    exact List.mem_range.2 (hlt i hi)
  simpa using (hnd'.subperm hsub).length_le

def orderAt (orderPool : List Order) (i : Index) : Order := orderPool.getD i.toNat Order.zero

/-- The links from `x` run through the slots `is` of the pool and end. -/
structure QueueIn (orderPool : List Order) (x : Index) (is : List Index) : Prop where
  path : Path (fun i => (orderAt orderPool i).nextInLevel) x is kInvalidPoolIndex
  slots : ∀ i ∈ is, i ≠ kInvalidPoolIndex ∧ i.toNat < orderPool.length

theorem QueueIn.unique {orderPool : List Order} {x : Index} {is js : List Index} (h : QueueIn orderPool x is)
    (h' : QueueIn orderPool x js) : is = js :=
  h.path.unique h'.path (fun hi => (h.slots _ hi).1 rfl) fun hj => (h'.slots _ hj).1 rfl

/-- No slot is met twice. -/
theorem QueueIn.length_le {orderPool : List Order} {x : Index} {is : List Index} (h : QueueIn orderPool x is) :
    is.length ≤ orderPool.length :=
  length_le_of_nodup (h.path.nodup fun hi => (h.slots _ hi).1 rfl) fun i hi => (h.slots i hi).2

theorem queueIn_cons {orderPool : List Order} {x i : Index} {is : List Index} : QueueIn orderPool x (i :: is) ↔
    x = i ∧ i ≠ kInvalidPoolIndex ∧ i.toNat < orderPool.length ∧ QueueIn orderPool (orderAt orderPool i).nextInLevel is := by
  constructor
  · rintro ⟨⟨hx, hp⟩, hs⟩
    obtain ⟨h1, h2⟩ := hs i List.mem_cons_self
    exact ⟨hx, h1, h2, hp, fun j hj => hs j (List.mem_cons_of_mem _ hj)⟩
  · rintro ⟨hx, h1, h2, hp, hs⟩
    exact ⟨⟨hx, hp⟩, List.forall_mem_cons.2 ⟨⟨h1, h2⟩, hs⟩⟩

theorem queueIn_nil {orderPool : List Order} {x : Index} : QueueIn orderPool x [] ↔ x = kInvalidPoolIndex :=
  ⟨fun h => h.path, fun h => ⟨h, by simp⟩⟩

/-- What a walk meets at a link that is not null. -/
theorem queueIn_iff {orderPool : List Order} {x : Index} {is : List Index} (hx : x ≠ kInvalidPoolIndex) :
    QueueIn orderPool x is ↔ ∃ js, is = x :: js ∧ x.toNat < orderPool.length ∧
      QueueIn orderPool (orderAt orderPool x).nextInLevel js := by
  cases is with
  | nil => simp [queueIn_nil, hx]
  | cons i is =>
    rw [queueIn_cons]
    constructor
    · rintro ⟨rfl, -, h2, h3⟩
      exact ⟨is, rfl, h2, h3⟩
    · rintro ⟨js, e, h2, h3⟩
      obtain ⟨rfl, rfl⟩ := List.cons.inj e
      exact ⟨rfl, hx, h2, h3⟩

/-- The quantity of a list of slots, with wrap-around. -/
def qtyOf (orderPool : List Order) (is : List Index) : UInt32 := (is.map fun i => (orderAt orderPool i).remainingQty).sum

/-- The sum that the loop returns is that of a list that ends in time. -/
theorem sumLoop_eq_ok {orderPool : List Order} : ∀ {fuel : ℕ} {x : Index} {sum total : UInt32},
    sumLoop orderPool fuel x sum .debug = .ok (some total) ↔
      ∃ is, QueueIn orderPool x is ∧ is.length < fuel ∧ total = sum + qtyOf orderPool is
  | 0, _, _, _ => by simp [sumLoop]
  | fuel + 1, x, sum, total => by
    unfold sumLoop
    by_cases hx : x = kInvalidPoolIndex
    · subst hx
      simp only [ne_eq, not_true, if_false, Exec.pure_apply, Except.ok.injEq, Option.some.injEq]
      constructor
      · rintro rfl
        exact ⟨[], queueIn_nil.2 rfl, Nat.succ_pos _, by simp [qtyOf]⟩
      · rintro ⟨is, hq, -, rfl⟩
        obtain rfl := hq.unique (queueIn_nil.2 rfl)
        simp [qtyOf]
    · simp only [ne_eq, hx, not_false_eq_true, if_true, queueIn_iff hx]
      cases ho : orderPool[x.toNat]? with
      | none =>
        have hlen := List.getElem?_eq_none_iff.1 ho
        simp only [Exec.pure_apply, Except.ok.injEq, reduceCtorEq, false_iff, not_exists]
        rintro is ⟨⟨js, -, hlt, -⟩, -⟩
        omega
      | some order =>
        have hlt : x.toNat < orderPool.length := (List.getElem?_eq_some_iff.1 ho).1
        have hat : orderAt orderPool x = order := by simp [orderAt, ho]
        simp only [sumLoop_eq_ok, hat]
        constructor
        · rintro ⟨js, hq, hlen, rfl⟩
          refine ⟨x :: js, ⟨js, rfl, hlt, hq⟩, by simpa using hlen, ?_⟩
          simp [qtyOf, hat, UInt32.add_assoc]
        · rintro ⟨is, ⟨js, rfl, -, hq⟩, hlen, rfl⟩
          refine ⟨js, hq, by simpa using hlen, ?_⟩
          simp [qtyOf, hat, UInt32.add_assoc]

/-- The totals of the levels with orders are sums. -/
def Quantities (orderPool : List Order) (levels : List PriceLevel) : Prop :=
  ∀ level ∈ levels, level.orderCount ≠ 0 → ∃ is, QueueIn orderPool level.headOrderIdx is ∧ qtyOf orderPool is = level.totalQty

theorem checkLevelQuantities_passes (orderPool : List Order) :
    ∀ levels, Passes (fun result => checkLevelQuantities orderPool levels result) (Quantities orderPool levels)
  | [] => Passes.accept.congr (by simp [Quantities])
  | level :: levels => by
    have ih := checkLevelQuantities_passes orderPool levels
    have hsum : (∃ is, QueueIn orderPool level.headOrderIdx is ∧ qtyOf orderPool is = level.totalQty) ↔
        sumLoop orderPool (orderPool.length + 1) level.headOrderIdx 0 .debug = .ok (some level.totalQty) := by
      rw [sumLoop_eq_ok]
      constructor
      · rintro ⟨is, hq, e⟩
        exact ⟨is, hq, Nat.lt_succ_of_le hq.length_le, by simp [e]⟩
      · rintro ⟨is, hq, -, e⟩
        exact ⟨is, hq, by simp [e]⟩
    unfold Quantities at ih ⊢
    simp only [List.forall_mem_cons, hsum, checkLevelQuantities]
    by_cases h0 : level.orderCount = 0
    · simp only [if_pos h0]
      exact ih.congr (by simp [h0])
    · simp only [ne_eq, h0, not_false_eq_true, true_imp_iff]
      cases hm : sumLoop orderPool (orderPool.length + 1) level.headOrderIdx 0 .debug with
      | error e => exact (Passes.faulty hm).congr (by simp)
      | ok o =>
        refine Passes.walk hm ?_
        cases o with
        | none => exact (Passes.fail _).congr (by simp)
        | some sum =>
          by_cases hs : sum = level.totalQty
          · simp only [hs, not_true, if_false]
            exact ih.congr (by simp)
          · simp only [hs, not_false_eq_true, if_true]
            exact (ih.afterFail _).congr (by simp [hs])

/-- The timestamps of a list of slots do not decrease. -/
def TimeSorted (orderPool : List Order) (is : List Index) : Prop :=
  (is.map fun i => (orderAt orderPool i).timestampNs).Pairwise (· ≤ ·)

/-- The loop that finds nothing has walked a list that ends in time, and its timestamps start at `prev`. -/
theorem fifoLoop_eq_ok {orderPool : List Order} : ∀ {fuel : ℕ} {x : Index} {prev : UInt64},
    fifoLoop orderPool fuel x prev .debug = .ok none ↔
      ∃ is, QueueIn orderPool x is ∧ is.length < fuel ∧ TimeSorted orderPool is ∧
        ∀ i ∈ is, prev ≤ (orderAt orderPool i).timestampNs
  | 0, _, _ => by simp [fifoLoop]
  | fuel + 1, x, prev => by
    unfold fifoLoop
    by_cases hx : x = kInvalidPoolIndex
    · subst hx
      simp only [ne_eq, not_true, if_false, Exec.pure_apply, true_iff]
      exact ⟨[], queueIn_nil.2 rfl, Nat.succ_pos _, List.Pairwise.nil, by simp⟩
    · simp only [ne_eq, hx, not_false_eq_true, if_true, queueIn_iff hx]
      cases ho : orderPool[x.toNat]? with
      | none =>
        have hlen := List.getElem?_eq_none_iff.1 ho
        simp only [Exec.pure_apply, Except.ok.injEq, reduceCtorEq, false_iff, not_exists]
        rintro is ⟨⟨js, -, hlt, -⟩, -⟩
        omega
      | some order =>
        have hlt : x.toNat < orderPool.length := (List.getElem?_eq_some_iff.1 ho).1
        have hat : orderAt orderPool x = order := by simp [orderAt, ho]
        by_cases ht : order.timestampNs < prev
        · simp only [if_pos ht, Exec.pure_apply, Except.ok.injEq, reduceCtorEq, false_iff, not_exists]
          rintro is ⟨⟨js, rfl, -, -⟩, -, -, hprev⟩
          have := hprev x List.mem_cons_self
          rw [hat] at this
          exact absurd ht (UInt64.not_lt.2 this)
        · simp only [if_neg ht, fifoLoop_eq_ok, hat]
          constructor
          · rintro ⟨js, hq, hlen, hsorted, hprev⟩
            refine ⟨x :: js, ⟨js, rfl, hlt, hq⟩, by simpa using hlen, ?_, ?_⟩
            · refine List.pairwise_cons.2 ⟨?_, hsorted⟩
              simpa [hat] using hprev
            · refine List.forall_mem_cons.2 ⟨hat ▸ UInt64.not_lt.1 ht, fun i hi => ?_⟩
              exact UInt64.le_trans (UInt64.not_lt.1 ht) (hprev i hi)
          · rintro ⟨is, ⟨js, rfl, -, hq⟩, hlen, hsorted, -⟩
            obtain ⟨hfirst, hrest⟩ := List.pairwise_cons.1 hsorted
            refine ⟨js, hq, by simpa using hlen, hrest, ?_⟩
            simpa [hat] using hfirst

/-- The levels with several orders list them by time. -/
def Fifo (orderPool : List Order) (levels : List PriceLevel) : Prop :=
  ∀ level ∈ levels, 1 < level.orderCount → ∃ is, QueueIn orderPool level.headOrderIdx is ∧ TimeSorted orderPool is

theorem checkFifoOrdering_passes (orderPool : List Order) :
    ∀ levels, Passes (fun result => checkFifoOrdering orderPool levels result) (Fifo orderPool levels)
  | [] => Passes.accept.congr (by simp [Fifo])
  | level :: levels => by
    have ih := checkFifoOrdering_passes orderPool levels
    have hfifo : (∃ is, QueueIn orderPool level.headOrderIdx is ∧ TimeSorted orderPool is) ↔
        fifoLoop orderPool (orderPool.length + 1) level.headOrderIdx 0 .debug = .ok none := by
      rw [fifoLoop_eq_ok]
      constructor
      · rintro ⟨is, hq, h⟩
        exact ⟨is, hq, Nat.lt_succ_of_le hq.length_le, h, fun i _ => UInt64.zero_le⟩
      · rintro ⟨is, hq, -, h, -⟩
        exact ⟨is, hq, h⟩
    unfold Fifo at ih ⊢
    simp only [List.forall_mem_cons, hfifo, checkFifoOrdering]
    by_cases h0 : level.orderCount ≤ 1
    · simp only [if_pos h0]
      exact ih.congr (by simp [UInt32.not_lt.2 h0])
    · simp only [if_neg h0, UInt32.not_le.1 h0, true_imp_iff]
      cases hm : fifoLoop orderPool (orderPool.length + 1) level.headOrderIdx 0 .debug with
      | error e => exact (Passes.faulty hm).congr (by simp)
      | ok o =>
        refine Passes.walk hm ?_
        cases o with
        | some msg => exact (Passes.fail _).congr (by simp)
        | none => exact ih.congr (by simp)

/-! ## The trees -/

def levelAt (levels : List PriceLevel) (i : Index) : PriceLevel := levels.getD i.toNat PriceLevel.zero

/-- The index is that of a level of the array. -/
def Cell (levels : List PriceLevel) (i : Index) : Prop := i ≠ kInvalidPoolIndex ∧ i.toNat < levels.length

def links (levels : List PriceLevel) : Links Index where
  left i := (levelAt levels i).node.left
  right i := (levelAt levels i).node.right
  parent i := (levelAt levels i).node.parent
  height i := (levelAt levels i).node.height

/-- The links of the array under `x` are the tree `t`, with parent `p` at its root and true heights. -/
def TreeIn (levels : List PriceLevel) (t : BinTree Index) (x p : Index) : Prop :=
  Links.Linked (Cell levels) kInvalidPoolIndex (links levels) t x p

variable {levels : List PriceLevel}

/-- One call at a level: the two calls below it, which return `l` and `r`, and what it tests. -/
structure NodeChecked (levels : List PriceLevel) (fuel : ℕ) (x p : Index) (visited : List Index) (result : VerificationResult)
    (out l r : ℤ × List Index × VerificationResult) : Prop where
  cell : Cell levels x
  fresh : x ∉ visited
  parent : (links levels).parent x = p
  left : checkAvlTopology levels fuel ((links levels).left x) x (x :: visited) result .debug = .ok l
  right : checkAvlTopology levels fuel ((links levels).right x) x l.2.1 l.2.2 .debug = .ok r
  ok : r.2.2.ok = true
  height : (links levels).height x = 1 + max l.1 r.1
  balance : l.1 ≤ r.1 + 1 ∧ r.1 ≤ l.1 + 1
  out : out = (1 + max l.1 r.1, r.2)

theorem checkAvlTopology_null (fuel : ℕ) (p : Index) (visited : List Index) (result : VerificationResult) :
    checkAvlTopology levels (fuel + 1) kInvalidPoolIndex p visited result = pure (0, visited, result) := by
  unfold checkAvlTopology
  rw [if_pos rfl]

/-- What a call at a level has done when it returns without a failure. -/
theorem checkAvlTopology_iff {fuel : ℕ} {x p : Index} {visited : List Index} {result : VerificationResult}
    {out : ℤ × List Index × VerificationResult} (hx : x ≠ kInvalidPoolIndex) :
    (checkAvlTopology levels (fuel + 1) x p visited result .debug = .ok out ∧ out.2.2.ok = true) ↔
      ∃ l r, NodeChecked levels fuel x p visited result out l r := by
  unfold checkAvlTopology
  rw [if_neg hx]
  cases hl : levels[x.toNat]? with
  | none =>
    have hlen := List.getElem?_eq_none_iff.1 hl
    simp only [Exec.pure_apply, Except.ok.injEq]
    constructor
    · rintro ⟨rfl, hok⟩
      simp at hok
    · rintro ⟨l, r, h⟩
      have := h.cell.2
      omega
  | some level =>
    have hcell : Cell levels x := ⟨hx, (List.getElem?_eq_some_iff.1 hl).1⟩
    have hat : levelAt levels x = level := by simp [levelAt, hl]
    by_cases hv : x ∈ visited
    · simp only [if_pos hv, Exec.pure_apply, Except.ok.injEq]
      constructor
      · rintro ⟨rfl, hok⟩
        simp at hok
      · rintro ⟨l, r, h⟩
        exact absurd hv h.fresh
    · by_cases hp : level.node.parent = p
      · simp only [if_neg hv, hp, ne_eq, not_true, if_false, Exec.bind_eq_ok]
        constructor
        · rintro ⟨⟨l, hleft, r, hright, h⟩, hok⟩
          by_cases hr : r.2.2.ok = false
          · rw [if_pos hr, Exec.pure_apply, Except.ok.injEq] at h
            subst h
            rw [hr] at hok
            cases hok
          · rw [if_neg hr, Exec.pure_apply, Except.ok.injEq] at h
            subst h
            simp only [VerificationResult.ite_fail_ok] at hok
            obtain ⟨hb, hh, hok⟩ := hok
            refine ⟨l, r, hcell, hv, ?_, ?_, ?_, hok, ?_, by omega, ?_⟩
            · simpa [links, hat] using hp
            · simpa [links, hat] using hleft
            · simpa [links, hat] using hright
            · simpa [links, hat] using hh
            · rw [if_neg hb, if_neg hh]
        · rintro ⟨l, r, h⟩
          have hh : level.node.height = 1 + max l.1 r.1 := by simpa [links, hat] using h.height
          have hb : ¬ (r.1 - l.1 < -1 ∨ r.1 - l.1 > 1) := by
            have := h.balance
            omega
          have hleft := h.left
          have hright := h.right
          simp only [links, hat] at hleft hright
          rw [h.out]
          refine ⟨⟨l, hleft, r, hright, ?_⟩, h.ok⟩
          simp [h.ok, hh, hb]
      · simp only [if_neg hv, ne_eq, hp, not_false_eq_true, if_true, Exec.pure_apply, Except.ok.injEq]
        constructor
        · rintro ⟨rfl, hok⟩
          simp at hok
        · rintro ⟨l, r, h⟩
          refine absurd ?_ hp
          simpa [links, hat] using h.parent

/-- What a walk that returns without a failure has found. -/
structure Walked (levels : List PriceLevel) (x p : Index) (visited : List Index) (result : VerificationResult)
    (out : ℤ × List Index × VerificationResult) (t : BinTree Index) : Prop where
  tree : TreeIn levels t x p
  balanced : t.Balanced
  nodup : t.toList.Nodup
  fresh : ∀ i ∈ t.toList, i ∉ visited
  height : out.1 = t.height
  visited : ∀ i, i ∈ out.2.1 ↔ i ∈ t.toList ∨ i ∈ visited
  unchanged : out.2.2 = result
  ok : result.ok = true

/-- The node over what the two calls have found. -/
theorem NodeChecked.walked {fuel : ℕ} {x p : Index} {visited : List Index} {result : VerificationResult}
    {out l r : ℤ × List Index × VerificationResult} {tl tr : BinTree Index}
    (hn : NodeChecked levels fuel x p visited result out l r)
    (hl : Walked levels ((links levels).left x) x (x :: visited) result l tl)
    (hr : Walked levels ((links levels).right x) x l.2.1 l.2.2 r tr) : Walked levels x p visited result out (node tl x tr) := by
  have hxl : x ∉ tl.toList := fun hi => hl.fresh x hi List.mem_cons_self
  have hxr : x ∉ tr.toList := fun hi => hr.fresh x hi ((hl.visited x).2 (Or.inr List.mem_cons_self))
  have hlr : ∀ i ∈ tl.toList, i ∉ tr.toList := fun i hi hi' => hr.fresh i hi' ((hl.visited i).2 (Or.inl hi))
  have hmax : 1 + max l.1 r.1 = ((node tl x tr).height : ℤ) := by
    rw [hl.height, hr.height, height_node]
    push_cast
    rfl
  obtain rfl := hn.out
  refine ⟨⟨rfl, hn.cell, hn.parent, hn.height.trans hmax, hl.tree, hr.tree⟩, ?_, ?_, ?_, hmax, ?_, ?_, hl.ok⟩
  · have hb := hn.balance
    rw [hl.height, hr.height] at hb
    exact ⟨hl.balanced, hr.balanced, by omega, by omega⟩
  · rw [toList_node, List.nodup_append, List.nodup_cons]
    refine ⟨hl.nodup, ⟨hxr, hr.nodup⟩, fun i hi j hj e => ?_⟩
    subst e
    rcases List.mem_cons.1 hj with rfl | hj
    · exact hxl hi
    · exact hlr i hi hj
  · intro i hi hv
    rw [toList_node, List.mem_append, List.mem_cons] at hi
    rcases hi with hi | rfl | hi
    · exact hl.fresh i hi (List.mem_cons_of_mem _ hv)
    · exact hn.fresh hv
    · exact hr.fresh i hi ((hl.visited i).2 (Or.inr (List.mem_cons_of_mem _ hv)))
  · intro i
    rw [toList_node, List.mem_append, List.mem_cons, hr.visited, hl.visited, List.mem_cons]
    tauto
  · exact hr.unchanged.trans hl.unchanged

/-- **Soundness of the walk.** -/
theorem checkAvlTopology_sound : ∀ {fuel : ℕ} {x p : Index} {visited : List Index} {result : VerificationResult}
    {out : ℤ × List Index × VerificationResult}, checkAvlTopology levels fuel x p visited result .debug = .ok out →
    out.2.2.ok = true → ∃ t, Walked levels x p visited result out t
  | 0, _, _, _, _, _ => by simp [checkAvlTopology]
  | fuel + 1, x, p, visited, result, out => by
    intro h hok
    by_cases hx : x = kInvalidPoolIndex
    · subst hx
      rw [checkAvlTopology_null, Exec.pure_apply, Except.ok.injEq] at h
      subst h
      exact ⟨nil, rfl, trivial, List.nodup_nil, by simp, rfl, by simp, rfl, hok⟩
    · obtain ⟨l, r, hn⟩ := (checkAvlTopology_iff hx).1 ⟨h, hok⟩
      -- the right call found no failure, so it was not given one
      obtain ⟨tr, hr⟩ := checkAvlTopology_sound hn.right hn.ok
      obtain ⟨tl, hl⟩ := checkAvlTopology_sound hn.left hr.ok
      exact ⟨_, hn.walked hl hr⟩

/-- **Completeness of the walk.** -/
theorem checkAvlTopology_complete {result : VerificationResult} (hok : result.ok = true) :
    ∀ {t : BinTree Index} {fuel : ℕ} {x p : Index} {visited : List Index}, TreeIn levels t x p → t.Balanced →
    t.toList.Nodup → (∀ i ∈ t.toList, i ∉ visited) → t.height < fuel →
    ∃ out, checkAvlTopology levels fuel x p visited result .debug = .ok out ∧ Walked levels x p visited result out t
  | nil, fuel + 1, x, p, visited, ht, hb, hnd, hf, _ => by
    obtain rfl : x = kInvalidPoolIndex := ht
    rw [checkAvlTopology_null]
    exact ⟨_, rfl, rfl, trivial, List.nodup_nil, by simp, rfl, by simp, rfl, hok⟩
  | node tl i tr, fuel + 1, x, p, visited, ht, hb, hnd, hf, hlt => by
    obtain ⟨rfl, hcell, hp, hh, htl, htr⟩ := ht
    obtain ⟨hbl, hbr, hb1, hb2⟩ := hb
    rw [toList_node] at hnd hf
    obtain ⟨hndl, hndx, hdis⟩ := List.nodup_append.1 hnd
    obtain ⟨hxr, hndr⟩ := List.nodup_cons.1 hndx
    simp only [List.mem_append, List.mem_cons] at hf hdis
    rw [height_node] at hlt hh
    have hfl : ∀ i ∈ tl.toList, i ∉ x :: visited := by
      intro i hi hv
      rcases List.mem_cons.1 hv with rfl | hv
      · exact hdis i hi i (Or.inl rfl) rfl
      · exact hf i (Or.inl hi) hv
    have hltl : tl.height < fuel := by omega
    have hltr : tr.height < fuel := by omega
    obtain ⟨l, hleft, hl⟩ := checkAvlTopology_complete hok htl hbl hndl hfl hltl
    have hfr : ∀ i ∈ tr.toList, i ∉ l.2.1 := by
      intro i hi hv
      rcases (hl.visited i).1 hv with hv | hv
      · exact hdis i hv i (Or.inr hi) rfl
      · rcases List.mem_cons.1 hv with rfl | hv
        · exact hxr hi
        · exact hf i (Or.inr (Or.inr hi)) hv
    obtain ⟨r, hright, hr⟩ := checkAvlTopology_complete hok htr hbr hndr hfr hltr
    rw [← hl.unchanged] at hr hright
    have hn : NodeChecked levels fuel x p visited result (1 + max l.1 r.1, r.2) l r := by
      refine ⟨hcell, hf x (Or.inr (Or.inl rfl)), hp, hleft, hright, ?_, ?_, ?_, rfl⟩
      · rw [hr.unchanged]
        exact hr.ok
      · rw [hh, hl.height, hr.height]
        push_cast
        rfl
      · rw [hl.height, hr.height]
        omega
    exact ⟨_, ((checkAvlTopology_iff hcell.1).2 ⟨l, r, hn⟩).1, hn.walked hl hr⟩

/-- A tree of the array is no higher than the array is long. -/
theorem TreeIn.height_le {t : BinTree Index} {x p : Index} (h : TreeIn levels t x p) (hnd : t.toList.Nodup) :
    t.height ≤ levels.length := by
  have hlen := length_le_of_nodup hnd fun i hi => (Links.Linked.cells h i hi).2
  rw [length_toList] at hlen
  exact (height_le_size t).trans hlen

/-- An AVL tree in which every level stands once. -/
def AvlIn (levels : List PriceLevel) (root : Index) (t : BinTree Index) : Prop :=
  TreeIn levels t root kInvalidPoolIndex ∧ t.Balanced ∧ t.toList.Nodup

theorem checkAvlTopology_passes (levels : List PriceLevel) (root : Index) :
    Passes (fun result => checkAvlTopology levels (levels.length + 1) root kInvalidPoolIndex [] result >>= fun out =>
      pure out.2.2) (∃ t, AvlIn levels root t) := by
  intro result result'
  simp only [Exec.bind_eq_ok, Exec.pure_apply, Except.ok.injEq]
  constructor
  · rintro ⟨⟨out, h, rfl⟩, hok⟩
    obtain ⟨t, ht⟩ := checkAvlTopology_sound h hok
    exact ⟨ht.ok, ht.unchanged, t, ht.tree, ht.balanced, ht.nodup⟩
  · rintro ⟨hok, rfl, t, ht, hb, hnd⟩
    have hlt : t.height < levels.length + 1 := Nat.lt_succ_of_le (ht.height_le hnd)
    obtain ⟨out, h, hw⟩ := checkAvlTopology_complete hok ht hb hnd (fun _ _ => List.not_mem_nil) hlt
    exact ⟨⟨out, h, hw.unchanged⟩, hok⟩

/-! ## The best levels -/

/-- The last of a listing by price for bids, the first for asks. -/
def bestIn (isAsk : Bool) (is : List Index) : Index := (if isAsk then is.head? else is.getLast?).getD kInvalidPoolIndex

theorem bestIn_mem (isAsk : Bool) {is : List Index} (h : is ≠ []) : bestIn isAsk is ∈ is := by
  unfold bestIn
  cases isAsk with
  | true =>
    rw [if_pos rfl, List.head?_eq_some_head h]
    exact List.head_mem h
  | false =>
    rw [if_neg Bool.false_ne_true, List.getLast?_eq_some_getLast h]
    exact List.getLast_mem h

theorem bestIn_node (isAsk : Bool) (l : BinTree Index) (i : Index) (r : BinTree Index) : bestIn isAsk (node l i r).toList =
    if (if isAsk then l else r) = nil then i else bestIn isAsk (if isAsk then l else r).toList := by
  unfold bestIn
  cases isAsk with
  | true =>
    cases h : l.toList with
    | nil => simp [toList_eq_nil.1 h]
    | cons j is =>
      have hne : l ≠ nil := fun e => by simp [e] at h
      simp [h, hne]
  | false =>
    rcases List.eq_nil_or_concat r.toList with h | ⟨is, j, h⟩
    · simp [toList_eq_nil.1 h]
    · have hne : r ≠ nil := fun e => by simp [e] at h
      rw [List.concat_eq_append] at h
      simp [h, hne, List.getLast?_cons]

theorem levels_getElem? {i : Index} (h : Cell levels i) : levels[i.toNat]? = some (levelAt levels i) := by
  unfold levelAt
  rw [List.getD_eq_getElem?_getD, List.getElem?_eq_getElem h.2]
  rfl

theorem TreeIn.nil_iff {t : BinTree Index} {x p : Index} (h : TreeIn levels t x p) : t = nil ↔ x = kInvalidPoolIndex :=
  Links.Linked.nil_iff (fun hc : Cell levels kInvalidPoolIndex => hc.1 rfl) h

/-- The walk to the end of a tree. -/
theorem bboLoop_spec (isAsk : Bool) : ∀ {t : BinTree Index} {fuel : ℕ} {x p : Index}, TreeIn levels t x p → t ≠ nil →
    t.height ≤ fuel → bboLoop levels isAsk fuel x = pure (bestIn isAsk t.toList)
  | nil, _, _, _, _, h, _ => absurd rfl h
  | node l i r, 0, _, _, _, _, hlt => by
    rw [height_node] at hlt
    omega
  | node l i r, fuel + 1, x, p, ⟨hx, hcell, hp, hh, hl, hr⟩, _, hlt => by
    subst hx
    rw [height_node] at hlt
    have hchild : TreeIn levels (if isAsk then l else r)
        (if isAsk then (levelAt levels x).node.left else (levelAt levels x).node.right) x := by
      cases isAsk with
      | true => exact hl
      | false => exact hr
    have hheight : (if isAsk then l else r).height ≤ fuel := by
      cases isAsk
      · exact le_trans (le_max_right l.height r.height) (by omega)
      · exact le_trans (le_max_left l.height r.height) (by omega)
    unfold bboLoop
    rw [levels_getElem? hcell, bestIn_node]
    by_cases hc : (if isAsk then l else r) = nil
    · simp only [hc, if_true, hchild.nil_iff.1 hc, ne_eq, not_true, if_false]
    · have hne := mt hchild.nil_iff.2 hc
      simp only [hc, if_false, hne, ne_eq, not_false_eq_true, if_true]
      exact bboLoop_spec isAsk hchild hc hheight

/-- The cached best level of a tree, tested by the walk. -/
def BboChecked (levels : List PriceLevel) (root bbo : Index) (isAsk : Bool) : Prop :=
  if root = kInvalidPoolIndex then bbo = kInvalidPoolIndex
  else bbo ≠ kInvalidPoolIndex ∧ bboLoop levels isAsk (levels.length + 1) root .debug = .ok bbo

theorem checkBboCache_passes (levels : List PriceLevel) (root bbo : Index) (isAsk : Bool) :
    Passes (checkBboCache levels root bbo isAsk) (BboChecked levels root bbo isAsk) := by
  unfold BboChecked checkBboCache
  by_cases hr : root = kInvalidPoolIndex
  · simp only [if_pos hr]
    by_cases hb : bbo = kInvalidPoolIndex
    · simp only [hb, ne_eq, not_true, if_false]
      exact Passes.accept
    · simp only [hb, ne_eq, not_false_eq_true, if_true]
      exact Passes.fail _
  · simp only [if_neg hr]
    by_cases hb : bbo = kInvalidPoolIndex
    · simp only [hb, if_true, ne_eq, not_true, false_and]
      exact Passes.fail _
    · simp only [hb, if_false, ne_eq, not_false_eq_true, true_and]
      cases hm : bboLoop levels isAsk (levels.length + 1) root .debug with
      | error e => exact (Passes.faulty hm).congr (by simp)
      | ok curr =>
        refine Passes.walk hm ?_
        by_cases hc : curr = bbo
        · simp only [hc, not_true, if_false]
          exact Passes.accept
        · simp only [hc, not_false_eq_true, if_true]
          exact (Passes.fail _).congr (by simp [hc])

/-- On a tree that the walk of the topology accepts, the cache is tested against the listing. -/
theorem bboChecked_iff {root bbo : Index} {isAsk : Bool} {t : BinTree Index} (h : AvlIn levels root t) :
    BboChecked levels root bbo isAsk ↔ bbo = bestIn isAsk t.toList := by
  obtain ⟨ht, hb, hnd⟩ := h
  unfold BboChecked
  by_cases hr : root = kInvalidPoolIndex
  · rw [if_pos hr, ht.nil_iff.2 hr]
    cases isAsk <;> rfl
  · have hne : t ≠ nil := mt ht.nil_iff.1 hr
    rw [if_neg hr, bboLoop_spec isAsk ht hne (Nat.le_succ_of_le (ht.height_le hnd)), Exec.pure_apply, Except.ok.injEq]
    constructor
    · exact fun h => h.2.symm
    · rintro rfl
      have hmem := bestIn_mem isAsk (mt toList_eq_nil.1 hne)
      exact ⟨(Links.Linked.cells ht _ hmem).1, rfl⟩

/-! ## `verify` -/

/-- What the verifier accepts. -/
structure Accepts (uniqueness : UniquenessCheck) (bidLevels askLevels : List PriceLevel) (orderPool : List Order)
    (orderMap : FlatHashMap) (bidRootIdx askRootIdx bestBidIdx bestAskIdx : Index) : Prop where
  ordered : Ordered false bidLevels ∧ Ordered true askLevels
  notCrossed : NotCrossed bidLevels askLevels bestBidIdx bestAskIdx
  unique : uniqueness bidLevels askLevels orderPool orderMap = none
  quantities : Quantities orderPool bidLevels ∧ Quantities orderPool askLevels
  map : MapsTo orderPool orderMap.entries
  fifo : Fifo orderPool bidLevels ∧ Fifo orderPool askLevels
  bids : ∃ t, AvlIn bidLevels bidRootIdx t ∧ bestBidIdx = bestIn false t.toList
  asks : ∃ t, AvlIn askLevels askRootIdx t ∧ bestAskIdx = bestIn true t.toList

theorem uniqueness_passes (o : Option String) :
    Passes (fun result => pure (match o with | some msg => result.fail msg | none => result)) (o = none) := by
  cases o with
  | none => exact Passes.accept.congr (by simp)
  | some msg => exact (Passes.fail msg).congr (by simp)

/-- A verification without a failure: the checks pass one after another. -/
theorem verify_ok_iff {uniqueness : UniquenessCheck} {bidLevels askLevels : List PriceLevel} {orderPool : List Order}
    {orderMap : FlatHashMap} {bidRootIdx askRootIdx bestBidIdx bestAskIdx : Index} {result : VerificationResult} :
    (verify uniqueness bidLevels askLevels orderPool orderMap bidRootIdx askRootIdx bestBidIdx bestAskIdx .debug = .ok result ∧
      result.ok = true) ↔
    result = {} ∧ Accepts uniqueness bidLevels askLevels orderPool orderMap bidRootIdx askRootIdx bestBidIdx bestAskIdx := by
  have hbbo := (checkBboCache_passes bidLevels bidRootIdx bestBidIdx false).seq
    (checkBboCache_passes askLevels askRootIdx bestAskIdx true)
  have hfifo := (checkFifoOrdering_passes orderPool bidLevels).seq <| (checkFifoOrdering_passes orderPool askLevels).seq hbbo.ifOk
  have htrees := (checkAvlTopology_passes bidLevels bidRootIdx).seq <|
    (checkAvlTopology_passes askLevels askRootIdx).seq hfifo.ifOk
  have hmap := (checkOrderMapConsistency_passes orderPool orderMap.entries).seq htrees.ifOk
  have hqty := (checkLevelQuantities_passes orderPool bidLevels).seq <|
    (checkLevelQuantities_passes orderPool askLevels).seq hmap.ifOk
  have huniq := (uniqueness_passes (uniqueness bidLevels askLevels orderPool orderMap)).seq hqty.ifOk
  have hcross := (checkNoCrossedBook_passes bidLevels askLevels bestBidIdx bestAskIdx).seq huniq.ifOk
  have hlevels := (checkLevelOrdering_passes false bidLevels).seq <|
    ((checkLevelOrdering_passes true askLevels).seq hcross.ifOk).ifOk
  have hall := hlevels {} result
  simp only [pure_bind, bind_assoc, true_and] at hall
  refine Iff.trans hall (and_congr_right fun _ => ?_)
  constructor
  · rintro ⟨h1, h2, h3, h4, h5, h6, h7, ⟨tb, hb⟩, ⟨ta, ha⟩, h8, h9, h10, h11⟩
    exact ⟨⟨h1, h2⟩, h3, h4, ⟨h5, h6⟩, h7, ⟨h8, h9⟩, ⟨tb, hb, (bboChecked_iff hb).1 h10⟩, ⟨ta, ha, (bboChecked_iff ha).1 h11⟩⟩
  · rintro ⟨⟨h1, h2⟩, h3, h4, ⟨h5, h6⟩, h7, ⟨h8, h9⟩, ⟨tb, hb, h10⟩, ⟨ta, ha, h11⟩⟩
    exact ⟨h1, h2, h3, h4, h5, h6, h7, ⟨tb, hb⟩, ⟨ta, ha⟩, h8, h9, (bboChecked_iff hb).2 h10, (bboChecked_iff ha).2 h11⟩

end OrderBookVerifier

end TradeCore
