import TradeCore.Lib.RoundRobin
import TradeCore.Lockfree.MpscQueue
import TradeCore.Lockfree.SpscProofs
/-!
# Delivery and bounded waiting of the MPSC queue

A call of `push` or `pop` is a run of the two-thread queue in which the other thread does nothing (`trace_push`,
`trace_pop`), so each of the `N` queues keeps what holds of that queue under every interleaving. `QueueHist` is that,
between two calls. Delivery is then per producer; waiting is bounded by the places that the poll index has to pass
(`RoundRobin.ahead`).
-/

namespace TradeCore

open RoundRobin

variable {T : Type} {cap : QueueCapacity}

/-! ## Calls as runs -/

namespace SPSCQueue

variable {q : SPSCQueue T} {trace : List (QueueEvent T)}

/-- What a call adds to a trace: its item, or nothing. Both threads are idle again. -/
structure Called (cap : QueueCapacity) (trace : List (QueueEvent T)) (pushed popped : List T) (q' : SPSCQueue T) : Prop where
  trace : ∃ es, (system cap T).Trace (trace ++ es) q' ∧ pushedItems es = pushed ∧ poppedItems es = popped
  producer : q'.producer.point = .idle
  consumer : q'.consumer.point = .idle

theorem trace_push (h : (system cap T).Trace trace q) (hp : q.producer.point = .idle) (hc : q.consumer.point = .idle)
    (item : T) : Called cap trace (if (q.push cap item).1 then [item] else []) [] (q.push cap item).2 := by
  obtain ⟨⟨tail, headCached, point⟩, ⟨head, tailCached, point'⟩, buffer⟩ := q
  obtain rfl : point = .idle := hp
  obtain rfl : point' = .idle := hc
  have hload := h.step (.push item rfl)
  -- the write and the store, whatever the cached counter is
  have hstore : ∀ {trace : List (QueueEvent T)} {headCached : UInt64}, (system cap T).Trace trace
      ⟨⟨tail, headCached, .write item tail⟩, ⟨head, tailCached, .idle⟩, buffer⟩ →
      (system cap T).Trace (trace ++ [.internal] ++ [.pushed item])
        ⟨⟨tail + 1, headCached, .idle⟩, ⟨head, tailCached, .idle⟩, Function.update buffer (cap.slot tail) item⟩ :=
    fun h => (h.step (.pushing rfl)).step (.pushing rfl)
  unfold push
  by_cases hfull : tail + 1 - headCached > cap.size
  · have hreload := hload.step (.pushing (show _ = some (.internal, ⟨⟨tail, headCached, .loadHead item tail⟩,
      ⟨head, tailCached, .idle⟩, buffer⟩) from if_pos hfull))
    simp only [if_pos hfull]
    by_cases hfull' : tail + 1 - head > cap.size
    · have hret := hreload.step (.pushing (show _ = some (.pushFull, ⟨⟨tail, head, .idle⟩, ⟨head, tailCached, .idle⟩,
        buffer⟩) from if_pos hfull'))
      simp only [if_pos hfull']
      rw [List.append_assoc, List.append_assoc] at hret
      exact ⟨⟨_, hret, rfl, rfl⟩, rfl, rfl⟩
    · have hwrite := hreload.step (.pushing (show _ = some (.internal, ⟨⟨tail, head, .write item tail⟩,
        ⟨head, tailCached, .idle⟩, buffer⟩) from if_neg hfull'))
      have hret := hstore hwrite
      simp only [if_neg hfull']
      simp only [List.append_assoc] at hret
      exact ⟨⟨_, hret, rfl, rfl⟩, rfl, rfl⟩
  · have hwrite := hload.step (.pushing (show _ = some (.internal, ⟨⟨tail, headCached, .write item tail⟩,
      ⟨head, tailCached, .idle⟩, buffer⟩) from if_neg hfull))
    have hret := hstore hwrite
    simp only [if_neg hfull]
    simp only [List.append_assoc] at hret
    exact ⟨⟨_, hret, rfl, rfl⟩, rfl, rfl⟩

theorem trace_pop (h : (system cap T).Trace trace q) (hp : q.producer.point = .idle) (hc : q.consumer.point = .idle)
    (left : T) : Called cap trace [] (q.pop cap left).1.toList (q.pop cap left).2 := by
  obtain ⟨⟨tail, headCached, point⟩, ⟨head, tailCached, point'⟩, buffer⟩ := q
  obtain rfl : point = .idle := hp
  obtain rfl : point' = .idle := hc
  have hload := h.step (.pop rfl)
  -- the read and the store, whatever the cached counter is
  have htake : ∀ {trace : List (QueueEvent T)} {tailCached : UInt64}, (system cap T).Trace trace
      ⟨⟨tail, headCached, .idle⟩, ⟨head, tailCached, .read head⟩, buffer⟩ →
      (system cap T).Trace (trace ++ [.internal] ++ [.popped (buffer (cap.slot head))])
        ⟨⟨tail, headCached, .idle⟩, ⟨head + 1, tailCached, .idle⟩, Function.update buffer (cap.slot head) left⟩ :=
    fun h => (h.step (.popping left rfl)).step (.popping left rfl)
  unfold pop
  by_cases hempty : head = tailCached
  · have hreload := hload.step (.popping left (show _ = some (.internal, ⟨⟨tail, headCached, .idle⟩,
      ⟨head, tailCached, .loadTail head⟩, buffer⟩) from if_pos hempty))
    simp only [if_pos hempty]
    by_cases hempty' : head = tail
    · have hret := hreload.step (.popping left (show _ = some (.popEmpty, ⟨⟨tail, headCached, .idle⟩, ⟨head, tail, .idle⟩,
        buffer⟩) from if_pos hempty'))
      simp only [if_pos hempty']
      rw [List.append_assoc, List.append_assoc] at hret
      exact ⟨⟨_, hret, rfl, rfl⟩, rfl, rfl⟩
    · have hread := hreload.step (.popping left (show _ = some (.internal, ⟨⟨tail, headCached, .idle⟩,
        ⟨head, tail, .read head⟩, buffer⟩) from if_neg hempty'))
      have hret := htake hread
      simp only [if_neg hempty']
      simp only [List.append_assoc] at hret
      exact ⟨⟨_, hret, rfl, rfl⟩, rfl, rfl⟩
  · have hread := hload.step (.popping left (show _ = some (.internal, ⟨⟨tail, headCached, .idle⟩,
      ⟨head, tailCached, .read head⟩, buffer⟩) from if_neg hempty))
    have hret := htake hread
    simp only [if_neg hempty]
    simp only [List.append_assoc] at hret
    exact ⟨⟨_, hret, rfl, rfl⟩, rfl, rfl⟩

end SPSCQueue

/-! ## One queue between calls -/

/-- What went into a queue and came out of it so far; no call is under way. -/
structure QueueHist (cap : QueueCapacity) (pushed popped : List T) (q : SPSCQueue T) : Prop where
  trace : ∃ trace, (SPSCQueue.system cap T).Trace trace q ∧ pushedItems trace = pushed ∧ poppedItems trace = popped
  producer : q.producer.point = .idle
  consumer : q.consumer.point = .idle

namespace QueueHist

variable {pushed popped : List T} {q q' : SPSCQueue T} {item left : T}

theorem new (cap : QueueCapacity) (init : T) : QueueHist cap [] [] (SPSCQueue.new init) :=
  ⟨⟨[], .init ⟨init, rfl⟩, rfl, rfl⟩, rfl, rfl⟩

theorem inv (h : QueueHist cap pushed popped q) : ∃ hc tc, QueueInv cap pushed popped hc tc q := by
  obtain ⟨trace, htrace, rfl, rfl⟩ := h.trace
  exact queueInv_trace htrace

theorem inOrder (h : QueueHist cap pushed popped q) : popped <+: pushed := by
  obtain ⟨hc, tc, hq⟩ := h.inv
  exact hq.inOrder

/-- The histories after a call. -/
theorem called {trace : List (QueueEvent T)} {xs ys : List T} (hpushed : pushedItems trace = pushed)
    (hpopped : poppedItems trace = popped) (h : SPSCQueue.Called cap trace xs ys q') : QueueHist cap (pushed ++ xs) (popped ++ ys) q' := by
  obtain ⟨es, hes, hxs, hys⟩ := h.trace
  refine ⟨⟨trace ++ es, hes, ?_, ?_⟩, h.producer, h.consumer⟩
  · rw [← hpushed, ← hxs]
    exact List.filterMap_append
  · rw [← hpopped, ← hys]
    exact List.filterMap_append

theorem push (h : QueueHist cap pushed popped q) (item : T) :
    QueueHist cap (pushed ++ if (q.push cap item).1 then [item] else []) popped (q.push cap item).2 := by
  obtain ⟨trace, htrace, hpushed, hpopped⟩ := h.trace
  have hcalled := called hpushed hpopped (SPSCQueue.trace_push htrace h.producer h.consumer item)
  rwa [List.append_nil] at hcalled

theorem pop (h : QueueHist cap pushed popped q) (left : T) :
    QueueHist cap pushed (popped ++ (q.pop cap left).1.toList) (q.pop cap left).2 := by
  obtain ⟨trace, htrace, hpushed, hpopped⟩ := h.trace
  have hcalled := called hpushed hpopped (SPSCQueue.trace_pop htrace h.producer h.consumer left)
  rwa [List.append_nil] at hcalled

/-- **`pop` fails on an empty queue only.** -/
theorem pop_none (h : QueueHist cap pushed popped q) (hpop : (q.pop cap left).1 = none) : popped = pushed := by
  have hmeet : q.consumer.head = q.producer.tail := by
    unfold SPSCQueue.pop at hpop
    by_cases hempty : q.consumer.head = q.consumer.tailCached
    · simp only [if_pos hempty] at hpop
      by_contra htail
      rw [if_neg htail] at hpop
      cases hpop
    · simp only [if_neg hempty] at hpop
      cases hpop
  obtain ⟨hc, tc, hq⟩ := h.inv
  have hlt := cap.two_pow_log_lt
  have hroom := hq.room
  have hle := hq.hc_le
  rw [hq.head, hq.tail] at hmeet
  exact hq.inOrder.eq_of_length (RingBuffer.eq_of_ofNat_eq hmeet hq.inOrder.length_le (by omega))

end QueueHist

/-! ## All queues between calls -/

variable {count : ProducerCount} {trace : List (MpscEvent T count)} {q q' : MPSCQueue T count} {ev : MpscEvent T count}

/-- The state after these calls. -/
structure MpscHist (cap : QueueCapacity) (trace : List (MpscEvent T count)) (q : MPSCQueue T count) : Prop where
  next : q.nextPollIdx < count.size
  queues : ∀ i, QueueHist cap (pushedBy i trace) (poppedFrom i trace) (q.queues i)

/-- What came out of queue `j`. -/
def itemsOf (j : Fin count.size) : Option (Fin count.size × T) → List T
  | none => []
  | some (i, item) => if i = j then [item] else []

/-- One poll after the other: `k` turns from the `i`-th on, of queues with these histories. -/
structure Polled (cap : QueueCapacity) (pushed popped : Fin count.size → List T) (next i k : ℕ)
    (result : Option (Fin count.size × T)) (q' : MPSCQueue T count) : Prop where
  /-- Every queue keeps its history, but for the item that came out. -/
  queues : ∀ j, QueueHist cap (pushed j) (popped j ++ itemsOf j result) (q'.queues j)
  failed : result = none → q'.nextPollIdx = next ∧ ∀ m, i ≤ m → m < i + k → popped (count.wrap (next + m)) = pushed (count.wrap (next + m))
  served : ∀ served, result = some served → ∃ m, i ≤ m ∧ served.1 = count.wrap (next + m) ∧
    q'.nextPollIdx = (served.1 + 1) % count.size ∧ ∀ m', i ≤ m' → m' < m → popped (count.wrap (next + m')) = pushed (count.wrap (next + m'))

namespace MPSCQueue

/-- **The loop of `pop`.** -/
theorem popLoop_polled {pushed popped : Fin count.size → List T} (left : T) {k i : ℕ} {q : MPSCQueue T count}
    (h : ∀ j, QueueHist cap (pushed j) (popped j) (q.queues j)) :
    Polled cap pushed popped q.nextPollIdx i k (q.popLoop cap left k i).1 (q.popLoop cap left k i).2 := by
  induction k generalizing i q with
  | zero =>
    refine ⟨fun j => ?_, fun _ => ⟨rfl, fun m hm hlt => absurd hlt (by omega)⟩, nofun⟩
    have := h j
    rwa [← List.append_nil (popped j)] at this
  | succ k ih =>
    obtain ⟨idx, hidx⟩ : ∃ idx, idx = count.wrap (q.nextPollIdx + i) := ⟨_, rfl⟩
    have hpop := (h idx).pop left
    unfold popLoop
    simp only [← hidx]
    rcases hres : (q.queues idx).pop cap left with ⟨_ | item, queue⟩
    · -- an empty queue: on to the next turn
      have hempty : popped idx = pushed idx := (h idx).pop_none (by rw [hres])
      rw [hres] at hpop
      simp only at hpop ⊢
      have hrest := ih (i := i + 1) (q := { q with queues := Function.update q.queues idx queue }) fun j => by
        by_cases hj : j = idx
        · rw [hj]
          simp only [Function.update_self]
          rwa [Option.toList_none, List.append_nil] at hpop
        · simp only [Function.update_of_ne hj]
          exact h j
      refine ⟨hrest.queues, fun hnone => ?_, fun served hserved => ?_⟩
      · obtain ⟨hnext, hall⟩ := hrest.failed hnone
        refine ⟨hnext, fun m hm hlt => ?_⟩
        rcases Nat.eq_or_lt_of_le hm with rfl | hm
        · rw [← hidx, hempty]
        · exact hall m hm (by omega)
      · obtain ⟨m, hm, hat, hnext, hall⟩ := hrest.served served hserved
        refine ⟨m, by omega, hat, hnext, fun m' hm' hlt => ?_⟩
        rcases Nat.eq_or_lt_of_le hm' with rfl | hm'
        · rw [← hidx, hempty]
        · exact hall m' hm' hlt
    · rw [hres] at hpop
      simp only at hpop ⊢
      refine ⟨fun j => ?_, nofun, ?_⟩
      · by_cases hj : j = idx
        · rw [hj]
          simp only [itemsOf, if_true, Function.update_self]
          exact hpop
        · simp only [itemsOf, if_neg fun e : idx = j => hj e.symm, List.append_nil, Function.update_of_ne hj]
          exact h j
      · rintro served hserved
        cases hserved
        exact ⟨i, Nat.le_refl _, hidx, rfl, fun m' hm' hlt => absurd hlt (by omega)⟩

theorem push_eq (q : MPSCQueue T count) (i : Fin count.size) (item : T) : q.push cap i item =
    pure (((q.queues i).push cap item).1, { q with queues := Function.update q.queues i ((q.queues i).push cap item).2 }) := by
  unfold push
  simp only [i.isLt, decide_true, tradecoreAssert_true, pure_bind, dif_pos]

/-- `push` leaves the poll index alone. -/
theorem nextPollIdx_of_push {q q' : MPSCQueue T count} {i : Fin count.size} {item : T} {pushed : Bool} {b : Build}
    (h : q.push cap i item b = .ok (pushed, q')) : q'.nextPollIdx = q.nextPollIdx := by
  rw [push_eq, Exec.pure_apply] at h
  cases h
  rfl

end MPSCQueue

/-! ## Runs of calls -/

theorem pushedBy_append (i : Fin count.size) (trace more : List (MpscEvent T count)) :
    pushedBy i (trace ++ more) = pushedBy i trace ++ pushedBy i more := List.filterMap_append

theorem poppedFrom_append (i : Fin count.size) (trace more : List (MpscEvent T count)) :
    poppedFrom i (trace ++ more) = poppedFrom i trace ++ poppedFrom i more := List.filterMap_append

theorem mpscHist_new (cap : QueueCapacity) (init : Fin count.size → T) : MpscHist cap [] (MPSCQueue.new init) :=
  ⟨count.pos, fun i => QueueHist.new cap (init i)⟩

theorem MpscHist.polled (h : MpscHist cap trace q) (left : T) :
    Polled cap (fun i => pushedBy i trace) (fun i => poppedFrom i trace) q.nextPollIdx 0 count.size (q.pop cap left).1
      (q.pop cap left).2 := MPSCQueue.popLoop_polled left h.queues

/-- A call of `push` keeps the histories, with the item it took. -/
theorem MpscHist.push (h : MpscHist cap trace q) {i : Fin count.size} {item : T} {pushed : Bool} {b : Build}
    (hrun : q.push cap i item b = .ok (pushed, q')) (hpushed : ∀ j, pushedBy j [ev] = if i = j ∧ pushed then [item] else [])
    (hpopped : ∀ j, poppedFrom j [ev] = []) : MpscHist cap (trace ++ [ev]) q' := by
  rw [MPSCQueue.push_eq, Exec.pure_apply] at hrun
  cases hrun
  refine ⟨h.next, fun j => ?_⟩
  rw [pushedBy_append, poppedFrom_append, hpushed, hpopped, List.append_nil]
  by_cases hj : j = i
  · rw [hj]
    simp only [Function.update_self, true_and]
    exact (h.queues i).push item
  · rw [if_neg fun e => hj e.1.symm, List.append_nil]
    simp only [Function.update_of_ne hj]
    exact h.queues j

/-- **One call.** -/
theorem MpscHist.step (h : MpscHist cap trace q) (hstep : MPSCQueue.Step cap q ev q') : MpscHist cap (trace ++ [ev]) q' := by
  cases hstep with
  | @pushed _ i item b hrun =>
    refine h.push hrun (fun j => ?_) fun j => rfl
    by_cases hj : i = j <;> simp [pushedBy, hj]
  | @pushFull _ i item b hrun => exact h.push hrun (fun j => by simp [pushedBy]) fun j => rfl
  | @popped _ i item left hrun =>
    have hp := h.polled left
    rw [hrun] at hp
    obtain ⟨m, -, -, hnext, -⟩ := hp.served _ rfl
    refine ⟨?_, fun j => ?_⟩
    · rw [hnext]
      exact Nat.mod_lt _ count.pos
    · have hj := hp.queues j
      rw [pushedBy_append, poppedFrom_append]
      have hpush : pushedBy j [MpscEvent.popped i item] = [] := rfl
      have hpop : poppedFrom j [MpscEvent.popped i item] = itemsOf j (some (i, item)) := by
        by_cases e : i = j <;> simp [poppedFrom, itemsOf, e]
      rw [hpush, List.append_nil, hpop]
      exact hj
  | popEmpty left hrun =>
    have hp := h.polled left
    rw [hrun] at hp
    refine ⟨(hp.failed rfl).1 ▸ h.next, fun j => ?_⟩
    have hj := hp.queues j
    have hpush : pushedBy j [(MpscEvent.popEmpty : MpscEvent T count)] = [] := rfl
    rw [pushedBy_append, poppedFrom_append, hpush, List.append_nil]
    exact hj

theorem mpscHist_trace (h : (MPSCQueue.system cap T count).Trace trace q) : MpscHist cap trace q := by
  refine h.invariant (MpscHist cap) ?_ fun _ _ _ _ hist hstep => hist.step hstep
  rintro _ ⟨init, rfl⟩
  exact mpscHist_new cap init

/-! ## Waiting -/

/-- A failed `pop` found every queue empty. -/
theorem MpscHist.pop_none (h : MpscHist cap trace q) {left : T} (hpop : q.pop cap left = (none, q')) (i : Fin count.size) :
    poppedFrom i trace = pushedBy i trace := by
  have hp := h.polled left
  rw [hpop] at hp
  have hat : count.wrap (q.nextPollIdx + ahead count.size q.nextPollIdx i) = i := Fin.ext (add_ahead_mod h.next i.isLt)
  have hlt := ahead_lt h.next i.isLt
  have hi := (hp.failed rfl).2 _ (Nat.zero_le _) (Nat.lt_of_lt_of_le hlt (Nat.le_add_left _ _))
  rwa [hat] at hi

/-- **A pop that serves another producer brings the poll index nearer** to one whose queue has items. -/
theorem MpscHist.nearer (h : MpscHist cap trace q) {i j : Fin count.size} {item : T}
    (hstep : MPSCQueue.Step cap q (.popped i item) q') (hj : poppedFrom j trace ≠ pushedBy j trace) (hij : i ≠ j) :
    ahead count.size q'.nextPollIdx j + 1 ≤ ahead count.size q.nextPollIdx j := by
  cases hstep with
  | popped left hrun =>
    have hp := h.polled left
    rw [hrun] at hp
    obtain ⟨m, -, hat, hnext, hempty⟩ := hp.served _ rfl
    have hreach : count.wrap (q.nextPollIdx + ahead count.size q.nextPollIdx j) = j := Fin.ext (add_ahead_mod h.next j.isLt)
    -- the polling stopped before it came to `j`
    have hm : m < ahead count.size q.nextPollIdx j := by
      rcases Nat.lt_trichotomy m (ahead count.size q.nextPollIdx j) with hlt | heq | hgt
      · exact hlt
      · rw [← heq, ← hat] at hreach
        exact absurd hreach hij
      · have := hempty _ (Nat.zero_le _) hgt
        rw [hreach] at this
        exact absurd this hj
    have hadvance := ahead_advance h.next j.isLt hm
    have hi : (q.nextPollIdx + m) % count.size = i := congrArg Fin.val hat.symm
    have hnext' : q'.nextPollIdx = ((i : ℕ) + 1) % count.size := hnext
    rw [hi, ← hnext'] at hadvance
    omega

/-- **One call that does not serve `j`**: its items stay, and a successful `pop` brings the poll index nearer to it. -/
theorem MpscHist.waits (h : MpscHist cap trace q) {j : Fin count.size} (hj : poppedFrom j trace ≠ pushedBy j trace)
    (hstep : MPSCQueue.Step cap q ev q') (hnot : ∀ item, ev ≠ .popped j item) :
    poppedFrom j (trace ++ [ev]) ≠ pushedBy j (trace ++ [ev]) ∧
      ahead count.size q'.nextPollIdx j + popCount [ev] ≤ ahead count.size q.nextPollIdx j := by
  have hpop : poppedFrom j [ev] = [] := by
    cases ev with
    | popped i item =>
      have hij : i ≠ j := by
        rintro rfl
        exact hnot item rfl
      simp [poppedFrom, hij]
    | _ => rfl
  refine ⟨fun e => ?_, ?_⟩
  · have hfirst := (h.queues j).inOrder
    have hlt : (poppedFrom j trace).length < (pushedBy j trace).length :=
      Nat.lt_of_le_of_ne hfirst.length_le fun e => hj (hfirst.eq_of_length e)
    have hlen := congrArg List.length e
    rw [pushedBy_append, poppedFrom_append, hpop, List.append_nil, List.length_append] at hlen
    omega
  · cases hstep with
    | pushed hpush => exact Nat.le_of_eq (by rw [MPSCQueue.nextPollIdx_of_push hpush]; rfl)
    | pushFull hpush => exact Nat.le_of_eq (by rw [MPSCQueue.nextPollIdx_of_push hpush]; rfl)
    | popped left hserved => exact h.nearer (.popped left hserved) hj fun e => hnot _ (congrArg (MpscEvent.popped · _) e)
    | popEmpty left hnone => exact absurd (h.pop_none hnone j) hj

/-- Each successful `pop` of a run that does not serve `j` brings the poll index nearer to it. -/
theorem MpscHist.waiting (h : MpscHist cap trace q) {j : Fin count.size} (hj : poppedFrom j trace ≠ pushedBy j trace)
    {more : List (MpscEvent T count)} (hrun : (MPSCQueue.system cap T count).Run q more q')
    (hnot : ∀ item, MpscEvent.popped j item ∉ more) :
    MpscHist cap (trace ++ more) q' ∧ poppedFrom j (trace ++ more) ≠ pushedBy j (trace ++ more) ∧
      ahead count.size q'.nextPollIdx j + popCount more ≤ ahead count.size q.nextPollIdx j := by
  induction hrun with
  | refl => exact ⟨by rwa [List.append_nil], by rwa [List.append_nil], Nat.le_refl _⟩
  | @step q1 q2 more ev _ hstep ih =>
    obtain ⟨hist, hne, hle⟩ := ih fun item hm => hnot item (List.mem_append_left _ hm)
    obtain ⟨hne', hle'⟩ := hist.waits hne hstep fun item e => hnot item (by simp [e])
    have hcount : popCount (more ++ [ev]) = popCount more + popCount [ev] := List.countP_append
    refine ⟨?_, ?_, by omega⟩
    · rw [← List.append_assoc]
      exact hist.step hstep
    · rwa [← List.append_assoc]

/-- **Delivery and bounded waiting**, under every interleaving of the calls of any number of producers and the consumer.
The items of each producer come out in order; `pop` fails only when all queues are empty; and a producer whose queue
has items is served within the next `NumProducers` successful pops. -/
theorem mpsc_delivery (h : (MPSCQueue.system cap T count).Trace trace q) :
    (∀ i, poppedFrom i trace <+: pushedBy i trace) ∧
      (∀ left q', q.pop cap left = (none, q') → ∀ i, poppedFrom i trace = pushedBy i trace) ∧
      ∀ j, poppedFrom j trace ≠ pushedBy j trace → ∀ more q', (MPSCQueue.system cap T count).Run q more q' →
        count.size ≤ popCount more → ∃ item, MpscEvent.popped j item ∈ more := by
  have hist := mpscHist_trace h
  refine ⟨fun i => (hist.queues i).inOrder, fun left q' hpop => hist.pop_none hpop, fun j hj more q' hrun hmany => ?_⟩
  by_contra hnot
  obtain ⟨-, -, hle⟩ := hist.waiting hj hrun fun item hm => hnot ⟨item, hm⟩
  have := ahead_lt hist.next j.isLt
  omega

/-- Producer 1 of two waits while producer 0 is served. -/
theorem mpsc_delivery_two : ∃ (trace : List (MpscEvent ℕ ⟨2, by decide⟩)) (q : MPSCQueue ℕ ⟨2, by decide⟩),
    (MPSCQueue.system oneSlot ℕ ⟨2, by decide⟩).Trace trace q ∧ pushedBy 0 trace = [7] ∧ pushedBy 1 trace = [8] ∧
      ∀ more q', (MPSCQueue.system oneSlot ℕ ⟨2, by decide⟩).Run q more q' → 2 ≤ popCount more →
        ∃ item, MpscEvent.popped 1 item ∈ more := by
  have h0 : (MPSCQueue.system oneSlot ℕ ⟨2, by decide⟩).Trace [] (.new fun _ => 0) := .init ⟨_, rfl⟩
  have h1 := h0.step (show MPSCQueue.Step oneSlot _ (.pushed 0 7) _ from .pushed (b := .debug) rfl)
  have h2 := h1.step (show MPSCQueue.Step oneSlot _ (.pushed 1 8) _ from .pushed (b := .debug) rfl)
  exact ⟨_, _, h2, rfl, rfl, (mpsc_delivery h2).2.2 1 (by decide)⟩

end TradeCore
