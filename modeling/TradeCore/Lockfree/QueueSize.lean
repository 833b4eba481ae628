import TradeCore.Lockfree.SpscProofs
/-!
# `SPSCQueue::size` and `empty` (`lockfree/spsc_queue.hpp:77`)

`size` loads `tail`, then `head`, and subtracts. Any thread may call it, and the producer and the consumer go on
between the two loads. The tail is an old one by then: a consumer that has popped more than was pushed before the
first load has overtaken it, and the difference wraps. The two threads of the queue cannot overtake themselves.
-/

namespace TradeCore

/-- Where a thread is in `size`: in front of the load of `tail`, or of `head`. -/
inductive SizePoint where
  | loadTail
  | loadHead (t : UInt64)
deriving DecidableEq, Repr

/-- A queue, and a thread that calls `size` over and over. -/
structure WatchedQueue (T : Type) where
  queue : SPSCQueue T
  point : SizePoint

/-- A step of the producer or the consumer, or one of the two loads of `size`; it returns at the second. -/
inductive WatchEvent (T : Type) where
  | moved (e : QueueEvent T)
  | tailLoaded
  | returned (size : UInt64)
deriving DecidableEq, Repr

namespace SPSCQueue

variable {T : Type}

/-- The next step of a thread inside `size`. -/
def sizeStep (q : SPSCQueue T) : SizePoint → WatchEvent T × SizePoint
  | .loadTail => (.tailLoaded, .loadHead q.producer.tail)
  | .loadHead t =>
    let h := q.consumer.head
    (.returned (t - h), .loadTail)

/-- `empty()`, from what `size()` returned. -/
def empty (size : UInt64) : Bool := size == 0

end SPSCQueue

namespace WatchedQueue

variable {T : Type} (cap : QueueCapacity)

inductive Step : WatchedQueue T → WatchEvent T → WatchedQueue T → Prop where
  | move {w : WatchedQueue T} {e : QueueEvent T} {q' : SPSCQueue T} :
    SPSCQueue.Step cap w.queue e q' → Step w (.moved e) { w with queue := q' }
  | watch {w : WatchedQueue T} : Step w (w.queue.sizeStep w.point).1 { w with point := (w.queue.sizeStep w.point).2 }

/-- Any interleaving of the two threads and the one that calls `size`, from an empty queue. -/
def system (T : Type) : TransitionSystem (WatchedQueue T) (WatchEvent T) where
  init w := (∃ init, w.queue = .new init) ∧ w.point = .loadTail
  step := Step cap

end WatchedQueue

variable {T : Type} {cap : QueueCapacity}

/-- The steps of the queue's own threads. -/
def moves (trace : List (WatchEvent T)) : List (QueueEvent T) :=
  trace.filterMap fun
    | .moved e => some e
    | _ => none

/-- How many items were pushed, and how many popped. -/
def pushes (trace : List (WatchEvent T)) : ℕ := (pushedItems (moves trace)).length

def pops (trace : List (WatchEvent T)) : ℕ := (poppedItems (moves trace)).length

/-- The queue is empty from one point of a run on and during all that follows. -/
def EmptyThroughout (before during : List (WatchEvent T)) : Prop :=
  ∀ sofar, sofar <+: during → pushes (before ++ sofar) = pops (before ++ sofar)

/-- **The consumer overtook the loaded tail**: at the second load more items are popped than were pushed at the
first (and not so many more that the counters came around again). -/
def Overtaken (cap : QueueCapacity) (before during : List (WatchEvent T)) : Prop :=
  let ahead := (pops (before ++ during) - pushes before) % 2 ^ 64
  0 < ahead ∧ ahead < 2 ^ 64 - 2 ^ cap.log

instance (cap : QueueCapacity) (before during : List (WatchEvent T)) : Decidable (Overtaken cap before during) :=
  inferInstanceAs (Decidable (_ ∧ _))

variable {w : WatchedQueue T} {trace before during : List (WatchEvent T)}

/-! ## What a run has done -/

theorem moves_concat (trace : List (WatchEvent T)) (e : WatchEvent T) : moves (trace ++ [e]) = moves trace ++ moves [e] :=
  List.filterMap_append

theorem pushes_append (l l' : List (WatchEvent T)) : pushes (l ++ l') = pushes l + pushes l' := by
  simp [pushes, moves, pushedItems]

theorem pops_append (l l' : List (WatchEvent T)) : pops (l ++ l') = pops l + pops l' := by
  simp [pops, moves, poppedItems]

/-- The queue's own threads do not see the watching one. -/
theorem WatchedQueue.trace_queue (h : (WatchedQueue.system cap T).Trace trace w) :
    (SPSCQueue.system cap T).Trace (moves trace) w.queue := by
  refine h.invariant (fun trace w => (SPSCQueue.system cap T).Trace (moves trace) w.queue) ?_ ?_
  · rintro w ⟨hinit, -⟩
    exact .init hinit
  · intro trace w e w' hrun hstep
    rw [moves_concat]
    cases hstep with
    | move hmove => exact hrun.step hmove
    | watch =>
      have hload : moves [(w.queue.sizeStep w.point).1] = [] := by
        cases w.point <;> rfl
      rw [hload, List.append_nil]
      exact hrun

/-- **The counters** are the numbers of items pushed and popped. -/
theorem WatchedQueue.counters (h : (WatchedQueue.system cap T).Trace trace w) :
    w.queue.producer.tail = UInt64.ofNat (pushes trace) ∧ w.queue.consumer.head = UInt64.ofNat (pops trace) ∧
      pops trace ≤ pushes trace ∧ pushes trace ≤ pops trace + 2 ^ cap.log := by
  obtain ⟨hc, tc, hq⟩ := queueInv_trace (WatchedQueue.trace_queue h)
  have hle := hq.hc_le
  have hroom := hq.room
  refine ⟨hq.tail, hq.head, hq.inOrder.length_le, ?_⟩
  unfold pushes pops
  omega

/-! ## Inside a call -/

/-- From the first load on the thread holds the tail it loaded. -/
theorem WatchedQueue.holds_tail (hmoves : ∀ e ∈ during, ∃ m, e = .moved m)
    (h : (WatchedQueue.system cap T).Trace (before ++ .tailLoaded :: during) w) :
    w.point = .loadHead (UInt64.ofNat (pushes before)) := by
  induction during using List.reverseRecOn generalizing w with
  | nil =>
    obtain ⟨w0, hbefore, hload⟩ := h.last_step
    obtain ⟨htail, -⟩ := WatchedQueue.counters hbefore
    generalize he : (WatchEvent.tailLoaded : WatchEvent T) = e at hload
    cases hload with
    | move => cases he
    | watch =>
      cases hp : w0.point with
      | loadTail => simp [SPSCQueue.sizeStep, htail]
      | loadHead t => simp [SPSCQueue.sizeStep, hp] at he
  | append_singleton rest e ih =>
    obtain ⟨m, rfl⟩ := hmoves e (by simp)
    rw [← List.cons_append, ← List.append_assoc] at h
    obtain ⟨w0, hrest, hmove⟩ := h.last_step
    have hpoint := ih (fun e he => hmoves e (List.mem_append_left _ he)) hrest
    generalize he : WatchEvent.moved m = e at hmove
    cases hmove with
    | move => exact hpoint
    | watch => simp [SPSCQueue.sizeStep, hpoint] at he

/-- **What `size` returns**: the pushes before its first load less the pops before its second. -/
theorem size_returns {v : UInt64} (hmoves : ∀ e ∈ during, ∃ m, e = .moved m)
    (h : (WatchedQueue.system cap T).Trace (before ++ .tailLoaded :: during ++ [.returned v]) w) :
    v = UInt64.ofNat (pushes before) - UInt64.ofNat (pops (before ++ during)) := by
  obtain ⟨w0, hcall, hreturn⟩ := h.last_step
  have hpoint := WatchedQueue.holds_tail hmoves hcall
  obtain ⟨-, hhead, -⟩ := WatchedQueue.counters hcall
  have hpops : pops (before ++ .tailLoaded :: during) = pops (before ++ during) := by
    rw [pops_append, pops_append]
    rfl
  rw [hpops] at hhead
  generalize he : WatchEvent.returned v = e at hreturn
  cases hreturn with
  | move => cases he
  | watch =>
    rw [hpoint] at he
    simp only [SPSCQueue.sizeStep, hhead, WatchEvent.returned.injEq] at he
    exact he

/-! ## What the caller sees -/

/-- A step pushes or pops, not both. -/
theorem pushes_or_pops (e : WatchEvent T) : pushes [e] = 0 ∨ pops [e] = 0 := by
  cases e with
  | moved m =>
    cases m with
    | pushed item => exact Or.inr rfl
    | _ => exact Or.inl rfl
  | _ => exact Or.inl rfl

/-- A queue that stays empty is not used. -/
theorem EmptyThroughout.pushes_eq (h : EmptyThroughout before during) : pushes (before ++ during) = pushes before := by
  induction during using List.reverseRecOn with
  | nil => rw [List.append_nil]
  | append_singleton rest e ih =>
    have hrest : EmptyThroughout before rest := fun sofar hsofar => h sofar (hsofar.trans (List.prefix_append _ _))
    have hbefore := h rest (List.prefix_append _ _)
    have hafter := h (rest ++ [e]) (List.prefix_refl _)
    rw [← List.append_assoc, pushes_append, pops_append] at hafter
    rw [← List.append_assoc, pushes_append, ih hrest]
    have hone := pushes_or_pops e
    omega

/-- **An empty queue is reported as empty.** -/
theorem empty_of_emptyThroughout {v : UInt64} (hmoves : ∀ e ∈ during, ∃ m, e = .moved m)
    (h : (WatchedQueue.system cap T).Trace (before ++ .tailLoaded :: during ++ [.returned v]) w)
    (hempty : EmptyThroughout before during) : SPSCQueue.empty v = true := by
  have hsame := hempty during (List.prefix_refl _)
  rw [hempty.pushes_eq] at hsame
  rw [size_returns hmoves h, ← hsame, UInt64.sub_self]
  rfl

/-- **A size is sane exactly when** the consumer did not overtake the loaded tail. -/
theorem size_sane_iff {v : UInt64} (hmoves : ∀ e ∈ during, ∃ m, e = .moved m)
    (h : (WatchedQueue.system cap T).Trace (before ++ .tailLoaded :: during ++ [.returned v]) w) :
    (v ≤ cap.size ∧ (EmptyThroughout before during → SPSCQueue.empty v = true)) ↔ ¬Overtaken cap before during := by
  rw [and_iff_left (empty_of_emptyThroughout hmoves h), size_returns hmoves h, UInt64.le_iff_toNat_le, cap.toNat_size]
  obtain ⟨w0, hcall⟩ := (List.append_assoc before _ _ ▸ h).of_append
  obtain ⟨-, -, hle, hroom⟩ := WatchedQueue.counters hcall
  have hcap := cap.two_pow_log_lt
  have hpops := pops_append before during
  unfold Overtaken
  rcases Nat.le_total (pops (before ++ during)) (pushes before) with hbehind | hahead
  · rw [RingBuffer.toNat_sub_ofNat hbehind (by omega), Nat.sub_eq_zero_of_le hbehind]
    simp only [Nat.zero_mod, Nat.lt_irrefl, false_and, not_false_iff, iff_true]
    omega
  · rw [RingBuffer.toNat_ofNat_sub hahead]
    dsimp only
    omega

/-- A push and a pop between the two loads of `size`, on a queue of one slot. -/
def pushAndPop : List (WatchEvent ℕ) :=
  [.internal, .internal, .internal, .pushed 7, .internal, .internal, .internal, .internal, .popped 7].map .moved

theorem pushAndPop_run : ∃ w, (WatchedQueue.system oneSlot ℕ).Trace (.tailLoaded :: pushAndPop ++ [.returned (0 - 1)]) w := by
  have h0 : (WatchedQueue.system oneSlot ℕ).Trace [] ⟨.new 0, .loadTail⟩ := .init ⟨⟨0, rfl⟩, rfl⟩
  have h1 := h0.step .watch
  have h2 := h1.step (.move (.push 7 rfl))
  have h3 := h2.step (.move (.pushing rfl))
  have h4 := h3.step (.move (.pushing rfl))
  have h5 := h4.step (.move (.pushing rfl))
  have h6 := h5.step (.move (.pop rfl))
  have h7 := h6.step (.move (.popping 0 rfl))
  have h8 := h7.step (.move (.popping 0 rfl))
  have h9 := h8.step (.move (.popping 0 rfl))
  have h10 := h9.step (.move (.popping 0 rfl))
  exact ⟨_, h10.step .watch⟩

theorem size_sane_iff_pushAndPop : ∃ w, (WatchedQueue.system oneSlot ℕ).Trace (.tailLoaded :: pushAndPop ++ [.returned (0 - 1)]) w ∧
    Overtaken oneSlot [] pushAndPop ∧
    ¬((0 - 1 : UInt64) ≤ oneSlot.size ∧ (EmptyThroughout [] pushAndPop → SPSCQueue.empty (0 - 1) = true)) := by
  obtain ⟨w, h⟩ := pushAndPop_run
  have hover : Overtaken oneSlot [] pushAndPop := by decide
  have hmoves : ∀ e ∈ pushAndPop, ∃ m, e = .moved m := by simp [pushAndPop]
  exact ⟨w, h, hover, fun hsane => (size_sane_iff (w := w) hmoves h).1 hsane hover⟩

/-- **A queue of one slot reports 2^64 - 1 items**: the consumer took the item that came after the first load. -/
theorem size_exceeds_capacity : ¬∀ (cap : QueueCapacity) (before during : List (WatchEvent ℕ)) (v : UInt64) (w : WatchedQueue ℕ),
    (WatchedQueue.system cap ℕ).Trace (before ++ .tailLoaded :: during ++ [.returned v]) w →
    (∀ e ∈ during, ∃ m, e = .moved m) → v ≤ cap.size ∧ (EmptyThroughout before during → SPSCQueue.empty v = true) := by
  intro hsane
  obtain ⟨w, h⟩ := pushAndPop_run
  obtain ⟨hle, -⟩ := hsane oneSlot [] pushAndPop _ w h (by simp [pushAndPop])
  revert hle
  decide

/-- The threads of the queue do not overtake themselves: one of them does nothing while it is inside `size`. -/
theorem not_overtaken_of_own (h : (WatchedQueue.system cap T).Trace (before ++ .tailLoaded :: during) w)
    (hown : pushes during = 0 ∨ pops during = 0) : ¬Overtaken cap before during := by
  obtain ⟨-, -, hle, -⟩ := WatchedQueue.counters h
  obtain ⟨w0, hcall⟩ := h.of_append
  obtain ⟨-, -, hle0, -⟩ := WatchedQueue.counters hcall
  rw [pushes_append, pops_append, ← List.singleton_append, pushes_append, pops_append,
    show pushes [(.tailLoaded : WatchEvent T)] = 0 from rfl, show pops [(.tailLoaded : WatchEvent T)] = 0 from rfl] at hle
  have hbehind : pops (before ++ during) ≤ pushes before := by
    rw [pops_append]
    omega
  unfold Overtaken
  rw [Nat.sub_eq_zero_of_le hbehind]
  simp

end TradeCore
