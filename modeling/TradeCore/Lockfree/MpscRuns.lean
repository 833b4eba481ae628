import TradeCore.Lockfree.MpscSteps
/-!
# The producers and the consumer under every interleaving

A run of `PolledQueues` is, for each queue, a run of `SPSCQueue` (`PolledQueues.queue_trace`): only its own producer
pushes to it, and the consumer is inside at most one queue, which `PollInv` names. So each queue holds what was pushed
to it and not popped.

The consumer's loop is not atomic, and a `pop` that returns `false` did not see the queues empty all at once: each of
them was empty when the loop was there.
-/

namespace TradeCore

open RingBuffer RoundRobin

variable {T : Type} {count : ProducerCount} {cap : QueueCapacity} {s s' : PolledQueues T count} {ev : PollEvent T count}
  {k : Fin count.size} {trace more : List (PollEvent T count)}

/-! ## What a step of one thread leaves alone -/

theorem SPSCQueue.pushStep_consumer {q q' : SPSCQueue T} {e : QueueEvent T} (h : q.pushStep cap = some (e, q')) :
    q'.consumer = q.consumer := by
  unfold SPSCQueue.pushStep at h
  cases hp : q.producer.point with
  | idle =>
    rw [hp] at h
    cases h
  | loadTail item =>
    rw [hp] at h
    dsimp only at h
    split_ifs at h <;> cases h <;> rfl
  | loadHead item currentTail =>
    rw [hp] at h
    dsimp only at h
    split_ifs at h <;> cases h <;> rfl
  | write item currentTail =>
    rw [hp] at h
    cases h
    rfl
  | storeTail item currentTail =>
    rw [hp] at h
    cases h
    rfl

theorem SPSCQueue.popStep_producer {q q' : SPSCQueue T} {left : T} {e : QueueEvent T} (h : q.popStep cap left = some (e, q')) :
    q'.producer = q.producer := by
  unfold SPSCQueue.popStep at h
  cases hp : q.consumer.point with
  | idle =>
    rw [hp] at h
    cases h
  | loadHead =>
    rw [hp] at h
    dsimp only at h
    split_ifs at h <;> cases h <;> rfl
  | loadTail currentHead =>
    rw [hp] at h
    dsimp only at h
    split_ifs at h <;> cases h <;> rfl
  | read currentHead =>
    rw [hp] at h
    cases h
    rfl
  | storeHead item currentHead =>
    rw [hp] at h
    cases h
    rfl

/-! ## What a step can do -/

/-- Where the loop goes on after a step inside the `pop` of a queue. -/
def PollPoint.after (i : ℕ) : QueueEvent T → PollPoint
  | .popped _ => .idle
  | .popEmpty => .turn (i + 1)
  | _ => .inside i

namespace PolledQueues

/-- What the poll index is after a step inside the `pop` of queue `k`. -/
def pollAfter (next : ℕ) (k : Fin count.size) : QueueEvent T → ℕ
  | .popped _ => (k + 1) % count.size
  | _ => next

theorem pollStep_turn {left : T} {i : ℕ} (hp : s.point = .turn i) (hi : i < count.size) :
    s.pollStep cap left = some (.consumer (s.idx i) .internal,
      { s.set (s.idx i) ((s.queues (s.idx i)).atPop .loadHead) with point := .inside i }) := by
  simp only [pollStep, hp, hi, if_true]

theorem pollStep_inside {left : T} {i : ℕ} {e : QueueEvent T} {queue : SPSCQueue T} (hp : s.point = .inside i)
    (hq : (s.queues (s.idx i)).popStep cap left = some (e, queue)) :
    s.pollStep cap left = some (.consumer (s.idx i) e,
      ⟨Function.update s.queues (s.idx i) queue, pollAfter s.nextPollIdx (s.idx i) e, .after i e⟩) := by
  simp only [pollStep, hp, hq]
  cases e with
  | popped item => rfl
  | popEmpty => rfl
  | _ => simp [set, pollAfter, PollPoint.after, hp]

/-- **A step of the consumer**, by where it is. -/
theorem pollStep_cases {left : T} (h : s.pollStep cap left = some (ev, s')) :
    (∃ i, s.point = .turn i ∧ i < count.size ∧ ev = .consumer (s.idx i) .internal ∧
      s' = ⟨Function.update s.queues (s.idx i) ((s.queues (s.idx i)).atPop .loadHead), s.nextPollIdx, .inside i⟩) ∨
    (∃ i, s.point = .turn i ∧ count.size ≤ i ∧ ev = .popEmpty ∧ s' = { s with point := .idle }) ∨
    ∃ i e queue, s.point = .inside i ∧ (s.queues (s.idx i)).popStep cap left = some (e, queue) ∧ ev = .consumer (s.idx i) e ∧
      s' = ⟨Function.update s.queues (s.idx i) queue, pollAfter s.nextPollIdx (s.idx i) e, .after i e⟩ := by
  cases hp : s.point with
  | idle =>
    rw [pollStep, hp] at h
    cases h
  | turn i =>
    by_cases hi : i < count.size
    · rw [pollStep_turn hp hi] at h
      cases h
      exact Or.inl ⟨i, rfl, hi, rfl, rfl⟩
    · simp only [pollStep, hp, hi, if_false] at h
      cases h
      exact Or.inr (Or.inl ⟨i, rfl, by omega, rfl, rfl⟩)
  | inside i =>
    refine Or.inr (Or.inr ?_)
    cases hq : (s.queues (s.idx i)).popStep cap left with
    | none =>
      simp only [pollStep, hp, hq] at h
      cases h
    | some result =>
      obtain ⟨e, queue⟩ := result
      rw [pollStep_inside hp hq] at h
      cases h
      exact ⟨i, e, queue, rfl, hq, rfl, rfl⟩

/-! ## Schedules -/

theorem next_step {turn : Turn T count} (h : s.next cap turn = some (ev, s')) : Step cap s ev s' := by
  cases turn with
  | push k item =>
    simp only [next] at h
    split at h
    · cases h
      exact .push k item ‹_›
    · cases h
  | pushing k =>
    simp only [next, Option.map_eq_some_iff, Prod.mk.injEq] at h
    obtain ⟨r, hpush, rfl, rfl⟩ := h
    exact .pushing k hpush
  | pop =>
    simp only [next] at h
    split_ifs at h with hidle
    cases h
    exact .pop hidle
  | polling left => exact .polling left h

/-- **A schedule is a run.** -/
theorem drive_run (cap : QueueCapacity) (schedule : List (Turn T count)) (s : PolledQueues T count) :
    (system cap T count).Run s (s.drive cap schedule).1 (s.drive cap schedule).2 := by
  induction schedule generalizing s with
  | nil => exact .refl s
  | cons turn schedule ih =>
    simp only [drive]
    split
    · exact .refl s
    · exact (ih _).head (next_step ‹_›)

theorem drive_trace (cap : QueueCapacity) (schedule : List (Turn T count)) (init : Fin count.size → T) :
    (system cap T count).Trace ((new init).drive cap schedule).1 ((new init).drive cap schedule).2 := by
  have hstart : (system cap T count).Trace [] (new init) := .init ⟨init, rfl⟩
  exact hstart.append (drive_run cap schedule _)

end PolledQueues

/-! ## Where the consumer is -/

/-- The queue that the consumer is inside of. -/
def PolledQueues.polled (s : PolledQueues T count) : Option (Fin count.size) :=
  match s.point with
  | .inside i => some (s.idx i)
  | _ => none

/-- The consumer is inside the `pop` of the queue that it polls, and of no other. -/
structure PollInv (s : PolledQueues T count) : Prop where
  next_lt : s.nextPollIdx < count.size
  turn_le : ∀ i, s.point = .turn i → i ≤ count.size
  inside_lt : ∀ i, s.point = .inside i → i < count.size
  polled_iff : ∀ k, (s.queues k).consumer.point ≠ .idle ↔ s.polled = some k

theorem pollInv_new (init : Fin count.size → T) : PollInv (PolledQueues.new init) where
  next_lt := count.pos
  turn_le := by rintro i ⟨⟩
  inside_lt := by rintro i ⟨⟩
  polled_iff := fun k => by simp [PolledQueues.new, PolledQueues.polled, SPSCQueue.new]

/-- Between two queues no `pop` of a queue is under way. -/
theorem PollInv.idle (h : PollInv s) (hout : s.polled = none) (k : Fin count.size) : (s.queues k).consumer.point = .idle := by
  by_contra hk
  rw [(h.polled_iff k).1 hk] at hout
  cases hout

/-- A producer's step. -/
theorem PollInv.set (h : PollInv s) {queue : SPSCQueue T} (hqueue : queue.consumer = (s.queues k).consumer) :
    PollInv (s.set k queue) := by
  refine ⟨h.next_lt, h.turn_le, h.inside_lt, fun j => ?_⟩
  rw [show (s.set k queue).polled = s.polled from rfl, ← h.polled_iff j]
  by_cases hj : j = k
  · rw [hj, PolledQueues.set_self, hqueue]
  · rw [PolledQueues.set_of_ne s hj]

/-- The consumer has left the `pop` of a queue when that returned. -/
theorem SPSCQueue.popStep_inside {q q' : SPSCQueue T} {left : T} {e : QueueEvent T} (h : q.popStep cap left = some (e, q')) (i : ℕ) :
    q'.consumer.point ≠ .idle ↔ PollPoint.after i e = .inside i := by
  unfold SPSCQueue.popStep at h
  cases hp : q.consumer.point with
  | idle =>
    rw [hp] at h
    cases h
  | loadHead =>
    rw [hp] at h
    dsimp only at h
    split_ifs at h <;> cases h <;> simp [SPSCQueue.atPop, PollPoint.after]
  | loadTail currentHead =>
    rw [hp] at h
    dsimp only at h
    split_ifs at h <;> cases h <;> simp [SPSCQueue.atPop, PollPoint.after]
  | read currentHead =>
    rw [hp] at h
    cases h
    simp [SPSCQueue.atPop, PollPoint.after]
  | storeHead item currentHead =>
    rw [hp] at h
    cases h
    simp [SPSCQueue.atPop, PollPoint.after]

/-- The consumer goes on inside the queue, or is between two queues. -/
theorem PolledQueues.polled_after (queues : Fin count.size → SPSCQueue T) (i : ℕ) (e : QueueEvent T) :
    (⟨queues, pollAfter s.nextPollIdx (s.idx i) e, .after i e⟩ : PolledQueues T count).polled =
      if PollPoint.after i e = .inside i then some (s.idx i) else none := by
  cases e <;> simp [polled, pollAfter, PollPoint.after, idx]

/-- **One step.** -/
theorem PollInv.step (h : PollInv s) (hstep : PolledQueues.Step cap s ev s') : PollInv s' := by
  cases hstep with
  | push k item hidle => exact h.set rfl
  | pushing k hpush => exact h.set (SPSCQueue.pushStep_consumer hpush)
  | pop hidle =>
    refine ⟨h.next_lt, ?_, by rintro i ⟨⟩, fun k => ?_⟩
    · rintro i ⟨⟩
      exact Nat.zero_le _
    · rw [h.polled_iff k]
      simp [PolledQueues.polled, hidle]
  | polling left hpoll =>
    obtain ⟨i, hp, hi, -, rfl⟩ | ⟨i, hp, hi, -, rfl⟩ | ⟨i, e, queue, hp, hq, -, rfl⟩ := PolledQueues.pollStep_cases hpoll
    · have hout : s.polled = none := by simp only [PolledQueues.polled, hp]
      refine ⟨h.next_lt, by rintro j ⟨⟩, by rintro j ⟨⟩; exact hi, fun k => ?_⟩
      by_cases hk : k = s.idx i
      · subst hk
        simp [PolledQueues.polled, PolledQueues.idx, SPSCQueue.atPop]
      · have hidle := h.idle hout k
        dsimp only [PolledQueues.polled]
        rw [Function.update_of_ne hk]
        simpa [hidle, PolledQueues.idx] using Ne.symm hk
    · have hout : s.polled = none := by simp only [PolledQueues.polled, hp]
      exact ⟨h.next_lt, by rintro j ⟨⟩, by rintro j ⟨⟩, fun k => by simp [PolledQueues.polled, h.idle hout k]⟩
    · have hin : s.polled = some (s.idx i) := by simp only [PolledQueues.polled, hp]
      have hi := h.inside_lt i hp
      refine ⟨?_, ?_, ?_, fun k => ?_⟩
      · cases e with
        | popped item => exact Nat.mod_lt _ count.pos
        | _ => exact h.next_lt
      · cases e <;> rintro j ⟨⟩
        exact hi
      · cases e <;> rintro j ⟨⟩ <;> exact hi
      · rw [PolledQueues.polled_after]
        dsimp only
        by_cases hk : k = s.idx i
        · subst hk
          rw [Function.update_self, SPSCQueue.popStep_inside hq i]
          simp
        · have hother := h.polled_iff k
          rw [hin] at hother
          rw [Function.update_of_ne hk, hother]
          split_ifs
          · rfl
          · simpa using Ne.symm hk

theorem pollInv_trace (h : (PolledQueues.system cap T count).Trace trace s) : PollInv s := by
  refine h.invariant (fun _ s => PollInv s) ?_ fun _ _ _ _ hinv hstep => hinv.step hstep
  rintro _ ⟨init, rfl⟩
  exact pollInv_new init

/-! ## One queue -/

theorem onQueue_append (k : Fin count.size) (trace more : List (PollEvent T count)) :
    onQueue k (trace ++ more) = onQueue k trace ++ onQueue k more := List.filterMap_append

/-- **What a step does to one queue**: nothing, or one step of its own threads. -/
theorem PollInv.queue_step (h : PollInv s) (hstep : PolledQueues.Step cap s ev s') (k : Fin count.size) :
    onQueue k [ev] = [] ∧ s'.queues k = s.queues k ∨
      ∃ e, onQueue k [ev] = [e] ∧ SPSCQueue.Step cap (s.queues k) e (s'.queues k) := by
  cases hstep with
  | push j item hidle =>
    by_cases hj : j = k
    · subst hj
      exact Or.inr ⟨.internal, by simp [onQueue], by rw [PolledQueues.set_self]; exact .push item hidle⟩
    · exact Or.inl ⟨by simp [onQueue, hj], s.set_of_ne (Ne.symm hj) _⟩
  | @pushing j e queue hpush =>
    by_cases hj : j = k
    · subst hj
      exact Or.inr ⟨e, by simp [onQueue], by rw [PolledQueues.set_self]; exact .pushing hpush⟩
    · exact Or.inl ⟨by simp [onQueue, hj], s.set_of_ne (Ne.symm hj) _⟩
  | pop hidle => exact Or.inl ⟨rfl, rfl⟩
  | polling left hpoll =>
    obtain ⟨i, hp, hi, rfl, rfl⟩ | ⟨i, hp, hi, rfl, rfl⟩ | ⟨i, e, queue, hp, hq, rfl, rfl⟩ := PolledQueues.pollStep_cases hpoll
    · by_cases hk : s.idx i = k
      · subst hk
        have hidle := h.idle (by simp only [PolledQueues.polled, hp]) (s.idx i)
        exact Or.inr ⟨.internal, by simp [onQueue], by simpa using .pop hidle⟩
      · exact Or.inl ⟨by simp [onQueue, hk], Function.update_of_ne (Ne.symm hk) _ _⟩
    · exact Or.inl ⟨rfl, rfl⟩
    · by_cases hk : s.idx i = k
      · subst hk
        exact Or.inr ⟨e, by simp [onQueue], by simpa using .popping left hq⟩
      · exact Or.inl ⟨by simp [onQueue, hk], Function.update_of_ne (Ne.symm hk) _ _⟩

theorem onQueue_producer (k : Fin count.size) (e : QueueEvent T) : onQueue k [.producer k e] = [e] := by simp [onQueue]

theorem onQueue_consumer (k : Fin count.size) (e : QueueEvent T) : onQueue k [.consumer k e] = [e] := by simp [onQueue]

theorem PollInv.step_of_onQueue (h : PollInv s) (hstep : PolledQueues.Step cap s ev s') {e : QueueEvent T} (he : onQueue k [ev] = [e]) :
    SPSCQueue.Step cap (s.queues k) e (s'.queues k) := by
  obtain ⟨hquiet, -⟩ | ⟨e', he', hq⟩ := h.queue_step hstep k
  · rw [hquiet] at he
    cases he
  · rw [he'] at he
    cases he
    exact hq

/-- **What happens to one queue is a run of `SPSCQueue`.** -/
theorem queue_trace (h : (PolledQueues.system cap T count).Trace trace s) (k : Fin count.size) :
    (SPSCQueue.system cap T).Trace (onQueue k trace) (s.queues k) := by
  induction h with
  | init hs =>
    obtain ⟨init, rfl⟩ := hs
    exact .init ⟨init k, rfl⟩
  | step hrun hstep ih =>
    rw [onQueue_append]
    obtain ⟨hquiet, hsame⟩ | ⟨e, he, hq⟩ := (pollInv_trace hrun).queue_step hstep k
    · rw [hquiet, hsame, List.append_nil]
      exact ih
    · rw [he]
      exact ih.step hq

theorem queueInv_poll (h : (PolledQueues.system cap T count).Trace trace s) (k : Fin count.size) :
    ∃ hc tc, QueueInv cap (pushedTo k trace) (poppedOff k trace) hc tc (s.queues k) :=
  queueInv_trace (queue_trace h k)

/-! ## What a queue holds -/

section
variable {pushed popped : List T} {hc tc : ℕ} {q q' : SPSCQueue T}

/-- The item in hand is the first of those that are not popped yet. -/
theorem QueueInv.inHand_append (h : QueueInv cap pushed popped hc tc q) :
    pushed.drop popped.length = q.inHand ++ pushed.drop (q.consumer.point.unread popped.length) := by
  have hknown := h.consumer
  cases hp : q.consumer.point with
  | storeHead item currentHead =>
    rw [hp] at hknown
    obtain ⟨-, -, hitem⟩ := hknown
    obtain ⟨hlt, he⟩ := List.getElem?_eq_some_iff.1 hitem
    simp only [SPSCQueue.inHand, PopPoint.unread, hp]
    rw [List.drop_eq_getElem_cons hlt, he]
    rfl
  | _ => simp only [SPSCQueue.inHand, PopPoint.unread, hp, List.nil_append]

theorem QueueInv.firstHeld (h : QueueInv cap pushed popped hc tc q) :
    q.firstHeld = UInt64.ofNat (q.consumer.point.unread popped.length) := by
  cases hp : q.consumer.point with
  | storeHead item currentHead =>
    simp only [SPSCQueue.firstHeld, PopPoint.unread, hp]
    rw [h.head, ofNat_succ]
  | _ =>
    simp only [SPSCQueue.firstHeld, PopPoint.unread, hp]
    exact h.head

theorem QueueInv.unread_le (h : QueueInv cap pushed popped hc tc q) : q.consumer.point.unread popped.length ≤ pushed.length := by
  have hknown := h.consumer
  cases hp : q.consumer.point with
  | storeHead item currentHead =>
    rw [hp] at hknown
    exact hknown.2.1.trans_le h.tc_le
  | _ => exact h.inOrder.length_le

/-- **The items that were pushed** are those that were popped and those that the queue holds. -/
theorem QueueInv.pushed_eq (h : QueueInv cap pushed popped hc tc q) : pushed = popped ++ q.held cap := by
  have hle := h.unread_le
  have hcap := cap.two_pow_log_lt
  have hroom := h.room
  have hhc := h.hc_le
  have hunread := q.consumer.point.le_unread popped.length
  have hslots : ∀ i, cap.slot (q.firstHeld + UInt64.ofNat i) = (q.consumer.point.unread popped.length + i) % 2 ^ cap.log := by
    intro i
    rw [h.firstHeld, ← UInt64.ofNat_add, cap.slot_ofNat]
  have hbuffer := h.held.drop_eq
  obtain ⟨rest, hrest⟩ := h.inOrder
  have hdrop : pushed.drop popped.length = rest := by rw [← hrest, List.drop_left]
  rw [h.inHand_append, hbuffer] at hdrop
  unfold SPSCQueue.held
  simp only [hslots]
  rw [h.tail, h.firstHeld, toNat_sub_ofNat hle (by omega), hdrop]
  exact hrest.symm

theorem QueueInv.held_length (h : QueueInv cap pushed popped hc tc q) : pushed.length = popped.length + (q.held cap).length := by
  conv_lhs => rw [h.pushed_eq]
  exact List.length_append

/-- `pop` of a queue returns `false` only when there is nothing in it. -/
theorem QueueInv.empty_of_popEmpty (h : QueueInv cap pushed popped hc tc q) (hstep : SPSCQueue.Step cap q .popEmpty q') :
    popped = pushed := by
  obtain ⟨currentHead, hpoint, hempty⟩ := hstep.popEmpty
  have hknown := h.consumer
  have hcap := cap.two_pow_log_lt
  have hroom := h.room
  have hhc := h.hc_le
  rw [hpoint] at hknown
  rw [show currentHead = _ from hknown, h.tail] at hempty
  exact h.inOrder.eq_of_length (eq_of_ofNat_eq hempty h.inOrder.length_le (by omega))

/-- `push` returns `false` only when there is no room. -/
theorem QueueInv.full_of_pushFull (h : QueueInv cap pushed popped hc tc q) (hstep : SPSCQueue.Step cap q .pushFull q') :
    (q.held cap).length = 2 ^ cap.log := by
  obtain ⟨item, currentTail, hpoint, hfull⟩ := hstep.pushFull
  have hknown := h.producer
  have hroom := h.room
  have hhc := h.hc_le
  have hlength := h.held_length
  rw [hpoint] at hknown
  rw [show currentTail = _ from hknown, h.head, cap.full_iff h.inOrder.length_le (by omega)] at hfull
  omega

/-- The two threads are never in front of the same slot. -/
theorem QueueInv.no_race (h : QueueInv cap pushed popped hc tc q) {item : T} {currentTail currentHead : UInt64}
    (hwrite : q.producer.point = .write item currentTail) (hread : q.consumer.point = .read currentHead) :
    cap.slot currentHead ≠ cap.slot currentTail := by
  have hproducer := h.producer
  have hconsumer := h.consumer
  rw [hwrite] at hproducer
  rw [hread] at hconsumer
  obtain ⟨rfl, hroom⟩ := hproducer
  obtain ⟨rfl, hlt⟩ := hconsumer
  rw [cap.slot_ofNat, cap.slot_ofNat]
  exact h.slot_free hroom _ (by rw [hread]; exact Nat.le_refl _) (hlt.trans_le h.tc_le)

end

/-- **Nothing is lost, made up or put in another order**, load by load. What a producer has pushed is what was popped
from its queue and what the queue holds at this moment; a queue holds at most its capacity, exactly that when a `push`
to it fails; and no two threads are in front of one slot. -/
theorem queues_hold_what_was_pushed (h : (PolledQueues.system cap T count).Trace trace s) (k : Fin count.size) :
    pushedTo k trace = poppedOff k trace ++ (s.queues k).held cap ∧
      ((s.queues k).held cap).length ≤ 2 ^ cap.log ∧
      (∀ s', PolledQueues.Step cap s (.producer k .pushFull) s' → ((s.queues k).held cap).length = 2 ^ cap.log) ∧
      ∀ item currentTail currentHead, (s.queues k).producer.point = .write item currentTail →
        (s.queues k).consumer.point = .read currentHead → cap.slot currentHead ≠ cap.slot currentTail := by
  obtain ⟨hc, tc, hq⟩ := queueInv_poll h k
  refine ⟨hq.pushed_eq, ?_, fun s' hstep => ?_, fun item currentTail currentHead => hq.no_race⟩
  · have hroom := hq.room
    have hhc := hq.hc_le
    have hlength := hq.held_length
    omega
  · exact hq.full_of_pushFull ((pollInv_trace h).step_of_onQueue hstep (onQueue_producer k _))

/-- Two producers. -/
abbrev twoProducers : ProducerCount := ⟨2, Nat.two_pos⟩

instance : NeZero twoProducers.size := ⟨by decide⟩

/-- Producer 1 has pushed an item and tries a second, with room for one. -/
def secondPush : List (PolledQueues.Turn ℕ twoProducers) :=
  [.push 1 8, .pushing 1, .pushing 1, .pushing 1, .push 1 9, .pushing 1]

theorem queues_hold_what_was_pushed_two : ∃ (trace : List (PollEvent ℕ twoProducers)) (s : PolledQueues ℕ twoProducers),
    (PolledQueues.system oneSlot ℕ twoProducers).Trace trace s ∧ pushedTo 1 trace = [8] ∧
      pushedTo 1 trace = poppedOff 1 trace ++ (s.queues 1).held oneSlot ∧ ((s.queues 1).held oneSlot).length = 1 := by
  have h := PolledQueues.drive_trace oneSlot secondPush fun _ => 0
  obtain ⟨hall, -, hfull, -⟩ := queues_hold_what_was_pushed h 1
  exact ⟨_, _, h, by decide +kernel, hall, hfull _ (.pushing 1 rfl)⟩

/-! ## A failed `pop` -/

/-- How many turns of the loop have ended. -/
def PollPoint.turns : PollPoint → ℕ
  | .idle => 0
  | .turn i | .inside i => i

/-- Since the call of `pop` the loop has found the queues of its earlier turns empty, each in its turn. -/
def FoundEmpty (before sofar : List (PollEvent T count)) (s : PolledQueues T count) : Prop :=
  ∀ m < s.point.turns, ∃ earlier, earlier <+: sofar ∧
    poppedOff (s.idx m) (before ++ .called :: earlier) = pushedTo (s.idx m) (before ++ .called :: earlier)

variable {before during : List (PollEvent T count)}

/-- The earlier turns stay what they were while no turn ends. -/
theorem FoundEmpty.mono (h : FoundEmpty before during s) (hnext : s'.nextPollIdx = s.nextPollIdx) (hturns : s'.point.turns ≤ s.point.turns) :
    FoundEmpty before (during ++ [ev]) s' := by
  intro m hm
  obtain ⟨earlier, hearlier, he⟩ := h m (Nat.lt_of_lt_of_le hm hturns)
  have hidx : s'.idx m = s.idx m := by simp only [PolledQueues.idx, hnext]
  exact ⟨earlier, hearlier.trans (List.prefix_append _ _), hidx ▸ he⟩

theorem FoundEmpty.of_idle {sofar : List (PollEvent T count)} (hidle : s.point.turns = 0) : FoundEmpty before sofar s := by
  intro m hm
  rw [hidle] at hm
  cases hm

/-- **One step of the call.** -/
theorem FoundEmpty.step (h : FoundEmpty before during s) (hrun : (PolledQueues.system cap T count).Trace (before ++ .called :: during) s)
    (hcalled : ev ≠ .called) (hstep : PolledQueues.Step cap s ev s') : FoundEmpty before (during ++ [ev]) s' := by
  have hinv := pollInv_trace hrun
  have hstep' := hstep
  cases hstep with
  | push k item hidle => exact h.mono rfl (Nat.le_refl _)
  | pushing k hpush => exact h.mono rfl (Nat.le_refl _)
  | pop hidle => exact absurd rfl hcalled
  | polling left hpoll =>
    obtain ⟨i, hp, hi, -, rfl⟩ | ⟨i, hp, hi, -, rfl⟩ | ⟨i, e, queue, hp, hq, rfl, rfl⟩ := PolledQueues.pollStep_cases hpoll
    · exact h.mono rfl (by rw [hp]; exact Nat.le_refl _)
    · exact .of_idle rfl
    · cases e with
      | popped item => exact .of_idle rfl
      | popEmpty =>
        -- the turn ends: this queue is empty now
        obtain ⟨hc, tc, hqueue⟩ := queueInv_poll hrun (s.idx i)
        have hempty := hqueue.empty_of_popEmpty (hinv.step_of_onQueue hstep' (onQueue_consumer _ _))
        intro m hm
        rcases Nat.lt_succ_iff_lt_or_eq.1 hm with hlt | rfl
        · obtain ⟨earlier, hearlier, he⟩ := h m (by rw [hp]; exact hlt)
          exact ⟨earlier, hearlier.trans (List.prefix_append _ _), he⟩
        · exact ⟨during, List.prefix_append _ _, hempty⟩
      | _ => exact h.mono rfl (by rw [hp]; exact Nat.le_refl _)

theorem foundEmpty_trace (h : (PolledQueues.system cap T count).Trace (before ++ .called :: during) s) (hcall : .called ∉ during) :
    FoundEmpty before during s := by
  induction during using List.reverseRecOn generalizing s with
  | nil =>
    obtain ⟨s0, -, hcalled⟩ := h.last_step
    generalize he : (PollEvent.called : PollEvent T count) = e at hcalled
    cases hcalled with
    | push => cases he
    | pushing => cases he
    | pop => exact .of_idle rfl
    | polling left hpoll =>
      obtain ⟨i, -, -, rfl, -⟩ | ⟨i, -, -, rfl, -⟩ | ⟨i, e, queue, -, -, rfl, -⟩ := PolledQueues.pollStep_cases hpoll <;> cases he
  | append_singleton rest e ih =>
    rw [← List.cons_append, ← List.append_assoc] at h
    obtain ⟨s0, hrest, hlast⟩ := h.last_step
    have hfound := ih hrest fun hm => hcall (List.mem_append_left _ hm)
    exact hfound.step hrest (fun he => hcall (by simp [he])) hlast

/-- **A `pop` that returned `false` found every queue empty at some time during the call**, whatever the producers did
meanwhile: no producer whose queue held an item throughout the call is passed over. -/
theorem failed_pop_found_each_empty (h : (PolledQueues.system cap T count).Trace (before ++ .called :: during ++ [.popEmpty]) s)
    (hcall : .called ∉ during) (k : Fin count.size) :
    ∃ sofar, sofar <+: during ∧ poppedOff k (before ++ .called :: sofar) = pushedTo k (before ++ .called :: sofar) := by
  obtain ⟨s0, hrun, hlast⟩ := h.last_step
  have hinv := pollInv_trace hrun
  have hfound := foundEmpty_trace hrun hcall
  generalize he : (PollEvent.popEmpty : PollEvent T count) = e at hlast
  cases hlast with
  | push => cases he
  | pushing => cases he
  | pop => cases he
  | polling left hpoll =>
    obtain ⟨i, -, -, rfl, -⟩ | ⟨i, hp, hi, -, -⟩ | ⟨i, e, queue, -, -, rfl, -⟩ := PolledQueues.pollStep_cases hpoll
    · cases he
    · have hlt := ahead_lt hinv.next_lt k.isLt
      have hat : s0.idx (ahead count.size s0.nextPollIdx k) = k := Fin.ext (add_ahead_mod hinv.next_lt k.isLt)
      obtain ⟨earlier, hearlier, hempty⟩ := hfound _ (by rw [hp]; exact Nat.lt_of_lt_of_le hlt hi)
      rw [hat] at hempty
      exact ⟨earlier, hearlier, hempty⟩
    · cases he

/-- An item comes to queue 0 behind the loop's back: `pop` returns `false`, and the item waits. -/
def itemBehindLoop : List (PolledQueues.Turn ℕ twoProducers) :=
  [.pop, .polling 0, .polling 0, .polling 0, .push 0 7, .pushing 0, .pushing 0, .pushing 0, .polling 0, .polling 0, .polling 0, .polling 0]

theorem failed_pop_found_each_empty_two : ∃ (during : List (PollEvent ℕ twoProducers)) (s : PolledQueues ℕ twoProducers),
    (PolledQueues.system oneSlot ℕ twoProducers).Trace ([] ++ .called :: during ++ [.popEmpty]) s ∧
      pushedTo 0 ([] ++ .called :: during ++ [.popEmpty]) = [7] ∧
      poppedOff 0 ([] ++ .called :: during ++ [.popEmpty]) = [] ∧
      ∃ sofar, sofar <+: during ∧ poppedOff 0 ([] ++ .called :: sofar) = pushedTo 0 ([] ++ .called :: sofar) := by
  have h := PolledQueues.drive_trace oneSlot itemBehindLoop fun _ => 0
  have htrace : ((PolledQueues.new fun _ => 0).drive oneSlot itemBehindLoop).1 =
      [] ++ .called :: [.consumer 0 .internal, .consumer 0 .internal, .consumer 0 .popEmpty, .producer 0 .internal,
        .producer 0 .internal, .producer 0 .internal, .producer 0 (.pushed 7), .consumer 1 .internal, .consumer 1 .internal,
        .consumer 1 .popEmpty] ++ [.popEmpty] := by decide +kernel
  rw [htrace] at h
  exact ⟨_, _, h, rfl, rfl, failed_pop_found_each_empty h (by decide) 0⟩

end TradeCore
