import TradeCore.Lockfree.MpscRuns
/-!
# Nobody waits for another thread (`lockfree/mpsc_queue.hpp:10`, `lockfree/spsc_queue.hpp:13`)

Both queues call themselves wait-free. `PushPoint.left` and `PolledQueues.left` count the steps that a call has still
to make: a thread's own steps count down, and no step of another thread counts up. `PolledQueues.wait` is how many
successful `pop`s may still serve others before a queue with items is served.
-/

namespace TradeCore

open RoundRobin

variable {T : Type} {count : ProducerCount} {cap : QueueCapacity} {s s' : PolledQueues T count} {ev : PollEvent T count}
  {k : Fin count.size} {trace more : List (PollEvent T count)}

/-! ## The steps that are left of a call -/

/-- `push` makes at most this many more steps. -/
def PushPoint.left : PushPoint T → ℕ
  | .idle => 0
  | .loadTail _ => 4
  | .loadHead _ _ => 3
  | .write _ _ => 2
  | .storeTail _ _ => 1

/-- `pop` of one queue makes at most this many more steps. -/
def PopPoint.left : PopPoint T → ℕ
  | .idle => 0
  | .loadHead => 4
  | .loadTail _ => 3
  | .read _ => 2
  | .storeHead _ _ => 1

/-- `pop` makes at most this many more steps: three for each turn that fails, and two more for one that does not. -/
def PolledQueues.left (s : PolledQueues T count) : ℕ :=
  match s.point with
  | .idle => 0
  | .turn i => 3 * (count.size - i) + 2
  | .inside i => 3 * (count.size - i) + (s.queues (s.idx i)).consumer.point.left - 3

/-- `push` has returned. -/
def QueueEvent.endsPush : QueueEvent T → Bool
  | .pushed _ | .pushFull => true
  | _ => false

/-- `pop` has returned. -/
def PollEvent.endsPop : PollEvent T count → Bool
  | .consumer _ (.popped _) | .popEmpty => true
  | _ => false

/-- A step of producer `k`. -/
def PollEvent.ofProducer (k : Fin count.size) : PollEvent T count → Bool
  | .producer j _ => j = k
  | _ => false

/-- A step of the consumer. -/
def PollEvent.ofConsumer : PollEvent T count → Bool
  | .producer _ _ => false
  | _ => true

/-! ## `push` -/

/-- A step of `push` is its last, or leaves one less. -/
theorem SPSCQueue.pushStep_left {q q' : SPSCQueue T} {e : QueueEvent T} (h : q.pushStep cap = some (e, q')) :
    e.endsPush = true ∨ q'.producer.point ≠ .idle ∧ q'.producer.point.left + 1 ≤ q.producer.point.left := by
  unfold SPSCQueue.pushStep at h
  cases hp : q.producer.point with
  | idle =>
    rw [hp] at h
    cases h
  | loadTail item =>
    rw [hp] at h
    dsimp only at h
    split_ifs at h <;> cases h <;> simp [SPSCQueue.atPush, PushPoint.left]
  | loadHead item currentTail =>
    rw [hp] at h
    dsimp only at h
    split_ifs at h <;> cases h <;> simp [SPSCQueue.atPush, PushPoint.left, QueueEvent.endsPush]
  | write item currentTail =>
    rw [hp] at h
    cases h
    simp [SPSCQueue.atPush, PushPoint.left]
  | storeTail item currentTail =>
    rw [hp] at h
    cases h
    exact Or.inl rfl

/-- A producer inside `push` can always make its next step. -/
theorem SPSCQueue.pushStep_enabled (cap : QueueCapacity) {q : SPSCQueue T} (h : q.producer.point ≠ .idle) :
    ∃ e q', q.pushStep cap = some (e, q') := by
  unfold SPSCQueue.pushStep
  cases hp : q.producer.point with
  | idle => exact absurd hp h
  | loadTail item =>
    dsimp only
    split_ifs <;> exact ⟨_, _, rfl⟩
  | loadHead item currentTail =>
    dsimp only
    split_ifs <;> exact ⟨_, _, rfl⟩
  | write item currentTail => exact ⟨_, _, rfl⟩
  | storeTail item currentTail => exact ⟨_, _, rfl⟩

theorem PushPoint.left_le (point : PushPoint T) : point.left ≤ 4 := by
  cases point <;> simp [left]

/-- **One step of a run in which `push` does not return**: it counts down a step of its own, and no other. -/
theorem PolledQueues.Step.push_left (hstep : PolledQueues.Step cap s ev s') (hinside : (s.queues k).producer.point ≠ .idle)
    (hev : ∀ e : QueueEvent T, e.endsPush = true → ev ≠ .producer k e) :
    (s'.queues k).producer.point ≠ .idle ∧
      (s'.queues k).producer.point.left + (if ev.ofProducer k then 1 else 0) ≤ (s.queues k).producer.point.left := by
  cases hstep with
  | push j item hidle =>
    by_cases hj : j = k
    · subst hj
      exact absurd hidle hinside
    · rw [s.set_of_ne (Ne.symm hj)]
      simp [PollEvent.ofProducer, hj, hinside]
  | @pushing j e queue hpush =>
    by_cases hj : j = k
    · subst hj
      rcases SPSCQueue.pushStep_left hpush with hend | hleft
      · exact absurd rfl (hev e hend)
      · simpa [PollEvent.ofProducer] using hleft
    · rw [s.set_of_ne (Ne.symm hj)]
      simp [PollEvent.ofProducer, hj, hinside]
  | pop hidle => exact ⟨hinside, Nat.le_refl _⟩
  | polling left hpoll =>
    obtain ⟨i, hp, hi, rfl, rfl⟩ | ⟨i, hp, hi, rfl, rfl⟩ | ⟨i, e, queue, hp, hq, rfl, rfl⟩ := PolledQueues.pollStep_cases hpoll
    · by_cases hk : k = s.idx i
      · subst hk
        simp [PollEvent.ofProducer, SPSCQueue.atPop, hinside]
      · simp [PollEvent.ofProducer, Function.update_of_ne hk, hinside]
    · exact ⟨hinside, Nat.le_refl _⟩
    · by_cases hk : k = s.idx i
      · subst hk
        simp [PollEvent.ofProducer, SPSCQueue.popStep_producer hq, hinside]
      · simp [PollEvent.ofProducer, Function.update_of_ne hk, hinside]

/-! ## `pop` -/

/-- A step of `pop` is its last, or leaves one less; it fails from the third step before the last. -/
theorem SPSCQueue.popStep_left {q q' : SPSCQueue T} {left : T} {e : QueueEvent T} (h : q.popStep cap left = some (e, q')) :
    (∃ item, e = .popped item) ∨ e = .popEmpty ∧ q.consumer.point.left = 3 ∨
      e = .internal ∧ 1 ≤ q'.consumer.point.left ∧ q'.consumer.point.left + 1 ≤ q.consumer.point.left := by
  unfold SPSCQueue.popStep at h
  cases hp : q.consumer.point with
  | idle =>
    rw [hp] at h
    cases h
  | loadHead =>
    rw [hp] at h
    dsimp only at h
    split_ifs at h <;> cases h <;> simp [SPSCQueue.atPop, PopPoint.left]
  | loadTail currentHead =>
    rw [hp] at h
    dsimp only at h
    split_ifs at h <;> cases h <;> simp [SPSCQueue.atPop, PopPoint.left]
  | read currentHead =>
    rw [hp] at h
    cases h
    simp [SPSCQueue.atPop, PopPoint.left]
  | storeHead item currentHead =>
    rw [hp] at h
    cases h
    exact Or.inl ⟨item, rfl⟩

theorem SPSCQueue.popStep_enabled (cap : QueueCapacity) (left : T) {q : SPSCQueue T} (h : q.consumer.point ≠ .idle) :
    ∃ e q', q.popStep cap left = some (e, q') := by
  unfold SPSCQueue.popStep
  cases hp : q.consumer.point with
  | idle => exact absurd hp h
  | loadHead =>
    dsimp only
    split_ifs <;> exact ⟨_, _, rfl⟩
  | loadTail currentHead =>
    dsimp only
    split_ifs <;> exact ⟨_, _, rfl⟩
  | read currentHead => exact ⟨_, _, rfl⟩
  | storeHead item currentHead => exact ⟨_, _, rfl⟩

/-- A consumer inside `pop` can always make its next step. -/
theorem PollInv.pollStep_enabled (h : PollInv s) (cap : QueueCapacity) (left : T) (hinside : s.point ≠ .idle) :
    ∃ ev s', s.pollStep cap left = some (ev, s') ∧ ev.ofConsumer = true := by
  cases hp : s.point with
  | idle => exact absurd hp hinside
  | turn i =>
    by_cases hi : i < count.size
    · exact ⟨_, _, PolledQueues.pollStep_turn hp hi, rfl⟩
    · exact ⟨.popEmpty, { s with point := .idle }, by simp only [PolledQueues.pollStep, hp, hi, if_false], rfl⟩
  | inside i =>
    have hpoint : (s.queues (s.idx i)).consumer.point ≠ .idle :=
      (h.polled_iff _).2 (by simp only [PolledQueues.polled, hp])
    obtain ⟨e, queue, hq⟩ := SPSCQueue.popStep_enabled cap left hpoint
    exact ⟨_, _, PolledQueues.pollStep_inside hp hq, rfl⟩

theorem PopPoint.left_le (point : PopPoint T) : point.left ≤ 4 := by
  cases point <;> simp [left]

theorem PolledQueues.left_le (s : PolledQueues T count) : s.left ≤ 3 * count.size + 2 := by
  unfold PolledQueues.left
  cases s.point with
  | idle => exact Nat.zero_le _
  | turn i => dsimp only; omega
  | inside i =>
    have := ((s.queues (s.idx i)).consumer.point).left_le
    dsimp only
    omega

theorem PushPoint.left_pos {point : PushPoint T} (h : point ≠ .idle) : 1 ≤ point.left := by
  cases point with
  | idle => exact absurd rfl h
  | _ => simp [left]

theorem PopPoint.left_pos {point : PopPoint T} (h : point ≠ .idle) : 1 ≤ point.left := by
  cases point with
  | idle => exact absurd rfl h
  | _ => simp [left]

theorem PollInv.left_pos (h : PollInv s) (hinside : s.point ≠ .idle) : 1 ≤ s.left := by
  unfold PolledQueues.left
  cases hp : s.point with
  | idle => exact absurd hp hinside
  | turn i => exact Nat.le_add_left _ _
  | inside i =>
    have hi := h.inside_lt i hp
    have hpos := PopPoint.left_pos ((h.polled_iff (s.idx i)).2 (by simp only [PolledQueues.polled, hp]))
    dsimp only
    omega

/-- A producer's step leaves the consumer where it is. -/
theorem PolledQueues.left_set {queue : SPSCQueue T} (hqueue : queue.consumer = (s.queues k).consumer) : (s.set k queue).left = s.left := by
  have hconsumer : ∀ j, ((s.set k queue).queues j).consumer = (s.queues j).consumer := by
    intro j
    by_cases hj : j = k
    · rw [hj, s.set_self, hqueue]
    · rw [s.set_of_ne hj]
  unfold left
  simp only [hconsumer]
  rfl

/-- **One step of a run in which `pop` does not return.** -/
theorem PollInv.pop_step (h : PollInv s) (hinside : s.point ≠ .idle) (hstep : PolledQueues.Step cap s ev s') (hev : ev.endsPop = false) :
    s'.point ≠ .idle ∧ s'.left + (if ev.ofConsumer then 1 else 0) ≤ s.left := by
  cases hstep with
  | push j item hidle => exact ⟨hinside, Nat.le_of_eq (PolledQueues.left_set rfl)⟩
  | pushing j hpush => exact ⟨hinside, Nat.le_of_eq (PolledQueues.left_set (SPSCQueue.pushStep_consumer hpush))⟩
  | pop hidle => exact absurd hidle hinside
  | polling left hpoll =>
    obtain ⟨i, hp, hi, rfl, rfl⟩ | ⟨i, hp, hi, rfl, rfl⟩ | ⟨i, e, queue, hp, hq, rfl, rfl⟩ := PolledQueues.pollStep_cases hpoll
    · refine ⟨by simp, ?_⟩
      simp [PolledQueues.left, PolledQueues.idx, hp, SPSCQueue.atPop, PopPoint.left, PollEvent.ofConsumer]
    · cases hev
    · have hi := h.inside_lt i hp
      obtain ⟨item, rfl⟩ | ⟨rfl, hthird⟩ | ⟨rfl, hpos, hless⟩ := SPSCQueue.popStep_left hq
      · cases hev
      · refine ⟨by simp [PollPoint.after], ?_⟩
        simp only [PolledQueues.left, PollPoint.after, hp, hthird, PollEvent.ofConsumer, if_true]
        omega
      · refine ⟨by simp [PollPoint.after], ?_⟩
        have hidx : PolledQueues.idx ⟨Function.update s.queues (s.idx i) queue, s.nextPollIdx, .inside i⟩ i = s.idx i := rfl
        simp only [PolledQueues.left, PolledQueues.pollAfter, PollPoint.after, hidx, Function.update_self, hp, PollEvent.ofConsumer, if_true]
        omega

/-! ## Wait freedom -/

/-- **Wait-free**: at every point of every interleaving, a thread that is inside its call can make its next step, and has
returned after four steps of its own (a `push`), or three for each producer and two more (a `pop`), whatever the other
threads do between them. -/
theorem calls_wait_free (h : (PolledQueues.system cap T count).Trace trace s) :
    (∀ k, (s.queues k).producer.point ≠ .idle →
      (∃ e s', PolledQueues.Step cap s (.producer k e) s') ∧
        ∀ more s', (PolledQueues.system cap T count).Run s more s' → 4 ≤ more.countP (PollEvent.ofProducer k) →
          ∃ e : QueueEvent T, e.endsPush = true ∧ .producer k e ∈ more) ∧
    (s.point ≠ .idle →
      (∀ left, ∃ ev s', s.pollStep cap left = some (ev, s') ∧ ev.ofConsumer = true) ∧
        ∀ more s', (PolledQueues.system cap T count).Run s more s' → 3 * count.size + 2 ≤ more.countP PollEvent.ofConsumer →
          ∃ ev ∈ more, ev.endsPop = true) := by
  have hinv := pollInv_trace h
  refine ⟨fun k hinside => ⟨?_, fun more s' hrun hmany => ?_⟩, fun hinside => ⟨fun left => hinv.pollStep_enabled cap left hinside,
    fun more s' hrun hmany => ?_⟩⟩
  · obtain ⟨e, queue, hpush⟩ := SPSCQueue.pushStep_enabled cap hinside
    exact ⟨e, _, .pushing k hpush⟩
  · by_contra hnot
    have hsteps : ∀ ev ∈ more, ∀ s s', (s.queues k).producer.point ≠ .idle → PolledQueues.Step cap s ev s' →
        (s'.queues k).producer.point ≠ .idle ∧
          (s'.queues k).producer.point.left + (if ev.ofProducer k then 1 else 0) ≤ (s.queues k).producer.point.left := by
      intro ev hmem s s' hinside hstep
      exact hstep.push_left hinside fun e hend he => hnot ⟨e, hend, he ▸ hmem⟩
    obtain ⟨hstill, hle⟩ := hrun.potential _ _ _ hinside hsteps
    have hall := ((s.queues k).producer.point).left_le
    have hpos := PushPoint.left_pos hstill
    omega
  · by_contra hnot
    have hsteps : ∀ ev ∈ more, ∀ s s', PollInv s ∧ s.point ≠ .idle → PolledQueues.Step cap s ev s' →
        (PollInv s' ∧ s'.point ≠ .idle) ∧ s'.left + (if ev.ofConsumer then 1 else 0) ≤ s.left := by
      rintro ev hmem s s' ⟨hinv, hinside⟩ hstep
      have hends : ev.endsPop = false := by
        by_contra hend
        exact hnot ⟨ev, hmem, by simpa using hend⟩
      have hkeep := hinv.pop_step hinside hstep hends
      exact ⟨⟨hinv.step hstep, hkeep.1⟩, hkeep.2⟩
    obtain ⟨⟨hinv', hstill⟩, hle⟩ := hrun.potential _ _ _ ⟨hinv, hinside⟩ hsteps
    have hall := s.left_le
    have hpos := hinv'.left_pos hstill
    omega

/-- The consumer and producer 1 of two are inside their calls. -/
def bothInside : List (PolledQueues.Turn ℕ twoProducers) := [.push 1 8, .pop]

theorem calls_wait_free_two : ∃ (trace : List (PollEvent ℕ twoProducers)) (s : PolledQueues ℕ twoProducers),
    (PolledQueues.system oneSlot ℕ twoProducers).Trace trace s ∧ (s.queues 1).producer.point ≠ .idle ∧ s.point ≠ .idle ∧
      ∀ more s', (PolledQueues.system oneSlot ℕ twoProducers).Run s more s' → 8 ≤ more.countP PollEvent.ofConsumer →
        ∃ ev ∈ more, ev.endsPop = true := by
  have h := PolledQueues.drive_trace oneSlot bothInside fun _ => 0
  obtain ⟨-, hpop⟩ := calls_wait_free h
  exact ⟨_, _, h, by decide +kernel, by decide +kernel, (hpop (by decide +kernel)).2⟩

/-! ## Bounded waiting -/

/-- How many `pop`s may still serve others before queue `k`, which has items: a loop that has passed it by will come to
it in a later call. -/
def PolledQueues.wait (s : PolledQueues T count) (k : Fin count.size) : ℕ :=
  if s.point.turns ≤ ahead count.size s.nextPollIdx k then ahead count.size s.nextPollIdx k else count.size

/-- `pop` has returned `true`. -/
def PollEvent.isPopped : PollEvent T count → Bool
  | .consumer _ (.popped _) => true
  | _ => false

/-- `pop` has returned `false`. -/
def PollEvent.isPopEmpty : PollEvent T count → Bool
  | .popEmpty => true
  | _ => false

theorem pushedTo_append (k : Fin count.size) (trace more : List (PollEvent T count)) :
    pushedTo k (trace ++ more) = pushedTo k trace ++ pushedTo k more := by
  unfold pushedTo pushedItems
  rw [onQueue_append, List.filterMap_append]

theorem poppedOff_append (k : Fin count.size) (trace more : List (PollEvent T count)) :
    poppedOff k (trace ++ more) = poppedOff k trace ++ poppedOff k more := by
  unfold poppedOff poppedItems
  rw [onQueue_append, List.filterMap_append]

theorem PolledQueues.Step.not_popped {e : QueueEvent T} (h : PolledQueues.Step cap s (.producer k e) s') (item : T) : e ≠ .popped item := by
  rintro rfl
  generalize he : PollEvent.producer k (.popped item) = ev at h
  cases h with
  | push => cases he
  | pushing j hpush =>
    cases he
    obtain h | ⟨item', h⟩ | ⟨h, -⟩ := SPSCQueue.pushStep_event hpush <;> cases h
  | pop => cases he
  | polling left hpoll =>
    obtain ⟨i, -, -, rfl, -⟩ | ⟨i, -, -, rfl, -⟩ | ⟨i, e, queue, -, -, rfl, -⟩ := PolledQueues.pollStep_cases hpoll <;> cases he

/-- Only a `pop` that serves queue `k` takes an item out of it. -/
theorem PolledQueues.Step.poppedOff_eq (h : PolledQueues.Step cap s ev s') (hnot : ∀ item, ev ≠ .consumer k (.popped item)) :
    poppedOff k [ev] = [] := by
  unfold poppedOff onQueue poppedItems
  cases ev with
  | producer j e =>
    by_cases hj : j = k
    · have hitem := h.not_popped
      cases e with
      | popped item => exact absurd rfl (hitem item)
      | _ => simp [hj]
    · simp [hj]
  | consumer j e =>
    by_cases hj : j = k
    · subst hj
      cases e with
      | popped item => exact absurd rfl (hnot item)
      | _ => simp
    · simp [hj]
  | _ => rfl

/-- A queue that is not served keeps its items. -/
theorem still_waiting (h : (PolledQueues.system cap T count).Trace trace s) (hk : poppedOff k trace ≠ pushedTo k trace)
    (hstep : PolledQueues.Step cap s ev s') (hnot : ∀ item, ev ≠ .consumer k (.popped item)) :
    poppedOff k (trace ++ [ev]) ≠ pushedTo k (trace ++ [ev]) := by
  obtain ⟨hc, tc, hq⟩ := queueInv_poll h k
  have hlt : (poppedOff k trace).length < (pushedTo k trace).length :=
    Nat.lt_of_le_of_ne hq.inOrder.length_le fun e => hk (hq.inOrder.eq_of_length e)
  intro he
  have hlength := congrArg List.length he
  rw [poppedOff_append, pushedTo_append, hstep.poppedOff_eq hnot, List.append_nil, List.length_append] at hlength
  omega

theorem PollInv.idx_ahead (h : PollInv s) (k : Fin count.size) : s.idx (ahead count.size s.nextPollIdx k) = k :=
  Fin.ext (add_ahead_mod h.next_lt k.isLt)

/-- The wait is no longer while the poll index stays and the loop does not pass queue `k`. -/
theorem PollInv.wait_le (h : PollInv s) (hnext : s'.nextPollIdx = s.nextPollIdx)
    (hturns : s.point.turns ≤ ahead count.size s.nextPollIdx k → s'.point.turns ≤ ahead count.size s.nextPollIdx k) :
    s'.wait k ≤ s.wait k := by
  have hlt := ahead_lt h.next_lt k.isLt
  unfold PolledQueues.wait
  rw [hnext]
  by_cases hle : s.point.turns ≤ ahead count.size s.nextPollIdx k
  · rw [if_pos hle, if_pos (hturns hle)]
  · rw [if_neg hle]
    split_ifs <;> omega

/-- A `pop` served the queue of turn `i`: the loop stops there, and the poll index moves behind it. -/
theorem PollInv.wait_served (h : PollInv s) {i : ℕ} (hp : s.point = .inside i) (hne : i ≠ ahead count.size s.nextPollIdx k)
    (hidle : s'.point = .idle) (hnext : s'.nextPollIdx = ((s.nextPollIdx + i) % count.size + 1) % count.size) :
    s'.wait k + 1 ≤ s.wait k := by
  have hnext_lt : s'.nextPollIdx < count.size := hnext ▸ Nat.mod_lt _ count.pos
  have hlt := ahead_lt hnext_lt k.isLt
  have hturns : s.point.turns = i := by rw [hp]; rfl
  unfold PolledQueues.wait
  rw [hidle, show (PollPoint.idle).turns = 0 from rfl, if_pos (Nat.zero_le _), hturns]
  rcases Nat.lt_or_gt_of_ne hne with hbefore | hbehind
  · have hadvance := ahead_advance h.next_lt k.isLt hbefore
    rw [if_pos hbefore.le, hnext]
    omega
  · rw [if_neg (by omega)]
    omega

/-- **One step that does not serve queue `k`**: a `pop` that serves another brings the loop nearer, and one that fails
had passed the queue by before its item came. -/
theorem PollInv.wait_step (h : PollInv s) (hstep : PolledQueues.Step cap s ev s') (hnot : ∀ item, ev ≠ .consumer k (.popped item))
    (hitems : ev ≠ .consumer k .popEmpty) : s'.wait k + (if ev.isPopped then 1 else 0) ≤ s.wait k := by
  cases hstep with
  | push j item hidle => exact Nat.le_refl _
  | pushing j hpush => exact Nat.le_refl _
  | pop hidle =>
    change PolledQueues.wait { s with point := .turn 0 } k ≤ _
    exact h.wait_le rfl fun _ => Nat.zero_le _
  | polling left hpoll =>
    obtain ⟨i, hp, hi, rfl, rfl⟩ | ⟨i, hp, hi, rfl, rfl⟩ | ⟨i, e, queue, hp, hq, rfl, rfl⟩ := PolledQueues.pollStep_cases hpoll
    · exact h.wait_le rfl fun hle => by rwa [hp] at hle
    · change PolledQueues.wait { s with point := .idle } k ≤ _
      exact h.wait_le rfl fun _ => Nat.zero_le _
    · cases e with
      | popped item =>
        have hne : i ≠ ahead count.size s.nextPollIdx k := by
          rintro rfl
          rw [h.idx_ahead] at hnot
          exact hnot item rfl
        exact h.wait_served hp hne rfl rfl
      | popEmpty =>
        have hne : i ≠ ahead count.size s.nextPollIdx k := by
          rintro rfl
          rw [h.idx_ahead] at hitems
          exact hitems rfl
        refine h.wait_le rfl fun hle => ?_
        rw [hp] at hle
        exact Nat.lt_of_le_of_ne hle hne
      | _ => exact h.wait_le rfl fun hle => by rwa [hp] at hle

/-- After these steps queue `k` has items that are still to be popped. -/
def Awaits (cap : QueueCapacity) (k : Fin count.size) (s : PolledQueues T count) : Prop :=
  ∃ trace, (PolledQueues.system cap T count).Trace trace s ∧ poppedOff k trace ≠ pushedTo k trace

/-- A queue with items is not found empty. -/
theorem Awaits.not_empty (h : Awaits cap k s) : ¬PolledQueues.Step cap s (.consumer k .popEmpty) s' := by
  obtain ⟨trace, hrun, hk⟩ := h
  obtain ⟨hc, tc, hq⟩ := queueInv_poll hrun k
  exact fun hstep => hk (hq.empty_of_popEmpty ((pollInv_trace hrun).step_of_onQueue hstep (onQueue_consumer k _)))

theorem Awaits.step (h : Awaits cap k s) (hstep : PolledQueues.Step cap s ev s') (hnot : ∀ item, ev ≠ .consumer k (.popped item)) :
    Awaits cap k s' := by
  obtain ⟨trace, hrun, hk⟩ := h
  exact ⟨_, hrun.step hstep, still_waiting hrun hk hstep hnot⟩

/-- What a run keeps while it does not serve queue `k`. -/
theorem Awaits.keep (h : Awaits cap k s) (hinv : PollInv s) (hstep : PolledQueues.Step cap s ev s')
    (hother : ∀ item, ev ≠ .consumer k (.popped item)) :
    (PollInv s' ∧ Awaits cap k s') ∧ s'.wait k + (if ev.isPopped then 1 else 0) ≤ s.wait k := by
  refine ⟨⟨hinv.step hstep, h.step hstep hother⟩, hinv.wait_step hstep hother ?_⟩
  rintro rfl
  exact h.not_empty hstep

theorem PollInv.wait_le_size (h : PollInv s) (k : Fin count.size) : s.wait k ≤ count.size := by
  have hlt := ahead_lt h.next_lt k.isLt
  unfold PolledQueues.wait
  split_ifs <;> omega

theorem PollInv.wait_lt_iff (h : PollInv s) : s.wait k < count.size ↔ s.point.turns ≤ ahead count.size s.nextPollIdx k := by
  have hlt := ahead_lt h.next_lt k.isLt
  unfold PolledQueues.wait
  split_ifs with hle
  · exact iff_of_true hlt hle
  · exact iff_of_false (Nat.lt_irrefl _) hle

theorem PollInv.wait_of_idle (h : PollInv s) (hidle : s.point = .idle) : s.wait k < count.size := by
  rw [h.wait_lt_iff, hidle]
  exact Nat.zero_le _

/-- A call that has not passed queue `k` by does not return `false`. -/
theorem PollInv.not_failed (h : PollInv s) (hwait : s.wait k < count.size) : ¬PolledQueues.Step cap s .popEmpty s' := by
  have hlt := ahead_lt h.next_lt k.isLt
  intro hstep
  generalize he : (PollEvent.popEmpty : PollEvent T count) = ev at hstep
  cases hstep with
  | push => cases he
  | pushing => cases he
  | pop => cases he
  | polling left hpoll =>
    obtain ⟨i, hp, hi, rfl, -⟩ | ⟨i, hp, hi, -, -⟩ | ⟨i, e, queue, hp, hq, rfl, -⟩ := PolledQueues.pollStep_cases hpoll
    · cases he
    · rw [h.wait_lt_iff, hp] at hwait
      have hle : i ≤ ahead count.size s.nextPollIdx k := hwait
      omega
    · cases he

/-- **Bounded waiting**, load by load. While queue `k` has items, at most `NumProducers` successful `pop`s serve other
queues before one serves it, one less if the consumer is between two calls. -/
theorem served_in_turn (h : (PolledQueues.system cap T count).Trace trace s) (hk : poppedOff k trace ≠ pushedTo k trace)
    (hrun : (PolledQueues.system cap T count).Run s more s')
    (hmany : count.size + (if s.point = .idle then 0 else 1) ≤ more.countP PollEvent.isPopped) :
    ∃ item, .consumer k (.popped item) ∈ more := by
  by_contra hnot
  have hinv := pollInv_trace h
  have hsteps : ∀ ev ∈ more, ∀ s s', PollInv s ∧ Awaits cap k s → PolledQueues.Step cap s ev s' →
      (PollInv s' ∧ Awaits cap k s') ∧ s'.wait k + (if ev.isPopped then 1 else 0) ≤ s.wait k := by
    rintro ev hmem s s' ⟨hinv, hwaits⟩ hstep
    exact hwaits.keep hinv hstep fun item he => hnot ⟨item, he ▸ hmem⟩
  obtain ⟨-, hle⟩ := hrun.potential _ _ _ ⟨hinv, trace, h, hk⟩ hsteps
  by_cases hidle : s.point = .idle
  · have hlt : s.wait k < count.size := hinv.wait_of_idle hidle
    rw [if_pos hidle] at hmany
    omega
  · have hall := hinv.wait_le_size k
    rw [if_neg hidle] at hmany
    omega

/-- Both of two producers push an item. -/
def bothPush : List (PolledQueues.Turn ℕ twoProducers) :=
  [.push 0 7, .pushing 0, .pushing 0, .pushing 0, .push 1 8, .pushing 1, .pushing 1, .pushing 1]

/-- Three calls of `pop`: the last finds both queues empty. -/
def threePops : List (PolledQueues.Turn ℕ twoProducers) :=
  .pop :: List.replicate 5 (.polling 0) ++ .pop :: List.replicate 5 (.polling 0) ++ .pop :: List.replicate 7 (.polling 0)

theorem served_in_turn_two : ∃ (more : List (PollEvent ℕ twoProducers)), more.countP PollEvent.isPopped = 2 ∧
    ∃ item, .consumer 1 (.popped item) ∈ more := by
  have h := PolledQueues.drive_trace oneSlot bothPush fun _ => 0
  have hrun := PolledQueues.drive_run oneSlot threePops ((PolledQueues.new fun _ => 0).drive oneSlot bothPush).2
  exact ⟨_, by decide +kernel, served_in_turn (k := 1) h (by decide +kernel) hrun (by decide +kernel)⟩

/-- **A `pop` does not fail while an item waits**: from a point between two calls at which queue `k` has items, no call
returns `false` before one serves it. -/
theorem no_failure_before_served (h : (PolledQueues.system cap T count).Trace trace s) (hk : poppedOff k trace ≠ pushedTo k trace)
    (hidle : s.point = .idle) (hrun : (PolledQueues.system cap T count).Run s more s') (hfailed : .popEmpty ∈ more) :
    ∃ item, .consumer k (.popped item) ∈ more := by
  by_contra hnot
  have hinv := pollInv_trace h
  have hsteps : ∀ ev ∈ more, ∀ s s', (PollInv s ∧ Awaits cap k s) ∧ s.wait k < count.size → PolledQueues.Step cap s ev s' →
      ((PollInv s' ∧ Awaits cap k s') ∧ s'.wait k < count.size) ∧ 0 + (if ev.isPopEmpty then 1 else 0) ≤ 0 := by
    rintro ev hmem s s' ⟨⟨hinv, hwaits⟩, hlt⟩ hstep
    obtain ⟨hkept, hle⟩ := hwaits.keep hinv hstep fun item he => hnot ⟨item, he ▸ hmem⟩
    refine ⟨⟨hkept, by omega⟩, ?_⟩
    cases ev with
    | popEmpty => exact absurd hstep (hinv.not_failed hlt)
    | _ => exact Nat.le_refl _
  obtain ⟨-, hle⟩ := hrun.potential _ (fun _ => 0) _ ⟨⟨hinv, trace, h, hk⟩, hinv.wait_of_idle hidle⟩ hsteps
  have hpos : 0 < more.countP PollEvent.isPopEmpty := List.countP_pos_iff.2 ⟨_, hfailed, rfl⟩
  omega

theorem no_failure_before_served_two : ∃ (more : List (PollEvent ℕ twoProducers)), .popEmpty ∈ more ∧
    ∃ item, .consumer 1 (.popped item) ∈ more := by
  have h := PolledQueues.drive_trace oneSlot bothPush fun _ => 0
  have hrun := PolledQueues.drive_run oneSlot threePops ((PolledQueues.new fun _ => 0).drive oneSlot bothPush).2
  exact ⟨_, by decide +kernel, no_failure_before_served (k := 1) h (by decide +kernel) (by decide +kernel) hrun (by decide +kernel)⟩

end TradeCore
