import TradeCore.Lib.RingBuffer
import TradeCore.Lockfree.SpscQueue
/-!
# The queue under every interleaving

The counters are the numbers of items pushed and popped so far, and each cached counter is an older value of the
other side's: `hc ≤ popped ≤ tc ≤ pushed ≤ hc + Capacity`. `QueueInv` says so at every point of both threads; the
items between are in their slots, less the one that a `pop` has already moved out. Each side keeps it by what its
own cached counter says, whatever the other one has done since.
-/

namespace TradeCore

open RingBuffer

variable {T : Type} {cap : QueueCapacity} {pushed popped : List T} {hc tc : ℕ} {q q' : SPSCQueue T} {e : QueueEvent T}

/-! ## What a step adds to the trace -/

theorem pushedItems_concat (trace : List (QueueEvent T)) (e : QueueEvent T) :
    pushedItems (trace ++ [e]) = pushedItems trace ++ pushedItems [e] :=
  List.filterMap_append

theorem poppedItems_concat (trace : List (QueueEvent T)) (e : QueueEvent T) :
    poppedItems (trace ++ [e]) = poppedItems trace ++ poppedItems [e] :=
  List.filterMap_append

/-- A queue gives out its items in order. -/
theorem prefix_concat {item : T} (h : popped <+: pushed) (hitem : pushed[popped.length]? = some item) :
    popped ++ [item] <+: pushed := by
  obtain ⟨rest, rfl⟩ := h
  rw [List.getElem?_append_right (Nat.le_refl _), Nat.sub_self] at hitem
  obtain ⟨rest', rfl⟩ : ∃ rest', rest = item :: rest' := by
    cases rest with
    | nil => cases hitem
    | cons x rest' =>
      cases hitem
      exact ⟨rest', rfl⟩
  exact ⟨rest', by simp⟩

/-! ## The slots -/

namespace QueueCapacity

theorem slot_ofNat (cap : QueueCapacity) (n : ℕ) : cap.slot (UInt64.ofNat n) = n % 2 ^ cap.log :=
  toNat_and_mask (by have := cap.log_lt; omega) n

theorem toNat_size (cap : QueueCapacity) : cap.size.toNat = 2 ^ cap.log := by
  have hlt : 2 ^ cap.log < 2 ^ 63 := Nat.pow_lt_pow_right (by decide) cap.log_lt
  exact Nat.mod_eq_of_lt (by omega)

theorem two_pow_log_lt (cap : QueueCapacity) : 2 ^ cap.log < 2 ^ 63 :=
  Nat.pow_lt_pow_right (by decide) cap.log_lt

/-- The test of `push`. -/
theorem full_iff (cap : QueueCapacity) {n m : ℕ} (hle : m ≤ n) (hlt : n ≤ m + 2 ^ cap.log) :
    UInt64.ofNat n + 1 - UInt64.ofNat m > cap.size ↔ n = m + 2 ^ cap.log := by
  have hsize := cap.two_pow_log_lt
  rw [ofNat_succ, gt_iff_lt, UInt64.lt_iff_toNat_lt, cap.toNat_size, toNat_sub_ofNat (by omega) (by omega)]
  omega

end QueueCapacity

/-! ## The invariant -/

/-- What a producer knows. -/
def PushPoint.Fits (cap : QueueCapacity) (buffer : ℕ → T) (pushed hc : ℕ) : PushPoint T → Prop
  | .idle | .loadTail _ => True
  | .loadHead _ currentTail => currentTail = UInt64.ofNat pushed
  | .write _ currentTail => currentTail = UInt64.ofNat pushed ∧ pushed < hc + 2 ^ cap.log
  | .storeTail item currentTail =>
    currentTail = UInt64.ofNat pushed ∧ pushed < hc + 2 ^ cap.log ∧ buffer (pushed % 2 ^ cap.log) = item

/-- What a consumer knows. -/
def PopPoint.Fits (pushed : List T) (popped tc : ℕ) : PopPoint T → Prop
  | .idle | .loadHead => True
  | .loadTail currentHead => currentHead = UInt64.ofNat popped
  | .read currentHead => currentHead = UInt64.ofNat popped ∧ popped < tc
  | .storeHead item currentHead => currentHead = UInt64.ofNat popped ∧ popped < tc ∧ pushed[popped]? = some item

/-- The number of the first item that is still to be read. -/
def PopPoint.unread (popped : ℕ) : PopPoint T → ℕ
  | .storeHead _ _ => popped + 1
  | _ => popped

/-- The queue after these pushes and pops, at any point of either thread. -/
structure QueueInv (cap : QueueCapacity) (pushed popped : List T) (hc tc : ℕ) (q : SPSCQueue T) : Prop where
  tail : q.producer.tail = UInt64.ofNat pushed.length
  head : q.consumer.head = UInt64.ofNat popped.length
  headCached : q.producer.headCached = UInt64.ofNat hc
  tailCached : q.consumer.tailCached = UInt64.ofNat tc
  hc_le : hc ≤ popped.length
  le_tc : popped.length ≤ tc
  tc_le : tc ≤ pushed.length
  room : pushed.length ≤ hc + 2 ^ cap.log
  producer : q.producer.point.Fits cap q.buffer pushed.length hc
  consumer : q.consumer.point.Fits pushed popped.length tc
  held : Holds q.buffer (2 ^ cap.log) pushed (q.consumer.point.unread popped.length)
  inOrder : popped <+: pushed

theorem PopPoint.le_unread (popped : ℕ) (point : PopPoint T) : popped ≤ point.unread popped := by
  cases point with
  | storeHead => exact Nat.le_succ _
  | _ => exact Nat.le_refl _

theorem PopPoint.Fits.append {point : PopPoint T} (h : point.Fits pushed popped.length tc) (items : List T) :
    point.Fits (pushed ++ items) popped.length tc := by
  cases point with
  | storeHead item currentHead =>
    obtain ⟨h1, h2, h3⟩ := h
    obtain ⟨hlt, -⟩ := List.getElem?_eq_some_iff.1 h3
    exact ⟨h1, h2, (List.getElem?_append_left hlt).trans h3⟩
  | _ => exact h

/-- A write to another slot than the next item's. -/
theorem PushPoint.Fits.update {buffer : ℕ → T} {n : ℕ} {point : PushPoint T} (h : point.Fits cap buffer n hc) {slot : ℕ} {x : T}
    (hne : n < hc + 2 ^ cap.log → n % 2 ^ cap.log ≠ slot) : point.Fits cap (Function.update buffer slot x) n hc := by
  cases point with
  | storeTail item currentTail =>
    obtain ⟨h1, h2, h3⟩ := h
    exact ⟨h1, h2, (Function.update_of_ne (hne h2) _ _).trans h3⟩
  | _ => exact h

theorem queueInv_new (cap : QueueCapacity) (init : T) : QueueInv cap [] [] 0 0 (SPSCQueue.new init) where
  tail := rfl
  head := rfl
  headCached := rfl
  tailCached := rfl
  hc_le := Nat.le_refl _
  le_tc := Nat.le_refl _
  tc_le := Nat.le_refl _
  room := Nat.zero_le _
  producer := trivial
  consumer := trivial
  held := by
    intro n _ hn
    cases hn
  inOrder := List.nil_prefix

/-- A step that shows no item leaves the histories alone. -/
theorem QueueInv.quiet (h : QueueInv cap pushed popped hc tc q) (hpush : pushedItems [e] = []) (hpop : poppedItems [e] = []) :
    QueueInv cap (pushed ++ pushedItems [e]) (popped ++ poppedItems [e]) hc tc q := by
  rwa [hpush, hpop, List.append_nil, List.append_nil]

/-! ## The producer -/

theorem QueueInv.pushFull_iff (h : QueueInv cap pushed popped hc tc q) :
    UInt64.ofNat pushed.length + 1 - UInt64.ofNat hc > cap.size ↔ pushed.length = hc + 2 ^ cap.log :=
  cap.full_iff (h.hc_le.trans h.inOrder.length_le) h.room

/-- **The slot that a producer may write** is not the slot of an item that is still to be read. -/
theorem QueueInv.slot_free (h : QueueInv cap pushed popped hc tc q) (hroom : pushed.length < hc + 2 ^ cap.log) :
    ∀ n, q.consumer.point.unread popped.length ≤ n → n < pushed.length → n % 2 ^ cap.log ≠ pushed.length % 2 ^ cap.log := by
  have hle := h.hc_le
  have hunread := q.consumer.point.le_unread popped.length
  exact RingBuffer.slot_free (by omega)

/-- Re-reading `head` is no loss: the cached counter catches up. -/
theorem QueueInv.reloadHead (h : QueueInv cap pushed popped hc tc q) (hq : q.producer.point.Fits cap q.buffer pushed.length popped.length) :
    QueueInv cap pushed popped popped.length tc { q with producer := { q.producer with headCached := q.consumer.head } } :=
  { h with
    headCached := h.head
    hc_le := Nat.le_refl _
    room := h.room.trans (Nat.add_le_add_right h.hc_le _)
    producer := hq }

/-- **A step of `push`** keeps the invariant. -/
theorem QueueInv.pushStep (h : QueueInv cap pushed popped hc tc q) (hstep : q.pushStep cap = some (e, q')) :
    ∃ hc', QueueInv cap (pushed ++ pushedItems [e]) (popped ++ poppedItems [e]) hc' tc q' := by
  have hpoint := h.producer
  unfold SPSCQueue.pushStep at hstep
  cases hp : q.producer.point with
  | idle =>
    rw [hp] at hstep
    cases hstep
  | loadTail item =>
    rw [hp] at hstep
    dsimp only at hstep
    rw [h.tail, h.headCached, ← h.tail] at hstep
    split_ifs at hstep with hfull
    · cases hstep
      exact ⟨hc, QueueInv.quiet { h with producer := h.tail } rfl rfl⟩
    · cases hstep
      rw [h.tail, h.pushFull_iff] at hfull
      have hroom := h.room
      exact ⟨hc, QueueInv.quiet { h with producer := ⟨h.tail, by omega⟩ } rfl rfl⟩
  | loadHead item t =>
    rw [hp] at hstep hpoint
    have ht : t = UInt64.ofNat pushed.length := hpoint
    subst ht
    have h' := h.reloadHead (by rw [hp]; rfl)
    dsimp only at hstep
    split_ifs at hstep with hfull
    · cases hstep
      exact ⟨popped.length, QueueInv.quiet { h' with producer := trivial } rfl rfl⟩
    · cases hstep
      rw [h.head, h'.pushFull_iff] at hfull
      have hroom := h'.room
      exact ⟨popped.length, QueueInv.quiet { h' with producer := ⟨rfl, by omega⟩ } rfl rfl⟩
  | write item t =>
    rw [hp] at hstep hpoint
    obtain ⟨rfl, hroom⟩ := hpoint
    dsimp only at hstep
    rw [cap.slot_ofNat] at hstep
    cases hstep
    have hfree := h.slot_free hroom
    exact ⟨hc, QueueInv.quiet { h with
      producer := ⟨rfl, hroom, Function.update_self _ _ _⟩
      held := h.held.update hfree } rfl rfl⟩
  | storeTail item t =>
    rw [hp] at hstep hpoint
    obtain ⟨rfl, hroom, hitem⟩ := hpoint
    cases hstep
    have hlength : (pushed ++ [item]).length = pushed.length + 1 := List.length_append
    refine ⟨hc, ?_⟩
    rw [show poppedItems [QueueEvent.pushed item] = [] from rfl, List.append_nil]
    exact { h with
      tail := by rw [show pushedItems [QueueEvent.pushed item] = [item] from rfl, hlength, ← ofNat_succ]; rfl
      tc_le := by have := h.tc_le; change tc ≤ (pushed ++ [item]).length; omega
      room := by change (pushed ++ [item]).length ≤ _; omega
      producer := trivial
      consumer := h.consumer.append [item]
      held := h.held.append hitem
      inOrder := h.inOrder.trans (List.prefix_append _ _) }

/-! ## The consumer -/

theorem QueueInv.popEmpty_iff (h : QueueInv cap pushed popped hc tc q) :
    UInt64.ofNat popped.length = UInt64.ofNat tc ↔ popped.length = tc := by
  have hsize := cap.two_pow_log_lt
  have h1 := h.tc_le
  have h2 := h.room
  have h3 := h.hc_le
  exact ⟨fun he => eq_of_ofNat_eq he h.le_tc (by omega), fun he => by rw [he]⟩

/-- Re-reading `tail` is no loss. -/
theorem QueueInv.reloadTail (h : QueueInv cap pushed popped hc tc q) (hq : q.consumer.point.Fits pushed popped.length pushed.length) :
    QueueInv cap pushed popped hc pushed.length { q with consumer := { q.consumer with tailCached := q.producer.tail } } :=
  { h with
    tailCached := h.tail
    le_tc := h.inOrder.length_le
    tc_le := Nat.le_refl _
    consumer := hq }

/-- **A step of `pop`** keeps the invariant. -/
theorem QueueInv.popStep {left : T} (h : QueueInv cap pushed popped hc tc q) (hstep : q.popStep cap left = some (e, q')) :
    ∃ tc', QueueInv cap (pushed ++ pushedItems [e]) (popped ++ poppedItems [e]) hc tc' q' := by
  have hpoint := h.consumer
  have hheld := h.held
  unfold SPSCQueue.popStep at hstep
  cases hp : q.consumer.point with
  | idle =>
    rw [hp] at hstep
    cases hstep
  | loadHead =>
    rw [hp] at hstep hheld
    dsimp only at hstep
    split_ifs at hstep with hempty
    · cases hstep
      exact ⟨tc, QueueInv.quiet { h with consumer := h.head, held := hheld } rfl rfl⟩
    · cases hstep
      rw [h.head, h.tailCached, h.popEmpty_iff] at hempty
      exact ⟨tc, QueueInv.quiet { h with
        consumer := ⟨h.head, Nat.lt_of_le_of_ne h.le_tc hempty⟩
        held := hheld } rfl rfl⟩
  | loadTail currentHead =>
    rw [hp] at hstep hpoint hheld
    have hhead : currentHead = UInt64.ofNat popped.length := hpoint
    subst hhead
    have h' := h.reloadTail (by rw [hp]; rfl)
    dsimp only at hstep
    split_ifs at hstep with hempty
    · cases hstep
      exact ⟨pushed.length, QueueInv.quiet { h' with consumer := trivial, held := hheld } rfl rfl⟩
    · cases hstep
      rw [h.tail, h'.popEmpty_iff] at hempty
      exact ⟨pushed.length, QueueInv.quiet { h' with
        consumer := ⟨rfl, Nat.lt_of_le_of_ne h'.le_tc hempty⟩
        held := hheld } rfl rfl⟩
  | read currentHead =>
    rw [hp] at hstep hpoint hheld
    obtain ⟨rfl, hlt⟩ := hpoint
    dsimp only at hstep
    rw [cap.slot_ofNat] at hstep
    cases hstep
    have hle := h.hc_le
    have hroom := h.room
    have hpushed : popped.length < pushed.length := hlt.trans_le h.tc_le
    -- the producer may be in front of the store of an item that it wrote to the next slot
    have hproducer : q.producer.point.Fits cap
        (Function.update q.buffer (popped.length % 2 ^ cap.log) left) pushed.length hc := by
      refine h.producer.update fun hroom' he => ?_
      have := eq_of_slot_eq he.symm (by omega) (by omega)
      omega
    exact ⟨tc, QueueInv.quiet { h with
      producer := hproducer
      consumer := ⟨rfl, hlt, hheld popped.length (Nat.le_refl _) hpushed⟩
      held := hheld.consume (show pushed.length ≤ popped.length + 2 ^ cap.log by omega) } rfl rfl⟩
  | storeHead item currentHead =>
    rw [hp] at hstep hpoint hheld
    obtain ⟨rfl, hlt, hitem⟩ := hpoint
    cases hstep
    have hlength : (popped ++ [item]).length = popped.length + 1 := List.length_append
    refine ⟨tc, ?_⟩
    rw [show pushedItems [QueueEvent.popped item] = [] from rfl, List.append_nil]
    exact { h with
      head := by rw [show poppedItems [QueueEvent.popped item] = [item] from rfl, hlength, ← ofNat_succ]; rfl
      hc_le := by have := h.hc_le; change hc ≤ (popped ++ [item]).length; omega
      le_tc := by change (popped ++ [item]).length ≤ tc; omega
      consumer := trivial
      held := by rw [show poppedItems [QueueEvent.popped item] = [item] from rfl, hlength]; exact hheld
      inOrder := prefix_concat h.inOrder hitem }

/-! ## Runs -/

/-- A step of either thread keeps the invariant. -/
theorem QueueInv.step (h : QueueInv cap pushed popped hc tc q) (hstep : SPSCQueue.Step cap q e q') :
    ∃ hc' tc', QueueInv cap (pushed ++ pushedItems [e]) (popped ++ poppedItems [e]) hc' tc' q' := by
  cases hstep with
  | push item hidle => exact ⟨hc, tc, QueueInv.quiet { h with producer := trivial } rfl rfl⟩
  | pushing hpush =>
    obtain ⟨hc', h'⟩ := h.pushStep hpush
    exact ⟨hc', tc, h'⟩
  | pop hidle =>
    have hheld := h.held
    rw [hidle] at hheld
    exact ⟨hc, tc, QueueInv.quiet { h with consumer := trivial, held := hheld } rfl rfl⟩
  | popping left hpop =>
    obtain ⟨tc', h'⟩ := h.popStep hpop
    exact ⟨hc, tc', h'⟩

variable {trace : List (QueueEvent T)}

/-- **The invariant holds after every interleaving.** -/
theorem queueInv_trace (h : (SPSCQueue.system cap T).Trace trace q) :
    ∃ hc tc, QueueInv cap (pushedItems trace) (poppedItems trace) hc tc q := by
  refine h.invariant (fun trace q => ∃ hc tc, QueueInv cap (pushedItems trace) (poppedItems trace) hc tc q) ?_ ?_
  · rintro _ ⟨init, rfl⟩
    exact ⟨0, 0, queueInv_new cap init⟩
  · rintro trace q e q' ⟨hc, tc, h⟩ hstep
    rw [pushedItems_concat, poppedItems_concat]
    exact h.step hstep

/-- What a step of `push` shows: it returns `false` only from the re-read of `head`. -/
theorem SPSCQueue.pushStep_event (hstep : q.pushStep cap = some (e, q')) :
    e = .internal ∨ (∃ item, e = .pushed item) ∨ e = .pushFull ∧ ∃ item currentTail,
      q.producer.point = .loadHead item currentTail ∧ currentTail + 1 - q.consumer.head > cap.size := by
  unfold SPSCQueue.pushStep at hstep
  cases hp : q.producer.point with
  | idle =>
    rw [hp] at hstep
    cases hstep
  | loadTail item =>
    rw [hp] at hstep
    dsimp only at hstep
    split_ifs at hstep <;> cases hstep <;> exact Or.inl rfl
  | loadHead item currentTail =>
    rw [hp] at hstep
    dsimp only at hstep
    split_ifs at hstep with hfull
    · cases hstep
      exact Or.inr (Or.inr ⟨rfl, item, currentTail, rfl, hfull⟩)
    · cases hstep
      exact Or.inl rfl
  | write item currentTail =>
    rw [hp] at hstep
    cases hstep
    exact Or.inl rfl
  | storeTail item currentTail =>
    rw [hp] at hstep
    cases hstep
    exact Or.inr (Or.inl ⟨item, rfl⟩)

/-- What a step of `pop` shows: it returns `false` only from the re-read of `tail`. -/
theorem SPSCQueue.popStep_event {left : T} (hstep : q.popStep cap left = some (e, q')) :
    e = .internal ∨ (∃ item, e = .popped item) ∨ e = .popEmpty ∧ ∃ currentHead,
      q.consumer.point = .loadTail currentHead ∧ currentHead = q.producer.tail := by
  unfold SPSCQueue.popStep at hstep
  cases hp : q.consumer.point with
  | idle =>
    rw [hp] at hstep
    cases hstep
  | loadHead =>
    rw [hp] at hstep
    dsimp only at hstep
    split_ifs at hstep <;> cases hstep <;> exact Or.inl rfl
  | loadTail currentHead =>
    rw [hp] at hstep
    dsimp only at hstep
    split_ifs at hstep with hempty
    · cases hstep
      exact Or.inr (Or.inr ⟨rfl, currentHead, rfl, hempty⟩)
    · cases hstep
      exact Or.inl rfl
  | read currentHead =>
    rw [hp] at hstep
    cases hstep
    exact Or.inl rfl
  | storeHead item currentHead =>
    rw [hp] at hstep
    cases hstep
    exact Or.inr (Or.inl ⟨item, rfl⟩)

theorem SPSCQueue.Step.pushFull (h : SPSCQueue.Step cap q .pushFull q') :
    ∃ item currentTail, q.producer.point = .loadHead item currentTail ∧ currentTail + 1 - q.consumer.head > cap.size := by
  cases h with
  | pushing hstep =>
    rcases SPSCQueue.pushStep_event hstep with h | ⟨_, h⟩ | ⟨-, h⟩
    · cases h
    · cases h
    · exact h
  | popping left hstep =>
    rcases SPSCQueue.popStep_event hstep with h | ⟨_, h⟩ | ⟨h, -⟩ <;> cases h

theorem SPSCQueue.Step.popEmpty (h : SPSCQueue.Step cap q .popEmpty q') :
    ∃ currentHead, q.consumer.point = .loadTail currentHead ∧ currentHead = q.producer.tail := by
  cases h with
  | pushing hstep =>
    rcases SPSCQueue.pushStep_event hstep with h | ⟨_, h⟩ | ⟨h, -⟩ <;> cases h
  | popping left hstep =>
    rcases SPSCQueue.popStep_event hstep with h | ⟨_, h⟩ | ⟨-, h⟩
    · cases h
    · cases h
    · exact h

/-- **The queue is a queue**, under every interleaving of one producer and one consumer. -/
theorem spsc_linearizable (h : (SPSCQueue.system cap T).Trace trace q) :
    poppedItems trace <+: pushedItems trace ∧
      (pushedItems trace).length ≤ (poppedItems trace).length + 2 ^ cap.log ∧
      (∀ item currentTail, q.producer.point = .write item currentTail →
        (∀ currentHead, q.consumer.point = .read currentHead → cap.slot currentHead ≠ cap.slot currentTail) ∧
        ∀ n, (poppedItems trace).length ≤ n → n < (pushedItems trace).length →
          cap.slot (UInt64.ofNat n) ≠ cap.slot currentTail) ∧
      (∀ q', SPSCQueue.Step cap q .pushFull q' → (pushedItems trace).length = (poppedItems trace).length + 2 ^ cap.log) ∧
      ∀ q', SPSCQueue.Step cap q .popEmpty q' → (pushedItems trace).length = (poppedItems trace).length := by
  obtain ⟨hc, tc, hq⟩ := queueInv_trace h
  have hle := hq.hc_le
  have hroom := hq.room
  refine ⟨hq.inOrder, by omega, ?_, ?_, ?_⟩
  · intro item currentTail hpoint
    have hwrite := hq.producer
    rw [hpoint] at hwrite
    obtain ⟨rfl, hlt⟩ := hwrite
    have hslots : ∀ n, (poppedItems trace).length ≤ n → n < (pushedItems trace).length →
        cap.slot (UInt64.ofNat n) ≠ cap.slot (UInt64.ofNat (pushedItems trace).length) := by
      intro n hn hlen
      rw [cap.slot_ofNat, cap.slot_ofNat]
      exact slot_free (show _ < _ + 2 ^ cap.log by omega) n hn hlen
    refine ⟨fun currentHead hread => ?_, hslots⟩
    have hknown := hq.consumer
    rw [hread] at hknown
    obtain ⟨rfl, hlt'⟩ := hknown
    exact hslots _ (Nat.le_refl _) (hlt'.trans_le hq.tc_le)
  · intro q' hstep
    obtain ⟨item, currentTail, hpoint, hfull⟩ := hstep.pushFull
    have hknown := hq.producer
    rw [hpoint] at hknown
    rw [show currentTail = _ from hknown, hq.head, cap.full_iff hq.inOrder.length_le (by omega)] at hfull
    exact hfull
  · intro q' hstep
    obtain ⟨currentHead, hpoint, hempty⟩ := hstep.popEmpty
    have hknown := hq.consumer
    have hsize := cap.two_pow_log_lt
    rw [hpoint] at hknown
    rw [show currentHead = _ from hknown, hq.tail] at hempty
    exact (eq_of_ofNat_eq hempty hq.inOrder.length_le (by omega)).symm

/-- A queue of one slot: an item is pushed, and a second push finds the queue full. -/
def oneSlot : QueueCapacity := ⟨0, by decide⟩

theorem spsc_linearizable_one : ∃ (trace : List (QueueEvent ℕ)) (q : SPSCQueue ℕ), (SPSCQueue.system oneSlot ℕ).Trace trace q ∧
    pushedItems trace = [7] ∧ (∃ q', SPSCQueue.Step oneSlot q .pushFull q') ∧ poppedItems trace <+: pushedItems trace ∧
    ∀ q', SPSCQueue.Step oneSlot q .pushFull q' → (pushedItems trace).length = (poppedItems trace).length + 1 := by
  have h0 : (SPSCQueue.system oneSlot ℕ).Trace [] (.new 0) := .init ⟨0, rfl⟩
  have h1 := h0.step (.push 7 rfl)
  have h2 := h1.step (.pushing rfl)
  have h3 := h2.step (.pushing rfl)
  have h4 := h3.step (.pushing rfl)
  have h5 := h4.step (.push 8 rfl)
  have h6 := h5.step (.pushing rfl)
  obtain ⟨horder, -, -, hfull, -⟩ := spsc_linearizable h6
  exact ⟨_, _, h6, rfl, ⟨_, .pushing rfl⟩, horder, hfull⟩

end TradeCore
