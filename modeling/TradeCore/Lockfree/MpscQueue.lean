import TradeCore.Common.Exec
import TradeCore.Lockfree.SpscQueue
/-!
# `MPSCQueue<T, CapacityPerProducer, NumProducers>` (`lockfree/mpsc_queue.hpp`)

| here | there |
| --- | --- |
| `ProducerCount`     | `NumProducers` |
| `SPSCQueue.push`    | `push` (`spsc_queue.hpp:28`) as one action |
| `SPSCQueue.pop`     | `pop` (`spsc_queue.hpp:61`) as one action |
| `MPSCQueue.push`    | `push` (`mpsc_queue.hpp:25`) |
| `MPSCQueue.pop`     | `pop` (`mpsc_queue.hpp:36`) |

Each call is atomic. The two overloads of `push` do the same to the queue; `pop` moves the item out, so what it leaves
in the slot is anything. `pop` also names the queue the item came from.
-/

namespace TradeCore

namespace SPSCQueue

variable {T : Type} (cap : QueueCapacity)

def push (q : SPSCQueue T) (item : T) : Bool × SPSCQueue T :=
  let currentTail := q.producer.tail
  let nextTail := currentTail + 1
  let store (q : SPSCQueue T) : SPSCQueue T :=
    { q with
      buffer := Function.update q.buffer (cap.slot currentTail) item
      producer := { q.producer with tail := nextTail } }
  if nextTail - q.producer.headCached > cap.size then
    let q := { q with producer := { q.producer with headCached := q.consumer.head } }
    if nextTail - q.producer.headCached > cap.size then (false, q) else (true, store q)
  else (true, store q)

def pop (left : T) (q : SPSCQueue T) : Option T × SPSCQueue T :=
  let currentHead := q.consumer.head
  let take (q : SPSCQueue T) : Option T × SPSCQueue T :=
    (some (q.buffer (cap.slot currentHead)),
      { q with
        buffer := Function.update q.buffer (cap.slot currentHead) left
        consumer := { q.consumer with head := currentHead + 1 } })
  if currentHead = q.consumer.tailCached then
    let q := { q with consumer := { q.consumer with tailCached := q.producer.tail } }
    if currentHead = q.consumer.tailCached then (none, q) else take q
  else take q

end SPSCQueue

/-- `std::size_t NumProducers`: `pop` takes remainders by it. -/
structure ProducerCount where
  size : ℕ
  pos : 0 < size

/-- `i % NumProducers`. -/
def ProducerCount.wrap (count : ProducerCount) (i : ℕ) : Fin count.size := ⟨i % count.size, Nat.mod_lt _ count.pos⟩

structure MPSCQueue (T : Type) (count : ProducerCount) where
  queues : Fin count.size → SPSCQueue T
  nextPollIdx : ℕ

namespace MPSCQueue

variable {T : Type} {count : ProducerCount} (cap : QueueCapacity)

/-- The constructor. -/
def new (init : Fin count.size → T) : MPSCQueue T count := ⟨fun i => SPSCQueue.new (init i), 0⟩

def push (q : MPSCQueue T count) (producerId : ℕ) (item : T) : Exec (Bool × MPSCQueue T count) := do
  tradecoreAssert (producerId < count.size) "producer_id < NumProducers"
  if h : producerId < count.size then
    let (pushed, queue) := (q.queues ⟨producerId, h⟩).push cap item
    return (pushed, { q with queues := Function.update q.queues ⟨producerId, h⟩ queue })
  else Exec.fail .outOfBounds

/-- The loop of `pop` from its `i`-th turn on, with `k` turns to go. -/
def popLoop (left : T) : ℕ → ℕ → MPSCQueue T count → Option (Fin count.size × T) × MPSCQueue T count
  | 0, _, q => (none, q)
  | k + 1, i, q =>
    let idx := count.wrap (q.nextPollIdx + i)
    match (q.queues idx).pop cap left with
    | (some item, queue) =>
      (some (idx, item), { queues := Function.update q.queues idx queue, nextPollIdx := (idx + 1) % count.size })
    | (none, queue) => popLoop left k (i + 1) { q with queues := Function.update q.queues idx queue }

def pop (left : T) (q : MPSCQueue T count) : Option (Fin count.size × T) × MPSCQueue T count :=
  q.popLoop cap left count.size 0

end MPSCQueue

/-- A call that returned. -/
inductive MpscEvent (T : Type) (count : ProducerCount) where
  | pushed (producer : Fin count.size) (item : T)
  | pushFull (producer : Fin count.size)
  | popped (producer : Fin count.size) (item : T)
  | popEmpty

namespace MPSCQueue

variable {T : Type} {count : ProducerCount} (cap : QueueCapacity)

/-- One call of any producer or of the consumer. -/
inductive Step : MPSCQueue T count → MpscEvent T count → MPSCQueue T count → Prop where
  | pushed {q q' : MPSCQueue T count} {i : Fin count.size} {item : T} {b : Build} :
      q.push cap i item b = .ok (true, q') → Step q (.pushed i item) q'
  | pushFull {q q' : MPSCQueue T count} {i : Fin count.size} {item : T} {b : Build} :
      q.push cap i item b = .ok (false, q') → Step q (.pushFull i) q'
  | popped {q q' : MPSCQueue T count} {i : Fin count.size} {item : T} (left : T) :
      q.pop cap left = (some (i, item), q') → Step q (.popped i item) q'
  | popEmpty {q q' : MPSCQueue T count} (left : T) : q.pop cap left = (none, q') → Step q .popEmpty q'

/-- Any interleaving of the calls, from empty queues. -/
def system (T : Type) (count : ProducerCount) : TransitionSystem (MPSCQueue T count) (MpscEvent T count) where
  init q := ∃ init, q = new init
  step := Step cap

end MPSCQueue

/-- The items that producer `i` pushed, in order. -/
def pushedBy {T : Type} {count : ProducerCount} (i : Fin count.size) (trace : List (MpscEvent T count)) : List T :=
  trace.filterMap fun
    | .pushed j item => if j = i then some item else none
    | _ => none

/-- The items that came from producer `i`, in order. -/
def poppedFrom {T : Type} {count : ProducerCount} (i : Fin count.size) (trace : List (MpscEvent T count)) : List T :=
  trace.filterMap fun
    | .popped j item => if j = i then some item else none
    | _ => none

/-- The number of successful `pop`s. -/
def popCount {T : Type} {count : ProducerCount} (trace : List (MpscEvent T count)) : ℕ :=
  trace.countP fun
    | .popped _ _ => true
    | _ => false

end TradeCore
