import TradeCore.Lib.RoundRobin
import TradeCore.Lockfree.MpscQueue
import TradeCore.Lockfree.SpscProofs
/-!
# `MPSCQueue` step by step (`lockfree/mpsc_queue.hpp`)

| here | there |
| --- | --- |
| `PollPoint`        | where the consumer is in the loop of `pop` (`mpsc_queue.hpp:37`) |
| `PolledQueues`     | `MPSCQueue`, with that point |
| `pollStep`         | the next load, store or buffer access of `pop` (`mpsc_queue.hpp:36`) |
| `Step.push`, `Step.pushing` | `push` of one producer (`mpsc_queue.hpp:25`), which is `push` of its own queue |

`MpscQueue.lean` takes each call as one action. Here the calls interleave load by load: a producer may be anywhere in
its `push` while the consumer is anywhere in its loop. What happens to one queue is a run of `SPSCQueue`, so each
queue keeps what `QueueInv` says.
-/

namespace TradeCore

/-- Where the consumer is: outside `pop`, in front of the test of its loop, or inside the `pop` of a queue. -/
inductive PollPoint where
  | idle
  | turn (i : ℕ)
  | inside (i : ℕ)
deriving DecidableEq, Repr

structure PolledQueues (T : Type) (count : ProducerCount) where
  queues : Fin count.size → SPSCQueue T
  nextPollIdx : ℕ
  point : PollPoint

/-- A step of producer `k`, one of the consumer at queue `k`, or one between two queues: a call, or `return false`. -/
inductive PollEvent (T : Type) (count : ProducerCount) where
  | producer (k : Fin count.size) (e : QueueEvent T)
  | consumer (k : Fin count.size) (e : QueueEvent T)
  | called
  | popEmpty
deriving DecidableEq, Repr

namespace PolledQueues

variable {T : Type} {count : ProducerCount} (cap : QueueCapacity)

/-- The constructor. -/
def new (init : Fin count.size → T) : PolledQueues T count := ⟨fun k => SPSCQueue.new (init k), 0, .idle⟩

def set (s : PolledQueues T count) (k : Fin count.size) (queue : SPSCQueue T) : PolledQueues T count :=
  { s with queues := Function.update s.queues k queue }

@[simp] theorem set_self (s : PolledQueues T count) (k : Fin count.size) (queue : SPSCQueue T) : (s.set k queue).queues k = queue :=
  Function.update_self _ _ _

theorem set_of_ne (s : PolledQueues T count) {j k : Fin count.size} (h : j ≠ k) (queue : SPSCQueue T) :
    (s.set k queue).queues j = s.queues j :=
  Function.update_of_ne h _ _

/-- `idx` in the `i`-th turn. -/
def idx (s : PolledQueues T count) (i : ℕ) : Fin count.size := count.wrap (s.nextPollIdx + i)

/-- The next step of the consumer inside `pop`. -/
def pollStep (left : T) (s : PolledQueues T count) : Option (PollEvent T count × PolledQueues T count) :=
  match s.point with
  | .idle => none
  | .turn i =>
    if i < count.size then
      let s' := s.set (s.idx i) ((s.queues (s.idx i)).atPop .loadHead)
      some (.consumer (s.idx i) .internal, { s' with point := .inside i })
    else some (.popEmpty, { s with point := .idle })
  | .inside i =>
    match (s.queues (s.idx i)).popStep cap left with
    | none => none
    | some (e, queue) =>
      let s' := s.set (s.idx i) queue
      match e with
      | .popped item =>
        some (.consumer (s.idx i) (.popped item), { s' with nextPollIdx := (s.idx i + 1) % count.size, point := .idle })
      | .popEmpty => some (.consumer (s.idx i) .popEmpty, { s' with point := .turn (i + 1) })
      | e => some (.consumer (s.idx i) e, s')

/-- A step of any producer or of the consumer: it calls, or goes on with its call. -/
inductive Step : PolledQueues T count → PollEvent T count → PolledQueues T count → Prop where
  | push {s : PolledQueues T count} (k : Fin count.size) (item : T) :
    (s.queues k).producer.point = .idle → Step s (.producer k .internal) (s.set k ((s.queues k).atPush (.loadTail item)))
  | pushing {s : PolledQueues T count} (k : Fin count.size) {e : QueueEvent T} {queue : SPSCQueue T} :
    (s.queues k).pushStep cap = some (e, queue) → Step s (.producer k e) (s.set k queue)
  | pop {s : PolledQueues T count} : s.point = .idle → Step s .called { s with point := .turn 0 }
  | polling {s s' : PolledQueues T count} {e : PollEvent T count} (left : T) :
    s.pollStep cap left = some (e, s') → Step s e s'

/-- Any interleaving of the producers and the consumer, from empty queues. -/
def system (T : Type) (count : ProducerCount) : TransitionSystem (PolledQueues T count) (PollEvent T count) where
  init s := ∃ init, s = new init
  step := Step cap

/-- Which thread steps next, and what it does if it is outside its call. -/
inductive Turn (T : Type) (count : ProducerCount) where
  | push (k : Fin count.size) (item : T)
  | pushing (k : Fin count.size)
  | pop
  | polling (left : T)

/-- The step that a turn asks for. -/
def next (s : PolledQueues T count) : Turn T count → Option (PollEvent T count × PolledQueues T count)
  | .push k item =>
    match (s.queues k).producer.point with
    | .idle => some (.producer k .internal, s.set k ((s.queues k).atPush (.loadTail item)))
    | _ => none
  | .pushing k => ((s.queues k).pushStep cap).map fun r => (.producer k r.1, s.set k r.2)
  | .pop => if s.point = .idle then some (.called, { s with point := .turn 0 }) else none
  | .polling left => s.pollStep cap left

/-- A schedule, as long as its steps can be made. -/
def drive : List (Turn T count) → PolledQueues T count → List (PollEvent T count) × PolledQueues T count
  | [], s => ([], s)
  | turn :: schedule, s =>
    match s.next cap turn with
    | none => ([], s)
    | some (ev, s') => (ev :: (drive schedule s').1, (drive schedule s').2)

end PolledQueues

variable {T : Type} {count : ProducerCount} {cap : QueueCapacity}

namespace SPSCQueue

/-- The number of the first item in the buffer, behind the one that `pop` has moved out and not yet let go. -/
def firstHeld (q : SPSCQueue T) : UInt64 :=
  match q.consumer.point with
  | .storeHead _ _ => q.consumer.head + 1
  | _ => q.consumer.head

/-- The item that `pop` has moved out. -/
def inHand (q : SPSCQueue T) : List T :=
  match q.consumer.point with
  | .storeHead item _ => [item]
  | _ => []

/-- What the queue holds, oldest first: read off its counters and its buffer. -/
def held (cap : QueueCapacity) (q : SPSCQueue T) : List T :=
  q.inHand ++ (List.range (q.producer.tail - q.firstHeld).toNat).map fun i => q.buffer (cap.slot (q.firstHeld + UInt64.ofNat i))

end SPSCQueue

/-- What happened to queue `k`. -/
def onQueue (k : Fin count.size) (trace : List (PollEvent T count)) : List (QueueEvent T) :=
  trace.filterMap fun
    | .producer j e | .consumer j e => if j = k then some e else none
    | _ => none

/-- The items that producer `k` has pushed, and those that were popped from its queue. -/
def pushedTo (k : Fin count.size) (trace : List (PollEvent T count)) : List T := pushedItems (onQueue k trace)

def poppedOff (k : Fin count.size) (trace : List (PollEvent T count)) : List T := poppedItems (onQueue k trace)

end TradeCore
