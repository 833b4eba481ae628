import TradeCore.Lib.Traces
/-!
# `SPSCQueue<T, Capacity>` (`lockfree/spsc_queue.hpp`)

| here | there |
| --- | --- |
| `QueueCapacity`  | `Capacity`, a power of two (`spsc_queue.hpp:18`) |
| `ProducerState`  | `ProducerState` (`spsc_queue.hpp:91`) and where its thread is in `push` |
| `ConsumerState`  | `ConsumerState` (`spsc_queue.hpp:96`) and where its thread is in `pop` |
| `pushStep`       | the next load, store or buffer access of `push` (`spsc_queue.hpp:28`) |
| `popStep`        | the next load, store or buffer access of `pop` (`spsc_queue.hpp:61`) |

A step is one load or store of an atomic, or one access to the buffer, with what follows it up to the next one; the
cached counters belong to one thread. The two overloads of `push` make the same steps. `pop` moves the item out, so
what it leaves in the slot is anything.
-/

namespace TradeCore

/-- `std::size_t Capacity`, `std::has_single_bit`, below 2^63. -/
structure QueueCapacity where
  log : ℕ
  log_lt : log < 63

namespace QueueCapacity

def size (cap : QueueCapacity) : UInt64 := UInt64.ofNat (2 ^ cap.log)

/-- `i & (Capacity - 1)`. -/
def slot (cap : QueueCapacity) (i : UInt64) : ℕ := (i &&& (cap.size - 1)).toNat

end QueueCapacity

/-- Where a producer is: outside `push`, or in front of the named access. -/
inductive PushPoint (T : Type) where
  | idle
  | loadTail (item : T)
  | loadHead (item : T) (currentTail : UInt64)
  | write (item : T) (currentTail : UInt64)
  | storeTail (item : T) (currentTail : UInt64)
deriving DecidableEq, Repr

/-- Where a consumer is: outside `pop`, or in front of the named access. -/
inductive PopPoint (T : Type) where
  | idle
  | loadHead
  | loadTail (currentHead : UInt64)
  | read (currentHead : UInt64)
  | storeHead (item : T) (currentHead : UInt64)
deriving DecidableEq, Repr

structure ProducerState (T : Type) where
  tail : UInt64
  headCached : UInt64
  point : PushPoint T

structure ConsumerState (T : Type) where
  head : UInt64
  tailCached : UInt64
  point : PopPoint T

structure SPSCQueue (T : Type) where
  producer : ProducerState T
  consumer : ConsumerState T
  buffer : ℕ → T

/-- What a step shows to the outside: a call begins or goes on, or it returns. -/
inductive QueueEvent (T : Type) where
  | internal
  | pushed (item : T)
  | pushFull
  | popped (item : T)
  | popEmpty
deriving DecidableEq, Repr

namespace SPSCQueue

variable {T : Type} (cap : QueueCapacity)

/-- The constructor; `buffer_(Capacity)` holds `T{}`s. -/
def new (init : T) : SPSCQueue T := ⟨⟨0, 0, .idle⟩, ⟨0, 0, .idle⟩, fun _ => init⟩

def atPush (q : SPSCQueue T) (point : PushPoint T) : SPSCQueue T :=
  { q with producer := { q.producer with point := point } }

def atPop (q : SPSCQueue T) (point : PopPoint T) : SPSCQueue T :=
  { q with consumer := { q.consumer with point := point } }

/-- The next step of a producer inside `push`. -/
def pushStep (q : SPSCQueue T) : Option (QueueEvent T × SPSCQueue T) :=
  match q.producer.point with
  | .idle => none
  | .loadTail item =>
    let currentTail := q.producer.tail
    let nextTail := currentTail + 1
    if nextTail - q.producer.headCached > cap.size then some (.internal, q.atPush (.loadHead item currentTail))
    else some (.internal, q.atPush (.write item currentTail))
  | .loadHead item currentTail =>
    let nextTail := currentTail + 1
    let q := { q with producer := { q.producer with headCached := q.consumer.head } }
    if nextTail - q.producer.headCached > cap.size then some (.pushFull, q.atPush .idle)
    else some (.internal, q.atPush (.write item currentTail))
  | .write item currentTail =>
    let q := { q with buffer := Function.update q.buffer (cap.slot currentTail) item }
    some (.internal, q.atPush (.storeTail item currentTail))
  | .storeTail item currentTail =>
    let q := { q with producer := { q.producer with tail := currentTail + 1 } }
    some (.pushed item, q.atPush .idle)

/-- The next step of a consumer inside `pop`; `left` is what a move leaves behind. -/
def popStep (left : T) (q : SPSCQueue T) : Option (QueueEvent T × SPSCQueue T) :=
  match q.consumer.point with
  | .idle => none
  | .loadHead =>
    let currentHead := q.consumer.head
    if currentHead = q.consumer.tailCached then some (.internal, q.atPop (.loadTail currentHead))
    else some (.internal, q.atPop (.read currentHead))
  | .loadTail currentHead =>
    let q := { q with consumer := { q.consumer with tailCached := q.producer.tail } }
    if currentHead = q.consumer.tailCached then some (.popEmpty, q.atPop .idle)
    else some (.internal, q.atPop (.read currentHead))
  | .read currentHead =>
    let item := q.buffer (cap.slot currentHead)
    let q := { q with buffer := Function.update q.buffer (cap.slot currentHead) left }
    some (.internal, q.atPop (.storeHead item currentHead))
  | .storeHead item currentHead =>
    let q := { q with consumer := { q.consumer with head := currentHead + 1 } }
    some (.popped item, q.atPop .idle)

/-- A step of either thread: one calls, or goes on with its call. -/
inductive Step : SPSCQueue T → QueueEvent T → SPSCQueue T → Prop where
  | push {q : SPSCQueue T} (item : T) : q.producer.point = .idle → Step q .internal (q.atPush (.loadTail item))
  | pushing {q q' : SPSCQueue T} {e : QueueEvent T} : q.pushStep cap = some (e, q') → Step q e q'
  | pop {q : SPSCQueue T} : q.consumer.point = .idle → Step q .internal (q.atPop .loadHead)
  | popping {q q' : SPSCQueue T} {e : QueueEvent T} (left : T) : q.popStep cap left = some (e, q') → Step q e q'

/-- Any interleaving of the two threads, from an empty queue. -/
def system (T : Type) : TransitionSystem (SPSCQueue T) (QueueEvent T) where
  init q := ∃ init, q = new init
  step := Step cap

end SPSCQueue

/-- The items whose `push` returned `true`, in order. -/
def pushedItems {T : Type} (trace : List (QueueEvent T)) : List T :=
  trace.filterMap fun
    | .pushed item => some item
    | _ => none

/-- The items whose `pop` returned `true`, in order. -/
def poppedItems {T : Type} (trace : List (QueueEvent T)) : List T :=
  trace.filterMap fun
    | .popped item => some item
    | _ => none

end TradeCore
