/-
`RingBuffer.hpp`: the bounded queue between one producer and one consumer. First the object and its
operations as one thread sees them, then the operations of the two threads in their atomic steps,
interleaved in any order.
-/
import OrderBookEngine.Capacity
import OrderBookEngine.Lib.Machine
import Mathlib.Logic.Function.Basic

namespace Obe

/-- Raw storage: a slot is `none` while no element lives in it. -/
structure SpscRingBuffer (T : Type _) where
  capacity : UInt64
  mask : UInt64
  slots : UInt64 → Option T
  tail : UInt64
  head : UInt64

namespace SpscRingBuffer

variable {T : Type _}

def create (capacity : UInt64) : SpscRingBuffer T :=
  let capacity := roundUpPow2 capacity
  { capacity, mask := capacity - 1, slots := fun _ => none, tail := 0, head := 0 }

/-- Advancing the tail would collide with the head. -/
def full (q : SpscRingBuffer T) (tail head : UInt64) : Bool := tail + 1 - head > q.capacity

def construct (q : SpscRingBuffer T) (tail : UInt64) (value : T) : SpscRingBuffer T :=
  { q with slots := Function.update q.slots (tail &&& q.mask) (some value) }

def destroy (q : SpscRingBuffer T) (head : UInt64) : SpscRingBuffer T :=
  { q with slots := Function.update q.slots (head &&& q.mask) none }

def push (q : SpscRingBuffer T) (value : T) : SpscRingBuffer T × Bool :=
  if q.full q.tail q.head then (q, false)
  else ({ q.construct q.tail value with tail := q.tail + 1 }, true)

/-- The element, or `some none` from an empty queue; `none` when the slot at the head holds nothing
that could be read. -/
def pop (q : SpscRingBuffer T) : Option (SpscRingBuffer T × Option T) :=
  if q.head = q.tail then some (q, none)
  else (q.slots (q.head &&& q.mask)).map fun out => ({ q.destroy q.head with head := q.head + 1 }, some out)

end SpscRingBuffer

inductive QueueOp (T : Type _)
  | push (value : T)
  | pop
  deriving DecidableEq, Repr

/-- What an operation reported. -/
inductive QueueRet (T : Type _)
  | pushed (value : T)
  | refused (value : T)
  | popped (value : T)
  | empty
  deriving DecidableEq, Repr

section Sequential

variable {T : Type _}

/-- The operations of a single thread. -/
def SpscRingBuffer.op (q : SpscRingBuffer T) : QueueOp T → Option (SpscRingBuffer T × QueueRet T)
  | .push value =>
    let r := q.push value
    some (r.1, if r.2 then .pushed value else .refused value)
  | .pop => q.pop.map fun r => (r.1, r.2.elim .empty .popped)

/-- A queue of at most `capacity` elements: refused only when full, empty only when none is held. -/
def fifoOp (capacity : Nat) (held : List T) : QueueOp T → List T × QueueRet T
  | .push value => if held.length = capacity then (held, .refused value) else (held ++ [value], .pushed value)
  | .pop =>
    match held with
    | [] => ([], .empty)
    | value :: held => (held, .popped value)

end Sequential

/-! ## Two threads -/

/-- Where the producer is in `push`. -/
inductive Pushing (T : Type _)
  | idle
  | tailLoaded (value : T) (tail : UInt64)
  | headLoaded (value : T) (tail : UInt64)
  | constructed (value : T) (tail : UInt64)
  deriving DecidableEq, Repr

/-- Where the consumer is in `pop`. -/
inductive Popping (T : Type _)
  | idle
  | headLoaded (head : UInt64)
  | tailLoaded (head : UInt64)
  | movedOut (head : UInt64) (out : T)
  deriving DecidableEq, Repr

/-- The queue with both threads. `tails` and `heads` are the values the indices were given, in
order; `headRead` and `tailRead` are the places in them that the producer and the consumer last
read of each other's index. -/
structure Spsc (T : Type _) where
  queue : SpscRingBuffer T
  tails : List UInt64
  heads : List UInt64
  headRead : Nat
  tailRead : Nat
  producer : Pushing T
  consumer : Popping T

/-- One atomic step. A load of the other thread's index names the place it reads. -/
inductive SpscAct (T : Type _)
  | pushTail (value : T)
  | pushHead (place : Nat)
  | construct
  | publishTail
  | popHead
  | popTail (place : Nat)
  | moveOut
  | publishHead
  deriving DecidableEq, Repr

def SpscAct.ofConsumer {T : Type _} : SpscAct T → Bool
  | .popHead | .popTail _ | .moveOut | .publishHead => true
  | _ => false

namespace Spsc

variable {T : Type _}

def create (capacity : UInt64) : Spsc T :=
  { queue := .create capacity, tails := [0], heads := [0], headRead := 0, tailRead := 0, producer := .idle,
    consumer := .idle }

/-- A step, and what an operation that ends with it reports; `none` when the thread is elsewhere,
when the place is older than the last one read or not there yet, or when the slot holds nothing. -/
def step (s : Spsc T) : SpscAct T → Option (Spsc T × Option (QueueRet T))
  | .pushTail value =>
    match s.producer with
    | .idle => some ({ s with producer := .tailLoaded value s.queue.tail }, none)
    | _ => none
  | .pushHead place =>
    match s.producer with
    | .tailLoaded value tail =>
      if s.headRead ≤ place then
        s.heads[place]?.map fun head =>
          if s.queue.full tail head then
            ({ s with producer := .idle, headRead := place }, some (.refused value))
          else ({ s with producer := .headLoaded value tail, headRead := place }, none)
      else none
    | _ => none
  | .construct =>
    match s.producer with
    | .headLoaded value tail =>
      some ({ s with queue := s.queue.construct tail value, producer := .constructed value tail }, none)
    | _ => none
  | .publishTail =>
    match s.producer with
    | .constructed value tail =>
      some ({ s with queue := { s.queue with tail := tail + 1 }, tails := s.tails ++ [tail + 1], producer := .idle },
        some (.pushed value))
    | _ => none
  | .popHead =>
    match s.consumer with
    | .idle => some ({ s with consumer := .headLoaded s.queue.head }, none)
    | _ => none
  | .popTail place =>
    match s.consumer with
    | .headLoaded head =>
      if s.tailRead ≤ place then
        s.tails[place]?.map fun tail =>
          if head = tail then ({ s with consumer := .idle, tailRead := place }, some .empty)
          else ({ s with consumer := .tailLoaded head, tailRead := place }, none)
      else none
    | _ => none
  | .moveOut =>
    match s.consumer with
    | .tailLoaded head =>
      (s.queue.slots (head &&& s.queue.mask)).map fun out =>
        ({ s with queue := s.queue.destroy head, consumer := .movedOut head out }, none)
    | _ => none
  | .publishHead =>
    match s.consumer with
    | .movedOut head out =>
      some ({ s with queue := { s.queue with head := head + 1 }, heads := s.heads ++ [head + 1], consumer := .idle },
        some (.popped out))
    | _ => none

end Spsc

/-! ## What a run reported -/

section Reports

variable {T : Type _}

def QueueRet.pushed? : QueueRet T → Option T
  | .pushed value => some value
  | _ => none

def QueueRet.popped? : QueueRet T → Option T
  | .popped value => some value
  | _ => none

/-- The values of the pushes that succeeded, in order. -/
def pushedValues (outs : List (Option (QueueRet T))) : List T := outs.filterMap fun r => r.bind QueueRet.pushed?

/-- The values that were popped, in order. -/
def poppedValues (outs : List (Option (QueueRet T))) : List T := outs.filterMap fun r => r.bind QueueRet.popped?

end Reports

end Obe
