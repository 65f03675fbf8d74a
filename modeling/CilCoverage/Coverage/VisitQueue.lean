import CilCoverage.Event

/-!
# Visits

Probes report the ids of the points they pass. A `VisitQueue` collects them and hands them to a
sink in batches: whenever as many are pending as the queue can hold, and on request. A batch leaves
the queue before it is sent, so that one that the sink refuses is dropped and does not hold up those
after it.
-/

set_option autoImplicit false

namespace CilCoverage

/-- A destination of batches, which may depend on a state and change it. -/
structure Sink (σ : Type) where
  send : List UInt32 → σ → Except Error Unit × σ

/-- Visits that have not been sent yet. -/
structure VisitQueue where
  /-- Number of visits in a full batch. -/
  capacity : Nat
  /-- The visits waiting to be sent, in the order of their recording. -/
  pending : Array UInt32
  capacity_pos : 0 < capacity

namespace VisitQueue

/-- The capacity of a queue for which none is chosen. -/
def defaultCapacity : Nat := 1000

/-- The empty queue that holds `capacity` visits, at least one. -/
def new (capacity : Nat) : VisitQueue :=
  { capacity := max capacity 1, pending := #[], capacity_pos := Nat.le_max_right _ _ }

/-- The queue with nothing pending. -/
def emptied (queue : VisitQueue) : VisitQueue := { queue with pending := #[] }

/-- Adds a visit and returns the batch that has become full, if any. -/
def push (queue : VisitQueue) (id : UInt32) : VisitQueue × Option (List UInt32) :=
  let pending := queue.pending.push id
  if pending.size < queue.capacity then ({ queue with pending }, none)
  else (queue.emptied, some pending.toList)

variable {σ : Type}

/-- Records a visit and sends the batch that it completes. -/
def record (sink : Sink σ) (queue : VisitQueue) (id : UInt32) (state : σ) :
    Except Error Unit × VisitQueue × σ :=
  match queue.push id with
  | (queue, none) => (.ok (), queue, state)
  | (queue, some batch) =>
    let (outcome, state) := sink.send batch state
    (outcome, queue, state)

/-- Sends what is pending, if anything is. -/
def flush (sink : Sink σ) (queue : VisitQueue) (state : σ) : Except Error Unit × VisitQueue × σ :=
  if queue.pending.isEmpty then (.ok (), queue, state)
  else
    let (outcome, state) := sink.send queue.pending.toList state
    (outcome, queue.emptied, state)

/-- The events of a `flush`. -/
def flushEvents (queue : VisitQueue) : List Event :=
  if queue.pending.isEmpty then [] else [.visitsFlushed queue.pending.size]

end VisitQueue

end CilCoverage
