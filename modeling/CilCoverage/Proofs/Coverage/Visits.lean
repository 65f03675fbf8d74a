import CilCoverage.Coverage.VisitQueue
import Mathlib

/-!
# Delivery of visits

What a queue does with its visits does not depend on the answers of the sink: each call has a next
queue and a batch that it sends, if any (`Call.next`, `apply_eq`). The batch is what was pending
together with the visit of the call, and nothing of it stays behind (`next_spec`). So along a run of
calls the batches that were passed to the sink and what is pending make up the visits that were
recorded, whichever batches the sink refused (`deliveries_of_calls`).
-/

set_option autoImplicit false

namespace CilCoverage

/-- A batch that was passed to a sink, and the answer of the sink. -/
structure Delivery where
  batch : List UInt32
  answer : Except Error Unit

/-- The sink with a log of what is passed to it. -/
def Sink.logged {σ : Type} (sink : Sink σ) : Sink (σ × List Delivery) where
  send batch := fun (state, log) =>
    let (answer, state) := sink.send batch state
    (answer, state, log ++ [{ batch, answer }])

namespace VisitQueue

/-- A call on a queue. -/
inductive Call
  | record (id : UInt32)
  | flush

variable {σ τ : Type}

namespace Call

/-- Carries the call out. -/
def apply (sink : Sink σ) (call : Call) (queue : VisitQueue) (state : σ) :
    Except Error Unit × VisitQueue × σ :=
  match call with
  | record id => queue.record sink id state
  | flush => queue.flush sink state

/-- The visit that the call records. -/
def id? : Call → Option UInt32
  | record id => some id
  | flush => none

/-- The queue behind the call, and the batch that the call sends. -/
def next (call : Call) (queue : VisitQueue) : VisitQueue × Option (List UInt32) :=
  match call with
  | record id => queue.push id
  | flush => (queue.emptied, if queue.pending.isEmpty then none else some queue.pending.toList)

/-- The answer of a call is that of the sink if it sends a batch, and the queue is the same whatever
the sink answers. -/
theorem apply_eq (sink : Sink σ) (call : Call) (queue : VisitQueue) (state : σ) :
    call.apply sink queue state = match call.next queue with
      | (behind, none) => (.ok (), behind, state)
      | (behind, some batch) =>
        ((sink.send batch state).1, behind, (sink.send batch state).2) := by
  cases call with
  | record id =>
    have hnext : (record id).next queue = queue.push id := rfl
    show queue.record sink id state = _
    rw [hnext]
    unfold VisitQueue.record
    rcases queue.push id with ⟨behind, _ | batch⟩ <;> rfl
  | flush =>
    show queue.flush sink state = _
    unfold VisitQueue.flush next
    split
    · rename_i hempty
      have hsame : queue.emptied = queue := by
        unfold emptied
        rw [← Array.isEmpty_iff.mp hempty]
      rw [hsame]
    · rfl

/-- One call takes the visits that were pending and its own one apart into a batch and what is
pending then. -/
theorem next_spec (call : Call) {queue : VisitQueue} (hroom : queue.pending.size < queue.capacity) :
    (call.next queue).1.capacity = queue.capacity
      ∧ (call.next queue).1.pending.size < queue.capacity
      ∧ (call.next queue).2.getD [] ++ (call.next queue).1.pending.toList
        = queue.pending.toList ++ call.id?.toList
      ∧ ∀ batch ∈ (call.next queue).2, batch ≠ [] ∧ batch.length ≤ queue.capacity
        ∧ (call.id?.isSome → batch.length = queue.capacity) := by
  have hpos := queue.capacity_pos
  cases call with
  | record id =>
    have hsize : (queue.pending.push id).size = queue.pending.size + 1 := Array.size_push _
    have hlist : (queue.pending.push id).toList = queue.pending.toList ++ [id] := Array.toList_push
    -- the batch is passed on as soon as it is full
    by_cases hfull : (queue.pending.push id).size < queue.capacity
    · have hnext : (record id).next queue
          = ({ queue with pending := queue.pending.push id }, none) := if_pos hfull
      rw [hnext]
      exact ⟨rfl, hfull, hlist, nofun⟩
    · have hnext : (record id).next queue
          = (queue.emptied, some (queue.pending.push id).toList) := if_neg hfull
      rw [hnext]
      refine ⟨rfl, hpos, ?_, ?_⟩
      · exact (List.append_nil _).trans hlist
      · rintro batch ⟨⟩
        have hlength : (queue.pending.push id).toList.length = queue.capacity := by
          rw [Array.length_toList]
          omega
        refine ⟨?_, Nat.le_of_eq hlength, fun _ => hlength⟩
        exact List.ne_nil_of_length_pos (hlength ▸ hpos)
  | flush =>
    refine ⟨rfl, hpos, ?_, ?_⟩
    · show (if queue.pending.isEmpty then none else some queue.pending.toList).getD [] ++ [] = _
      split
      · rename_i hempty
        rw [Array.isEmpty_iff.mp hempty]
        rfl
      · rfl
    · intro batch hbatch
      change batch ∈ (if queue.pending.isEmpty then none else some queue.pending.toList) at hbatch
      split at hbatch
      · cases hbatch
      · rename_i hpending
        cases hbatch
        rw [Array.length_toList]
        refine ⟨?_, Nat.le_of_lt hroom, nofun⟩
        simpa using hpending

end Call

/-- Makes calls one after the other, whatever they answer. -/
def afterCalls (sink : Sink σ) (calls : List Call) (queue : VisitQueue) (state : σ) :
    VisitQueue × σ :=
  calls.foldl (fun reached call => (call.apply sink reached.1 reached.2).2) (queue, state)

/-- The last call is made on what the calls before it leave. -/
theorem afterCalls_concat (sink : Sink σ) (calls : List Call) (call : Call) (queue : VisitQueue)
    (state : σ) : afterCalls sink (calls ++ [call]) queue state
      = (call.apply sink (afterCalls sink calls queue state).1
          (afterCalls sink calls queue state).2).2 :=
  List.foldl_concat _ _ _ _

section Logging

variable (sink : Sink σ) (queue : VisitQueue) (state : σ) (log : List Delivery)

/-- A call appends the batch that it sends to the log, and has the answer of the sink. -/
theorem Call.apply_logged (call : Call) :
    call.apply sink.logged queue (state, log) = match call.next queue with
      | (behind, none) => (.ok (), behind, state, log)
      | (behind, some batch) =>
        ((sink.send batch state).1, behind, (sink.send batch state).2,
          log ++ [{ batch, answer := (sink.send batch state).1 }]) :=
  call.apply_eq sink.logged queue (state, log)

/-- Keeping the log changes nothing else. -/
theorem afterCalls_logged (calls : List Call) :
    afterCalls sink calls queue state
      = ((afterCalls sink.logged calls queue (state, log)).1,
          (afterCalls sink.logged calls queue (state, log)).2.1) := by
  induction calls using List.reverseRecOn with
  | nil => rfl
  | append_singleton calls call ih =>
    rw [afterCalls_concat, afterCalls_concat, ih, Call.apply_eq, Call.apply_logged]
    rcases call.next _ with ⟨behind, _ | batch⟩ <;> rfl

end Logging

/-- What is true of a queue and of the batches that it has sent, the visits in `recorded` having
been recorded. -/
structure Accounts (queue : VisitQueue) (capacity : Nat) (sent : List (List UInt32))
    (recorded : List UInt32) : Prop where
  capacity_eq : queue.capacity = capacity
  room : queue.pending.size < capacity
  complete : sent.flatten ++ queue.pending.toList = recorded
  sizes : ∀ batch ∈ sent, batch ≠ [] ∧ batch.length ≤ capacity

/-- A new queue has sent and recorded nothing. -/
theorem accounts_new (capacity : Nat) : (new capacity).Accounts (max capacity 1) [] [] :=
  ⟨rfl, (new capacity).capacity_pos, rfl, nofun⟩

/-- A call keeps account of its batch and of the visit that it records. -/
theorem Accounts.next {queue : VisitQueue} {capacity : Nat} {sent : List (List UInt32)}
    {recorded : List UInt32} (ha : queue.Accounts capacity sent recorded) (call : Call) :
    (call.next queue).1.Accounts capacity (sent ++ (call.next queue).2.toList)
      (recorded ++ call.id?.toList) := by
  obtain ⟨rfl, hroom, hcomplete, hsizes⟩ := ha
  obtain ⟨hcapacity, hroom', hvisits, hbatch⟩ := call.next_spec hroom
  refine ⟨hcapacity, hroom', ?_, ?_⟩
  · have hlast : (call.next queue).2.toList.flatten = (call.next queue).2.getD [] := by
      cases (call.next queue).2 <;> simp
    rw [List.flatten_append, hlast, List.append_assoc, hvisits, ← hcomplete, List.append_assoc]
  · intro batch hmem
    rcases List.mem_append.mp hmem with hold | hnew
    · exact hsizes batch hold
    · obtain ⟨hfull, hle, -⟩ := hbatch batch (Option.mem_toList.mp hnew)
      exact ⟨hfull, hle⟩

/-- Along a run of calls the queue has account of all visits. -/
theorem accounts_afterCalls (sink : Sink σ) (state : σ) (capacity : Nat) (calls : List Call) :
    (afterCalls sink.logged calls (new capacity) (state, [])).1.Accounts (max capacity 1)
      ((afterCalls sink.logged calls (new capacity) (state, [])).2.2.map Delivery.batch)
      (calls.filterMap Call.id?) := by
  induction calls using List.reverseRecOn with
  | nil => exact accounts_new capacity
  | append_singleton calls call ih =>
    have hnext := ih.next call
    rw [afterCalls_concat, List.filterMap_append]
    generalize afterCalls sink.logged calls (new capacity) (state, []) = reached at *
    obtain ⟨queue, state, log⟩ := reached
    have hone : [call].filterMap Call.id? = call.id?.toList := by
      cases call <;> rfl
    rw [hone, Call.apply_logged]
    revert hnext
    rcases call.next queue with ⟨behind, _ | batch⟩
    · simp
    · simp

/-- The queue and the batches that were sent do not depend on the sink. -/
theorem afterCalls_congr (sink : Sink σ) (other : Sink τ) (state : σ) (start : τ)
    (calls : List Call) (queue : VisitQueue) :
    (afterCalls sink.logged calls queue (state, [])).1
        = (afterCalls other.logged calls queue (start, [])).1
      ∧ (afterCalls sink.logged calls queue (state, [])).2.2.map Delivery.batch
        = (afterCalls other.logged calls queue (start, [])).2.2.map Delivery.batch := by
  induction calls using List.reverseRecOn with
  | nil => exact ⟨rfl, rfl⟩
  | append_singleton calls call ih =>
    rw [afterCalls_concat, afterCalls_concat]
    generalize afterCalls sink.logged calls queue (state, []) = one at *
    generalize afterCalls other.logged calls queue (start, []) = two at *
    obtain ⟨reached, state, log⟩ := one
    obtain ⟨_, start, log'⟩ := two
    obtain ⟨rfl, hlog⟩ := ih
    rw [Call.apply_logged, Call.apply_logged]
    rcases call.next reached with ⟨behind, _ | batch⟩
    · exact ⟨rfl, hlog⟩
    · refine ⟨rfl, ?_⟩
      rw [List.map_append, List.map_append, hlog]
      rfl

/-- Along any run of calls on a new queue, whatever the sink answers, the batches that were passed
to the sink and then the visits that are pending are the visits that were recorded, in order. No
batch is empty or larger than the capacity, and fewer visits are pending than that.

A further call passes on at most one batch. It has the answer of the sink if it does, and succeeds
otherwise; a batch that a record passes on is full, and a flush leaves nothing pending. The queue
and the batches are the same for every other sink, so a refusal loses no more than the batch. -/
theorem deliveries_of_calls (sink : Sink σ) (state : σ) (capacity : Nat) (calls : List Call) :
    ∃ queue reached log,
      afterCalls sink.logged calls (new capacity) (state, []) = (queue, reached, log)
      ∧ afterCalls sink calls (new capacity) state = (queue, reached)
      ∧ (log.map Delivery.batch).flatten ++ queue.pending.toList = calls.filterMap Call.id?
      ∧ (∀ delivery ∈ log,
          delivery.batch ≠ [] ∧ delivery.batch.length ≤ max capacity 1)
      ∧ queue.pending.size < max capacity 1
      ∧ (∀ call : Call, ∃ behind : VisitQueue, (call = .flush → behind.pending = #[])
          ∧ (call.apply sink.logged queue (reached, log) = (.ok (), behind, reached, log)
            ∨ ∃ batch, call.apply sink.logged queue (reached, log)
                = ((sink.send batch reached).1, behind, (sink.send batch reached).2,
                    log ++ [{ batch, answer := (sink.send batch reached).1 }])
              ∧ (call ≠ .flush → batch.length = max capacity 1)))
      ∧ ∀ {τ : Type} (other : Sink τ) (start : τ),
          (afterCalls other.logged calls (new capacity) (start, [])).1 = queue
            ∧ (afterCalls other.logged calls (new capacity) (start, [])).2.2.map Delivery.batch
              = log.map Delivery.batch := by
  have haccounts := accounts_afterCalls sink state capacity calls
  have hplain := afterCalls_logged sink (new capacity) state [] calls
  have hothers (τ : Type) (other : Sink τ) (start : τ) :=
    afterCalls_congr other sink start state calls (new capacity)
  -- from here on only what the invariant says of the run matters
  generalize afterCalls sink.logged calls (new capacity) (state, []) = run at *
  obtain ⟨queue, reached, log⟩ := run
  refine ⟨queue, reached, log, rfl, hplain, haccounts.complete, ?_, haccounts.room, ?_,
    fun other start => hothers _ other start⟩
  · intro delivery hmem
    exact haccounts.sizes delivery.batch (List.mem_map_of_mem hmem)
  · intro call
    obtain ⟨-, -, -, hbatch⟩ := call.next_spec (haccounts.capacity_eq ▸ haccounts.room)
    rw [haccounts.capacity_eq] at hbatch
    refine ⟨(call.next queue).1, ?_, ?_⟩
    · rintro rfl
      rfl
    · rw [Call.apply_logged]
      revert hbatch
      rcases call.next queue with ⟨behind, _ | batch⟩
      · exact fun _ => Or.inl rfl
      · intro hbatch
        refine Or.inr ⟨batch, rfl, fun hrecord => (hbatch batch rfl).2.2 ?_⟩
        cases call with
        | record id => rfl
        | flush => exact absurd rfl hrecord

/-- Seven visits in batches of three, the first batch refused. -/
example : (afterCalls { send := fun _ (refuse : Bool) =>
      (if refuse then .error (.host "closed") else .ok (), false) }
    ((List.range 7).map fun id => .record (UInt32.ofNat id)) (new 3) true).1.pending = #[6] := by
  decide

end VisitQueue

end CilCoverage
