import CilCoverage.Method.Basic
import Mathlib

/-!
# Walks

A walk goes through the instructions of a method the way control does: from an instruction to the
next one in order, or to a target, or out of the method. It is the list of its visits, each with
the path taken, so a walk is fixed by where it starts and by the paths of its conditional branches.

`Method.traces` is what can be seen of the walks from an entry: the offsets, in the body as read, of
the instructions other than `br`, and the paths of conditional branches. Instructions that were not
read are not seen.

`Method.Leads` is a stretch that every walk has to go through once it has come to its start
(`Leads.walk_cases`); chains of `br` and the code of probes are of this kind.
-/

set_option autoImplicit false

namespace CilCoverage

/-- An instruction that is executed and the path that control takes from it. -/
@[ext]
structure Visit where
  handle : Handle
  path : Nat
deriving DecidableEq

namespace Instruction

/-- Number of paths that control can take: that of a conditional branch to the next instruction and
those to its targets, and the only one of all other instructions. -/
def pathCount (instruction : Instruction) : Nat :=
  if instruction.flow = .conditionalBranch then instruction.targets.length + 1 else 1

/-- The instructions do the same: they differ at most in what laying out writes. -/
structure Alike (one other : Instruction) : Prop where
  opcode : one.opcode = other.opcode
  origin : one.origin = other.origin
  targets : one.targets = other.targets
  operand : other.isBranch = false → one.operand = other.operand

/-- An instruction does the same as itself. -/
theorem Alike.refl (instruction : Instruction) : instruction.Alike instruction :=
  ⟨rfl, rfl, rfl, fun _ => rfl⟩

/-- Instructions that do the same have the same flow of control. -/
theorem Alike.flow {one other : Instruction} (ha : one.Alike other) : one.flow = other.flow :=
  congrArg Opcode.flow ha.opcode

/-- Instructions that do the same have as many paths. -/
theorem Alike.pathCount {one other : Instruction} (ha : one.Alike other) :
    one.pathCount = other.pathCount := by
  rw [Instruction.pathCount, Instruction.pathCount, ha.flow, ha.targets]

/-- What is seen of an instruction that is executed. -/
def mark? (instruction : Instruction) (path : Nat) : Option (Nat × Option Nat) :=
  if instruction.opcode = .br then none
  else instruction.origin.map fun offset =>
    (offset, if instruction.flow = .conditionalBranch then some path else none)

end Instruction

/-- Where the runtime enters a method: at its first instruction, or at the handler or the filter of
a region. -/
inductive Entry
  | body
  | handler (index : Nat)
  | filter (index : Nat)
deriving DecidableEq

namespace Method

/-- Where a path leads to; `none` is outside of the method. -/
def after? (method : Method) (handle : Handle) (path : Nat) : Option Handle :=
  match (method.get handle).flow with
  | .sequential | .breakpoint | .call | .modifier => method.next? handle
  | .unconditionalBranch => (method.get handle).targets.head?
  | .conditionalBranch =>
    if path = 0 then method.next? handle else (method.get handle).targets[path - 1]?
  | .ret | .throw => none

/-- Instructions that do the same in front of the same instruction lead to the same places. -/
theorem after?_congr {one other : Method} {handle handle' : Handle}
    (halike : (one.get handle).Alike (other.get handle'))
    (hnext : one.next? handle = other.next? handle') (path : Nat) :
    one.after? handle path = other.after? handle' path := by
  rw [after?, after?, halike.flow, halike.targets, hnext]

/-- The visits of a finite walk from a place. -/
inductive Walk (method : Method) : Option Handle → List Visit → Prop
  | stay (place : Option Handle) : method.Walk place []
  | go {handle : Handle} {path : Nat} {rest : List Visit}
      (known : path < (method.get handle).pathCount)
      (rest_walk : method.Walk (method.after? handle path) rest) :
      method.Walk (some handle) (⟨handle, path⟩ :: rest)

/-- What is seen of a walk. -/
def trace (method : Method) (visits : List Visit) : List (Nat × Option Nat) :=
  visits.filterMap fun visit => (method.get visit.handle).mark? visit.path

/-- The instruction at an entry. -/
def entryAt? (method : Method) : Entry → Option Handle
  | .body => method.order.head?
  | .handler index => method.regions[index]?.map Region.handlerStart
  | .filter index => method.regions[index]?.bind Region.filterStart?

/-- All that can be seen of finite walks from an entry. -/
def traces (method : Method) (entry : Entry) : Set (List (Nat × Option Nat)) :=
  {seen | ∃ visits, method.Walk (method.entryAt? entry) visits ∧ method.trace visits = seen}

/-- The walk ends with a return or a throw. -/
def Completes (method : Method) (visits : List Visit) : Prop :=
  ∃ visit, visits.getLast? = some visit
    ∧ ((method.get visit.handle).flow = .ret ∨ (method.get visit.handle).flow = .throw)

/-- The paths of the conditional branches of a walk. -/
def choices (method : Method) (visits : List Visit) : List Nat :=
  visits.filterMap fun visit =>
    if (method.get visit.handle).flow = .conditionalBranch then some visit.path else none

/-- Control that has come to the first handle goes through the visits, whose instructions satisfy
`P` and leave no choice, to the second handle. -/
inductive Leads (method : Method) (P : Instruction → Prop) : Handle → List Visit → Handle → Prop
  | here (handle : Handle) : method.Leads P handle [] handle
  | pass {handle next finish : Handle} {visits : List Visit} (such : P (method.get handle))
      (single : (method.get handle).pathCount = 1) (move : method.after? handle 0 = some next)
      (rest : method.Leads P next visits finish) :
      method.Leads P handle (⟨handle, 0⟩ :: visits) finish

section Leading

variable {method : Method} {P : Instruction → Prop} {start middle finish : Handle}
  {front back visits : List Visit}

/-- Control goes through the parts of a way one after the other. -/
theorem Leads.append (hfront : method.Leads P start front middle)
    (hback : method.Leads P middle back finish) : method.Leads P start (front ++ back) finish := by
  induction hfront with
  | here => exact hback
  | pass hsuch hsingle hmove _ ih => exact .pass hsuch hsingle hmove (ih hback)

/-- A way and a walk from its end make a walk. -/
theorem Leads.walk (hfront : method.Leads P start front middle)
    (hback : method.Walk (some middle) back) : method.Walk (some start) (front ++ back) := by
  induction hfront with
  | here => exact hback
  | pass _ hsingle hmove _ ih =>
    refine .go ?_ ?_
    · rw [hsingle]
      exact Nat.zero_lt_one
    · rw [hmove]
      exact ih hback

/-- Instructions that follow one another. -/
theorem leads_range {handleOf : Nat → Handle} {count : Nat}
    (hstep : ∀ k < count, P (method.get (handleOf k)) ∧ (method.get (handleOf k)).pathCount = 1
      ∧ method.after? (handleOf k) 0 = some (handleOf (k + 1))) :
    method.Leads P (handleOf 0) ((List.range count).map fun k => ⟨handleOf k, 0⟩)
      (handleOf count) := by
  induction count with
  | zero => exact .here _
  | succ count ih =>
    obtain ⟨hsuch, hsingle, hmove⟩ := hstep count (Nat.lt_succ_self _)
    rw [List.range_succ, List.map_append]
    apply (ih fun k hk => hstep k (Nat.lt_succ_of_lt hk)).append
    exact .pass hsuch hsingle hmove (.here _)

/-- A walk ends within the stretch or goes all the way through it. -/
theorem Leads.walk_cases (hleads : method.Leads P start front finish)
    (hwalk : method.Walk (some start) visits) :
    visits <+: front ∨ ∃ back, visits = front ++ back ∧ method.Walk (some finish) back := by
  induction hleads generalizing visits with
  | here => exact Or.inr ⟨visits, rfl, hwalk⟩
  | @pass handle next finish front _ hsingle hmove _ ih =>
    cases hwalk with
    | stay => exact Or.inl List.nil_prefix
    | @go _ path rest hknown hrest =>
      have hpath : path = 0 := by
        rw [hsingle] at hknown
        exact Nat.lt_one_iff.mp hknown
      subst hpath
      rw [hmove] at hrest
      rcases ih hrest with hcut | ⟨back, rfl, hback⟩
      · exact Or.inl (List.cons_prefix_cons.mpr ⟨rfl, hcut⟩)
      · exact Or.inr ⟨back, rfl, hback⟩

/-- The instructions on the way are of the given kind. -/
theorem Leads.such (hleads : method.Leads P start front finish) {visit : Visit}
    (hmem : visit ∈ front) : P (method.get visit.handle) := by
  induction hleads with
  | here => cases hmem
  | pass hsuch _ _ _ ih =>
    rcases List.mem_cons.mp hmem with rfl | hrest
    · exact hsuch
    · exact ih hrest

/-- What holds of the instructions of a way may be replaced by what it implies. -/
theorem Leads.mono {Q : Instruction → Prop} (himp : ∀ instruction, P instruction → Q instruction)
    (hleads : method.Leads P start visits finish) : method.Leads Q start visits finish := by
  induction hleads with
  | here handle => exact .here handle
  | pass hsuch hsingle hmove _ ih => exact .pass (himp _ hsuch) hsingle hmove ih

end Leading

section Completing

variable {method : Method} {place : Option Handle} {visit : Visit} {rest visits visits' : List Visit}

/-- A walk starts with an instruction at its place and one of its paths, and goes on from there. -/
theorem walk_cons_iff : method.Walk place (visit :: rest) ↔
    place = some visit.handle ∧ visit.path < (method.get visit.handle).pathCount
      ∧ method.Walk (method.after? visit.handle visit.path) rest := by
  constructor
  · intro hwalk
    cases hwalk with
    | go hknown hrest => exact ⟨rfl, hknown, hrest⟩
  · rintro ⟨rfl, hknown, hrest⟩
    exact .go hknown hrest

/-- Walks can be checked. -/
instance decidableWalk (method : Method) :
    (place : Option Handle) → (visits : List Visit) → Decidable (method.Walk place visits)
  | _, [] => .isTrue (.stay _)
  | _, visit :: rest =>
    have := method.decidableWalk (method.after? visit.handle visit.path) rest
    decidable_of_iff _ walk_cons_iff.symm

/-- The last visit decides whether a walk completes. -/
theorem completes_iff_of_getLast? (hlast : visits.getLast? = some visit) :
    method.Completes visits ↔
      (method.get visit.handle).flow = .ret ∨ (method.get visit.handle).flow = .throw := by
  constructor
  · rintro ⟨last, hlast', hflow⟩
    rw [Option.some.inj (hlast.symm.trans hlast')]
    exact hflow
  · intro hflow
    exact ⟨visit, hlast, hflow⟩

/-- The walk without visits does not complete. -/
theorem not_completes_nil : ¬ method.Completes [] := by
  rintro ⟨_, hlast, -⟩
  cases hlast

instance decidableCompletes (method : Method) (visits : List Visit) :
    Decidable (method.Completes visits) :=
  match h : visits.getLast? with
  | none => .isFalse (List.getLast?_eq_none_iff.mp h ▸ not_completes_nil)
  | some _ => decidable_of_iff _ (completes_iff_of_getLast? h).symm

/-- From outside of the method there is no way. -/
theorem Walk.eq_nil (hwalk : method.Walk none visits) : visits = [] := by
  cases hwalk
  rfl

/-- Only its end matters to whether a walk completes. -/
theorem completes_append {back : List Visit} (hne : back ≠ []) (front : List Visit) :
    method.Completes (front ++ back) ↔ method.Completes back := by
  have hlast := List.getLast?_eq_some_getLast hne
  have hlast' : (front ++ back).getLast? = some (back.getLast hne) := by
    rw [List.getLast?_append, hlast, Option.some_or]
  rw [completes_iff_of_getLast? hlast, completes_iff_of_getLast? hlast']

/-- Control does not go on from a return or a throw. -/
theorem Completes.after?_eq_none (hend : method.Completes [visit]) (path : Nat) :
    method.after? visit.handle path = none := by
  have hlast : [visit].getLast? = some visit := rfl
  rw [after?]
  rcases (completes_iff_of_getLast? hlast).mp hend with hflow | hflow <;> rw [hflow]

/-- A walk that completes ends where control does not go on, and nowhere else. -/
theorem Completes.rest_eq_nil_iff (hend : method.Completes (visit :: rest))
    (hwalk : method.Walk (method.after? visit.handle visit.path) rest) :
    rest = [] ↔ method.after? visit.handle visit.path = none := by
  constructor
  · rintro rfl
    exact hend.after?_eq_none _
  · intro hnone
    rw [hnone] at hwalk
    exact hwalk.eq_nil

/-- The choices of the parts of a walk come one after the other. -/
theorem choices_append (method : Method) (front back : List Visit) :
    method.choices (front ++ back) = method.choices front ++ method.choices back :=
  List.filterMap_append

/-- At a conditional branch the path is chosen. -/
theorem choices_cons_of_conditional (hflow : (method.get visit.handle).flow = .conditionalBranch) :
    method.choices (visit :: rest) = visit.path :: method.choices rest :=
  List.filterMap_cons_some (if_pos hflow)

/-- Elsewhere nothing is chosen. -/
theorem choices_cons_of_straight (hflow : (method.get visit.handle).flow ≠ .conditionalBranch) :
    method.choices (visit :: rest) = method.choices rest :=
  List.filterMap_cons_none (if_neg hflow)

/-- Walks from one place that take the same paths differ in their lengths only. -/
theorem Walk.prefix_or_prefix (hone : method.Walk place visits) (hother : method.Walk place visits')
    (hsame : method.choices visits = method.choices visits') :
    visits <+: visits' ∨ visits' <+: visits := by
  induction hone generalizing visits' with
  | stay => exact Or.inl List.nil_prefix
  | @go handle path rest hknown _ ih =>
    cases hother with
    | stay => exact Or.inr List.nil_prefix
    | @go _ path' rest' hknown' hrest' =>
      have hstep : path = path' ∧ method.choices rest = method.choices rest' := by
        by_cases hflow : (method.get handle).flow = .conditionalBranch
        · rw [choices_cons_of_conditional hflow, choices_cons_of_conditional hflow] at hsame
          exact List.cons.inj hsame
        · rw [choices_cons_of_straight hflow, choices_cons_of_straight hflow] at hsame
          rw [Instruction.pathCount, if_neg hflow, Nat.lt_one_iff] at hknown hknown'
          exact ⟨hknown.trans hknown'.symm, hsame⟩
      obtain ⟨rfl, hchoices⟩ := hstep
      rw [List.cons_prefix_cons, List.cons_prefix_cons]
      exact (ih hrest' hchoices).imp (fun hcut => ⟨rfl, hcut⟩) fun hcut => ⟨rfl, hcut⟩

/-- A walk that completes cannot be continued. -/
theorem Completes.eq_of_prefix (hend : method.Completes visits) (hcut : visits <+: visits')
    (hwalk : method.Walk place visits') : visits = visits' := by
  induction visits generalizing place visits' with
  | nil => exact absurd hend not_completes_nil
  | cons visit rest ih =>
    obtain ⟨later, rfl⟩ := hcut
    obtain ⟨-, -, hrest⟩ := walk_cons_iff.mp hwalk
    by_cases hover : rest = []
    · subst hover
      rw [hend.after?_eq_none] at hrest
      exact congrArg (visit :: ·) hrest.eq_nil.symm
    · rw [List.cons_append,
        ← ih ((completes_append hover [visit]).mp hend) (List.prefix_append _ _) hrest]

/-- A walk that completes is fixed by its start and its choices. -/
theorem Walk.eq_of_choices (hone : method.Walk place visits) (hend : method.Completes visits)
    (hother : method.Walk place visits') (hend' : method.Completes visits')
    (hsame : method.choices visits' = method.choices visits) : visits' = visits := by
  rcases hone.prefix_or_prefix hother hsame.symm with hcut | hcut
  · exact (hend.eq_of_prefix hcut hother).symm
  · exact hend'.eq_of_prefix hcut hone

end Completing

end Method

end CilCoverage
