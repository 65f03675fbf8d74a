import CilCoverage.Coverage.Placement
import CilCoverage.Proofs.Coverage.Walks
import CilCoverage.Proofs.Method.Editing

/-!
# Reports

What an instrumented method does at run time is that it executes the instructions of the body as
read and reports ids in between. Injected code keeps a stack of its own: a constant is pushed, the
call of the collector takes its argument from the top, and the call through an address takes the
address first and the argument behind it (`Instruction.effect`).

`Method.Reports` says that control which has come to one handle runs through injected code to
another one, and what that code reports. The code of a probe reports its id (`reports_sequence`),
and what leaves injected instructions alone leaves reports alone (`Reports.frame`).
-/

set_option autoImplicit false

namespace CilCoverage

/-- What can be noticed of a method at run time: an instruction of the body as read, by its offset
and the path of a conditional branch, or an id that reaches the collector. -/
inductive Observation
  | executed (offset : Nat) (path : Option Nat)
  | reported (id : UInt32)
deriving DecidableEq

/-- A probe has instructions. -/
theorem Probe.sequence_ne_nil {probe : Probe} {id : UInt32} : probe.sequence id ≠ [] := by
  cases probe <;> exact List.cons_ne_nil _ _

/-- What holds of pushing words and long addresses and of both ways to call the collector holds of the
code of every probe. -/
theorem Probe.of_mem_sequence {P : Template → Prop} (hword : ∀ value, P (pushWord value))
    (haddress : ∀ address, P (pushAddress address .bits64))
    (hcall : ∀ method : Token, P { opcode := .call, operand := method.value.toNat })
    (hcalli : ∀ signature : Token, P { opcode := .calli, operand := signature.value.toNat })
    {probe : Probe} {id : UInt32} {template : Template} (hmem : template ∈ probe.sequence id) :
    P template := by
  cases probe with
  | managed method =>
    simp only [sequence, List.mem_cons, List.not_mem_nil, or_false] at hmem
    rcases hmem with rfl | rfl
    · exact hword _
    · exact hcall _
  | unmanaged function signature width =>
    simp only [sequence, List.mem_cons, List.not_mem_nil, or_false] at hmem
    rcases hmem with rfl | rfl | rfl
    · exact hword _
    · cases width
      · exact hword _
      · exact haddress _
    · exact hcalli _

namespace Instruction

/-- The instruction was not read, and leaves no choice. -/
structure Injected (instruction : Instruction) : Prop where
  origin : instruction.origin = none
  straight : instruction.flow ≠ .conditionalBranch

/-- An injected instruction has one path. -/
theorem Injected.pathCount {instruction : Instruction} (hi : instruction.Injected) :
    instruction.pathCount = 1 := if_neg hi.straight

/-- What does the same as an injected instruction is injected. -/
theorem Injected.of_alike {one other : Instruction} (hi : other.Injected) (ha : one.Alike other) :
    one.Injected := by
  refine ⟨ha.origin.trans hi.origin, ?_⟩
  rw [ha.flow]
  exact hi.straight

/-- What comes of executing an instruction: the stack of injected code and what is noticed. -/
def effect (instruction : Instruction) (path : Nat) (stack : List Int) :
    List Int × List Observation :=
  match instruction.origin with
  | some offset =>
    (stack, [.executed offset (if instruction.flow = .conditionalBranch then some path else none)])
  | none =>
    if instruction.opcode = .ldcI4 ∨ instruction.opcode = .ldcI8 then
      (instruction.operand :: stack, [])
    else if instruction.opcode = .call then
      (stack.drop 1, (stack.take 1).map fun value => .reported (UInt32.ofInt value))
    else if instruction.opcode = .calli then
      (stack.drop 2, ((stack.drop 1).take 1).map fun value => .reported (UInt32.ofInt value))
    else (stack, [])

/-- Instructions that do the same have the same effect. -/
theorem Alike.effect {one other : Instruction} (ha : one.Alike other) (path : Nat)
    (stack : List Int) : one.effect path stack = other.effect path stack := by
  have hpushed (hop : other.opcode = .ldcI4 ∨ other.opcode = .ldcI8) :
      one.operand = other.operand := by
    apply ha.operand
    unfold isBranch
    rcases hop with hop | hop <;> rw [hop] <;> rfl
  unfold Instruction.effect
  rw [ha.origin, ha.opcode, ha.flow]
  cases other.origin with
  | some offset => rfl
  | none =>
    by_cases hop : other.opcode = .ldcI4 ∨ other.opcode = .ldcI8
    · simp only [if_pos hop, hpushed hop]
    · simp only [if_neg hop]

end Instruction

namespace Method

/-- What comes of a walk that is entered with a stack of injected code. -/
def perform (method : Method) (stack : List Int) : List Visit → List Int × List Observation
  | [] => (stack, [])
  | visit :: rest =>
    let first := (method.get visit.handle).effect visit.path stack
    let others := method.perform first.1 rest
    (others.1, first.2 ++ others.2)

/-- What is noticed of a walk. -/
def observations (method : Method) (visits : List Visit) : List Observation :=
  (method.perform [] visits).2

/-- Control that has come to `start` runs through injected code, which reports the ids and leaves
its stack as it was, to `finish`. -/
def Reports (method : Method) (start : Handle) (ids : List UInt32) (finish : Handle) : Prop :=
  ∃ visits, method.Leads Instruction.Injected start visits finish
    ∧ ∀ stack, method.perform stack visits = (stack, ids.map .reported)

section Reporting

variable {method other : Method} {start middle finish : Handle} {ids more : List UInt32}

/-- The parts of a walk are performed one after the other. -/
theorem perform_append (method : Method) (stack : List Int) (front back : List Visit) :
    method.perform stack (front ++ back)
      = ((method.perform (method.perform stack front).1 back).1,
        (method.perform stack front).2 ++ (method.perform (method.perform stack front).1 back).2) := by
  induction front generalizing stack with
  | nil => rfl
  | cons visit rest ih =>
    rw [List.cons_append, perform, ih, perform, List.append_assoc]

/-- No code reports nothing. -/
theorem Reports.refl (method : Method) (handle : Handle) : method.Reports handle [] handle :=
  ⟨[], .here handle, fun _ => rfl⟩

/-- Code behind code reports the ids of both. -/
theorem Reports.trans (hfront : method.Reports start ids middle)
    (hback : method.Reports middle more finish) : method.Reports start (ids ++ more) finish := by
  obtain ⟨front, hleads, hperform⟩ := hfront
  obtain ⟨back, hleads', hperform'⟩ := hback
  refine ⟨front ++ back, hleads.append hleads', ?_⟩
  intro stack
  rw [perform_append, hperform, hperform', List.map_append]

/-- One injected instruction that only leads on. -/
theorem Reports.of_silent (hinjected : (method.get start).Injected)
    (hmove : method.after? start 0 = some finish)
    (hsilent : ∀ stack, (method.get start).effect 0 stack = (stack, [])) :
    method.Reports start [] finish := by
  refine ⟨[⟨start, 0⟩], .pass hinjected hinjected.pathCount hmove (.here finish), ?_⟩
  intro stack
  simp [perform, hsilent]

/-- A handle that names no slot leads nowhere. -/
theorem Ordered.mem_of_after? (ho : method.Ordered) {handle next : Handle} {path : Nat}
    (hmove : method.after? handle path = some next) : handle ∈ method.order := by
  by_contra hout
  have hnext : method.next? handle = none := by
    rw [next?, position?, List.idxOf?_eq_none_iff.mpr hout]
  have hflow : (method.get handle).flow = .modifier := by
    rw [ho.get_of_notMem hout]
    rfl
  rw [after?, hflow] at hmove
  cases hnext.symm.trans hmove

/-- A change that leaves injected instructions and what follows them alone. -/
theorem Reports.frame (ho : method.Ordered) (hr : method.Reports start ids finish)
    (hkept : ∀ handle ∈ method.order, (method.get handle).origin = none →
      (other.get handle).Alike (method.get handle) ∧ other.next? handle = method.next? handle) :
    other.Reports start ids finish := by
  obtain ⟨visits, hleads, hperform⟩ := hr
  have hsame : other.Leads Instruction.Injected start visits finish
      ∧ ∀ stack, other.perform stack visits = method.perform stack visits := by
    clear hperform
    induction hleads with
    | here handle => exact ⟨.here handle, fun _ => rfl⟩
    | @pass handle next _ visits hinjected hsingle hmove _ ih =>
      obtain ⟨halike, hnext⟩ := hkept handle (ho.mem_of_after? hmove) hinjected.origin
      refine ⟨.pass (hinjected.of_alike halike) (halike.pathCount.trans hsingle) ?_ ih.1, ?_⟩
      · rw [after?_congr halike hnext, hmove]
      · intro stack
        rw [perform, perform, halike.effect, ih.2]
  refine ⟨visits, hsame.1, ?_⟩
  intro stack
  rw [hsame.2, hperform]

/-- The number that is pushed carries the bits of the id. -/
theorem ofInt_bmod_toNat (id : UInt32) :
    UInt32.ofInt (Int.bmod id.toNat UInt32.size) = id := by
  have hlt : (id.toNat : Int) < UInt32.size := by exact_mod_cast id.toNat_lt
  have hmod : Int.bmod id.toNat UInt32.size % 2 ^ 32 = id.toNat := by
    rw [show (2 : Int) ^ 32 = (UInt32.size : Nat) from rfl, Int.bmod_emod]
    exact Int.emod_eq_of_lt (Int.natCast_nonneg _) hlt
  rw [UInt32.ofInt, hmod, Int.toNat_natCast, UInt32.ofNat_toNat]

/-- A constant is pushed. -/
theorem effect_ldcI4 (value : Int) (targetOf : Nat → Handle) (stack : List Int) :
    (Template.copied { opcode := .ldcI4, operand := value } targetOf).effect 0 stack
      = (value :: stack, []) := rfl

/-- A word is pushed as a signed number of its width. -/
theorem effect_pushWord (value : Nat) (targetOf : Nat → Handle) (stack : List Int) :
    ((Probe.pushWord value).copied targetOf).effect 0 stack
      = (Int.bmod value UInt32.size :: stack, []) := effect_ldcI4 _ targetOf stack

/-- An address of either width is pushed as one value. -/
theorem exists_effect_pushAddress (address : UInt64) (width : PointerWidth)
    (targetOf : Nat → Handle) : ∃ value : Int, ∀ stack,
      ((Probe.pushAddress address width).copied targetOf).effect 0 stack = (value :: stack, []) := by
  cases width with
  | bits32 => exact ⟨_, effect_pushWord _ targetOf⟩
  | bits64 => exact ⟨_, fun stack => rfl⟩

/-- A call of the collector reports the value on the stack. -/
theorem effect_call (token value : Int) (targetOf : Nat → Handle) (stack : List Int) :
    (Template.copied { opcode := .call, operand := token } targetOf).effect 0 (value :: stack)
      = (stack, [.reported (UInt32.ofInt value)]) := rfl

/-- A call through an address reports the value below the address. -/
theorem effect_calli (signature address value : Int) (targetOf : Nat → Handle)
    (stack : List Int) :
    (Template.copied { opcode := .calli, operand := signature } targetOf).effect 0
        (address :: value :: stack)
      = (stack, [.reported (UInt32.ofInt value)]) := rfl

/-- Neither pushing nor calling is a branch. -/
theorem flow_sequence {probe : Probe} {id : UInt32} {template : Template}
    (hmem : template ∈ probe.sequence id) :
    template.opcode.widened.flow = .sequential ∨ template.opcode.widened.flow = .call :=
  Probe.of_mem_sequence
    (P := fun template => template.opcode.widened.flow = .sequential
      ∨ template.opcode.widened.flow = .call)
    (fun _ => .inl rfl) (fun _ => .inl rfl) (fun _ => .inr rfl) (fun _ => .inr rfl) hmem

/-- The code of a probe, wherever its copies stand one after the other, reports the id. -/
theorem reports_sequence (probe : Probe) (id : UInt32) {handleOf targetOf : Nat → Handle}
    (hcode : ∀ {k : Nat} {template : Template}, (probe.sequence id)[k]? = some template →
      (method.get (handleOf k)).Alike (template.copied targetOf))
    (hnext : ∀ k < (probe.sequence id).length,
      method.next? (handleOf k) = some (handleOf (k + 1))) :
    method.Reports (handleOf 0) [id] (handleOf (probe.sequence id).length) := by
  refine ⟨_, leads_range ?_, ?_⟩
  · intro k hk
    have halike := hcode (List.getElem?_eq_getElem hk)
    have hflow := flow_sequence (List.getElem_mem hk)
    change (Template.copied _ targetOf).flow = _ ∨ (Template.copied _ targetOf).flow = _ at hflow
    rw [← halike.flow] at hflow
    have hinjected : (method.get (handleOf k)).Injected := by
      refine ⟨halike.origin, ?_⟩
      rcases hflow with hflow | hflow <;> rw [hflow] <;> exact nofun
    refine ⟨hinjected, hinjected.pathCount, ?_⟩
    rw [after?]
    rcases hflow with hflow | hflow <;> rw [hflow] <;> exact hnext k hk
  · intro stack
    cases probe with
    | managed token =>
      show method.perform stack [⟨handleOf 0, 0⟩, ⟨handleOf 1, 0⟩] = _
      simp only [perform, (hcode (k := 0) rfl).effect, (hcode (k := 1) rfl).effect,
        effect_pushWord, effect_call, ofInt_bmod_toNat]
      rfl
    | unmanaged function signature width =>
      obtain ⟨address, hpushed⟩ := exists_effect_pushAddress function width targetOf
      show method.perform stack [⟨handleOf 0, 0⟩, ⟨handleOf 1, 0⟩, ⟨handleOf 2, 0⟩] = _
      simp only [perform, (hcode (k := 0) rfl).effect, (hcode (k := 1) rfl).effect,
        (hcode (k := 2) rfl).effect, effect_pushWord, hpushed, effect_calli, ofInt_bmod_toNat]
      rfl

end Reporting

end Method

end CilCoverage
