import CilCoverage.Proofs.Coverage.Reachability

/-!
# The layout settles

Offsets are computed from the sizes that the operands announce, and aiming rewrites operands. The
two passes agree if aiming keeps the sizes, which it does for all instructions but a `switch` with
targets whose operand is not their number. Aiming makes such a `switch` count its targets. So
whatever templates were inserted, after every change each `switch` with targets counts them
(`Steadied.changed`), and laying out once more settles the layout (`Reachable.layOut_settled`).

A `switch` without targets keeps its operand, and with it a size that no code has. Offsets are then
no longer the sums of the sizes before them, but what 64 bits keep of these
(`not_summed_endlessSwitch`).

An insertion ends with a layout of its own. It settles unless a template is a `switch` with targets
that announces another number of cases (`Steadied.layOut_insertion`).
-/

set_option autoImplicit false

namespace CilCoverage

open Instruction

/-- The template is no `switch` with targets that announces another number of cases. -/
def Template.Steady (template : Template) : Prop :=
  template.opcode = .switch → template.targets ≠ [] → template.operand = template.targets.length

instance (template : Template) : Decidable template.Steady := by
  unfold Template.Steady
  exact inferInstance

/-- The copies of a steady template are steady. -/
theorem Template.Steady.copied {template : Template} (hs : template.Steady)
    (handleOf : Nat → Handle) : (template.copied handleOf).Steady := by
  intro hswitch htargets
  have hopcode : template.opcode = .switch := (Opcode.widened_eq_switch_iff _).mp hswitch
  have hsome : template.targets ≠ [] := by
    rintro hnil
    exact htargets (congrArg (List.map handleOf) hnil)
  rw [Template.operand_copied (Opcode.operandKind_ne_of_switch hopcode),
    Template.length_targets_copied]
  exact hs hopcode hsome

namespace Method

variable {method other : Method} {points : Points} {probe : Probe}

/-- Every slot is listed once, and each `switch` with targets counts them. -/
structure Steadied (method : Method) : Prop extends method.Ordered where
  steady : method.AllSteady

/-- Laying out leaves a steady method. -/
theorem Ordered.steadied_layOut (ho : method.Ordered) : method.layOut.Steadied where
  toOrdered := ho.layOut
  steady := by
    intro handle
    obtain ⟨offset, hget⟩ := ho.exists_get_layOut handle
    rw [hget]
    exact steady_aimed _ _

/-- More stack leaves a steady method. -/
theorem Steadied.increaseMaxStack (hs : method.Steadied) (extra : UInt16) :
    (method.increaseMaxStack extra).Steadied where
  toOrdered := ⟨hs.nodup, hs.mem_iff⟩
  steady := hs.steady

/-- An insertion leaves a steady method. -/
theorem Steadied.insertAt (hs : method.Steadied) {target : Handle} {templates : List Template}
    (hinsert : method.insertAt target templates = .ok other) : other.Steadied := by
  by_cases hne : templates = []
  · subst hne
    obtain rfl := Except.ok.inj hinsert
    exact hs
  · obtain ⟨-, position, first, rest, -, -, rfl⟩ := (insertAt_eq_ok_iff hs.toOrdered hne).mp hinsert
    exact hs.toOrdered.replaced.steadied_layOut

/-- The blocks of branches keep the slots listed, and the layout that follows makes each `switch`
count. -/
theorem Steadied.addBranchProbes (hs : method.Steadied) {branches : List BranchPoint} {placed : Nat}
    (hok : (method.addBranchProbes branches probe).outcome = .ok placed) :
    (method.addBranchProbes branches probe).method.Steadied := by
  refine addBranchProbes_keeps (I := Ordered) ?_ Ordered.steadied_layOut hs.toOrdered hs.toOrdered hs
    hok
  intro other branch placed ho hlt hone
  rw [(probeBranch_spec hone).2, spliceBlocks_eq hlt]
  exact ho.replaced

/-- Probes of statements leave a steady method. -/
theorem Steadied.addStatementProbes (hs : method.Steadied) {statements : List StatementPoint}
    {placed : Nat} (hok : (addStatementProbes probe statements method).outcome = .ok placed) :
    (addStatementProbes probe statements method).method.Steadied :=
  addStatementProbes_run (I := fun _ other => other.Steadied)
    (fun hother _ _ hinsert => hother.insertAt hinsert) [] hs hok

/-- Whatever a change inserts, each `switch` with targets counts them afterwards. -/
theorem Steadied.changed (hs : method.Steadied) {change : Change}
    (hchange : change.apply method = .ok other) : other.Steadied := by
  refine change.keeps hchange hs ?_ (fun hother hok => hother.addBranchProbes hok)
    (fun hother hok => hother.addStatementProbes hok) hs.toOrdered.steadied_layOut
    fun extra hother => hother.increaseMaxStack extra
  intro insertion _ happly
  obtain ⟨target, -, hinsert⟩ := Insertion.exists_insertAt happly
  exact hs.insertAt hinsert

/-- Every method that can be reached is steady. -/
theorem Reachable.steadied (hr : method.Reachable) : method.Steadied := by
  induction hr with
  | decoded hdecode =>
    obtain ⟨raw, regions, targets, -, hd⟩ := decode_spec hdecode
    exact ⟨hd.recodable.ordered, hd.recodable.allCounted.steady⟩
  | changed _ change hchange ih => exact ih.changed hchange

/-- The layout that an insertion ends with is settled if each template that is a `switch` with
targets counts them. -/
theorem Steadied.layOut_insertion (hs : method.Steadied) {insertion : Insertion}
    (hne : insertion.templates ≠ []) (hsteady : ∀ template ∈ insertion.templates, template.Steady)
    (happly : insertion.apply method = .ok other) : other.layOut = other := by
  obtain ⟨target, -, happly⟩ := Insertion.exists_insertAt happly
  obtain ⟨-, position, first, rest, hat, hrow, rfl⟩ :=
    (insertAt_eq_ok_iff hs.toOrdered hne).mp happly
  have hrow' : ∀ instruction ∈ first :: rest, instruction.Steady := by
    rw [hrow, forall_mem_row]
    exact ⟨hs.steady target, fun template htemplate => (hsteady template htemplate).copied _⟩
  have hedited : (method.replaced target position first rest).AllSteady :=
    forall_get_replaced (hs.toOrdered.lt_of_getElem? hat) (fun handle _ => hs.steady handle) hrow'
      (wellFormed_label (-1)).counted.steady
  have hordered : (method.replaced target position first rest).Ordered := hs.toOrdered.replaced
  exact (hordered.inPlace_layOut hedited).layOut_eq hordered.layOut

/-- One layout pass reaches a fixed point. Once a reachable method was laid out again, every
instruction is at the sum of the sizes of those before it, reduced to a signed number of 64 bits;
below 2⁶³ it is at the sum itself. The code size is the sum of all of them, if 32 bits hold it, and
another pass changes nothing. -/
theorem Reachable.layOut_settled (hr : method.Reachable) :
    (∀ position handle sum, method.layOut.order[position]? = some handle →
        ((method.layOut.instructions.take position).map Instruction.size).sum = sum →
          (sum < 2 ^ 63 → method.layOut.offsetOf handle = sum)
            ∧ (method.footprint < memoryLimit →
              method.layOut.offsetOf handle = Int.bmod sum (2 ^ 64)))
      ∧ ((method.layOut.instructions.map Instruction.size).sum < 2 ^ 32 →
          method.layOut.codeSize = (method.layOut.instructions.map Instruction.size).sum)
      ∧ method.layOut.layOut = method.layOut := by
  have hs := hr.steadied
  have hp := hs.toOrdered.inPlace_layOut hs.steady
  refine ⟨?_, ?_, hp.layOut_eq hs.toOrdered.layOut⟩
  · rintro position handle sum hat rfl
    have hoffset := hp.offset hat
    rw [inMemory_layOut hs.toOrdered] at hoffset
    constructor
    · intro hsmall
      exact hoffset.trans (offsetWord_of_lt _ hsmall)
    · intro hmemory
      have hsize : UInt64.size = 2 ^ 64 := rfl
      rw [hoffset, inMemory, decide_eq_true hmemory, offsetWord, if_pos rfl, hsize, startOf]
  · intro hsmall
    have hall : startOf method.layOut.instructions method.layOut.length
        = (method.layOut.instructions.map Instruction.size).sum := by
      rw [startOf, List.take_of_length_le (by rw [instructions, List.length_map, length])]
    have hsize : UInt32.size = 2 ^ 32 := rfl
    rw [codeSize, hp.codeSize, hall, offsetWord_of_lt _ (by omega), codeSizeAt_natCast,
      Nat.min_eq_left (by omega), UInt32.toNat_ofNat_of_lt' (by omega)]

/-- A `switch` without targets that announces so many cases that its size is three less than 2⁶⁴. -/
def endlessSwitch : Insertion := .atOrigin 0 [{ opcode := .switch, operand := 2 ^ 62 - 2 }]

/-- A `switch` to itself that announces five cases. -/
def boastfulSwitch : Insertion :=
  .atOrigin 0 [{ opcode := .switch, operand := 5, targets := [0] }]

/-- The pass at the end of the second insertion reserves 25 bytes for a `switch` that it leaves 9
bytes long. The next pass settles the layout, with that `switch` at -3, where the endless one before
it ends. -/
theorem Reachable.layOut_settled_boastfulSwitch :
    ∃ (method : Method) (handle : Handle), method.Reachable
      ∧ method.codeSize = 40 ∧ method.layOut.codeSize = 24
      ∧ method.layOut.order[1]? = some handle ∧ method.layOut.offsetOf handle = -3
      ∧ method.layOut.layOut = method.layOut := by
  have hrun : ((decode guardedLoop).bind fun original =>
      ((Change.insert endlessSwitch).apply original).bind fun wrapped =>
      ((Change.insert boastfulSwitch).apply wrapped).bind fun method =>
        .ok (method.codeSize, method.layOut.codeSize, method.layOut.order[1]?, method.footprint,
          ((method.layOut.instructions.take 1).map Instruction.size).sum))
      = .ok (40, 24, some 6, 160, 2 ^ 64 - 3) := by decide +kernel
  obtain ⟨original, hdecode, hrest⟩ := bind_eq_ok_iff.mp hrun
  obtain ⟨wrapped, hfirst, hrest⟩ := bind_eq_ok_iff.mp hrest
  obtain ⟨method, hsecond, hresult⟩ := bind_eq_ok_iff.mp hrest
  simp only [Except.ok.injEq, Prod.mk.injEq] at hresult
  obtain ⟨hbefore, hafter, hat, hfootprint, hsum⟩ := hresult
  have hreachable := Reachable.changed (.changed (.decoded hdecode) _ hfirst) _ hsecond
  obtain ⟨hoffsets, -, hfixed⟩ := hreachable.layOut_settled
  have hoffset := (hoffsets 1 6 _ hat hsum).2 (by rw [hfootprint]; decide)
  exact ⟨method, 6, hreachable, hbefore, hafter, hat, hoffset.trans (by decide), hfixed⟩

/-- Offsets are not always sums of sizes: behind the endless `switch`, `guardedLoop` starts at
-3. -/
theorem not_summed_endlessSwitch :
    ¬ ∀ method : Method, method.Reachable → ∀ position handle,
      method.layOut.order[position]? = some handle →
        method.layOut.offsetOf handle
          = ((method.layOut.instructions.take position).map Instruction.size).sum := by
  intro hsummed
  have hrun : ((decode guardedLoop).bind fun original =>
      ((Change.insert endlessSwitch).apply original).bind fun method =>
        .ok (method.layOut.order[1]?, method.layOut.offsetOf 6)) = .ok (some 6, -3) := by
    decide +kernel
  obtain ⟨original, hdecode, hrest⟩ := bind_eq_ok_iff.mp hrun
  obtain ⟨method, hchange, hresult⟩ := bind_eq_ok_iff.mp hrest
  obtain ⟨hat, hoffset⟩ := Prod.mk.inj (Except.ok.inj hresult)
  have hsum := hsummed method (.changed (.decoded hdecode) _ hchange) 1 6 hat
  omega

end Method

end CilCoverage
