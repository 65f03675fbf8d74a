import CilCoverage.Proofs.Method.Contents

/-!
# Identity of instructions under insertion

Handles are the identities of instructions: branches and regions refer to them. An insertion puts
the copies and the instruction of the target into a row of handles that starts with the target
(`insertAt_eq_ok_iff`), the target in front if it has to stay the entry of its handler and behind
the copies otherwise. `Method.Spliced` is what this means for the order of the contents and for each
handle, and `Ordered.spliced` establishes it.
-/

set_option autoImplicit false

namespace CilCoverage

open Instruction

/-- The instruction was copied from the template, with the handles of its targets. -/
structure Instruction.CopyOf (instruction : Instruction) (template : Template)
    (handleOf : Nat → Handle) : Prop where
  opcode : instruction.opcode = template.opcode.widened
  origin : instruction.origin = none
  targets : instruction.targets = template.targets.map handleOf
  operand : instruction.isBranch = false → instruction.operand = template.operand

/-- What has the content of a copy is a copy. -/
theorem Template.copyOf_of_content {template : Template} {handleOf : Nat → Handle}
    {instruction : Instruction}
    (hsame : instruction.content = (template.copied handleOf).content) :
    instruction.CopyOf template handleOf where
  opcode := opcode_eq_of_content hsame
  origin := origin_eq_of_content hsame
  targets := targets_eq_of_content hsame
  operand := by
    intro hplain
    have hopcode : instruction.opcode = template.opcode.widened := opcode_eq_of_content hsame
    have hplain' : template.opcode.isBranch = false := by
      rw [← Opcode.isBranch_widened, ← hopcode]
      exact hplain
    rw [← Template.operand_copied (Opcode.operandKind_ne_of_not_branch hplain') handleOf]
    exact operand_eq_of_content hsame hplain

/-- Only targets within the sequence are accepted. -/
theorem strayTarget?_eq_none_iff {templates : List Template} :
    strayTarget? templates = none
      ↔ ∀ template ∈ templates, ∀ target ∈ template.targets, target < templates.length := by
  simp only [strayTarget?, List.findSome?_eq_none_iff, List.find?_eq_none, decide_eq_true_eq,
    Nat.not_le]

namespace Method

/-- The handle of the copy of a template. -/
def copyHandle (method : Method) (target index : Nat) : Handle :=
  if method.keepsEntry target then method.slots.size + index else method.chained target index

/-- The copies of the templates. -/
def copies (method : Method) (target : Handle) (templates : List Template) : List Instruction :=
  templates.map (Template.copied · (method.copyHandle target))

/-- The copies together with the instruction that they are inserted at. -/
def row (method : Method) (target : Handle) (templates : List Template) : List Instruction :=
  if method.keepsEntry target then method.get target :: method.copies target templates
  else method.copies target templates ++ [method.get target]

section Row

variable {method edited : Method} {target : Handle} {position : Nat} {templates : List Template}

/-- There is a copy of each template. -/
theorem length_copies : (method.copies target templates).length = templates.length := by
  rw [copies, List.length_map]

/-- The row has the instruction besides the copies. -/
theorem length_row : (method.row target templates).length = templates.length + 1 := by
  unfold row
  split
  · rw [List.length_cons, length_copies]
  · rw [List.length_append, length_copies, List.length_singleton]

/-- The row holds the instruction of the target and the copies. -/
theorem forall_mem_row {p : Instruction → Prop} :
    (∀ instruction ∈ method.row target templates, p instruction)
      ↔ p (method.get target)
        ∧ ∀ template ∈ templates, p (template.copied (method.copyHandle target)) := by
  have hcopies : (∀ instruction ∈ method.copies target templates, p instruction)
      ↔ ∀ template ∈ templates, p (template.copied (method.copyHandle target)) :=
    List.forall_mem_map
  unfold row
  split
  · rw [List.forall_mem_cons, hcopies]
  · rw [List.forall_mem_append, List.forall_mem_singleton, hcopies, and_comm]

/-- An insertion that succeeds is an edit at the target with the row of the templates. -/
theorem insertAt_eq_ok_iff (ho : method.Ordered) (hne : templates ≠ []) :
    method.insertAt target templates = .ok edited ↔
      strayTarget? templates = none ∧ ∃ position first rest,
        method.order[position]? = some target ∧ first :: rest = method.row target templates
          ∧ edited = (method.replaced target position first rest).layOut := by
  have hempty : templates.isEmpty = false := by simpa using hne
  -- both kinds of insertion put the row at the target: one behind its instruction, the other around
  -- it
  have hrow (position : Nat) (hat : method.order[position]? = some target) :
      ∃ first rest, first :: rest = method.row target templates
        ∧ (if method.keepsEntry target then
            Except.ok (method.insertBehindTarget position templates).layOut
          else .ok (method.insertTakingOver target position templates).layOut)
          = (Except.ok (method.replaced target position first rest).layOut :
            Except Error Method) := by
    by_cases hkeeps : method.keepsEntry target = true
    · have hsame : method.copyHandle target = (method.slots.size + ·) := by
        funext index
        rw [copyHandle, if_pos hkeeps]
      refine ⟨_, _, (if_pos hkeeps).symm, ?_⟩
      rw [if_pos hkeeps, insertBehindTarget_eq (ho.lt_of_getElem? hat), copies, hsame]
    · have hsame : method.copyHandle target = method.chained target := by
        funext index
        rw [copyHandle, if_neg hkeeps]
      obtain ⟨first, rest, heq, hcontents⟩ := exists_insertTakingOver_eq method target position hne
      refine ⟨first, rest, ?_, ?_⟩
      · rw [hcontents, row, if_neg hkeeps, copies, hsame]
      · rw [if_neg hkeeps, heq]
  rw [Method.insertAt, hempty]
  simp only [Bool.false_eq_true, if_false]
  constructor
  · intro hinsert
    cases hposition : method.position? target with
    | none =>
      rw [hposition] at hinsert
      cases hinsert
    | some position =>
      rw [hposition] at hinsert
      have hat := getElem?_of_position? hposition
      cases hstray : strayTarget? templates with
      | some stray =>
        rw [hstray] at hinsert
        cases hinsert
      | none =>
        rw [hstray] at hinsert
        obtain ⟨first, rest, hfirst, hsame⟩ := hrow position hat
        dsimp only at hinsert
        rw [hsame] at hinsert
        exact ⟨rfl, position, first, rest, hat, hfirst, (Except.ok.inj hinsert).symm⟩
  · rintro ⟨hstray, position, first, rest, hat, hfirst, rfl⟩
    obtain ⟨first', rest', hfirst', hsame⟩ := hrow position hat
    obtain ⟨rfl, rfl⟩ := List.cons.inj (hfirst.trans hfirst'.symm)
    rw [ho.position?_of_getElem? hat, hstray]
    exact hsame

end Row

/-- The method with copies of the templates inserted at the target. The copies stand in front of the
target, whose handle names the first of them and whose content has moved to the last fresh handle;
at an instruction that has to stay the entry of its handler they stand behind, in fresh handles. All
other handles keep their contents and the regions their handles. -/
structure Spliced (method edited : Method) (target position : Nat) (templates : List Template) :
    Prop where
  contents : edited.contents
    = (if method.keepsEntry target then
        method.contents.take (position + 1)
          ++ (method.copies target templates).map content ++ method.contents.drop (position + 1)
      else
        method.contents.take position
          ++ (method.copies target templates).map content ++ method.contents.drop position)
  order : edited.order = method.order.take (position + 1)
    ++ method.freshHandles templates.length ++ method.order.drop (position + 1)
  size : edited.slots.size = method.slots.size + templates.length
  copyOf : ∀ {index : Nat} {template : Template}, templates[index]? = some template →
    (edited.get (method.copyHandle target index)).CopyOf template (method.copyHandle target)
  first : method.keepsEntry target = false → method.copyHandle target 0 = target
  moved : method.keepsEntry target = false →
    (edited.get (method.slots.size + templates.length - 1)).content = (method.get target).content
  kept : ∀ handle < method.slots.size, (handle = target → method.keepsEntry target = true) →
    (edited.get handle).content = (method.get handle).content
  regions : edited.regions = method.regions

section Splicing

variable {method : Method} {target : Handle} {position : Nat} {templates : List Template}
  {first : Instruction} {rest : List Instruction}

/-- As many fresh slots are needed as there are templates. -/
theorem length_rest_of_row (hrow : first :: rest = method.row target templates) :
    rest.length = templates.length := by
  have hlength := congrArg List.length hrow
  rw [length_row, List.length_cons] at hlength
  exact Nat.succ.inj hlength

/-- The copies and the moved instruction stand in the chain of handles in the order of the row. -/
theorem get_copyHandle (ho : method.Ordered) (hat : method.order[position]? = some target)
    (hrow : first :: rest = method.row target templates) {index : Nat} {template : Template}
    (hindex : templates[index]? = some template) :
    (method.replaced target position first rest).get (method.copyHandle target index)
      = template.copied (method.copyHandle target) := by
  have hlt := ho.lt_of_getElem? hat
  have hin := (List.getElem?_eq_some_iff.mp hindex).1
  by_cases hkeeps : method.keepsEntry target = true
  · rw [row, if_pos hkeeps] at hrow
    obtain ⟨-, rfl⟩ := List.cons.inj hrow
    rw [copyHandle, if_pos hkeeps, get_replaced_fresh (Nat.le_add_right _ _),
      Nat.add_sub_cancel_left, copies, List.getElem?_map, hindex]
    rfl
  · rw [row, if_neg hkeeps] at hrow
    rw [copyHandle, if_neg hkeeps, get_replaced_chained hlt, hrow,
      List.getElem?_append_left (by rwa [length_copies]), copies, List.getElem?_map, hindex]
    rfl

/-- An instruction that is taken over moves to the last fresh slot. -/
theorem get_lastFresh (ho : method.Ordered) (hat : method.order[position]? = some target)
    (hrow : first :: rest = method.row target templates) (hne : templates ≠ [])
    (hkeeps : method.keepsEntry target = false) :
    (method.replaced target position first rest).get (method.slots.size + templates.length - 1)
      = method.get target := by
  have hpos := List.length_pos_iff.mpr hne
  have hlast : method.slots.size + templates.length - 1
      = method.chained target templates.length := by
    rw [chained, if_neg (Nat.ne_of_gt hpos)]
    omega
  rw [row, hkeeps, if_neg Bool.false_ne_true] at hrow
  rw [hlast, get_replaced_chained (ho.lt_of_getElem? hat), hrow,
    List.getElem?_append_right (by rw [length_copies]), length_copies, Nat.sub_self]
  rfl

/-- The contents are those before with the copies at the position, or behind an instruction that
keeps its place. -/
theorem contents_replaced_row (ho : method.Ordered) (hat : method.order[position]? = some target)
    (hrow : first :: rest = method.row target templates) :
    (method.replaced target position first rest).contents
      = (if method.keepsEntry target then
          method.contents.take (position + 1)
            ++ (method.copies target templates).map content ++ method.contents.drop (position + 1)
        else
          method.contents.take position
            ++ (method.copies target templates).map content
            ++ method.contents.drop position) := by
  have hcontent : method.contents[position]? = some (method.get target).content := by
    rw [contents, List.getElem?_map, hat]
    rfl
  obtain ⟨hlt, hget⟩ := List.getElem?_eq_some_iff.mp hcontent
  rw [contents_replaced ho hat, hrow, row]
  split
  · rw [List.map_cons, List.take_add_one, hcontent]
    simp
  · rw [List.map_append, List.drop_eq_getElem_cons hlt, hget]
    simp

/-- Insertion keeps identities. -/
theorem Ordered.spliced (ho : method.Ordered) (hmem : target ∈ method.order) (hne : templates ≠ [])
    (hinside : ∀ template ∈ templates, ∀ j ∈ template.targets, j < templates.length) :
    ∃ position edited, method.order[position]? = some target
      ∧ method.insertAt target templates = .ok edited
      ∧ method.Spliced edited target position templates := by
  obtain ⟨position, hat⟩ := List.getElem?_of_mem hmem
  have hlt := ho.lt_of_getElem? hat
  have hlength : 0 < (method.row target templates).length := by
    rw [length_row]
    exact Nat.succ_pos _
  obtain ⟨first, rest, hrow⟩ := List.exists_cons_of_length_pos hlength
  have hrest := length_rest_of_row hrow.symm
  have hedited : (method.replaced target position first rest).Ordered := ho.replaced
  refine ⟨position, (method.replaced target position first rest).layOut, hat,
    (insertAt_eq_ok_iff ho hne).mpr
      ⟨strayTarget?_eq_none_iff.mpr hinside, position, first, rest, hat, hrow.symm, rfl⟩, ?_⟩
  refine ⟨?_, ?_, ?_, ?_, ?_, ?_, ?_, rfl⟩
  · rw [hedited.contents_layOut, contents_replaced_row ho hat hrow.symm]
  · show (method.replaced target position first rest).order = _
    rw [order_replaced, hrest]
    rfl
  · rw [size_slots_layOut, size_replaced, hrest]
  · intro index template hindex
    apply Template.copyOf_of_content
    rw [hedited.content_layOut, get_copyHandle ho hat hrow.symm hindex]
  · intro hkeeps
    rw [copyHandle, hkeeps]
    rfl
  · intro hkeeps
    rw [hedited.content_layOut, get_lastFresh ho hat hrow.symm hne hkeeps]
  · intro handle hhandle hself
    rw [hedited.content_layOut]
    by_cases hsame : handle = target
    · have hrow' := hrow
      rw [row, if_pos (hself hsame)] at hrow'
      rw [hsame, get_replaced_self hlt, (List.cons.inj hrow').1]
    · rw [get_replaced_of_ne hhandle (Ne.symm hsame)]

end Splicing

end Method

end CilCoverage
