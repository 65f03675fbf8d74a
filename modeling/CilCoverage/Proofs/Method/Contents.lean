import CilCoverage.Proofs.Method.Insertion

/-!
# Contents

The content of a slot is its instruction up to what laying out writes: offset, displacements and the
operand of a branch with targets. `Method.contents` lists the contents in execution order. Laying
out changes none of them (`Ordered.content_layOut`).

The outline of an instruction says even less: it leaves out which instructions a branch leads to,
and only tells how many there are. Edits of the execution order are described by what becomes of the
contents (`contents_replaced`) and of single handles.
-/

set_option autoImplicit false

namespace CilCoverage

/-- What an instruction does, apart from where it leads to. -/
structure Outline where
  opcode : Opcode
  operand : Int
  origin : Option Nat
  targetCount : Nat
deriving DecidableEq

namespace Instruction

/-- The instruction without what laying out writes. -/
def content (instruction : Instruction) : Instruction :=
  { instruction with
    operand := if instruction.isBranch && !instruction.targets.isEmpty then pendingDisplacement
      else instruction.operand
    offset := -1
    displacements := [] }

/-- The content without the targets. -/
def outline (instruction : Instruction) : Outline where
  opcode := instruction.opcode
  operand := instruction.content.operand
  origin := instruction.origin
  targetCount := instruction.targets.length

section Content

variable {instruction one other : Instruction}

/-- To aim an instruction leaves its content alone. -/
theorem content_aimed (instruction : Instruction) (offsetOf : Handle → Int) :
    (instruction.aimed offsetOf).content = instruction.content := by
  by_cases hbranch : (instruction.isBranch && !instruction.targets.isEmpty) = true
  · rw [aimed_of_branch _ _ hbranch, content, content, if_pos hbranch]
    exact congrArg (fun operand => ({ instruction with
      operand, offset := -1, displacements := [] } : Instruction)) (if_pos hbranch)
  · rw [aimed_of_not_branch _ _ hbranch]

/-- The content tells the opcode. -/
theorem opcode_eq_of_content (hsame : one.content = other.content) : one.opcode = other.opcode := by
  show one.content.opcode = other.content.opcode
  rw [hsame]

/-- The content tells the origin. -/
theorem origin_eq_of_content (hsame : one.content = other.content) : one.origin = other.origin := by
  show one.content.origin = other.content.origin
  rw [hsame]

/-- The content tells the targets. -/
theorem targets_eq_of_content (hsame : one.content = other.content) :
    one.targets = other.targets := by
  show one.content.targets = other.content.targets
  rw [hsame]

/-- The content tells the operand, unless laying out computes it. -/
theorem operand_eq_of_content (hsame : one.content = other.content)
    (hplain : one.isBranch = false) : one.operand = other.operand := by
  have hplain' : other.isBranch = false := by
    rw [← hplain, isBranch, isBranch, opcode_eq_of_content hsame]
  have hoperand := congrArg Instruction.operand hsame
  simp only [content, hplain, hplain', Bool.false_and, Bool.false_eq_true, if_false] at hoperand
  exact hoperand

/-- The content tells the outline. -/
theorem outline_eq_of_content (hsame : one.content = other.content) :
    one.outline = other.outline := by
  rw [outline, outline, hsame, opcode_eq_of_content hsame, origin_eq_of_content hsame,
    targets_eq_of_content hsame]

/-- Leading a branch elsewhere does not change its outline. -/
theorem outline_retargeted (instruction : Instruction) {targets : List Handle}
    (hcount : targets.length = instruction.targets.length) :
    { instruction with targets }.outline = instruction.outline := by
  have hempty : targets.isEmpty = instruction.targets.isEmpty := by
    rw [Bool.eq_iff_iff, List.isEmpty_iff_length_eq_zero, List.isEmpty_iff_length_eq_zero, hcount]
  have hoperand : { instruction with targets }.content.operand = instruction.content.operand := by
    show (if instruction.isBranch && !targets.isEmpty then _ else _) = _
    rw [hempty]
    rfl
  rw [outline, outline, hoperand, hcount]

/-- Copies of one template have one outline, whatever handles they lead to. -/
theorem outline_copied (template : Template) (handleOf handleOf' : Nat → Handle) :
    (template.copied handleOf).outline = (template.copied handleOf').outline := by
  have hcount : (template.targets.map handleOf).length
      = (template.copied handleOf').targets.length := by
    rw [Template.copied, List.length_map, List.length_map]
  exact outline_retargeted (template.copied handleOf') hcount

end Content

end Instruction

open Instruction

namespace Method

/-- The contents in execution order. -/
def contents (method : Method) : List Instruction :=
  method.order.map fun handle => (method.get handle).content

/-- The outlines in execution order. -/
def outlines (method : Method) : List Outline :=
  method.order.map fun handle => (method.get handle).outline

/-- Laying out leaves the content of every instruction alone. -/
theorem Ordered.content_layOut {method : Method} (ho : method.Ordered) (handle : Handle) :
    (method.layOut.get handle).content = (method.get handle).content := by
  obtain ⟨offset, hget⟩ := ho.exists_get_layOut handle
  rw [hget, content_aimed]
  rfl

/-- Laying out leaves the contents alone. -/
theorem Ordered.contents_layOut {method : Method} (ho : method.Ordered) :
    method.layOut.contents = method.contents :=
  List.map_congr_left fun handle _ => ho.content_layOut handle

section Replacing

variable {method : Method} {target position : Nat} {first : Instruction} {rest : List Instruction}

/-- The fresh handles hold the instructions that were put into them. -/
theorem map_get_freshHandles (method : Method) (target position : Nat) (first : Instruction)
    (rest : List Instruction) :
    (method.freshHandles rest.length).map (method.replaced target position first rest).get = rest := by
  apply List.ext_getElem?
  intro k
  rw [List.getElem?_map, freshHandles]
  by_cases hlt : k < rest.length
  · rw [List.getElem?_range' hlt, Nat.one_mul, Option.map_some,
      get_replaced_fresh (Nat.le_add_right _ _), Nat.add_sub_cancel_left,
      List.getElem?_eq_getElem hlt]
    rfl
  · rw [List.getElem?_eq_none (by simpa using hlt), List.getElem?_eq_none (by simpa using hlt)]
    rfl

/-- The contents of an edited method: at the place of the target stand the new instructions. -/
theorem contents_replaced (ho : method.Ordered) (hat : method.order[position]? = some target) :
    (method.replaced target position first rest).contents
      = method.contents.take position ++ (first :: rest).map content
        ++ method.contents.drop (position + 1) := by
  obtain ⟨hlt, heq⟩ := List.getElem?_eq_some_iff.mp hat
  have hkept {handle : Handle} (hmem : handle ∈ method.order) (hne : target ≠ handle) :
      (method.replaced target position first rest).get handle = method.get handle :=
    get_replaced_of_ne ((ho.mem_iff handle).mp hmem) hne
  -- the target stands once in the order, so on neither side of its position
  have hsplit : method.order
      = method.order.take position ++ target :: method.order.drop (position + 1) := by
    rw [← heq, ← List.drop_eq_getElem_cons hlt, List.take_append_drop]
  have hnodup := ho.nodup
  rw [hsplit, List.nodup_middle, List.nodup_cons, List.mem_append, not_or] at hnodup
  obtain ⟨⟨hfront, hback⟩, -⟩ := hnodup
  have hedited : insertBehind position (method.freshHandles rest.length) method.order
      = method.order.take position ++ target :: method.freshHandles rest.length
        ++ method.order.drop (position + 1) := by
    rw [insertBehind, List.take_add_one, hat]
    simp
  have hfresh := congrArg (List.map content)
    (map_get_freshHandles method target position first rest)
  rw [List.map_map] at hfresh
  rw [contents, order_replaced, hedited, List.map_append, List.map_append, List.map_cons,
    get_replaced_self (ho.lt_of_getElem? hat)]
  congr 1
  · congr 1
    · rw [contents, ← List.map_take]
      apply List.map_congr_left
      intro handle hmem
      have hne : target ≠ handle := by
        rintro rfl
        exact hfront hmem
      rw [hkept (List.mem_of_mem_take hmem) hne]
    · exact congrArg (first.content :: ·) hfresh
  · rw [contents, ← List.map_drop]
    apply List.map_congr_left
    intro handle hmem
    have hne : target ≠ handle := by
      rintro rfl
      exact hback hmem
    rw [hkept (List.mem_of_mem_drop hmem) hne]

end Replacing

end Method

end CilCoverage
