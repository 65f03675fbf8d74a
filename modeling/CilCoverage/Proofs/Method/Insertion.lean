import CilCoverage.Proofs.Method.Editing
import CilCoverage.Proofs.Method.Redecoding

/-!
# Insertions

`Template.WellFormed` is what the templates of an insertion have to satisfy; the copies are then
well-formed instructions (`wellFormed_copied`). Both ways of inserting are edits of the execution
order, one that replaces the instruction at the target by the first copy and one that leaves it in
place, so a recodable method stays recodable (`Recodable.insertAt`).

With `Recodable.redecode` this gives the law for runs of insertions: what comes of a decoded method
by any number of insertions is encoded, and decoded again as the same method.
-/

set_option autoImplicit false

namespace CilCoverage

open Instruction

/-- A template that can stand in a sequence of `count` templates: no label, an operand that can be
stored, and the targets that its operation asks for, all within the sequence. -/
structure Template.WellFormed (template : Template) (count : Nat) : Prop where
  real : template.opcode ≠ .label
  operand : template.opcode.isBranch = false →
    template.opcode.operandKind.Holds template.operand
  targets : template.opcode.Targets template.operand template.targets.length
  inside : ∀ target ∈ template.targets, target < count

instance (op : Opcode) (operand : Int) (count : Nat) : Decidable (op.Targets operand count) := by
  unfold Opcode.Targets
  exact inferInstance

namespace Template

instance (template : Template) (count : Nat) : Decidable (template.WellFormed count) :=
  decidable_of_iff (template.opcode ≠ .label
      ∧ (template.opcode.isBranch = false → template.opcode.operandKind.Holds template.operand)
      ∧ template.opcode.Targets template.operand template.targets.length
      ∧ ∀ target ∈ template.targets, target < count)
    ⟨fun ⟨real, operand, targets, inside⟩ => ⟨real, operand, targets, inside⟩,
      fun h => ⟨h.real, h.operand, h.targets, h.inside⟩⟩

variable {template : Template} {count : Nat}

/-- The copies of a well-formed template are well-formed. -/
theorem wellFormed_copied (hw : template.WellFormed count) (handleOf : Nat → Handle) :
    (template.copied handleOf).WellFormed := by
  have hlinked : template.copied handleOf
      = (Instruction.ofTemplate template).linked (template.targets.map handleOf) := rfl
  rw [hlinked]
  refine wellFormed_linked hw.operand ?_
  rw [List.length_map]
  exact hw.targets

/-- The copies of a well-formed template are no labels. -/
theorem opcode_copied_ne (hw : template.WellFormed count) (handleOf : Nat → Handle) :
    (template.copied handleOf).opcode ≠ .label :=
  (Opcode.widened_eq_label_iff _).not.mpr hw.real

/-- A copy has the operand of the template, unless it is widened. -/
theorem operand_copied (hkind : template.opcode.operandKind ≠ .shortBranch)
    (handleOf : Nat → Handle) : (template.copied handleOf).operand = template.operand :=
  Instruction.operand_linked (template.targets.map handleOf) hkind

/-- A copy has as many targets as the template. -/
theorem length_targets_copied (template : Template) (handleOf : Nat → Handle) :
    (template.copied handleOf).targets.length = template.targets.length :=
  List.length_map handleOf

end Template

namespace Method

variable {method : Method} {target position : Nat}

/-- The copies, and the instruction behind them, stand in the chain of handles. -/
theorem exists_insertTakingOver_eq (method : Method) (target position : Nat)
    {templates : List Template} (hne : templates ≠ []) :
    ∃ first rest, method.insertTakingOver target position templates
        = method.replaced target position first rest
      ∧ first :: rest = templates.map (Template.copied · (method.chained target))
        ++ [method.get target] := by
  cases templates with
  | nil => exact absurd rfl hne
  | cons template others => exact ⟨_, _, rfl, rfl⟩

/-- An insertion behind the target leaves its slot alone. -/
theorem insertBehindTarget_eq (hlt : target < method.slots.size) (templates : List Template) :
    method.insertBehindTarget position templates
      = method.replaced target position (method.get target)
        (templates.map (Template.copied · (method.slots.size + ·))) := by
  have hslots : method.slots.setIfInBounds target (method.get target) = method.slots := by
    apply Array.ext_getElem?
    intro handle
    rw [Array.getElem?_setIfInBounds, if_pos hlt]
    split
    · rename_i hsame
      rw [← hsame, get_of_lt hlt]
    · rfl
  rw [replaced, hslots]
  rfl

/-- An instruction stands at its position. -/
theorem getElem?_of_position? (hposition : method.position? target = some position) :
    method.order[position]? = some target := by
  obtain ⟨hlt, heq, -⟩ := List.findIdx?_eq_some_iff_getElem.mp hposition
  rw [List.getElem?_eq_getElem hlt]
  exact congrArg some (eq_of_beq heq)

/-- The copies take the handles of the chain that starts with `target`. -/
theorem chained_lt (hlt : target < method.slots.size) {index count : Nat} (hindex : index < count) :
    method.chained target index < method.slots.size + count := by
  unfold chained
  split
  · exact Nat.lt_of_lt_of_le hlt (Nat.le_add_right _ _)
  · exact Nat.add_lt_add_left (Nat.lt_of_le_of_lt (Nat.sub_le _ _) hindex) _

/-- Copies of templates can stand beside the instruction of the target if what a template leads to
is a copy again, and a label stays last. -/
theorem Recodable.replaced_copies (hr : method.Recodable)
    (hat : method.order[position]? = some target) {templates : List Template}
    {first : Instruction} {rest : List Instruction} (handleOf : Nat → Handle)
    (hwell : ∀ template ∈ templates, template.WellFormed templates.length)
    (hrow : ∀ instruction ∈ first :: rest, instruction = method.get target
      ∨ ∃ template ∈ templates, instruction = template.copied handleOf)
    (hfirst : first.opcode ≠ .label)
    (hlast : ∀ {k : Nat} {instruction : Instruction}, rest[k]? = some instruction →
      instruction.opcode = .label → k + 1 = rest.length)
    (hcopies : ∀ index < templates.length, handleOf index < method.slots.size + rest.length
      ∧ ((method.replaced target position first rest).get (handleOf index)).opcode ≠ .label) :
    (method.replaced target position first rest).Recodable := by
  refine hr.replaced hat (hr.toValid.replaced hat ?_ ?_ hfirst ?_) hfirst ?_
  · intro instruction hmem
    rcases hrow instruction hmem with rfl | ⟨template, htemplate, rfl⟩
    · exact hr.wellFormed target
    · exact Template.wellFormed_copied (hwell template htemplate) _
  · intro instruction hmem handle hhandle
    rcases hrow instruction hmem with rfl | ⟨template, htemplate, rfl⟩
    · exact Nat.lt_of_lt_of_le (hr.targets target handle hhandle) (Nat.le_add_right _ _)
    · obtain ⟨index, hindex, rfl⟩ := List.mem_map.mp hhandle
      exact (hcopies index ((hwell template htemplate).inside index hindex)).1
  · intro k instruction hk hlabel
    refine ⟨hlast hk hlabel, ?_⟩
    rcases hrow instruction (List.mem_cons_of_mem _ (List.mem_of_getElem? hk))
      with rfl | ⟨template, htemplate, rfl⟩
    · exact hr.ending hat hlabel
    · exact absurd hlabel (Template.opcode_copied_ne (hwell template htemplate) _)
  · intro instruction hmem handle hhandle
    rcases hrow instruction hmem with rfl | ⟨template, htemplate, rfl⟩
    · exact hr.landing_replaced hat hfirst hhandle
    · obtain ⟨index, hindex, rfl⟩ := List.mem_map.mp hhandle
      exact (hcopies index ((hwell template htemplate).inside index hindex)).2

/-- An insertion that takes a place over leaves a method that can be read back. -/
theorem Recodable.insertTakingOver (hr : method.Recodable)
    (hat : method.order[position]? = some target) {templates : List Template}
    (hne : templates ≠ []) (hwell : ∀ template ∈ templates, template.WellFormed templates.length) :
    (method.insertTakingOver target position templates).Recodable := by
  have hlt := hr.ordered.lt_of_getElem? hat
  obtain ⟨first, rest, heq, hcontents⟩ := exists_insertTakingOver_eq method target position hne
  have hlength : rest.length = templates.length := by
    simpa using congrArg List.length hcontents
  -- an instruction of the chain is a copy, or the one that was there and comes last
  have hcopy {index : Nat} (hindex : index < templates.length) : ∃ copy : Instruction,
      (first :: rest)[index]? = some copy ∧ copy.opcode ≠ .label := by
    rw [hcontents, List.getElem?_append_left (by rwa [List.length_map]), List.getElem?_map,
      List.getElem?_eq_getElem hindex]
    exact ⟨_, rfl, Template.opcode_copied_ne (hwell _ (List.getElem_mem hindex)) _⟩
  rw [heq]
  refine hr.replaced_copies hat (method.chained target) hwell ?_ ?_ ?_ ?_
  · intro instruction hmem
    rw [hcontents, List.mem_append, List.mem_map, List.mem_singleton] at hmem
    rcases hmem with ⟨template, htemplate, rfl⟩ | rfl
    · exact Or.inr ⟨template, htemplate, rfl⟩
    · exact Or.inl rfl
  · obtain ⟨copy, hfirst, hreal⟩ := hcopy (List.length_pos_iff.mpr hne)
    rwa [Option.some.inj hfirst]
  · intro k instruction hk hlabel
    have hin := (List.getElem?_eq_some_iff.mp hk).1
    rw [← List.getElem?_cons_succ (a := first)] at hk
    by_contra hbefore
    have hbelow : k + 1 < templates.length := by omega
    obtain ⟨copy, hsame, hreal⟩ := hcopy hbelow
    rw [hk] at hsame
    exact hreal (Option.some.inj hsame ▸ hlabel)
  · intro index hindex
    obtain ⟨copy, hat', hreal⟩ := hcopy hindex
    rw [get_replaced_chained hlt, hat', hlength]
    exact ⟨chained_lt hlt hindex, hreal⟩

/-- A kept entry is a `rethrow`. -/
theorem opcode_of_keepsEntry (hkeeps : method.keepsEntry target = true) :
    (method.get target).opcode = .rethrow := by
  rw [keepsEntry, Bool.and_eq_true] at hkeeps
  exact eq_of_beq hkeeps.1

/-- A handle that no boundary names opens no handler. -/
theorem keepsEntry_eq_false {other : Method} {part : Handle}
    (hboundaries : ∀ boundary ∈ method.boundaries, boundary.1 < method.slots.size)
    (hregions : other.regions = method.regions) (hfresh : method.slots.size ≤ part) :
    other.keepsEntry part = false := by
  rw [keepsEntry, Bool.and_eq_false_iff]
  right
  rw [List.any_eq_false, hregions]
  intro region hregion hboth
  rw [Bool.and_eq_true, beq_iff_eq, beq_iff_eq] at hboth
  have hlt := hboundaries (region.handlerStart, false)
    (List.mem_flatMap.mpr ⟨region, hregion, region.handlerStart_mem⟩)
  rw [hboth.2] at hlt
  exact absurd hlt (Nat.not_lt.mpr hfresh)

/-- So does an insertion behind an instruction that keeps its place. -/
theorem Recodable.insertBehindTarget (hr : method.Recodable)
    (hat : method.order[position]? = some target) (hkeeps : method.keepsEntry target = true)
    {templates : List Template}
    (hwell : ∀ template ∈ templates, template.WellFormed templates.length) :
    (method.insertBehindTarget position templates).Recodable := by
  have hlt := hr.ordered.lt_of_getElem? hat
  have hfirst : (method.get target).opcode ≠ .label := by
    rw [opcode_of_keepsEntry hkeeps]
    exact nofun
  have hreal {copy : Instruction}
      (hmem : copy ∈ templates.map (Template.copied · (method.slots.size + ·))) :
      copy.opcode ≠ .label := by
    obtain ⟨template, htemplate, rfl⟩ := List.mem_map.mp hmem
    exact Template.opcode_copied_ne (hwell template htemplate) _
  rw [insertBehindTarget_eq hlt]
  refine hr.replaced_copies hat (method.slots.size + ·) hwell ?_ hfirst ?_ ?_
  · intro instruction hmem
    rw [List.mem_cons, List.mem_map] at hmem
    rcases hmem with rfl | ⟨template, htemplate, rfl⟩
    · exact Or.inl rfl
    · exact Or.inr ⟨template, htemplate, rfl⟩
  · intro k instruction hk hlabel
    exact absurd hlabel (hreal (List.mem_of_getElem? hk))
  · intro index hindex
    rw [← List.length_map (Template.copied · (method.slots.size + ·))] at hindex
    rw [get_replaced_fresh (Nat.le_add_right _ _), Nat.add_sub_cancel_left,
      List.getElem?_eq_getElem hindex]
    exact ⟨Nat.add_lt_add_left hindex _, hreal (List.getElem_mem hindex)⟩

/-- An insertion keeps a method recodable and laid out. -/
theorem Recodable.insertAt (hr : method.Recodable) (hl : method.Laid) {templates : List Template}
    (hwell : ∀ template ∈ templates, template.WellFormed templates.length) {edited : Method}
    (hinsert : method.insertAt target templates = .ok edited) :
    edited.Recodable ∧ edited.Laid := by
  unfold Method.insertAt at hinsert
  split at hinsert
  · cases hinsert
    exact ⟨hr, hl⟩
  · rename_i hnonempty
    have hne : templates ≠ [] := by simpa using hnonempty
    split at hinsert
    · cases hinsert
    · rename_i position hposition
      have hat := getElem?_of_position? hposition
      split at hinsert
      · cases hinsert
      · split at hinsert
        · rename_i hkeeps
          cases hinsert
          have hkept := hr.insertBehindTarget hat hkeeps hwell
          exact ⟨hkept.layOut, hkept.ordered.laid_layOut hkept.allCounted⟩
        · cases hinsert
          have hkept := hr.insertTakingOver hat hne hwell
          exact ⟨hkept.layOut, hkept.ordered.laid_layOut hkept.allCounted⟩

end Method

/-- A request to insert templates, at an offset of the current layout or of the body as read. -/
inductive Insertion
  | atOffset (offset : Int) (templates : List Template)
  | atOrigin (offset : Int) (templates : List Template)

namespace Insertion

/-- What is inserted. -/
def templates : Insertion → List Template
  | atOffset _ templates => templates
  | atOrigin _ templates => templates

/-- Carries the request out. -/
def apply (insertion : Insertion) (method : Method) : Except Error Method :=
  match insertion with
  | atOffset offset templates => method.insertAtOffset offset templates
  | atOrigin offset templates => method.insertAtOrigin offset templates

/-- The templates can stand in one sequence. -/
def WellFormed (insertion : Insertion) : Prop :=
  ∀ template ∈ insertion.templates, template.WellFormed insertion.templates.length

instance (insertion : Insertion) : Decidable insertion.WellFormed := by
  unfold WellFormed
  exact inferInstance

/-- The instruction that the request is for. -/
def target? (insertion : Insertion) (method : Method) : Option Handle :=
  match insertion with
  | atOffset offset _ => method.findByOffset? offset
  | atOrigin offset _ => method.findByOrigin? offset

variable {insertion : Insertion} {method : Method} {target : Handle}

/-- A request inserts at the instruction that it is for, and fails if there is none. -/
theorem exists_apply_eq (insertion : Insertion) (method : Method) :
    ∃ cause, insertion.apply method = match insertion.target? method with
      | some target => method.insertAt target insertion.templates
      | none => .error cause := by
  cases insertion with
  | atOffset offset templates => exact ⟨.instructionNotFound offset, rfl⟩
  | atOrigin offset templates => exact ⟨.instructionNotFound offset, rfl⟩

/-- A request is carried out at the instruction that it is for. -/
theorem apply_of_target? (hlocated : insertion.target? method = some target) :
    insertion.apply method = method.insertAt target insertion.templates := by
  obtain ⟨cause, happly⟩ := insertion.exists_apply_eq method
  rw [happly, hlocated]

/-- A request is for a listed instruction. -/
theorem mem_order_of_target? (hlocated : insertion.target? method = some target) :
    target ∈ method.order := by
  cases insertion with
  | atOffset offset templates =>
    change method.findByOffset? offset = some target at hlocated
    unfold Method.findByOffset? at hlocated
    dsimp only at hlocated
    split at hlocated
    · rename_i handle hat
      rw [Option.ite_none_right_eq_some] at hlocated
      rw [← Option.some.inj hlocated.2]
      exact List.mem_of_getElem? hat
    · cases hlocated
  | atOrigin offset templates =>
    change method.findByOrigin? offset = some target at hlocated
    rw [Method.findByOrigin?] at hlocated
    split at hlocated
    · cases hlocated
    · exact List.mem_of_find?_eq_some hlocated

/-- A request that succeeds has found its instruction, and inserts there. -/
theorem exists_insertAt {edited : Method} (happly : insertion.apply method = .ok edited) :
    ∃ target, insertion.target? method = some target
      ∧ method.insertAt target insertion.templates = .ok edited := by
  obtain ⟨cause, hcases⟩ := insertion.exists_apply_eq method
  rw [hcases] at happly
  cases hlocated : insertion.target? method with
  | some target =>
    rw [hlocated] at happly
    exact ⟨target, rfl, happly⟩
  | none =>
    rw [hlocated] at happly
    cases happly

end Insertion

namespace Method

/-- Carries requests out one after the other, up to the first one that fails. -/
def insertAll (method : Method) (insertions : List Insertion) : Except Error Method :=
  insertions.foldlM (fun method insertion => insertion.apply method) method

/-- A run of insertions keeps a method recodable. -/
theorem Recodable.insertAll {method : Method} (hr : method.Recodable) (hl : method.Laid)
    {insertions : List Insertion} (hwell : ∀ insertion ∈ insertions, insertion.WellFormed)
    {edited : Method} (hinsert : method.insertAll insertions = .ok edited) :
    edited.Recodable ∧ edited.Laid := by
  induction insertions generalizing method with
  | nil =>
    cases hinsert
    exact ⟨hr, hl⟩
  | cons insertion rest ih =>
    rw [Method.insertAll, List.foldlM_cons, bind_eq_ok_iff] at hinsert
    obtain ⟨middle, happly, hrest⟩ := hinsert
    obtain ⟨target, -, happly⟩ := Insertion.exists_insertAt happly
    obtain ⟨hr', hl'⟩ := hr.insertAt hl (hwell insertion (by simp)) happly
    exact ih hr' hl' (fun other hmem => hwell other (List.mem_cons_of_mem _ hmem)) hrest

end Method

/-- Encoding and decoding is the identity on decoded methods with insertions: the same instructions
and regions at the same offsets, the same header, and the same bytes once more. -/
theorem decode_insertAll_redecodes {data : List UInt8} {original method : Method}
    {insertions : List Insertion} (hdecode : Method.decode data = .ok original)
    (hwell : ∀ insertion ∈ insertions, insertion.WellFormed)
    (hinsert : original.insertAll insertions = .ok method)
    (hsmall : method.codeSize < 2 ^ 31) (hcount : method.regions.length ≤ 699050) :
    ∃ bytes decoded, method.toBytes = .ok bytes ∧ Method.decode bytes = .ok decoded
      ∧ decoded.rows = method.rows ∧ decoded.regionRows = method.regionRows
      ∧ decoded.maxStack = method.maxStack
      ∧ decoded.header.initLocals = method.header.initLocals
      ∧ decoded.header.locals = method.header.locals
      ∧ decoded.toBytes = .ok bytes := by
  obtain ⟨raw, regions, targets, -, hd⟩ := Method.decode_spec hdecode
  obtain ⟨hr, hl⟩ := hd.recodable.insertAll hd.laid hwell hinsert
  obtain ⟨bytes, decoded, hbytes, hredecode, h, hagain⟩ := hr.redecode hl hsmall hcount
  obtain ⟨hstack, hinit, hlocals⟩ := h.header_eq
  exact ⟨bytes, decoded, hbytes, hredecode, h.rows_eq, h.regionRows_eq, hstack, hinit, hlocals,
    hagain⟩

/-- A loop that takes over the start of the handler of `guardedLoop`, and a pair that takes over the
start of its code. -/
def loopInsertions : List Insertion :=
  [.atOrigin 5 [{ opcode := .nop }, { opcode := .brS, targets := [0] }],
    .atOffset 0 [{ opcode := .ldcI4, operand := 7 }, { opcode := .pop }]]

/-- The thirty bytes of code that `loopInsertions` leave of `guardedLoop` are read back and written
again. -/
theorem decode_insertAll_redecodes_guardedLoop :
    ∃ original method bytes decoded, Method.decode guardedLoop = .ok original
      ∧ original.insertAll loopInsertions = .ok method ∧ method.codeSize = 30
      ∧ method.toBytes = .ok bytes ∧ Method.decode bytes = .ok decoded
      ∧ decoded.rows = method.rows ∧ decoded.toBytes = .ok bytes := by
  have hrun : (do
      let original ← Method.decode guardedLoop
      let method ← original.insertAll loopInsertions
      return (method.codeSize, method.regions.length)) = .ok (30, 1) := by decide +kernel
  obtain ⟨original, hdecode, hrest⟩ := bind_eq_ok_iff.mp hrun
  obtain ⟨method, hinsert, hpair⟩ := bind_eq_ok_iff.mp hrest
  have hsizes := Except.ok.inj hpair
  have hcode : method.codeSize = 30 := congrArg Prod.fst hsizes
  have hregions : method.regions.length = 1 := congrArg Prod.snd hsizes
  obtain ⟨bytes, decoded, hbytes, hredecode, hrows, -, -, -, -, hagain⟩ :=
    decode_insertAll_redecodes hdecode (by decide) hinsert (by rw [hcode]; decide)
      (by rw [hregions]; decide)
  exact ⟨original, method, bytes, decoded, hdecode, hinsert, hcode, hbytes, hredecode, hrows,
    hagain⟩

end CilCoverage
