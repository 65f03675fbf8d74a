import CilCoverage.Proofs.Coverage.Rereading
import CilCoverage.Proofs.Method.Equivalence

/-!
# Recognition of insertions

An insertion puts copies of its templates one behind the other. Once the method was encoded and
decoded again, the copies stand at the offset of the first of them, with the operands of their
templates and with branches to one another. They are recognised there if each of them still has the
operation of its template. This is so for all templates but short branches: their copies are
widened, whereas templates are compared as they are (`decode_insertion_recognised_iff`).

The copies have to be read back to be recognised. In a method with 2³² bytes of code the last byte
of the code, which its header does not count, is not.
-/

set_option autoImplicit false

namespace CilCoverage

open Instruction

/-- Operations without a long form are not widened. -/
theorem Opcode.widened_eq_self_iff (op : Opcode) : op.widened = op ↔ op.longForm? = none := by
  cases op <;> decide

namespace Method

variable {method edited decoded : Method} {target : Handle} {position count : Nat}
  {templates : List Template} {template : Template}

/-- The position of the first copy of an insertion at the given position. -/
def copyPosition (method : Method) (target : Handle) (position : Nat) : Nat :=
  if method.keepsEntry target then position + 1 else position

/-- The copies stand one behind the other. -/
theorem Spliced.getElem?_order (hs : method.Spliced edited target position templates)
    (hat : method.order[position]? = some target) {index : Nat} (hindex : index < templates.length) :
    edited.order[method.copyPosition target position + index]?
      = some (method.copyHandle target index) := by
  have hin : position < method.order.length := (List.getElem?_eq_some_iff.mp hat).1
  have hcount := length_freshHandles method templates.length
  have horder : edited.order
      = insertBehind position (method.freshHandles templates.length) method.order := hs.order
  have hfresh {k : Nat} (hk : k < templates.length) :
      edited.order[position + 1 + k]? = some (method.slots.size + k) := by
    rw [horder, getElem?_insertBehind hin, if_neg (by omega), if_pos (by omega),
      Nat.add_sub_cancel_left, List.getElem?_eq_getElem (by omega)]
    simp [freshHandles]
  unfold copyPosition copyHandle
  split
  · exact hfresh hindex
  · cases index with
    | zero =>
      rw [horder, getElem?_insertBehind hin, if_pos (by omega)]
      exact hat
    | succ index =>
      rw [show position + (index + 1) = position + 1 + index by omega, hfresh (by omega)]
      rfl

/-- Copies are instructions. -/
theorem Spliced.copy_mem_handles (hs : method.Spliced edited target position templates)
    (hv : edited.Valid) (hat : method.order[position]? = some target)
    (hwell : ∀ template ∈ templates, template.WellFormed templates.length) {index : Nat}
    (hindex : index < templates.length) :
    edited.handles[method.copyPosition target position + index]?
      = some (method.copyHandle target index) := by
  rw [hv.getElem?_handles]
  refine ⟨hs.getElem?_order hat hindex, ?_⟩
  have htemplate := List.getElem?_eq_getElem hindex
  rw [(hs.copyOf htemplate).opcode]
  exact (Opcode.widened_eq_label_iff _).not.mpr (hwell _ (List.getElem_mem hindex)).real

/-- The last copy ends where the code that is read ends, or before, if all copies are read. -/
theorem Spliced.finish_le_iff (hs : method.Spliced edited target position templates)
    (hv : edited.Valid) (hl : edited.Laid)
    (htotal : startOf edited.instructions edited.length ≤ UInt32.size)
    (hread : edited.Reread decoded count) (hat : method.order[position]? = some target)
    (hne : templates ≠ [])
    (hwell : ∀ template ∈ templates, template.WellFormed templates.length) :
    (edited.get (method.copyHandle target (templates.length - 1))).finish ≤ edited.codeSize
      ↔ method.copyPosition target position + templates.length ≤ count := by
  have hpos := List.length_pos_iff.mpr hne
  have hlast : templates.length - 1 < templates.length := Nat.sub_lt hpos Nat.one_pos
  have hhandle := hs.copy_mem_handles hv hat hwell hlast
  obtain ⟨horder, -⟩ := hv.getElem?_handles.mp hhandle
  have hroom := (List.getElem?_eq_some_iff.mp hhandle).1
  rw [hl.finish_eq (List.mem_of_getElem? horder), hv.ordered.idxOf_eq horder, ← hread.codeSize,
    Nat.add_assoc, Nat.sub_add_cancel hpos, Int.ofNat_le]
  constructor
  · intro hle
    by_contra hout
    have hlt := hv.startOf_lt_startOf hl htotal (Nat.lt_of_not_le hout) (by omega)
    exact absurd hle (Nat.not_le.mpr hlt)
  · exact startOf_le_startOf _

/-- A copy that is read back is related to its template unless the template was widened. -/
theorem Spliced.matchesTemplate_iff (hs : method.Spliced edited target position templates)
    (hv : edited.Valid) (hread : edited.Reread decoded count)
    (hat : method.order[position]? = some target) {index : Nat}
    (hindex : templates[index]? = some template) (hwell : template.WellFormed templates.length)
    (hlt : method.copyPosition target position + index < count) :
    (decoded.get (method.copyPosition target position + index)).matchesTemplate template = true
      ↔ template.opcode.longForm? = none := by
  have hcopy := hs.copyOf hindex
  have horder := hs.getElem?_order hat (List.getElem?_eq_some_iff.mp hindex).1
  have hopcode : (decoded.get (method.copyPosition target position + index)).opcode
      = template.opcode.widened := by
    rw [hread.opcode hlt horder, hcopy.opcode]
  have hcount : (decoded.get (method.copyPosition target position + index)).targets.length
      = template.targets.length := by
    rw [hread.targets hlt horder, hcopy.targets, List.length_map, List.length_map]
  rw [matchesTemplate, Bool.and_eq_true, Bool.and_eq_true, beq_iff_eq, beq_iff_eq, hopcode,
    Opcode.widened_eq_self_iff]
  refine ⟨fun hmatches => hmatches.1.1, fun hlong => ⟨⟨hlong, ?_⟩, hcount⟩⟩
  rw [Bool.or_eq_true, beq_iff_eq]
  have hsame : (edited.get (method.copyHandle target index)).opcode = template.opcode :=
    hcopy.opcode.trans ((Opcode.widened_eq_self_iff _).mpr hlong)
  cases hresolved : ((edited.get (method.copyHandle target index)).isBranch
      && !(edited.get (method.copyHandle target index)).targets.isEmpty) with
  | true =>
    left
    rwa [isBranch, hread.opcode hlt horder, hread.targets hlt horder, List.isEmpty_map]
  | false =>
    right
    rw [hread.operand hlt horder hresolved]
    cases hbranch : (edited.get (method.copyHandle target index)).isBranch with
    | false => exact hcopy.operand hbranch
    | true =>
      -- a branch without targets is a `switch` without cases
      have hnil : template.targets = [] := by
        have hempty : (edited.get (method.copyHandle target index)).targets.isEmpty = true := by
          simpa [hbranch] using hresolved
        rw [hcopy.targets, List.isEmpty_map] at hempty
        exact List.isEmpty_iff.mp hempty
      have htargets := hwell.targets
      have htargets' := (hv.wellFormed (method.copyHandle target index)).targets
      rw [hcopy.targets, List.length_map, hsame] at htargets'
      rw [isBranch, hsame] at hbranch
      rw [Opcode.Targets, hbranch, hnil] at htargets htargets'
      by_cases hswitch : template.opcode = .switch
      · rw [if_pos hswitch] at htargets htargets'
        rw [htargets', htargets]
      · rw [if_neg hswitch] at htargets
        cases htargets

/-- An instruction that is read back from where an instruction started is that instruction. -/
theorem Reread.eq_of_origin (hread : method.Reread decoded count) (hv : method.Valid)
    (hl : method.Laid) (htotal : startOf method.instructions method.length ≤ UInt32.size) {k j : Nat}
    (horigin : (decoded.get k).origin = some (startOf method.instructions j))
    (hj : j ≤ method.handles.length) : k = j := by
  have hcount := hread.count_le
  rw [hread.origin, Option.ite_none_right_eq_some, Option.some.injEq] at horigin
  obtain ⟨hlt, hsame⟩ := horigin
  rcases Nat.lt_trichotomy k j with hless | heq | hmore
  · have hstarts := hv.startOf_lt_startOf hl htotal hless hj
    omega
  · exact heq
  · have hstarts := hv.startOf_lt_startOf hl htotal hmore (Nat.le_trans (Nat.le_of_lt hlt) hcount)
    omega

/-- Copies that were read back are related to their templates if none of these was widened: their
branches lead to one another as those of the templates do. -/
theorem Spliced.closed_copies (hs : method.Spliced edited target position templates)
    (hv : edited.Valid) (hread : edited.Reread decoded count)
    (hat : method.order[position]? = some target)
    (hwell : ∀ template ∈ templates, template.WellFormed templates.length)
    (hlong : ∀ template ∈ templates, template.opcode.longForm? = none)
    (hcount : method.copyPosition target position + templates.length ≤ count) :
    decoded.Closed templates fun handle index =>
      handle = method.copyPosition target position + index ∧ index < templates.length := by
  have hinside {index : Nat} (hindex : index < templates.length) :
      method.copyPosition target position + index < count :=
    Nat.lt_of_lt_of_le (Nat.add_lt_add_left hindex _) hcount
  constructor
  · rintro handle index ⟨rfl, hindex⟩
    have hnamed := List.getElem?_eq_getElem hindex
    have hmem := List.getElem_mem hindex
    exact ⟨List.mem_of_getElem? (hread.getElem?_order (hinside hindex)), _, hnamed,
      (hs.matchesTemplate_iff hv hread hat hnamed (hwell _ hmem) (hinside hindex)).mpr
        (hlong _ hmem)⟩
  · rintro handle index template ⟨rfl, hindex⟩ hnamed k goal hgoal
    have hin := (hwell template (List.mem_of_getElem? hnamed)).inside goal
      (List.mem_of_getElem? hgoal)
    refine ⟨hin, method.copyPosition target position + goal, ?_, rfl, hin⟩
    rw [hread.targets (hinside hindex) (hs.getElem?_order hat hindex), (hs.copyOf hnamed).targets,
      List.map_map, List.getElem?_map, hgoal]
    exact congrArg some (hv.ordered.idxOf_eq (hs.getElem?_order hat hin))

/-- Copies are recognised at the offset of the first of them if no template was widened and all were
read back. -/
theorem Spliced.recognised_iff (hs : method.Spliced edited target position templates)
    (hv : edited.Valid) (hl : edited.Laid)
    (htotal : startOf edited.instructions edited.length ≤ UInt32.size)
    (hread : edited.Reread decoded count) (hc : decoded.Consistent)
    (hat : method.order[position]? = some target) (hne : templates ≠ [])
    (hwell : ∀ template ∈ templates, template.WellFormed templates.length) :
    decoded.isInstrumented (edited.offsetOf (method.copyHandle target 0)) templates = true
      ↔ (∀ template ∈ templates, template.opcode.longForm? = none)
        ∧ method.copyPosition target position + templates.length ≤ count := by
  have hpos := List.length_pos_iff.mpr hne
  have hfirst := hs.copy_mem_handles hv hat hwell hpos
  have hoffset : edited.offsetOf (method.copyHandle target 0)
      = startOf edited.instructions (method.copyPosition target position) :=
    hl.offset (hs.getElem?_order hat hpos)
  rw [hc.isInstrumented_iff_occursAt, hoffset]
  constructor
  · rintro ⟨found, handle, start, hfound, horigin, hstart, hoccurs⟩
    obtain ⟨-, hfits, related, hclosed, hwindow⟩ := hc.toOrdered.occursAt_iff_closed.mp hoccurs
    obtain rfl := Int.ofNat.inj hstart
    obtain rfl := hread.eq_of_getElem?_order hfound
    obtain rfl : handle = method.copyPosition target position :=
      hread.eq_of_origin hv hl htotal horigin
        (Nat.le_of_lt (List.getElem?_eq_some_iff.mp hfirst).1)
    -- each copy is matched by an instruction that was read back, since a label matches no template
    have hmatches {index : Nat} (hindex : index < templates.length) :
        method.copyPosition target position + index < count
          ∧ (decoded.get (method.copyPosition target position + index)).matchesTemplate
              templates[index] = true := by
      have hinside : method.copyPosition target position + index < decoded.order.length :=
        Nat.lt_of_lt_of_le (Nat.add_lt_add_left hindex _) hfits
      have hsome := List.getElem?_eq_getElem hinside
      rw [hread.eq_of_getElem?_order hsome] at hsome
      obtain ⟨-, template, hnamed, hmatch⟩ := hclosed.matched (hwindow index hindex _ hsome)
      rw [List.getElem?_eq_getElem hindex] at hnamed
      obtain rfl := Option.some.inj hnamed
      refine ⟨?_, hmatch⟩
      by_contra hout
      rw [matchesTemplate, Bool.and_eq_true, Bool.and_eq_true, beq_iff_eq,
        hread.label (Nat.le_of_not_lt hout)] at hmatch
      exact (hwell _ (List.getElem_mem hindex)).real hmatch.1.1.symm
    constructor
    · intro template hmem
      obtain ⟨index, hindex, rfl⟩ := List.getElem_of_mem hmem
      obtain ⟨hinside, hmatch⟩ := hmatches hindex
      exact (hs.matchesTemplate_iff hv hread hat (List.getElem?_eq_getElem hindex)
        (hwell _ hmem) hinside).mp hmatch
    · have hlast := (hmatches (Nat.sub_lt hpos Nat.one_pos)).1
      omega
  · rintro ⟨hlong, hcount⟩
    -- the copies stand behind one another, which is a closed relation
    have hbase : method.copyPosition target position < count := by omega
    refine ⟨method.copyPosition target position, method.copyPosition target position, _,
      hread.getElem?_order hbase, ?_, rfl, hc.toOrdered.occursAt_iff_closed.mpr ⟨hne, ?_, _,
        hs.closed_copies hv hread hat hwell hlong hcount, ?_⟩⟩
    · rw [hread.origin, if_pos hbase]
    · obtain ⟨total, hle, horder⟩ := hread.order
      rw [length, horder, List.length_range]
      omega
    · intro index hindex other hother
      exact ⟨hread.eq_of_getElem?_order hother, hindex⟩

end Method

/-- What is inserted into a decoded method is recognised once the method was encoded and decoded
again, at the offset at which the first copy was laid out, exactly if no template is a short branch,
whose copy is a long one, and the last copy ends within the code size that the header tells. -/
theorem decode_insertion_recognised_iff {data bytes : List UInt8} {original edited decoded : Method}
    {insertion : Insertion} (hdecode : Method.decode data = .ok original)
    (hne : insertion.templates ≠ []) (hwell : insertion.WellFormed)
    (happly : insertion.apply original = .ok edited) (hbytes : edited.toBytes = .ok bytes)
    (hredecode : Method.decode bytes = .ok decoded) :
    ∃ target, insertion.target? original = some target
      ∧ (decoded.isInstrumented (edited.offsetOf (original.copyHandle target 0))
            insertion.templates = true
          ↔ (∀ template ∈ insertion.templates, template.opcode.longForm? = none)
            ∧ (edited.get (original.copyHandle target (insertion.templates.length - 1))).finish
              ≤ edited.codeSize) := by
  obtain ⟨raw, regions, targets, -, hd⟩ := Method.decode_spec hdecode
  obtain ⟨target, hlocated, happly⟩ := Insertion.exists_insertAt happly
  have hmem := Insertion.mem_order_of_target? hlocated
  have hinside : ∀ template ∈ insertion.templates, ∀ j ∈ template.targets,
      j < insertion.templates.length := fun template hin => (hwell template hin).inside
  obtain ⟨position, edited', hat, hinsert, hs⟩ :=
    hd.recodable.ordered.spliced hmem hne hinside
  obtain rfl := Except.ok.inj (hinsert.symm.trans happly)
  obtain ⟨hr, hl⟩ := hd.recodable.insertAt hd.laid hwell hinsert
  have htotal := hr.toValid.total_le_of_write hl hbytes
  obtain ⟨count, hread⟩ := hr.exists_reread hl hbytes hredecode
  refine ⟨target, hlocated, ?_⟩
  rw [hs.finish_le_iff hr.toValid hl htotal hread hat hne hwell]
  exact hs.recognised_iff hr.toValid hl htotal hread (Method.Reachable.decoded hredecode).consistent
    hat hne hwell

/-- A loop at the handler of `guardedLoop` whose branch is long. -/
def longHandlerLoop : Insertion :=
  .atOrigin 5 [{ opcode := .nop }, { opcode := .br, targets := [0] }]

/-- The loop starts at offset 11, behind the widened branches of the protected block. -/
theorem decode_insertion_recognised_guardedLoop :
    ∃ original edited bytes decoded target, Method.decode guardedLoop = .ok original
      ∧ longHandlerLoop.apply original = .ok edited ∧ edited.toBytes = .ok bytes
      ∧ Method.decode bytes = .ok decoded ∧ longHandlerLoop.target? original = some target
      ∧ edited.offsetOf (original.copyHandle target 0) = 11
      ∧ decoded.isInstrumented 11 longHandlerLoop.templates = true := by
  have hrun : ((Method.decode guardedLoop).bind fun original =>
      (longHandlerLoop.apply original).bind fun edited => edited.toBytes.bind fun bytes =>
        (Method.decode bytes).bind fun decoded =>
          .ok (longHandlerLoop.target? original, edited.offsetOf (original.copyHandle 3 0),
            decide ((edited.get (original.copyHandle 3 1)).finish ≤ edited.codeSize)))
      = .ok (some 3, 11, true) := by decide +kernel
  obtain ⟨original, hdecode, hrest⟩ := bind_eq_ok_iff.mp hrun
  obtain ⟨edited, happly, hrest⟩ := bind_eq_ok_iff.mp hrest
  obtain ⟨bytes, hbytes, hrest⟩ := bind_eq_ok_iff.mp hrest
  obtain ⟨decoded, hredecode, hresult⟩ := bind_eq_ok_iff.mp hrest
  simp only [Except.ok.injEq, Prod.mk.injEq, decide_eq_true_eq] at hresult
  obtain ⟨hlocated, hoffset, hends⟩ := hresult
  obtain ⟨target, hlocated', hiff⟩ := decode_insertion_recognised_iff hdecode (by decide)
    (by decide) happly hbytes hredecode
  obtain rfl := Option.some.inj (hlocated.symm.trans hlocated')
  rw [hoffset] at hiff
  exact ⟨original, edited, bytes, decoded, 3, hdecode, happly, hbytes, hredecode, hlocated, hoffset,
    hiff.mpr ⟨by decide, hends⟩⟩

/-- `nop; ret`. -/
def plainReturn : List UInt8 := [0x0A, 0x00, 0x2A]

/-- A short branch over a `nop`. -/
def shortSkip : Insertion :=
  .atOrigin 0 [{ opcode := .brS, targets := [1] }, { opcode := .nop }]

/-- A sequence with a short branch is not recognised. -/
theorem not_recognised_shortSkip :
    ¬ ∀ (data bytes : List UInt8) (original edited decoded : Method) (insertion : Insertion)
        (target : Handle), Method.decode data = .ok original → insertion.templates ≠ [] →
      insertion.WellFormed → insertion.apply original = .ok edited → edited.toBytes = .ok bytes →
      Method.decode bytes = .ok decoded → insertion.target? original = some target →
        decoded.isInstrumented (edited.offsetOf (original.copyHandle target 0))
          insertion.templates = true := by
  intro hall
  have hrun : ((Method.decode plainReturn).bind fun original =>
      (shortSkip.apply original).bind fun edited => edited.toBytes.bind fun bytes =>
        (Method.decode bytes).bind fun decoded =>
          .ok (shortSkip.target? original,
            decoded.isInstrumented (edited.offsetOf (original.copyHandle 0 0)) shortSkip.templates))
      = .ok (some 0, false) := by cbv
  obtain ⟨original, hdecode, hrest⟩ := bind_eq_ok_iff.mp hrun
  obtain ⟨edited, happly, hrest⟩ := bind_eq_ok_iff.mp hrest
  obtain ⟨bytes, hbytes, hrest⟩ := bind_eq_ok_iff.mp hrest
  obtain ⟨decoded, hredecode, hresult⟩ := bind_eq_ok_iff.mp hrest
  obtain ⟨hlocated, hmissed⟩ := Prod.mk.inj (Except.ok.inj hresult)
  have hfound := hall plainReturn bytes original edited decoded shortSkip 0 hdecode (by decide)
    (by decide) happly hbytes hredecode hlocated
  rw [hmissed] at hfound
  cases hfound

end CilCoverage
