import CilCoverage.Proofs.Method.Editing
import CilCoverage.Proofs.Method.Redecoding

/-!
# Branches to the label

The label at the end of the code leaves no bytes, so no instruction starts where it stands, and a
branch that leads to it dangles once the method is encoded. A valid method is encoded either way,
but its bytes are read back if and only if no branch dangles (`Valid.recoded_iff`).

An edit with instructions that are no labels dangles where its own targets do, and where the method
did elsewhere (`Valid.dangling_replaced_iff`).
-/

set_option autoImplicit false

namespace CilCoverage

open Instruction

namespace Method

variable {method : Method} {handle target : Handle}

/-- A branch leads to a label. -/
def Dangling (method : Method) : Prop :=
  ∃ handle, ∃ target ∈ (method.get handle).targets, (method.get target).opcode = .label

/-- In a method that can be read back no branch leads to a label. -/
theorem Recodable.not_dangling (hr : method.Recodable) : ¬ method.Dangling := by
  rintro ⟨handle, target, htarget, hlabel⟩
  exact hr.landing handle target htarget hlabel

/-- A valid method without such branches can be read back if its clauses open well. -/
theorem Valid.recodable (hv : method.Valid) (hopened : method.Opened)
    (hlanding : ¬ method.Dangling) : method.Recodable where
  toValid := hv
  landing := fun handle target htarget hlabel => hlanding ⟨handle, target, htarget, hlabel⟩
  opened := hopened

/-- Laying out does not change where branches lead. -/
theorem Ordered.dangling_layOut_iff (ho : method.Ordered) :
    method.layOut.Dangling ↔ method.Dangling := by
  simp only [Dangling, ho.targets_layOut, ho.opcode_layOut]

section Reading

/-- A label stands behind all instructions that leave bytes. -/
theorem Valid.idxOf_label (hv : method.Valid) (hmem : target ∈ method.order)
    (hlabel : (method.get target).opcode = .label) :
    method.order.idxOf target = method.handles.length := by
  have hlength := hv.length_handles_le
  have hlast := hv.ending (getElem?_idxOf hmem) hlabel
  have hle := hv.idxOf_le_length_handles hmem
  by_contra hne
  have hlt : method.order.idxOf target < method.handles.length := Nat.lt_of_le_of_ne hle hne
  obtain ⟨hat, hreal⟩ := hv.getElem?_handles.mp (List.getElem?_eq_getElem hlt)
  rw [getElem?_idxOf hmem] at hat
  rw [← Option.some.inj hat] at hreal
  exact hreal hlabel

/-- A displacement to a label lands nowhere. -/
theorem Valid.not_landsAt (hv : method.Valid) (hl : method.Laid)
    (hstreamed : Streamed (streamed 0 method.encoded)) {k : Nat}
    (hk : method.handles[k]? = some handle) (htarget : target ∈ (method.get handle).targets)
    (hlabel : (method.get target).opcode = .label) (link : Handle) :
    ¬ ((method.get handle).readAs (startOf method.encoded k)).LandsAt (streamed 0 method.encoded)
      (method.offsetOf target - (method.get handle).finish) link := by
  rintro ⟨hstart, hlt⟩
  have hlength : (streamed 0 method.encoded).length = method.handles.length := by
    rw [length_streamed, Valid.length_encoded]
  have hposition := hv.idxOf_label (hv.targets_mem_order htarget) hlabel
  have hend := hv.startOf_target hl hk htarget
  rw [← hstart, hposition, ← hlength, Int.natCast_inj] at hend
  have hsame := startOf_inj hstreamed.size_pos (Nat.le_refl _) (Nat.le_of_lt hlt) hend
  exact absurd hsame.symm (Nat.ne_of_lt hlt)

/-- The bytes of a method with a dangling branch are refused. -/
theorem Valid.decode_ne_ok (hv : method.Valid) (hl : method.Laid)
    (hsmall : method.codeSize < 2 ^ 31) (hcount : method.regions.length ≤ Section.capacity)
    (hdangling : method.Dangling) {bytes : List UInt8} (hbytes : method.toBytes = .ok bytes)
    (decoded : Method) : decode bytes ≠ .ok decoded := by
  intro hdecode
  obtain ⟨handle, target, htarget, hlabel⟩ := hdangling
  obtain ⟨raw, regions, targets, hread, hlinked, -⟩ := decode_eq_ok_iff.mp hdecode
  rw [hv.toBytes_eq hl hsmall (regionsFit_of_le_capacity hcount), Except.ok.injEq] at hbytes
  rw [← hbytes, hv.read_written hl hsmall hcount, Except.ok.injEq] at hread
  subst hread
  have hstreamed : Streamed method.rawBody.instructions :=
    RawBody.streamed (hv.read_written hl hsmall hcount)
  -- an instruction with targets is a branch, and so leaves bytes
  have hmem : handle ∈ method.order := by
    by_contra hout
    rw [hv.ordered.get_of_notMem hout] at htarget
    cases htarget
  have hreal : (method.get handle).opcode ≠ .label := by
    intro hself
    have hplain : (method.get handle).isBranch = false := by
      rw [isBranch, hself]
      rfl
    rw [(hv.wellFormed handle).targets_eq_nil hplain] at htarget
    cases htarget
  obtain ⟨k, hk⟩ := List.getElem?_of_mem (mem_handles.mpr ⟨hmem, hreal⟩)
  have hinstruction : method.rawBody.instructions[k]?
      = some ((method.get handle).readAs (startOf method.encoded k)) :=
    getElem?_streamed_encoded hk
  obtain ⟨links, -, hlanded, -⟩ := hlinked.get_of_getElem? method.rawBody.header hinstruction
  obtain ⟨index, hindex⟩ := List.getElem?_of_mem htarget
  have hdisplacements : ((method.get handle).readAs (startOf method.encoded k)).displacements
      = _ := hl.displacements_eq_map hv hsmall hmem
  rw [hdisplacements, List.forall₂_map_left_iff] at hlanded
  obtain ⟨hlt, hget⟩ := List.getElem?_eq_some_iff.mp hindex
  have hlands := (List.forall₂_iff_get.mp hlanded).2 index hlt (hlanded.length_eq ▸ hlt)
  rw [List.get_eq_getElem, hget] at hlands
  exact hv.not_landsAt hl hstreamed hk htarget hlabel _ hlands

/-- A valid method is encoded, and its bytes are read back as the same method if and only if no
branch dangles. -/
theorem Valid.recoded_iff (hv : method.Valid) (hopened : method.Opened) (hl : method.Laid)
    (hsmall : method.codeSize < 2 ^ 31) (hcount : method.regions.length ≤ Section.capacity) :
    ∃ bytes, method.toBytes = .ok bytes
      ∧ (¬ method.Dangling → ∃ decoded, decode bytes = .ok decoded ∧ method.Redecoded decoded)
      ∧ (method.Dangling → ∀ decoded, decode bytes ≠ .ok decoded) := by
  have hbytes := hv.toBytes_eq hl hsmall (regionsFit_of_le_capacity hcount)
  refine ⟨_, hbytes, ?_, ?_⟩
  · intro hlanding
    obtain ⟨bytes, decoded, hbytes', hdecode, h, -⟩ :=
      (hv.recodable hopened hlanding).redecode hl hsmall hcount
    rw [hbytes, Except.ok.injEq] at hbytes'
    exact ⟨decoded, hbytes' ▸ hdecode, h⟩
  · intro hdangling
    exact hv.decode_ne_ok hl hsmall hcount hdangling hbytes

end Reading

section Replacing

variable {position : Nat} {first : Instruction} {rest : List Instruction}

/-- Handles that were there name a label if and only if they did, and new ones do not. -/
theorem opcode_replaced_eq_label_iff (position : Nat) (hlt : target < method.slots.size)
    (htarget : (method.get target).opcode ≠ .label)
    (hreal : ∀ instruction ∈ first :: rest, instruction.opcode ≠ .label)
    (hin : handle < method.slots.size + rest.length) :
    ((method.replaced target position first rest).get handle).opcode = .label
      ↔ handle < method.slots.size ∧ (method.get handle).opcode = .label := by
  rcases get_replaced_cases position first rest hlt handle
    with ⟨rfl, hget⟩ | ⟨-, hold, hget⟩ | ⟨hfresh, hget⟩
  · rw [hget]
    exact iff_of_false (hreal first List.mem_cons_self) fun hlabel => htarget hlabel.2
  · rw [hget, and_iff_right hold]
  · have hindex : handle - method.slots.size < rest.length := Nat.sub_lt_left_of_lt_add hfresh hin
    rw [hget, List.getElem?_eq_getElem hindex, Option.getD_some]
    exact iff_of_false (hreal _ (List.mem_cons_of_mem _ (List.getElem_mem hindex)))
      fun hlabel => absurd hlabel.1 (Nat.not_lt.mpr hfresh)

/-- After an edit the branches that dangle are those of the other instructions that did, and the new
ones that lead to a label. -/
theorem Valid.dangling_replaced_iff (hv : method.Valid)
    (hat : method.order[position]? = some target) (htarget : (method.get target).opcode ≠ .label)
    (hreal : ∀ instruction ∈ first :: rest, instruction.opcode ≠ .label)
    (htargets : ∀ instruction ∈ first :: rest, ∀ handle ∈ instruction.targets,
      handle < method.slots.size + rest.length) :
    (method.replaced target position first rest).Dangling
      ↔ (∃ handle, handle ≠ target ∧ ∃ next ∈ (method.get handle).targets,
          (method.get next).opcode = .label)
        ∨ ∃ instruction ∈ first :: rest, ∃ next ∈ instruction.targets,
            next < method.slots.size ∧ (method.get next).opcode = .label := by
  have hlt := hv.ordered.lt_of_getElem? hat
  have hlabel {handle : Handle} (hin : handle < method.slots.size + rest.length) :=
    opcode_replaced_eq_label_iff position hlt htarget hreal hin
  have hold {handle next : Handle} (hnext : next ∈ (method.get handle).targets) :
      next < method.slots.size := hv.targets handle next hnext
  constructor
  · rintro ⟨handle, next, hnext, hdangles⟩
    -- the slot is the target, an old one or a fresh one
    rcases get_replaced_cases position first rest hlt handle
      with ⟨rfl, hget⟩ | ⟨hne, -, hget⟩ | ⟨hfresh, hget⟩
    · rw [hget] at hnext
      have hin := htargets first List.mem_cons_self next hnext
      exact Or.inr ⟨first, List.mem_cons_self, next, hnext, (hlabel hin).mp hdangles⟩
    · rw [hget] at hnext
      have hin := Nat.lt_of_lt_of_le (hold hnext) (Nat.le_add_right _ rest.length)
      exact Or.inl ⟨handle, hne, next, hnext, ((hlabel hin).mp hdangles).2⟩
    · cases hk : rest[handle - method.slots.size]? with
      | none =>
        rw [hget, hk] at hnext
        cases hnext
      | some instruction =>
        rw [hget, hk] at hnext
        have hmem := List.mem_cons_of_mem first (List.mem_of_getElem? hk)
        have hin := htargets instruction hmem next hnext
        exact Or.inr ⟨instruction, hmem, next, hnext, (hlabel hin).mp hdangles⟩
  · rintro (⟨handle, hne, next, hnext, hdangles⟩ | ⟨instruction, hmem, next, hnext, hdangles⟩)
    · have hin := Nat.lt_of_lt_of_le (hold hnext) (Nat.le_add_right _ rest.length)
      have hhandle : handle < method.slots.size := by
        by_contra hout
        rw [hv.ordered.get_of_notMem ((hv.ordered.mem_iff handle).not.mpr hout)] at hnext
        cases hnext
      refine ⟨handle, next, ?_, (hlabel hin).mpr ⟨hold hnext, hdangles⟩⟩
      rwa [get_replaced_of_ne hhandle (Ne.symm hne)]
    · obtain ⟨index, hindex⟩ := List.getElem?_of_mem hmem
      refine ⟨method.chained target index, next, ?_,
        (hlabel (htargets instruction hmem next hnext)).mpr hdangles⟩
      rwa [get_replaced_chained hlt, hindex]

end Replacing

end Method

end CilCoverage
