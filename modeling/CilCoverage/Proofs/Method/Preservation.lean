import CilCoverage.Proofs.Method.Relinking

/-!
# Decoding and encoding keep the program

A decoded method is encoded with long branches, so that offsets, displacements and the lengths of
ranges all change. `RawBody.Widens` says that two bodies are nevertheless the same program: their
instructions correspond one by one, and displacements and boundaries lead to corresponding places.
`DecodedFrom.widens` proves it of a body and the method decoded from it.

Both bodies link to the same handles, the one that was read by the way it was decoded and the one
that was written by `Recodable.linked`; corresponding places are the two starts of one handle.
-/

set_option autoImplicit false

namespace CilCoverage

open Instruction

namespace RawBody

/-- The instruction at a position has the given offset. -/
def StartsAt (raw : RawBody) (position : Nat) (offset : Int) : Prop :=
  raw.instructions[position]?.map Instruction.offset = some offset

/-- The offsets are those of corresponding instructions or both ends of the code. -/
def Matches (raw written : RawBody) (offset offset' : Nat) : Prop :=
  (∃ position, raw.StartsAt position offset ∧ written.StartsAt position offset')
    ∨ (offset = raw.header.codeSize.toNat ∧ offset' = written.header.codeSize.toNat)

/-- The displacements lead to corresponding instructions. -/
def Leads (raw written : RawBody) (source source' : Instruction) (displacement displacement' : Int) :
    Prop :=
  ∃ position, raw.StartsAt position (source.finish + displacement)
    ∧ written.StartsAt position (source'.finish + displacement')

/-- The second instruction does what the first one does, in the long form. -/
structure Widened (raw written : RawBody) (instruction instruction' : Instruction) : Prop where
  opcode : instruction'.opcode = instruction.opcode.widened
  operand : instruction.isBranch = false → instruction'.operand = instruction.operand
  displacements : List.Forall₂ (raw.Leads written instruction instruction')
    instruction.displacements instruction'.displacements

/-- The clauses are of one kind and have corresponding boundaries. -/
structure SameClause (raw written : RawBody) (clause clause' : Clause) : Prop where
  kind : ∃ kind, clause.kind? = some kind ∧ clause'.kind? = some kind
  tryStart : raw.Matches written clause.tryOffset.toNat clause'.tryOffset.toNat
  tryEnd : raw.Matches written clause.tryEnd clause'.tryEnd
  handlerStart : raw.Matches written clause.handlerOffset.toNat clause'.handlerOffset.toNat
  handlerEnd : raw.Matches written clause.handlerEnd clause'.handlerEnd
  catching : clause.kind? = some .catching → clause'.classOrFilter = clause.classOrFilter
  filtering : clause.kind? = some .filtering →
    raw.Matches written clause.classOrFilter.toNat clause'.classOrFilter.toNat
  unused : clause.kind? = some .finalizing ∨ clause.kind? = some .faulting →
    clause'.classOrFilter = 0

/-- The second body is the first one with long branches and a fat header. -/
structure Widens (raw written : RawBody) : Prop where
  instructions : List.Forall₂ (raw.Widened written) raw.instructions written.instructions
  clauses : List.Forall₂ (raw.SameClause written) raw.clauses written.clauses
  shape : written.header.shape = .fat
  size : written.header.size = Header.fatSize
  maxStack : written.header.maxStack = raw.header.maxStack
  locals : written.header.locals = raw.header.locals
  initLocals : written.header.initLocals = raw.header.initLocals
  moreSections : written.header.moreSections = !raw.clauses.isEmpty

end RawBody

/-- Lists that go with a third one go with each other. -/
theorem forall₂_join {α β γ : Type} {R : α → γ → Prop} {S : β → γ → Prop} {a : List α}
    {b : List β} {c : List γ} (hR : List.Forall₂ R a c) (hS : List.Forall₂ S b c) :
    List.Forall₂ (fun x y => ∃ z, R x z ∧ S y z) a b := by
  induction hR generalizing b with
  | nil =>
    cases hS
    exact .nil
  | cons hx _ ih =>
    obtain _ | ⟨hy, hrest⟩ := hS
    exact .cons ⟨_, hx, hy⟩ (ih hrest)

namespace RawBody

/-- A position starts at an offset if its instruction does. -/
theorem startsAt_iff {raw : RawBody} (hs : Streamed raw.instructions) {position : Nat}
    {offset : Int} :
    raw.StartsAt position offset
      ↔ (startOf raw.instructions position : Int) = offset ∧ position < raw.instructions.length := by
  unfold StartsAt
  constructor
  · intro h
    obtain ⟨instruction, hk, hoffset⟩ := Option.map_eq_some_iff.mp h
    rw [← hoffset, hs.getElem? hk]
    exact ⟨rfl, (List.getElem?_eq_some_iff.mp hk).1⟩
  · rintro ⟨hoffset, hlt⟩
    have hk := List.getElem?_eq_getElem hlt
    rw [hk, ← hoffset]
    exact congrArg some (congrArg Instruction.offset (hs.getElem? hk))

end RawBody

/-- Both bodies are filled by equally many instructions. -/
structure RawBody.Aligned (raw written : RawBody) : Prop where
  streamed : Streamed raw.instructions
  streamed' : Streamed written.instructions
  length : written.instructions.length = raw.instructions.length
  codeSize : raw.header.codeSize.toNat = startOf raw.instructions raw.instructions.length
  codeSize' : written.header.codeSize.toNat
    = startOf written.instructions written.instructions.length

namespace RawBody.Aligned

variable {raw written : RawBody} {region : Region} {clause clause' : Clause}

/-- The two starts of one handle match. -/
theorem matched (ha : raw.Aligned written) {handle : Nat}
    (hle : handle ≤ raw.instructions.length) {offset offset' : Nat}
    (hoffset : startOf raw.instructions handle = offset)
    (hoffset' : startOf written.instructions handle = offset') :
    raw.Matches written offset offset' := by
  have hlength := ha.length
  by_cases hlt : handle < raw.instructions.length
  · refine Or.inl ⟨handle, ?_, ?_⟩
    · exact (startsAt_iff ha.streamed).mpr ⟨by omega, hlt⟩
    · exact (startsAt_iff ha.streamed').mpr ⟨by omega, by omega⟩
  · have hend : handle = raw.instructions.length := by omega
    refine Or.inr ⟨?_, ?_⟩
    · rw [ha.codeSize, ← hoffset, hend]
    · rw [ha.codeSize', ← hoffset', hlength, hend]

/-- Clauses that one region was bound from are the same. -/
theorem sameClause (ha : raw.Aligned written)
    (hb : Region.Binds raw.instructions clause region)
    (hb' : Region.Binds written.instructions clause' region)
    (hunused : region.kind = .finalizing ∨ region.kind = .faulting → clause'.classOrFilter = 0) :
    raw.SameClause written clause clause' := by
  refine ⟨⟨_, hb.kind, hb'.kind⟩, ?_, ?_, ?_, ?_, ?_, ?_, ?_⟩
  · exact ha.matched (hb.bound _ region.tryStart_mem) hb.tryStart hb'.tryStart
  · exact ha.matched (hb.bound _ region.tryEnd_mem) hb.tryEnd hb'.tryEnd
  · exact ha.matched (hb.bound _ region.handlerStart_mem) hb.handlerStart hb'.handlerStart
  · exact ha.matched (hb.bound _ region.handlerEnd_mem) hb.handlerEnd hb'.handlerEnd
  · intro hkind
    have hsame : clause'.kind? = some .catching := by rw [hb'.kind, ← hb.kind, hkind]
    have htype := hb.type.symm.trans hb'.type
    rw [Clause.classToken?, Clause.classToken?, if_pos hkind, if_pos hsame] at htype
    exact (congrArg Token.value (Option.some.inj htype)).symm
  · intro hkind
    obtain ⟨start, hstart⟩ : ∃ start, region.filterStart? = some start := by
      have hregion := Option.some.inj (hb.kind.symm.trans hkind)
      obtain ⟨_, _, _, _, handler⟩ := region
      cases handler <;> cases hregion
      exact ⟨_, rfl⟩
    exact ha.matched (hb.bound _ (Region.filterStart_mem hstart)) (hb.filterStart start hstart)
      (hb'.filterStart start hstart)
  · intro hkind
    apply hunused
    rwa [hb.kind, Option.some.injEq, Option.some.injEq] at hkind

/-- Displacements that land in one instruction lead to corresponding ones. -/
theorem leads (ha : raw.Aligned written) {source source' : Instruction}
    {displacement displacement' : Int} {target : Handle}
    (hl : source.LandsAt raw.instructions displacement target)
    (hl' : source'.LandsAt written.instructions displacement' target) :
    raw.Leads written source source' displacement displacement' :=
  ⟨target, (startsAt_iff ha.streamed).mpr hl, (startsAt_iff ha.streamed').mpr hl'⟩

end RawBody.Aligned

/-- A stream of instructions that can be encoded is streamed. -/
theorem streamed_streamed {instructions : List Instruction}
    (henc : ∀ instruction ∈ instructions, instruction.Encodable) :
    Streamed (streamed 0 instructions) := RawBody.streamed_of_ofCode (ofCode_flatMap henc)

namespace Method.DecodedFrom

variable {raw : RawBody} {method : Method} {regions : List Region} {targets : List (List Handle)}

/-- A decoded method has as many instructions as the body it was read from. -/
theorem aligned (hd : method.DecodedFrom raw regions targets)
    (hsmall : method.codeSize < 2 ^ 31) : raw.Aligned method.rawBody := by
  refine ⟨hd.streamed, streamed_streamed (hd.recodable.encodable hd.laid hsmall), ?_,
    hd.codeSize, ?_⟩
  · show (Instruction.streamed 0 method.encoded).length = _
    rw [length_streamed, Valid.length_encoded, hd.handles_eq, List.length_range]
  · show method.codeSize = startOf (Instruction.streamed 0 method.encoded)
      (Instruction.streamed 0 method.encoded).length
    rw [hd.recodable.startOf_streamed hd.laid, length_streamed, startOf_encoded_length,
      hd.laid.codeSize_eq hsmall]

/-- An instruction that was read is there in its long form. -/
theorem widened (hd : method.DecodedFrom raw regions targets) (hsmall : method.codeSize < 2 ^ 31)
    {k : Nat} {instruction : Instruction} (hk : raw.instructions[k]? = some instruction) :
    ∃ instruction', method.rawBody.instructions[k]? = some instruction'
      ∧ raw.Widened method.rawBody instruction instruction' := by
  obtain ⟨links, offset, -, hlanded, hget⟩ := hd.get_eq hk
  have hlt := (List.getElem?_eq_some_iff.mp hk).1
  have hhandle : method.handles[k]? = some k := by
    rw [hd.handles_eq]
    exact List.getElem?_range hlt
  have hread := getElem?_streamed_encoded hhandle
  have hlands := hd.recodable.lands hd.laid hsmall hhandle
  have htargets : (method.get k).targets = links := by
    rw [hget, targets_aimed]
    rfl
  have hpositions : links.map method.order.idxOf = links := by
    have hid : links.map method.order.idxOf = links.map id := by
      apply List.map_congr_left
      intro link hlink
      exact hd.idxOf_eq (LandsAt.lt_of_mem hlanded link hlink)
    rw [hid, List.map_id]
  rw [htargets, hpositions] at hlands
  refine ⟨_, hread, ?_, ?_, ?_⟩
  · show (method.get k).opcode = _
    rw [hget, opcode_aimed]
    rfl
  · intro hplain
    have hkept : ¬ (((instruction.linked links).movedTo offset).isBranch
        && !((instruction.linked links).movedTo offset).targets.isEmpty) = true := by
      have hsame : ((instruction.linked links).movedTo offset).isBranch = instruction.isBranch :=
        Opcode.isBranch_widened _
      rw [hsame, hplain]
      exact Bool.false_ne_true
    have hkind := Opcode.operandKind_ne_of_not_branch hplain
    show (method.get k).operand = _
    rw [hget, aimed_of_not_branch _ _ hkept]
    exact operand_linked links hkind
  · exact (forall₂_join hlanded hlands).imp fun _ _ ⟨_, h, h'⟩ => (hd.aligned hsmall).leads h h'

/-- The clauses that were read are there. -/
theorem sameClauses (hd : method.DecodedFrom raw regions targets)
    (hsmall : method.codeSize < 2 ^ 31) :
    List.Forall₂ (raw.SameClause method.rawBody) raw.clauses method.clauses := by
  have hbound := hd.linked.bound
  rw [clauses, List.forall₂_map_right_iff, hd.regions_eq]
  refine List.forall₂_iff_get.mpr ⟨hbound.length_eq, ?_⟩
  intro k hk hk'
  have hb := (List.forall₂_iff_get.mp hbound).2 k hk hk'
  have hmem : regions[k] ∈ method.regions := hd.regions_eq ▸ List.getElem_mem hk'
  have hb' := hd.recodable.binds_toClause hd.laid hsmall hmem
  rw [hd.renamed_eq (List.getElem_mem hk')] at hb'
  apply (hd.aligned hsmall).sameClause hb hb'
  simp only [List.get_eq_getElem]
  generalize regions[k] = region
  obtain ⟨_, _, _, _, handler⟩ := region
  cases handler <;> simp [Region.kind, Region.toClause]

/-- The body that a decoded method is encoded as is the one it was decoded from, widened. -/
theorem widens (hd : method.DecodedFrom raw regions targets) (hsmall : method.codeSize < 2 ^ 31) :
    raw.Widens method.rawBody where
  instructions := by
    have hlength := (hd.aligned hsmall).length
    refine List.forall₂_iff_get.mpr ⟨hlength.symm, ?_⟩
    intro k hk hk'
    obtain ⟨instruction', hread, hwidened⟩ := hd.widened hsmall (List.getElem?_eq_getElem hk)
    rw [List.getElem?_eq_getElem hk'] at hread
    simpa [Option.some.inj hread] using hwidened
  clauses := hd.sameClauses hsmall
  shape := rfl
  size := rfl
  maxStack := by rw [hd.method_eq]; rfl
  locals := by rw [hd.method_eq]; rfl
  initLocals := by rw [hd.method_eq]; rfl
  moreSections := by
    have hlength := (hd.sameClauses hsmall).length_eq
    have hempty : method.clauses.isEmpty = raw.clauses.isEmpty := by
      rw [Bool.eq_iff_iff, List.isEmpty_iff_length_eq_zero, List.isEmpty_iff_length_eq_zero,
        hlength]
    exact congrArg Bool.not hempty

end Method.DecodedFrom

/-- Decoding and encoding keep the program: what `decode` accepts is encoded, if it is not too
large, as the same body with long branches. -/
theorem decode_toBytes_widens {data : List UInt8} {method : Method}
    (hdecode : Method.decode data = .ok method) :
    ∃ raw, RawBody.read data = .ok raw
      ∧ (method.codeSize < 2 ^ 31 → raw.clauses.length ≤ 699050 →
        ∃ bytes written, method.toBytes = .ok bytes ∧ RawBody.read bytes = .ok written
          ∧ raw.Widens written ∧ written.header.codeSize.toNat = method.codeSize) := by
  obtain ⟨raw, regions, targets, hread, hd⟩ := Method.decode_spec hdecode
  refine ⟨raw, hread, ?_⟩
  intro hsmall hclauses
  have hcount : method.regions.length ≤ Section.capacity := by
    rw [hd.regions_eq, ← hd.linked.bound.length_eq]
    exact hclauses
  exact ⟨_, _, hd.recodable.toBytes_eq hd.laid hsmall (Method.regionsFit_of_le_capacity hcount),
    hd.recodable.read_written hd.laid hsmall hcount, hd.widens hsmall, rfl⟩

/-- Its three branches are widened by three bytes each. -/
theorem decode_toBytes_widens_guardedLoop :
    ∃ method raw bytes written, Method.decode guardedLoop = .ok method
      ∧ RawBody.read guardedLoop = .ok raw ∧ method.toBytes = .ok bytes
      ∧ RawBody.read bytes = .ok written ∧ raw.Widens written
      ∧ written.header.codeSize.toNat = 18 := by
  have hsize : (Method.decode guardedLoop).map Method.codeSize = .ok 18 := by decide +kernel
  have hcount : (RawBody.read guardedLoop).map (fun raw => raw.clauses.length) = .ok 1 := by
    decide +kernel
  cases hdecode : Method.decode guardedLoop with
  | error cause =>
    rw [hdecode] at hsize
    cases hsize
  | ok method =>
    rw [hdecode] at hsize
    have hmethod : method.codeSize = 18 := Except.ok.inj hsize
    obtain ⟨raw, hread, hkept⟩ := decode_toBytes_widens hdecode
    rw [hread] at hcount
    have hclauses : raw.clauses.length = 1 := Except.ok.inj hcount
    obtain ⟨bytes, written, hbytes, hwritten, hwidens, hcode⟩ :=
      hkept (by rw [hmethod]; decide) (by rw [hclauses]; decide)
    exact ⟨method, raw, bytes, written, rfl, hread, hbytes, hwritten, hwidens,
      hcode.trans hmethod⟩

end CilCoverage
