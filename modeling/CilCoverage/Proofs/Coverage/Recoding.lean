import CilCoverage.Proofs.Coverage.Transparency
import CilCoverage.Proofs.Method.Dangling
import CilCoverage.Proofs.Method.Identity

/-!
# Encoding of instrumented methods

An instrumented method can always be encoded. Its bytes can be decoded again unless a branch
dangles, which happens in one case: a conditional branch has a point on one of its paths, and
nothing but the label follows it (`Method.fallsToLabel`). The block of its fall-through path then
leads to the label, since there is no instruction to lead to (`Recodable.exists_exit_iff`). All
other blocks lead to instructions, and probes of statements do not branch.

`Settled` is what placement keeps of a decoded method. Each of its steps keeps it
(`Routed.probeBranch`, `Settled.insertAt`), so the instrumented method is encoded, and decoded again
if and only if no branch falls to the label (`instrument_recoded`).
-/

set_option autoImplicit false

namespace CilCoverage

open Instruction

/-- Templates without targets can stand anywhere. -/
theorem Template.wellFormed_of_plain {template : Template} {count : Nat}
    (hreal : (template.opcode == .label) = false) (hplain : template.opcode.isBranch = false)
    (hbare : template.targets = [])
    (hholds : template.opcode.operandKind.Holds template.operand) :
    template.WellFormed count where
  real := beq_eq_false_iff_ne.mp hreal
  operand := fun _ => hholds
  targets := by
    have hswitch : template.opcode ≠ .switch := by
      intro heq
      rw [heq] at hplain
      cases hplain
    rw [Opcode.Targets, if_neg hswitch, hplain, hbare]
    rfl
  inside := by
    intro target htarget
    rw [hbare] at htarget
    cases htarget

namespace Probe

variable {probe : Probe} {id : UInt32} {template : Template}

/-- Pushing a word can stand in any sequence. -/
theorem wellFormed_pushWord (value count : Nat) : (pushWord value).WellFormed count := by
  have hholds : Primitive.i32.Holds (Int.bmod value UInt32.size) := Primitive.holds_bmod .i32 rfl _
  unfold pushWord
  generalize Int.bmod value UInt32.size = operand at hholds ⊢
  exact Template.wellFormed_of_plain rfl rfl rfl hholds

/-- Pushing a long address can stand in any sequence. -/
theorem wellFormed_pushAddress (address : UInt64) (count : Nat) :
    (pushAddress address .bits64).WellFormed count := by
  have hholds : Primitive.i64.Holds (Int.bmod address.toNat UInt64.size) :=
    Primitive.holds_bmod .i64 rfl _
  unfold pushAddress
  generalize Int.bmod address.toNat UInt64.size = operand at hholds ⊢
  exact Template.wellFormed_of_plain rfl rfl rfl hholds

/-- The code of a probe can stand anywhere, since it does not branch. -/
theorem wellFormed_sequence (hmem : template ∈ probe.sequence id) (count : Nat) :
    template.WellFormed count := by
  refine of_mem_sequence (P := fun template => template.WellFormed count) ?_ ?_ ?_ ?_ hmem
  · intro value
    exact wellFormed_pushWord value count
  · intro address
    exact wellFormed_pushAddress address count
  · intro method
    exact Template.wellFormed_of_plain rfl rfl rfl (Primitive.holds_u32 _)
  · intro signature
    exact Template.wellFormed_of_plain rfl rfl rfl (Primitive.holds_u32 _)

/-- The templates of a probe have no targets. -/
theorem targets_sequence (hmem : template ∈ probe.sequence id) : template.targets = [] := by
  rw [List.eq_nil_iff_forall_not_mem]
  intro target htarget
  exact absurd ((wellFormed_sequence hmem 0).inside target htarget) (Nat.not_lt_zero _)

/-- A probe pushes its id and calls the collector. -/
theorem isBranch_sequence (hmem : template ∈ probe.sequence id) :
    template.opcode.isBranch = false :=
  of_mem_sequence (P := fun template => template.opcode.isBranch = false) (fun _ => rfl)
    (fun _ => rfl) (fun _ => rfl) (fun _ => rfl) hmem

/-- A copy of the code of a probe is no label and leads nowhere. -/
theorem copied_sequence (hmem : template ∈ probe.sequence id) (handleOf : Nat → Handle) :
    (template.copied handleOf).WellFormed ∧ (template.copied handleOf).opcode ≠ .label
      ∧ (template.copied handleOf).targets = [] := by
  have hw := wellFormed_sequence hmem 0
  refine ⟨Template.wellFormed_copied hw _, Template.opcode_copied_ne hw _, ?_⟩
  show template.targets.map _ = []
  rw [targets_sequence hmem]
  rfl

end Probe

namespace Method

/-- A jump to a slot is well formed. -/
theorem wellFormed_branchTo (target : Handle) : (branchTo target).WellFormed :=
  ⟨nofun, nofun, rfl, nofun⟩

section Blocks

variable {probe : Probe} {block : PathBlock} {blocks : List PathBlock} {instruction : Instruction}
  {located : List (PathBlock × Handle)}

/-- The code of a block is that of its probe and a branch to its exit. -/
theorem mem_code (hmem : instruction ∈ block.code probe) :
    (∃ reported, ∃ template ∈ probe.sequence reported, instruction = template.copied id)
      ∨ instruction = branchTo block.exit := by
  rw [PathBlock.code, List.mem_append, List.mem_singleton, List.mem_map] at hmem
  rcases hmem with ⟨template, htemplate, rfl⟩ | rfl
  · cases hid : block.id? with
    | none =>
      rw [hid] at htemplate
      cases htemplate
    | some reported =>
      rw [hid] at htemplate
      exact Or.inl ⟨reported, template, htemplate, rfl⟩
  · exact Or.inr rfl

/-- The code of a block ends with the jump to its exit. -/
theorem branchTo_mem_code (probe : Probe) (block : PathBlock) :
    branchTo block.exit ∈ block.code probe :=
  List.mem_append_right _ (List.mem_singleton_self _)

/-- The code of a block is well formed and leads to the exit of the block. -/
theorem wellFormed_code (hmem : instruction ∈ block.code probe) :
    instruction.WellFormed ∧ instruction.opcode ≠ .label
      ∧ ∀ next ∈ instruction.targets, next = block.exit := by
  rcases mem_code hmem with ⟨reported, template, htemplate, rfl⟩ | rfl
  · obtain ⟨hw, hreal, hnil⟩ := Probe.copied_sequence htemplate id
    refine ⟨hw, hreal, ?_⟩
    rw [hnil]
    exact nofun
  · exact ⟨wellFormed_branchTo _, nofun, fun next hnext => List.mem_singleton.mp hnext⟩

/-- A located block starts within the code of the blocks. -/
theorem entry_bounds {start : Nat} {entry : Handle}
    (hmem : (block, entry) ∈ locateBlocks probe start blocks) :
    start ≤ entry ∧ entry < start + (blocks.flatMap (PathBlock.code probe)).length := by
  obtain ⟨k, rfl, hcode⟩ := exists_locateBlocks hmem
  obtain ⟨j, hj⟩ := List.getElem?_of_mem (branchTo_mem_code probe block)
  have hlt := (List.getElem?_eq_some_iff.mp (hcode hj)).1
  exact ⟨Nat.le_add_right _ _, Nat.add_lt_add_left (Nat.lt_of_le_of_lt (Nat.le_add_right k j) hlt) _⟩

/-- A path of a branch leads to where it led or to its block. -/
theorem mem_targets_ledTo {next : Handle} (hmem : next ∈ (ledTo located instruction).targets) :
    next ∈ instruction.targets ∨ ∃ block, (block, next) ∈ located := by
  obtain ⟨k, hk⟩ := List.getElem?_of_mem hmem
  rw [getElem?_targets_ledTo, Option.map_eq_some_iff] at hk
  obtain ⟨target, htarget, hnext⟩ := hk
  split at hnext
  · rename_i block start hfound
    subst hnext
    exact Or.inr ⟨block, List.mem_of_find?_eq_some hfound⟩
  · subst hnext
    exact Or.inl (List.mem_of_getElem? htarget)

/-- A branch that is led to blocks has as many targets as before. -/
theorem length_targets_ledTo (located : List (PathBlock × Handle)) (instruction : Instruction) :
    (ledTo located instruction).targets.length = instruction.targets.length := by
  rw [ledTo, List.length_map, List.length_zipIdx]

/-- A branch that is led to blocks stays well formed. -/
theorem wellFormed_ledTo (hw : instruction.WellFormed) (located : List (PathBlock × Handle)) :
    (ledTo located instruction).WellFormed where
  long := hw.long
  operand := hw.operand
  targets := by
    rw [length_targets_ledTo]
    exact hw.targets
  bare := by
    intro hnil
    apply hw.bare
    rw [← List.length_eq_zero_iff, ← length_targets_ledTo located, hnil]
    rfl

/-- A branch that is led to its blocks and their code lead to where the branch did, into the code,
or to the exits of the blocks. -/
theorem wellFormed_ledTo_code {start : Nat} {new : Instruction} (hw : instruction.WellFormed)
    (hreal : instruction.opcode ≠ .label)
    (hmem : new ∈ ledTo (locateBlocks probe start blocks) instruction
      :: blocks.flatMap (PathBlock.code probe)) :
    new.WellFormed ∧ new.opcode ≠ .label ∧ ∀ next ∈ new.targets, next ∈ instruction.targets
      ∨ (start ≤ next ∧ next < start + (blocks.flatMap (PathBlock.code probe)).length)
      ∨ ∃ block ∈ blocks, next = block.exit := by
  rcases List.mem_cons.mp hmem with rfl | hcode
  · refine ⟨wellFormed_ledTo hw _, hreal, ?_⟩
    intro next hnext
    rcases mem_targets_ledTo hnext with htarget | ⟨block, hentry⟩
    · exact Or.inl htarget
    · exact Or.inr (Or.inl (entry_bounds hentry))
  · obtain ⟨block, hblock, hcode⟩ := List.mem_flatMap.mp hcode
    obtain ⟨hwell, hlabel, hexit⟩ := wellFormed_code hcode
    exact ⟨hwell, hlabel, fun next hnext => Or.inr (Or.inr ⟨block, hblock, hexit next hnext⟩)⟩

end Blocks

variable {method other : Method} {points : List BranchPoint} {probe : Probe}
  {branch handle target : Handle}

section Exits

/-- What holds of an instruction and is handed on to targets holds of the end of the chain. -/
theorem followWithin_of {P : Handle → Prop}
    (hnext : ∀ {handle target}, P handle → target ∈ (method.get handle).targets → P target)
    (scope : List (Nat × Nat)) (met : List Handle) (hstart : P handle) :
    P (method.followWithin scope met handle) := by
  fun_induction method.followWithin scope met handle with
  | case1 met handle hmet => exact hstart
  | case2 met handle hmet target hhop ih =>
    obtain ⟨-, htargets, -⟩ := hop?_eq_some_iff.mp hhop
    exact ih (hnext hstart (by rw [htargets]; exact List.mem_singleton_self _))
  | case3 met handle hmet hhop => exact hstart

/-- What a branch passes on to its targets holds of the exit of a path. -/
theorem pathExit_of {P : Handle → Prop}
    (hnext : ∀ {handle target}, P handle → target ∈ (method.get handle).targets → P target)
    (branch : Handle) (hstart : P target) : P (method.pathExit branch target) := by
  unfold pathExit
  split
  · exact hstart
  · exact followWithin_of hnext _ _ hstart

/-- There is nothing to follow from a label. -/
theorem pathExit_of_label (branch : Handle) (hlabel : (method.get target).opcode = .label) :
    method.pathExit branch target = target := by
  unfold pathExit
  split
  · rfl
  · rw [followBranches, followWithin, if_neg List.not_mem_nil]
    split
    · rename_i next hhop
      have hjump : (method.get target).opcode = .br := (hop?_eq_some_iff.mp hhop).1
      cases hlabel.symm.trans hjump
    · rfl

/-- A block leads on from where its path led. -/
theorem exit_of_mem_pathBlocks {fallThrough : Handle} {registered : List BranchPoint}
    {block : PathBlock} (hmem : block ∈ method.pathBlocks branch fallThrough registered) :
    ∃ target, (method.destinations branch fallThrough)[block.path]? = some target
      ∧ block.exit = method.pathExit branch target := by
  rw [pathBlocks_eq, List.mem_filterMap] at hmem
  obtain ⟨⟨target, path⟩, hin, hchosen⟩ := hmem
  rw [chosenBlock?_eq_some hchosen]
  exact ⟨target, List.mem_zipIdx_iff_getElem?.mp hin, rfl⟩

/-- The exits of the blocks are in the method if its targets are. -/
theorem exit_mem_order
    (htargets : ∀ {handle target}, target ∈ (method.get handle).targets → target ∈ method.order)
    {block : PathBlock} (hmem : block ∈ method.branchBlocks points branch) :
    block.exit ∈ method.order := by
  unfold branchBlocks at hmem
  split at hmem
  · rename_i fallThrough hnext
    obtain ⟨target, htarget, hexit⟩ := exit_of_mem_pathBlocks hmem
    rw [hexit]
    refine pathExit_of (P := (· ∈ method.order)) (fun _ hin => htargets hin) branch ?_
    rcases List.mem_cons.mp (List.mem_of_getElem? htarget) with rfl | hin
    · exact mem_of_next? hnext
    · exact htargets hin
  · cases hmem

/-- Whether a path of the branch has a point although only the label follows the branch. -/
def fallsToLabel (method : Method) (points : List BranchPoint) (branch : Handle) : Bool :=
  match method.next? branch with
  | some next =>
    (method.get next).opcode == .label
      && method.anyProbed branch next (method.registeredAt points branch)
  | none => false

/-- A block leads to the label if and only if control falls to it. -/
theorem Recodable.exists_exit_iff (hr : method.Recodable) (points : List BranchPoint)
    (branch : Handle) :
    (∃ block ∈ method.branchBlocks points branch, (method.get block.exit).opcode = .label)
      ↔ method.fallsToLabel points branch = true := by
  cases hnext : method.next? branch with
  | none => simp [branchBlocks, fallsToLabel, hnext]
  | some fallThrough =>
    rw [branchBlocks_of_next? hnext, fallsToLabel, hnext, Bool.and_eq_true, beq_iff_eq]
    constructor
    · rintro ⟨block, hmem, hlabel⟩
      refine ⟨?_, anyProbed_of_mem hmem⟩
      obtain ⟨target, htarget, hexit⟩ := exit_of_mem_pathBlocks hmem
      by_contra hreal
      -- chains of instructions end at instructions
      refine pathExit_of (P := fun handle => (method.get handle).opcode ≠ .label)
        (fun _ hin => hr.landing _ _ hin) branch ?_ (hexit ▸ hlabel)
      rcases List.mem_cons.mp (List.mem_of_getElem? htarget) with rfl | hin
      · exact hreal
      · exact hr.landing branch target hin
    · rintro ⟨hlabel, hany⟩
      obtain ⟨block, hmem, -⟩ := exists_probed hany
      obtain ⟨first, rest, hcons, hzero⟩ :=
        exists_pathBlocks_eq_cons (List.ne_nil_of_mem hmem)
      have hfirst :
          first ∈ method.pathBlocks branch fallThrough (method.registeredAt points branch) := by
        rw [hcons]
        exact List.mem_cons_self
      obtain ⟨target, htarget, hexit⟩ := exit_of_mem_pathBlocks hfirst
      rw [hzero] at htarget
      obtain rfl := Option.some.inj htarget
      refine ⟨first, hfirst, ?_⟩
      rwa [hexit, pathExit_of_label branch hlabel]

end Exits

/-- What placement keeps of a decoded method: it can be encoded, and what was read is no label. -/
structure Intact (method : Method) : Prop extends method.Valid where
  opened : method.Opened
  real : ∀ handle, (method.get handle).origin ≠ none → (method.get handle).opcode ≠ .label

/-- A decoded method is intact. -/
theorem DecodedFrom.intact {raw : RawBody} {regions : List Region} {targets : List (List Handle)}
    (hd : method.DecodedFrom raw regions targets) : method.Intact where
  toValid := hd.recodable.toValid
  opened := hd.recodable.opened
  real := by
    intro handle hread
    rw [hd.origin_eq] at hread
    split at hread
    · rename_i hlt
      exact (hd.opcode_ne_label_iff handle).mpr hlt
    · exact absurd rfl hread

/-- Laying out leaves a method intact. -/
theorem Intact.layOut (hi : method.Intact) : method.layOut.Intact where
  toValid := hi.toValid.layOut
  opened := hi.opened.layOut hi.ordered
  real := by
    intro handle
    have halike := hi.ordered.alike_layOut handle
    rw [halike.origin, halike.opcode]
    exact hi.real handle

/-- An edit with well-formed instructions none of which is a label. -/
theorem Intact.replaced (hi : method.Intact) {position : Nat} {first : Instruction}
    {rest : List Instruction} (hat : method.order[position]? = some target)
    (hnew : ∀ instruction ∈ first :: rest, instruction.WellFormed ∧ instruction.opcode ≠ .label)
    (htargets : ∀ instruction ∈ first :: rest, ∀ handle ∈ instruction.targets,
      handle < method.slots.size + rest.length) :
    (method.replaced target position first rest).Intact where
  toValid := by
    refine hi.toValid.replaced hat (fun instruction hmem => (hnew instruction hmem).1) htargets
      (hnew first List.mem_cons_self).2 ?_
    intro k instruction hk hlabel
    have hmem := List.mem_cons_of_mem first (List.mem_of_getElem? hk)
    exact absurd hlabel (hnew instruction hmem).2
  opened := hi.opened.replaced hi.toValid hat (hnew first List.mem_cons_self).2
  real := by
    refine forall_get_replaced (P := fun instruction =>
      instruction.origin ≠ none → instruction.opcode ≠ .label)
      (hi.ordered.lt_of_getElem? hat) (fun handle _ => hi.real handle) ?_ fun hread => absurd rfl hread
    exact fun instruction hmem _ => (hnew instruction hmem).2

/-- The method is laid out and can be encoded, and a branch of it dangles if and only if `lost`. -/
structure Settled (method : Method) (lost : Prop) : Prop extends method.Intact where
  laid : method.Laid
  dangling_iff : method.Dangling ↔ lost

variable {lost : Prop}

/-- An intact method is settled once it is laid out. -/
theorem Intact.settled_layOut (hi : method.Intact) (hdangling : method.Dangling ↔ lost) :
    method.layOut.Settled lost where
  toIntact := hi.layOut
  laid := hi.ordered.laid_layOut hi.allCounted
  dangling_iff := hi.ordered.dangling_layOut_iff.trans hdangling

/-- Raising the stack depth leaves a method settled. -/
theorem Settled.increaseMaxStack (hs : method.Settled lost) (extra : UInt16) :
    (method.increaseMaxStack extra).Settled lost where
  ordered := ⟨hs.ordered.nodup, hs.ordered.mem_iff⟩
  wellFormed := hs.wellFormed
  targets := hs.targets
  boundaries := hs.boundaries
  tries := hs.tries
  handlers := hs.handlers
  ending := hs.ending
  opened := hs.opened
  real := hs.real
  laid := ⟨hs.laid.offset, hs.laid.aimed, hs.laid.codeSize⟩
  dangling_iff := hs.dangling_iff

/-- The probe of a statement leads nowhere else. -/
theorem Settled.insertAt (hs : method.Settled lost) (hread : (method.get target).origin ≠ none)
    {id : UInt32} {inserted : Method}
    (hinsert : method.insertAt target (probe.sequence id) = .ok inserted) :
    inserted.Settled lost := by
  obtain ⟨-, position, first, rest, hat, hrow, rfl⟩ :=
    (insertAt_eq_ok_iff hs.ordered Probe.sequence_ne_nil).mp hinsert
  have hself : method.get target ∈ first :: rest := by
    rw [hrow]
    exact (forall_mem_row.mp fun _ hmem => hmem).1
  have hcases : ∀ instruction ∈ first :: rest, instruction = method.get target
      ∨ instruction.WellFormed ∧ instruction.opcode ≠ .label ∧ instruction.targets = [] := by
    rw [hrow, forall_mem_row]
    exact ⟨Or.inl rfl, fun template htemplate => Or.inr (Probe.copied_sequence htemplate _)⟩
  have hnew : ∀ instruction ∈ first :: rest,
      instruction.WellFormed ∧ instruction.opcode ≠ .label := by
    intro instruction hmem
    rcases hcases instruction hmem with rfl | ⟨hw, hreal, -⟩
    · exact ⟨hs.wellFormed target, hs.real target hread⟩
    · exact ⟨hw, hreal⟩
  have htargets : ∀ instruction ∈ first :: rest, ∀ handle ∈ instruction.targets,
      handle < method.slots.size + rest.length := by
    intro instruction hmem handle hhandle
    rcases hcases instruction hmem with rfl | ⟨-, -, hnil⟩
    · exact Nat.lt_of_lt_of_le (hs.targets target handle hhandle) (Nat.le_add_right _ _)
    · rw [hnil] at hhandle
      cases hhandle
  refine (hs.toIntact.replaced hat hnew htargets).settled_layOut ?_
  rw [← hs.dangling_iff, hs.toValid.dangling_replaced_iff hat (hs.real target hread)
    (fun instruction hmem => (hnew instruction hmem).2) htargets]
  constructor
  · rintro (⟨handle, -, hdangles⟩ | ⟨instruction, hmem, next, hnext, -, hlabel⟩)
    · exact ⟨handle, hdangles⟩
    · rcases hcases instruction hmem with rfl | ⟨-, -, hnil⟩
      · exact ⟨target, next, hnext, hlabel⟩
      · rw [hnil] at hnext
        cases hnext
  · rintro ⟨handle, next, hnext, hlabel⟩
    by_cases hsame : handle = target
    · subst hsame
      exact Or.inr ⟨_, hself, next, hnext, hs.targets handle next hnext, hlabel⟩
    · exact Or.inl ⟨handle, hsame, next, hnext, hlabel⟩

/-- The given branches carry their blocks, and branches dangle where control falls to the label. -/
structure Routed (method other : Method) (points : List BranchPoint) (routed : List Handle) :
    Prop extends method.Routing other points routed where
  intact : other.Intact
  dangling_iff : other.Dangling ↔ ∃ branch ∈ routed, method.fallsToLabel points branch = true

/-- One more branch with its blocks is routed. -/
theorem Routed.probeBranch {routed : List Handle} (hr : method.Routed other points routed)
    (hm : method.AsRead) (hrecodable : method.Recodable)
    (hbranch : branch ∈ method.conditionalBranches) (hout : branch ∉ routed) {placed : Nat}
    (hok : (other.probeBranch branch points probe).outcome = .ok placed) :
    method.Routed (other.probeBranch branch points probe).method points (branch :: routed) := by
  obtain ⟨hmem, hread, -⟩ := mem_conditionalBranches.mp hbranch
  obtain ⟨hget, -⟩ := hr.untouched branch hmem hout
  have hat := getElem?_idxOf (hr.order.subset hmem)
  have hlt := hr.intact.ordered.lt_of_getElem? hat
  have hold {handle : Handle} (hin : handle ∈ method.order) : handle < other.slots.size
      ∧ (other.get handle).opcode = (method.get handle).opcode :=
    ⟨(hr.intact.ordered.mem_iff handle).mp (hr.order.subset hin),
      (hr.instrumented.placed handle hin).opcode⟩
  have hlanding {next : Handle} (hnext : next ∈ (other.get branch).targets) :
      (other.get next).opcode ≠ .label := by
    rw [hget] at hnext
    rw [(hold (hm.targets_mem_order hnext)).2]
    exact hrecodable.landing branch next hnext
  have hreal : (other.get branch).opcode ≠ .label := by
    apply hr.intact.real
    rwa [hget]
  have hmethod := (probeBranch_spec hok).2
  rw [hr.branchBlocks_eq hm.toValid hmem hout, spliceBlocks_eq hlt] at hmethod
  have hexit {block : PathBlock} (hblock : block ∈ method.branchBlocks points branch) :=
    hold (exit_mem_order hm.targets_mem_order hblock)
  have hfalls := hrecodable.exists_exit_iff points branch
  generalize method.branchBlocks points branch = blocks at hmethod hexit hfalls
  -- where the new instructions lead: to old targets, among themselves or to the exit of a block
  have hrow {instruction : Instruction}
      (hin : instruction ∈ ledTo (locateBlocks probe other.slots.size blocks) (other.get branch)
        :: blocks.flatMap (PathBlock.code probe)) :=
    wellFormed_ledTo_code (hr.intact.wellFormed branch) hreal hin
  have htargets : ∀ instruction ∈ ledTo (locateBlocks probe other.slots.size blocks)
        (other.get branch) :: blocks.flatMap (PathBlock.code probe), ∀ next ∈ instruction.targets,
      next < other.slots.size + (blocks.flatMap (PathBlock.code probe)).length := by
    intro instruction hin next hnext
    rcases (hrow hin).2.2 next hnext with htarget | hfresh | ⟨block, hblock, rfl⟩
    · exact Nat.lt_of_lt_of_le (hr.intact.targets branch next htarget) (Nat.le_add_right _ _)
    · exact hfresh.2
    · exact Nat.lt_of_lt_of_le (hexit hblock).1 (Nat.le_add_right _ _)
  refine ⟨hr.toRouting.probeBranch hm hbranch hout hok, ?_, ?_⟩
  · rw [hmethod]
    exact hr.intact.replaced hat (fun _ hin => ⟨(hrow hin).1, (hrow hin).2.1⟩) htargets
  · rw [hmethod, hr.intact.dangling_replaced_iff hat hreal (fun _ hin => (hrow hin).2.1) htargets]
    constructor
    -- of the three only an exit can be the label
    · rintro (⟨handle, -, hdangles⟩ | ⟨instruction, hin, next, hnext, hinside, hlabel⟩)
      · obtain ⟨known, hknown, hfell⟩ := hr.dangling_iff.mp ⟨handle, hdangles⟩
        exact ⟨known, List.mem_cons_of_mem _ hknown, hfell⟩
      · refine ⟨branch, List.mem_cons_self, hfalls.mp ?_⟩
        rcases (hrow hin).2.2 next hnext with htarget | hfresh | ⟨block, hblock, rfl⟩
        · exact absurd hlabel (hlanding htarget)
        · exact absurd hinside (Nat.not_lt.mpr hfresh.1)
        · exact ⟨block, hblock, (hexit hblock).2 ▸ hlabel⟩
    · rintro ⟨known, hknown, hfell⟩
      rcases List.mem_cons.mp hknown with rfl | hknown
      · obtain ⟨block, hblock, hlabel⟩ := hfalls.mpr hfell
        have hcode := List.mem_flatMap.mpr ⟨block, hblock, branchTo_mem_code probe block⟩
        rw [← (hexit hblock).2] at hlabel
        exact Or.inr ⟨_, List.mem_cons_of_mem _ hcode, block.exit, List.mem_singleton_self _,
          (hexit hblock).1, hlabel⟩
      · obtain ⟨handle, next, hnext, hlabel⟩ := hr.dangling_iff.mpr ⟨known, hknown, hfell⟩
        refine Or.inl ⟨handle, ?_, next, hnext, hlabel⟩
        rintro rfl
        exact hlanding hnext hlabel

/-- The placement on all branches. -/
theorem DecodedFrom.settled_addBranchProbes {raw : RawBody} {regions : List Region}
    {targets : List (List Handle)} (hd : method.DecodedFrom raw regions targets) {placed : Nat}
    (hok : (method.addBranchProbes points probe).outcome = .ok placed) :
    (method.addBranchProbes points probe).method.Settled
      (∃ branch ∈ method.conditionalBranches, method.fallsToLabel points branch = true) := by
  have hm := hd.asRead
  have hstart : method.Routed method points [] :=
    ⟨hm.routing points, hd.intact, iff_of_false hd.recodable.not_dangling nofun⟩
  obtain ⟨edited, hr, hmethod⟩ := addBranchProbes_run
    (I := fun routed _ other => method.Routed other points routed)
    (fun hr hout hbranch hone => hr.probeBranch hm hd.recodable hbranch hout hone) hm.ordered hstart
    hok
  have hdangling := hr.dangling_iff
  simp only [List.mem_reverse] at hdangling
  rcases hmethod with ⟨hmethod, rfl⟩ | hmethod
  · rw [hmethod]
    exact ⟨hr.intact, hd.laid, hdangling⟩
  · rw [hmethod]
    exact hr.intact.settled_layOut hdangling

/-- Instrumentation leaves a method that can be encoded. -/
theorem DecodedFrom.settled_instrument {raw : RawBody} {regions : List Region}
    {targets : List (List Handle)} (hd : method.DecodedFrom raw regions targets) {points : Points}
    {configuration : Configuration} {placement : Placement}
    (hok : (method.instrument points probe configuration).outcome = .ok placement) :
    (method.instrument points probe configuration).method.Settled
      (∃ branch ∈ method.conditionalBranches,
        method.fallsToLabel (points.enabled configuration).branches branch = true) := by
  refine instrument_keeps (I := (Settled · _)) hok ?_ fun extra hs => hs.increaseMaxStack extra
  intro hrouted hnoted
  exact addStatementProbes_run
    (I := fun _ other => other.Settled (∃ branch ∈ method.conditionalBranches,
      method.fallsToLabel (points.enabled configuration).branches branch = true))
    (fun hs _ horigin hinsert => hs.insertAt (by rw [horigin]; exact nofun) hinsert)
    [] (hd.settled_addBranchProbes hrouted) hnoted

/-- The instrumented method can be read if no branch with a point on one of its paths falls to the
label. -/
theorem DecodedFrom.not_dangling_instrument {raw : RawBody} {regions : List Region}
    {targets : List (List Handle)} (hd : method.DecodedFrom raw regions targets) {points : Points}
    {configuration : Configuration} {placement : Placement}
    (hok : (method.instrument points probe configuration).outcome = .ok placement)
    (hkept : ∀ branch ∈ method.conditionalBranches,
      method.fallsToLabel (points.enabled configuration).branches branch = false) :
    ¬ (method.instrument points probe configuration).method.Dangling := by
  rw [(hd.settled_instrument hok).dangling_iff]
  rintro ⟨branch, hbranch, hfalls⟩
  cases (hkept branch hbranch).symm.trans hfalls

/-- An instrumented method that was written to a buffer can be read if and only if no branch with a
point on one of its paths falls to the label. -/
theorem DecodedFrom.exists_decode_iff {raw : RawBody} {regions : List Region}
    {targets : List (List Handle)} (hd : method.DecodedFrom raw regions targets) {points : Points}
    {configuration : Configuration} {placement : Placement} {buffer bytes : List UInt8}
    (hok : (method.instrument points probe configuration).outcome = .ok placement)
    (hsmall : (method.instrument points probe configuration).method.codeSize < 2 ^ 31)
    (hcount : (method.instrument points probe configuration).method.regions.length ≤ 699050)
    (hwrite : (method.instrument points probe configuration).method.write buffer = .ok bytes) :
    (∃ decoded, decode bytes = .ok decoded) ↔ ∀ branch ∈ method.conditionalBranches,
      method.fallsToLabel (points.enabled configuration).branches branch = false := by
  have hs := hd.settled_instrument hok
  have hfit := regionsFit_of_le_capacity hcount
  obtain ⟨bytes', hbytes, hrecoded, hrefused⟩ :=
    hs.toValid.recoded_iff hs.opened hs.laid hsmall hcount
  -- what the buffer held before does not show
  have hsame : bytes' = bytes := by
    rw [hs.toValid.toBytes_eq hs.laid hsmall hfit] at hbytes
    rw [hs.toValid.write_eq_written hs.laid hsmall hfit (length_of_write hwrite)] at hwrite
    exact (Except.ok.inj hbytes).symm.trans (Except.ok.inj hwrite)
  subst hsame
  constructor
  · rintro ⟨decoded, hdecoded⟩ branch hbranch
    rw [Bool.eq_false_iff]
    intro hfalls
    exact hrefused (hs.dangling_iff.mpr ⟨branch, hbranch, hfalls⟩) decoded hdecoded
  · intro hkept
    obtain ⟨decoded, hdecoded, -⟩ := hrecoded (hd.not_dangling_instrument hok hkept)
    exact ⟨decoded, hdecoded⟩

end Method

/-- An instrumented method is encoded, and its bytes are decoded again, as the same instructions and
regions at the same offsets, if and only if no branch with a point on one of its paths falls to the
label. -/
theorem instrument_recoded {data : List UInt8} {method : Method}
    (hdecode : Method.decode data = .ok method) {points : Points} {probe : Probe}
    {configuration : Configuration} {placement : Placement}
    (hplaced : (method.instrument points probe configuration).outcome = .ok placement)
    (hsmall : (method.instrument points probe configuration).method.codeSize < 2 ^ 31)
    (hcount : (method.instrument points probe configuration).method.regions.length ≤ 699050) :
    ∃ bytes, (method.instrument points probe configuration).method.toBytes = .ok bytes
      ∧ ((∀ branch ∈ method.conditionalBranches,
            method.fallsToLabel (points.enabled configuration).branches branch = false) →
          ∃ decoded, Method.decode bytes = .ok decoded
            ∧ decoded.rows = (method.instrument points probe configuration).method.rows
            ∧ decoded.regionRows
              = (method.instrument points probe configuration).method.regionRows)
      ∧ ((∃ branch ∈ method.conditionalBranches,
            method.fallsToLabel (points.enabled configuration).branches branch = true) →
          ∀ decoded, Method.decode bytes ≠ .ok decoded) := by
  obtain ⟨raw, regions, targets, -, hd⟩ := Method.decode_spec hdecode
  have hs := hd.settled_instrument hplaced
  obtain ⟨bytes, hbytes, hrecoded, hrefused⟩ :=
    hs.toValid.recoded_iff hs.opened hs.laid hsmall hcount
  refine ⟨bytes, hbytes, ?_, fun hlost => hrefused (hs.dangling_iff.mpr hlost)⟩
  intro hkept
  obtain ⟨decoded, hdecoded, h⟩ := hrecoded (hd.not_dangling_instrument hplaced hkept)
  exact ⟨decoded, hdecoded, h.rows_eq, h.regionRows_eq⟩

/-- The instrumented `guardedLoop` is read back. -/
theorem instrument_recoded_guardedLoop :
    ∃ method bytes decoded, Method.decode guardedLoop = .ok method
      ∧ (method.instrument guardedPoints (.managed ⟨0x0A000001⟩) {}).outcome = .ok ⟨2, 2⟩
      ∧ (method.instrument guardedPoints (.managed ⟨0x0A000001⟩) {}).method.toBytes = .ok bytes
      ∧ Method.decode bytes = .ok decoded
      ∧ decoded.rows = (method.instrument guardedPoints (.managed ⟨0x0A000001⟩) {}).method.rows := by
  have hrun : ((Method.decode guardedLoop).bind fun method =>
      let edited := method.instrument guardedPoints (.managed ⟨0x0A000001⟩) {}
      edited.outcome.bind fun placement =>
        .ok (placement, edited.method.codeSize, edited.method.regions.length,
          method.conditionalBranches.all fun branch =>
            !method.fallsToLabel (guardedPoints.enabled {}).branches branch))
      = .ok (⟨2, 2⟩, 68, 1, true) := by decide +kernel
  obtain ⟨method, hdecode, hrest⟩ := bind_eq_ok_iff.mp hrun
  obtain ⟨placement, hplaced, hresult⟩ := bind_eq_ok_iff.mp hrest
  obtain ⟨rfl, hsizes⟩ := Prod.mk.inj (Except.ok.inj hresult)
  obtain ⟨hcode, hsizes⟩ := Prod.mk.inj hsizes
  obtain ⟨hregions, hkept⟩ := Prod.mk.inj hsizes
  obtain ⟨bytes, hbytes, hrecoded, -⟩ := instrument_recoded hdecode hplaced
    (by rw [hcode]; decide) (by rw [hregions]; decide)
  obtain ⟨decoded, hdecoded, hrows, -⟩ := hrecoded fun branch hbranch => by
    simpa using List.all_eq_true.mp hkept branch hbranch
  exact ⟨method, bytes, decoded, hdecode, hplaced, hbytes, hdecoded, hrows⟩

/-- A loop that ends with its conditional branch, as the handler of a protected block: control that
does not take the branch leaves the code. -/
def loopAtEnd : List UInt8 :=
  [0x0B, 0x30, 1, 0, 3, 0, 0, 0, 0, 0, 0, 0,
   0x02, 0x2D, 0xFD, 0,
   1, 16, 0, 0, 2, 0, 0, 0, 1, 1, 0, 2, 0, 0, 0, 0]

/-- A point on the path of `loopAtEnd` that takes the branch. -/
def backwardPoints : Points where
  statements := []
  branches := [⟨1, 1, 7⟩]

/-- The probe of the loop is placed, although its branch has nothing to fall through to, and the
bytes of the result are refused: no instruction starts at the end of the code. -/
theorem instrument_not_recoded_loopAtEnd :
    ∃ method bytes, Method.decode loopAtEnd = .ok method
      ∧ (method.instrument backwardPoints (.managed ⟨0x0A000001⟩) {}).outcome = .ok ⟨0, 1⟩
      ∧ (method.instrument backwardPoints (.managed ⟨0x0A000001⟩) {}).method.codeSize = 26
      ∧ (method.instrument backwardPoints (.managed ⟨0x0A000001⟩) {}).method.regions.length = 1
      ∧ (method.instrument backwardPoints (.managed ⟨0x0A000001⟩) {}).method.toBytes = .ok bytes
      ∧ Method.decode bytes = .error (.instructionNotFound 26) := by
  have hrun : ((Method.decode loopAtEnd).bind fun method =>
      let edited := method.instrument backwardPoints (.managed ⟨0x0A000001⟩) {}
      edited.outcome.bind fun placement => edited.method.toBytes.bind fun bytes =>
        .ok (placement, edited.method.codeSize, edited.method.regions.length,
          match Method.decode bytes with
          | .ok _ => none
          | .error cause => some cause))
      = .ok (⟨0, 1⟩, 26, 1, some (.instructionNotFound 26)) := by decide +kernel
  obtain ⟨method, hdecode, hrest⟩ := bind_eq_ok_iff.mp hrun
  obtain ⟨placement, hplaced, hrest⟩ := bind_eq_ok_iff.mp hrest
  obtain ⟨bytes, hbytes, hresult⟩ := bind_eq_ok_iff.mp hrest
  obtain ⟨rfl, hsizes⟩ := Prod.mk.inj (Except.ok.inj hresult)
  obtain ⟨hcode, hsizes⟩ := Prod.mk.inj hsizes
  obtain ⟨hregions, hrefused⟩ := Prod.mk.inj hsizes
  refine ⟨method, bytes, hdecode, hplaced, hcode, hregions, hbytes, ?_⟩
  cases hredecode : Method.decode bytes with
  | ok decoded =>
    rw [hredecode] at hrefused
    cases hrefused
  | error cause =>
    rw [hredecode] at hrefused
    rw [Option.some.inj hrefused]

end CilCoverage
