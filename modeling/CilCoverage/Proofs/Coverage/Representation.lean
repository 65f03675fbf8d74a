import CilCoverage.Proofs.Coverage.Reachability
import CilCoverage.Proofs.Coverage.Recoding
import CilCoverage.Proofs.Method.Fitting
import CilCoverage.Proofs.Method.Searching

/-!
# What methods represent

However a method was changed since it was decoded, it is a laid out list of its slots that still
holds the instructions of the body, each at its offset of then (`Method.Represents`). `Method.Kept`
is what the changes preserve: every change grows the method, so what was read stays as it was
(`Grown.readOutlines_eq`), and every change ends with a layout of instructions that fit
(`Kept.changed`). What a whole run preserves follows by induction on its changes
(`changeAll_represents`).
-/

set_option autoImplicit false

namespace CilCoverage

open Instruction

/-- What stays of an instruction that was read. -/
def Instruction.readOutline (instruction : Instruction) : Outline :=
  (instruction.linked (instruction.displacements.map fun _ => 0)).outline

/-- What stays of an instruction without targets has its operand. -/
theorem Instruction.operand_readOutline {instruction : Instruction}
    (hplain : instruction.isBranch = false) :
    instruction.readOutline.operand = instruction.operand := by
  have hkind := Opcode.operandKind_ne_of_not_branch hplain
  have hlinked : instruction.opcode.widened.isBranch = false := by
    rwa [Opcode.isBranch_widened]
  show (if instruction.opcode.widened.isBranch && _ then _ else _) = _
  rw [hlinked, Bool.false_and, if_neg Bool.false_ne_true]
  exact operand_linked _ hkind

namespace Method

variable {method other : Method} {raw : RawBody}

/-- The instructions that were read, in execution order. -/
def readOutlines (method : Method) : List Outline :=
  method.outlines.filter fun outline => outline.origin.isSome

/-- Nothing that was added counts as read. -/
theorem Grown.readOutlines_eq {additions : Additions} {segment : Handle → List Handle}
    (hg : method.Grown other additions segment) : other.readOutlines = method.readOutlines := by
  have hunread (handle : Handle) (outlines : List Outline)
      (hsub : ∀ outline ∈ outlines,
        outline ∈ additions.before handle ++ additions.behind handle) :
      (outlines.filter fun outline => outline.origin.isSome) = [] := by
    rw [List.filter_eq_nil_iff]
    intro outline hmem
    rw [hg.unread handle outline (hsub outline hmem)]
    exact Bool.false_ne_true
  have haround (handle : Handle) :
      (additions.around method handle).filter (fun outline => outline.origin.isSome)
        = [(method.get handle).outline].filter fun outline => outline.origin.isSome := by
    rw [Additions.around, List.filter_append, List.filter_cons, List.filter_cons,
      hunread handle (additions.before handle) (fun _ hmem => List.mem_append_left _ hmem),
      hunread handle (additions.behind handle) (fun _ hmem => List.mem_append_right _ hmem),
      List.nil_append, List.filter_nil]
  rw [readOutlines, hg.outlines_eq, List.filter_flatMap, List.flatMap_congr fun handle _ =>
    haround handle, ← List.filter_flatMap, ← List.map_eq_flatMap]
  rfl

/-- The additions do not come between the ends of a range so as to swap them. -/
theorem Grown.idxOf_le_iff {additions : Additions} {segment : Handle → List Handle}
    (hg : method.Grown other additions segment) {one another : Handle}
    (hone : one ∈ method.order) (hanother : another ∈ method.order) :
    other.order.idxOf one ≤ other.order.idxOf another
      ↔ method.order.idxOf one ≤ method.order.idxOf another :=
  (hg.sameSide hone hanother (List.mem_of_mem_head? (hg.head?_segment hanother))).le_iff

/-- The instructions of a decoded method are those of the body. -/
theorem DecodedFrom.outlines_handles {regions : List Region} {targets : List (List Handle)}
    (hd : method.DecodedFrom raw regions targets) :
    (method.handles.map fun handle => (method.get handle).outline)
      = raw.instructions.map readOutline := by
  rw [hd.handles_eq]
  apply List.ext_getElem?
  intro k
  rw [List.getElem?_map, List.getElem?_map]
  cases hk : raw.instructions[k]? with
  | none =>
    rw [List.getElem?_eq_none (by simpa using hk)]
    rfl
  | some instruction =>
    have hlt := (List.getElem?_eq_some_iff.mp hk).1
    obtain ⟨links, offset, -, hlands, hget⟩ := hd.get_eq hk
    rw [List.getElem?_range hlt, Option.map_some, Option.map_some, Option.some_inj, hget,
      outline_eq_of_content (content_aimed _ _)]
    symm
    apply outline_retargeted (instruction.linked links)
    rw [List.length_map]
    exact hlands.length_eq

/-- What was decoded is what was read. -/
theorem DecodedFrom.readOutlines_eq {regions : List Region} {targets : List (List Handle)}
    (hd : method.DecodedFrom raw regions targets) :
    method.readOutlines = raw.instructions.map readOutline := by
  have hread : (method.order.filter fun handle => (method.get handle).origin.isSome)
      = method.handles := by
    rw [handles]
    apply List.filter_congr
    intro handle _
    rw [hd.origin_eq, Bool.eq_iff_iff, bne_iff_ne, hd.opcode_ne_label_iff]
    split <;> simp_all
  rw [readOutlines, Method.outlines, List.filter_map, ← hd.outlines_handles, ← hread]
  rfl

/-- What every change keeps of a method that was decoded from a body. -/
structure Kept (method : Method) (raw : RawBody) : Prop where
  fit : method.Fit
  laid : method.Laid
  consistent : method.Consistent
  tries : ∀ region ∈ method.regions,
    method.order.idxOf region.tryStart ≤ method.order.idxOf region.tryEnd
  handlers : ∀ region ∈ method.regions,
    method.order.idxOf region.handlerStart ≤ method.order.idxOf region.handlerEnd
  read : method.readOutlines = raw.instructions.map readOutline

/-- A decoded method keeps what it was read from. -/
theorem DecodedFrom.kept {regions : List Region} {targets : List (List Handle)}
    (hd : method.DecodedFrom raw regions targets) : method.Kept raw where
  fit := hd.recodable.toValid.fit
  laid := hd.laid
  consistent := hd.asRead.consistent
  tries := hd.recodable.tries
  handlers := hd.recodable.handlers
  read := hd.readOutlines_eq

end Method

/-- Every `switch` among the templates of the change counts its targets. -/
def Change.Counted : Change → Prop
  | insert insertion => ∀ template ∈ insertion.templates, template.Counted
  | _ => True

instance (change : Change) : Decidable change.Counted := by
  cases change <;> (unfold Change.Counted; exact inferInstance)

/-- No template of a probe announces targets that it does not have. -/
theorem Probe.counted_sequence {probe : Probe} {id : UInt32} {template : Template}
    (hmem : template ∈ probe.sequence id) : template.Counted := by
  intro hswitch
  have hplain := Probe.isBranch_sequence hmem
  rw [hswitch] at hplain
  cases hplain

namespace Method

variable {method other : Method} {raw : RawBody} {probe : Probe} {points : List BranchPoint}
  {branch : Handle}

/-- More stack changes nothing in the layout. -/
theorem Laid.increaseMaxStack (hl : method.Laid) (extra : UInt16) :
    (method.increaseMaxStack extra).Laid :=
  ⟨hl.offset, hl.aimed, hl.codeSize⟩

section Branches

/-- A branch that is led to its blocks leads to what is in the method. -/
theorem fit_ledTo {instruction : Instruction} {count start more : Nat} {blocks : List PathBlock}
    (hf : instruction.Fit count) (hcount : count ≤ more)
    (hmore : start + (blocks.flatMap (PathBlock.code probe)).length ≤ more) :
    (ledTo (locateBlocks probe start blocks) instruction).Fit more where
  counted := by
    intro hswitch
    rw [length_targets_ledTo]
    exact hf.counted hswitch
  bare := by
    intro hnil
    apply hf.bare
    rw [← List.length_eq_zero_iff, ← length_targets_ledTo (locateBlocks probe start blocks), hnil]
    rfl
  inside := by
    intro next hnext
    rcases mem_targets_ledTo hnext with htarget | ⟨block, hentry⟩
    · exact Nat.lt_of_lt_of_le (hf.inside next htarget) hcount
    · exact Nat.lt_of_lt_of_le (entry_bounds hentry).2 hmore

/-- The blocks of a branch fit, and so does the branch that is led to them. -/
theorem Fit.probeBranch (hf : other.Fit) (hlt : branch < other.slots.size) {placed : Nat}
    (hok : (other.probeBranch branch points probe).outcome = .ok placed) :
    (other.probeBranch branch points probe).method.Fit := by
  rw [(probeBranch_spec hok).2, spliceBlocks_eq hlt]
  refine hf.replaced hlt ?_
  intro instruction hmem
  rcases List.mem_cons.mp hmem with rfl | hcode
  · exact fit_ledTo (hf.instructions branch) (Nat.le_add_right _ _) (Nat.le_refl _)
  · obtain ⟨block, hblock, hcode⟩ := List.mem_flatMap.mp hcode
    obtain ⟨hwell, -, hexit⟩ := wellFormed_code hcode
    refine hwell.fit ?_
    intro next hnext
    rw [hexit next hnext]
    have hinside := (hf.mem_iff _).mp (exit_mem_order hf.mem_order_of_target hblock)
    exact Nat.lt_of_lt_of_le hinside (Nat.le_add_right _ _)

/-- The placement on all branches ends with a layout of instructions that fit. -/
theorem Fit.addBranchProbes (hf : method.Fit) (hl : method.Laid) {placed : Nat}
    (hok : (method.addBranchProbes points probe).outcome = .ok placed) :
    (method.addBranchProbes points probe).method.Fit
      ∧ (method.addBranchProbes points probe).method.Laid :=
  addBranchProbes_keeps (J := fun other => other.Fit ∧ other.Laid)
    (fun hother hlt hone => hother.probeBranch hlt hone)
    (fun hother => ⟨hother.layOut, hother.laid_layOut⟩) hf.toOrdered hf ⟨hf, hl⟩ hok

end Branches

/-- Probes of statements leave a method that fits and is laid out. -/
theorem Fit.addStatementProbes (hf : method.Fit) (hl : method.Laid)
    {points : List StatementPoint} {placed : Nat}
    (hok : (addStatementProbes probe points method).outcome = .ok placed) :
    (addStatementProbes probe points method).method.Fit
      ∧ (addStatementProbes probe points method).method.Laid :=
  addStatementProbes_run (I := fun _ other => other.Fit ∧ other.Laid)
    (fun hother _ _ hinsert =>
      hother.1.insertAt hother.2 (fun _ hmem => Probe.counted_sequence hmem) hinsert)
    [] ⟨hf, hl⟩ hok

/-- Every change that succeeds ends with a layout of instructions that fit. -/
theorem Fit.changed (hf : method.Fit) (hl : method.Laid) {change : Change}
    (hcounted : change.Counted) (hchange : change.apply method = .ok other) :
    other.Fit ∧ other.Laid := by
  refine change.keeps (I := fun other => other.Fit ∧ other.Laid) hchange ⟨hf, hl⟩ ?_
    (fun hother => hother.1.addBranchProbes hother.2)
    (fun hother => hother.1.addStatementProbes hother.2) ⟨hf.layOut, hf.laid_layOut⟩
    fun extra hother => ⟨hother.1.increaseMaxStack extra, hother.2.increaseMaxStack extra⟩
  rintro insertion rfl happly
  obtain ⟨target, -, hinsert⟩ := Insertion.exists_insertAt happly
  exact hf.insertAt hl hcounted hinsert

/-- A change keeps what the method was read from. -/
theorem Kept.changed (hk : method.Kept raw) {change : Change} (hcounted : change.Counted)
    (hchange : change.apply method = .ok other) : other.Kept raw := by
  obtain ⟨hfit, hlaid⟩ := hk.fit.changed hk.laid hcounted hchange
  obtain ⟨additions, segment, hg⟩ := hk.consistent.exists_grown hchange
  have hboundary {region : Region} (hregion : region ∈ other.regions) {boundary : Handle × Bool}
      (hmem : boundary ∈ region.boundaries) : boundary.1 ∈ method.order := by
    rw [hg.regions] at hregion
    exact (hk.consistent.mem_iff _).mpr
      (hk.consistent.boundaries boundary (List.mem_flatMap.mpr ⟨region, hregion, hmem⟩))
  constructor
  · exact hfit
  · exact hlaid
  · exact hg.consistent hk.consistent
  · intro region hregion
    rw [hg.idxOf_le_iff (hboundary hregion region.tryStart_mem)
      (hboundary hregion region.tryEnd_mem)]
    exact hk.tries region (hg.regions ▸ hregion)
  · intro region hregion
    rw [hg.idxOf_le_iff (hboundary hregion region.handlerStart_mem)
      (hboundary hregion region.handlerEnd_mem)]
    exact hk.handlers region (hg.regions ▸ hregion)
  · rw [hg.readOutlines_eq, hk.read]

/-- Carries changes out one after the other. -/
def changeAll (method : Method) (changes : List Change) : Except Error Method :=
  changes.foldlM (fun method change => change.apply method) method

/-- So do changes one after the other. -/
theorem Kept.changeAll (hk : method.Kept raw) {changes : List Change}
    (hcounted : ∀ change ∈ changes, change.Counted)
    (hchanges : method.changeAll changes = .ok other) : other.Kept raw := by
  induction changes generalizing method with
  | nil =>
    obtain rfl := Except.ok.inj hchanges
    exact hk
  | cons change rest ih =>
    obtain ⟨middle, hchange, hrest⟩ := bind_eq_ok_iff.mp hchanges
    have hmiddle := hk.changed (hcounted change List.mem_cons_self) hchange
    exact ih hmiddle (fun later hlater => hcounted later (List.mem_cons_of_mem _ hlater)) hrest

/-- The method is a laid out list of its slots, and still holds the instructions of the body. -/
structure Represents (method : Method) (raw : RawBody) : Prop extends method.Ordered where
  targets : ∀ handle ∈ method.order, ∀ target ∈ (method.get handle).targets,
    target < method.slots.size
  boundaries : ∀ boundary ∈ method.boundaries, boundary.1 < method.slots.size
  tries : ∀ region ∈ method.regions,
    method.order.idxOf region.tryStart ≤ method.order.idxOf region.tryEnd
  handlers : ∀ region ∈ method.regions,
    method.order.idxOf region.handlerStart ≤ method.order.idxOf region.handlerEnd
  origins : method.order.filterMap (fun handle => (method.get handle).origin)
    = (List.range raw.instructions.length).map (startOf raw.instructions)
  increasing : (method.order.filterMap fun handle => (method.get handle).origin).Pairwise (· < ·)
  found : ∀ {k : Nat} {instruction : Instruction}, raw.instructions[k]? = some instruction →
    ∃ handle ∈ method.order, method.findByOrigin? (startOf raw.instructions k) = some handle
      ∧ (method.get handle).opcode = instruction.opcode.widened
      ∧ (instruction.isBranch = false → (method.get handle).operand = instruction.operand)
  offsets : ∀ {k : Nat} {handle : Handle}, method.order[k]? = some handle →
    method.offsetOf handle = startOf method.instructions k
  codeSize : startOf method.instructions method.length < 2 ^ 32 →
    method.codeSize = startOf method.instructions method.length
  displacements : method.codeSize < 2 ^ 31 → ∀ handle ∈ method.order,
    (method.get handle).isBranch = true →
      (method.get handle).displacements = (method.get handle).targets.map fun target =>
        method.offsetOf target - (method.get handle).finish
  located : ∀ offset : Int, method.findByOffset? offset
    = method.order.find? fun handle => method.offsetOf handle == offset

/-- The offsets that a method knows from the body are those of the instructions that were read. -/
theorem Kept.origins_eq (hk : method.Kept raw) (hs : Streamed raw.instructions) :
    method.order.filterMap (fun handle => (method.get handle).origin)
      = (List.range raw.instructions.length).map (startOf raw.instructions) := by
  have hread : method.order.filterMap (fun handle => (method.get handle).origin)
      = method.readOutlines.filterMap Outline.origin := by
    rw [readOutlines, List.filterMap_filter, Method.outlines, List.filterMap_map]
    apply List.filterMap_congr
    intro handle _
    show (method.get handle).origin
      = if (method.get handle).origin.isSome then (method.get handle).origin else none
    cases (method.get handle).origin <;> rfl
  have hstarts : raw.instructions.map Instruction.origin
      = ((List.range raw.instructions.length).map (startOf raw.instructions)).map some := by
    apply List.ext_getElem?
    intro k
    rw [List.getElem?_map, List.getElem?_map, List.getElem?_map]
    cases hat : raw.instructions[k]? with
    | none =>
      rw [List.getElem?_eq_none (by simpa using hat)]
      rfl
    | some instruction =>
      rw [List.getElem?_range (List.getElem?_eq_some_iff.mp hat).1, Option.map_some,
        origin_of_streamed hs hat]
      rfl
  calc method.order.filterMap (fun handle => (method.get handle).origin)
      = (raw.instructions.map Instruction.origin).filterMap id := by
        rw [hread, hk.read, List.filterMap_map, List.filterMap_map]
        rfl
    _ = (List.range raw.instructions.length).map (startOf raw.instructions) := by
        rw [hstarts, List.filterMap_map]
        exact List.filterMap_some

/-- Every instruction of the body is found at the offset that it was read from. -/
theorem Kept.exists_found (hk : method.Kept raw) (hs : Streamed raw.instructions) {k : Nat}
    {instruction : Instruction} (hat : raw.instructions[k]? = some instruction) :
    ∃ handle ∈ method.order, method.findByOrigin? (startOf raw.instructions k) = some handle
      ∧ (method.get handle).outline = instruction.readOutline := by
  have hmem : instruction.readOutline ∈ method.readOutlines := by
    rw [hk.read]
    exact List.mem_map_of_mem (List.mem_of_getElem? hat)
  obtain ⟨hmem, -⟩ := List.mem_filter.mp hmem
  obtain ⟨handle, hin, houtline⟩ := List.mem_map.mp hmem
  have horigin : (method.get handle).origin = some (startOf raw.instructions k) := by
    rw [← origin_of_streamed hs hat]
    exact congrArg Outline.origin houtline
  refine ⟨handle, hin, ?_, houtline⟩
  rw [findByOrigin?, if_neg (Int.not_lt.mpr (Int.natCast_nonneg _)), Int.toNat_natCast]
  have hsome : (method.order.find? fun handle =>
      (method.get handle).origin == some (startOf raw.instructions k)).isSome = true := by
    rw [List.find?_isSome]
    exact ⟨handle, hin, beq_iff_eq.mpr horigin⟩
  obtain ⟨found, hfound⟩ := Option.isSome_iff_exists.mp hsome
  have hother : (method.get found).origin = some (startOf raw.instructions k) := by
    simpa using List.find?_some hfound
  rw [hfound, hk.consistent.origins found (List.mem_of_find?_eq_some hfound) handle hin _ hother
    horigin]

/-- A method that keeps a body that it was read from represents it. -/
theorem Kept.represents (hk : method.Kept raw) (hs : Streamed raw.instructions) :
    method.Represents raw where
  toOrdered := hk.fit.toOrdered
  targets := fun handle _ => (hk.fit.instructions handle).inside
  boundaries := hk.consistent.boundaries
  tries := hk.tries
  handlers := hk.handlers
  origins := hk.origins_eq hs
  increasing := by
    rw [hk.origins_eq hs, List.pairwise_map]
    refine List.pairwise_lt_range.imp_of_mem ?_
    intro i j _ hj hlt
    exact startOf_lt_startOf hs.size_pos hlt (Nat.le_of_lt (List.mem_range.mp hj))
  found := by
    intro k instruction hat
    obtain ⟨handle, hin, hfound, houtline⟩ := hk.exists_found hs hat
    have hopcode : (method.get handle).opcode = instruction.opcode.widened :=
      congrArg Outline.opcode houtline
    refine ⟨handle, hin, hfound, hopcode, ?_⟩
    intro hplain
    have hplain' : (method.get handle).isBranch = false := by
      rw [isBranch, hopcode, Opcode.isBranch_widened]
      exact hplain
    have hoperand := congrArg Outline.operand houtline
    rw [operand_readOutline hplain] at hoperand
    rw [← hoperand]
    show _ = if (method.get handle).isBranch && _ then _ else _
    rw [hplain', Bool.false_and, if_neg Bool.false_ne_true]
  offsets := hk.laid.offset
  codeSize := by
    intro hsmall
    have hvalue := hk.laid.codeSize_min
    have hsize : UInt32.size = 2 ^ 32 := rfl
    omega
  displacements := fun hsmall _ hmem hbranch => hk.fit.displacements_eq hk.laid hsmall hmem hbranch
  located := hk.laid.findByOffset?_eq

end Method

/-- Whatever run of insertions, placements of probes, layouts and raises of the stack depth a
decoded method went through, it represents the body that it was decoded from. -/
theorem changeAll_represents {data : List UInt8} {original method : Method}
    {changes : List Change} (hdecode : Method.decode data = .ok original)
    (hcounted : ∀ change ∈ changes, change.Counted)
    (hchanges : original.changeAll changes = .ok method) :
    ∃ raw, RawBody.read data = .ok raw ∧ method.Represents raw := by
  obtain ⟨raw, regions, targets, hread, hd⟩ := Method.decode_spec hdecode
  exact ⟨raw, hread, (hd.kept.changeAll hcounted hchanges).represents hd.streamed⟩

/-- Probes around a `switch` that comes with a label. -/
def mixedChanges : List Change :=
  [.insert (.atOffset 0 [{ opcode := .switch, operand := 2, targets := [1, 0] },
      { opcode := .label }]),
    .instrument guardedPoints (.managed ⟨0x0A000001⟩) {}, .insert Method.handlerLoop, .raiseStack 3,
    .layOut]

/-- The probes of `mixedChanges` leave twenty instructions that represent `guardedLoop`. -/
theorem changeAll_represents_guardedLoop :
    ∃ original method raw, Method.decode guardedLoop = .ok original
      ∧ original.changeAll mixedChanges = .ok method ∧ method.length = 20
      ∧ RawBody.read guardedLoop = .ok raw ∧ method.Represents raw := by
  have hrun : ((Method.decode guardedLoop).bind fun original =>
      (original.changeAll mixedChanges).bind fun method => .ok method.length) = .ok 20 := by
    decide +kernel
  obtain ⟨original, hdecode, hrest⟩ := bind_eq_ok_iff.mp hrun
  obtain ⟨method, hchanges, hlength⟩ := bind_eq_ok_iff.mp hrest
  obtain ⟨raw, hread, hrepresents⟩ := changeAll_represents hdecode (by decide) hchanges
  exact ⟨original, method, raw, hdecode, hchanges, Except.ok.inj hlength, hread, hrepresents⟩

end CilCoverage
