import CilCoverage.Proofs.Coverage.BranchExactness
import CilCoverage.Proofs.Coverage.Occurrence

/-!
# The pieces of instrumented code

An instrumented method falls into pieces: the instructions that were there, the branches that end
the blocks, and probes (`Method.pieces`). Which probes these are is told by `Method.Places`. Every
probe ends with the same call and has no other, so if the body had no such call then a report stands
where a probe was placed and nowhere else (`Piece.standsAt_iff`).
-/

set_option autoImplicit false

namespace CilCoverage

open Instruction

namespace Probe

variable {probe : Probe} {id other : UInt32} {template : Template}

/-- The call that ends every report. -/
def call : Probe → Template
  | managed method => { opcode := .call, operand := method.value.toNat }
  | unmanaged _ signature _ => { opcode := .calli, operand := signature.value.toNat }

/-- The operations of a report in front of the call. -/
def pushed (probe : Probe) (id : UInt32) : List (Opcode × Int) :=
  (probe.sequence id).dropLast.map fun template => (template.opcode, template.operand)

/-- The operation of the call. -/
def stop (probe : Probe) : Opcode × Int := (probe.call.opcode, probe.call.operand)

/-- The call takes up room for its token. -/
theorem stop_long (probe : Probe) : ¬ probe.stop.1.length + probe.stop.1.operandKind.size ≤ 1 := by
  have hopcode : probe.stop.1 = .call ∨ probe.stop.1 = .calli := by
    cases probe with
    | managed method => exact Or.inl rfl
    | unmanaged function signature width => exact Or.inr rfl
  rcases hopcode with hcall | hcalli
  · rw [hcall]
    decide
  · rw [hcalli]
    decide

/-- The templates of a probe do not branch. -/
theorem plain_sequence (hmem : template ∈ probe.sequence id) : template.Plain :=
  ⟨isBranch_sequence hmem, targets_sequence hmem⟩

/-- A probe pushes its values and then calls. -/
theorem operations_sequence (probe : Probe) (id : UInt32) :
    (probe.sequence id).map (fun template => template.outline.operation)
      = probe.pushed id ++ [probe.stop] := by
  have hplain : (probe.sequence id).map (fun template => template.outline.operation)
      = (probe.sequence id).map fun template => (template.opcode, template.operand) :=
    List.map_congr_left fun _ hmem => (plain_sequence hmem).operation_outline
  rw [hplain]
  cases probe <;> rfl

/-- The pushes are no calls. -/
theorem stop_notMem_pushed (probe : Probe) (id : UInt32) : probe.stop ∉ probe.pushed id := by
  cases probe with
  | managed method => simp [pushed, stop, call, sequence, pushWord]
  | unmanaged function signature width =>
    cases width <;> simp [pushed, stop, call, sequence, pushWord, pushAddress]

/-- All probes of a style push the same number of values. -/
theorem length_pushed (probe : Probe) (id other : UInt32) :
    (probe.pushed id).length = (probe.pushed other).length := by
  cases probe <;> simp [pushed, sequence]

/-- A probe first pushes its id. -/
theorem head?_pushed (probe : Probe) (id : UInt32) :
    (probe.pushed id).head? = some (.ldcI4, Int.bmod id.toNat UInt32.size) := by
  cases probe <;> simp [pushed, sequence, pushWord]

/-- A report tells its id. -/
theorem pushed_inj (hsame : probe.pushed id = probe.pushed other) : id = other := by
  have hfirst : Int.bmod id.toNat UInt32.size = Int.bmod other.toNat UInt32.size := by
    have hhead := congrArg List.head? hsame
    rw [head?_pushed, head?_pushed] at hhead
    exact (Prod.mk.inj (Option.some.inj hhead)).2
  rw [← Method.ofInt_bmod_toNat id, hfirst, Method.ofInt_bmod_toNat]

end Probe

/-- A stretch of instrumented code: an instruction, or the probe that reports an id. -/
inductive Piece
  | instruction (outline : Outline)
  | report (id : UInt32)
deriving DecidableEq

namespace Piece

/-- The instructions of a piece. -/
def outlines (probe : Probe) : Piece → List Outline
  | instruction outline => [outline]
  | report id => (probe.sequence id).map Template.outline

/-- The id that is reported. -/
def id? : Piece → Option UInt32
  | instruction _ => none
  | report id => some id

/-- The operations of a piece. -/
def spell (probe : Probe) (piece : Piece) : List (Opcode × Int) :=
  (piece.outlines probe).map Outline.operation

variable {probe : Probe} {id : UInt32} {pieces front back : List Piece} {piece : Piece}

/-- The report of an id spells what pushes it and the call. -/
theorem spell_report : (report id).spell probe = probe.pushed id ++ [probe.stop] := by
  rw [← Probe.operations_sequence, spell, outlines, List.map_map]
  rfl

/-- The other instructions are no calls of the collector. -/
def Silent (probe : Probe) : Piece → Prop
  | instruction outline => outline.operation ≠ probe.stop
  | report _ => True

/-- A piece of a silent method spells a report, or nothing of one. -/
theorem Silent.spells (hs : piece.Silent probe) (id : UInt32) :
    Spells probe.stop (probe.pushed id) (piece.spell probe) := by
  cases piece with
  | instruction outline => exact Or.inl (List.mem_singleton.not.mpr (Ne.symm hs))
  | report other =>
    exact Or.inr ⟨probe.pushed other, spell_report, probe.length_pushed other id,
      probe.stop_notMem_pushed other⟩

/-- Only the probe that reports an id spells it. -/
theorem Silent.spell_eq_iff (hs : piece.Silent probe) :
    piece.spell probe = probe.pushed id ++ [probe.stop] ↔ piece = report id := by
  constructor
  · intro hspell
    cases piece with
    | instruction outline =>
      have hmem : probe.stop ∈ [outline.operation] := by
        rw [show [outline.operation] = _ from hspell]
        exact List.mem_append_right _ (List.mem_singleton_self _)
      exact absurd (List.mem_singleton.mp hmem).symm hs
    | report other =>
      rw [spell_report] at hspell
      rw [Probe.pushed_inj (List.append_cancel_right hspell)]
  · rintro rfl
    exact spell_report

/-- A report stands where a probe was placed. -/
theorem standsAt_iff (hsilent : ∀ piece ∈ pieces, piece.Silent probe) {position : Nat} :
    StandsAt (probe.pushed id ++ [probe.stop]) position (pieces.flatMap (spell probe))
      ↔ ∃ front back, pieces = front ++ report id :: back
          ∧ (front.flatMap (spell probe)).length = position := by
  rw [standsAt_flatMap_iff fun piece hmem => (hsilent piece hmem).spells id]
  constructor
  · rintro ⟨front, piece, back, rfl, hspell, hlength⟩
    obtain rfl := (Silent.spell_eq_iff (hsilent piece (by simp))).mp hspell
    exact ⟨front, back, rfl, hlength⟩
  · rintro ⟨front, back, rfl, hlength⟩
    exact ⟨front, report id, back, rfl, spell_report, hlength⟩

/-- An id that is reported once has one place. -/
theorem front_eq (hnodup : (pieces.filterMap id?).Nodup)
    (hsplit : pieces = front ++ report id :: back) :
    front = pieces.take (pieces.idxOf (report id)) := by
  have hout : report id ∉ front := by
    intro hmem
    rw [hsplit, List.filterMap_append] at hnodup
    refine List.disjoint_of_nodup_append hnodup (a := id) ?_ ?_
    · exact List.mem_filterMap.mpr ⟨report id, hmem, rfl⟩
    · exact List.mem_filterMap.mpr ⟨report id, List.mem_cons_self, rfl⟩
  rw [hsplit, List.idxOf_append_of_notMem hout, List.idxOf_cons_self, Nat.add_zero, List.take_left]

/-- A report is among the pieces if its id is among those reported. -/
theorem report_mem_iff : report id ∈ pieces ↔ id ∈ pieces.filterMap id? := by
  rw [List.mem_filterMap]
  constructor
  · exact fun hmem => ⟨report id, hmem, rfl⟩
  · rintro ⟨piece, hmem, hid⟩
    cases piece with
    | instruction outline => cases hid
    | report other =>
      obtain rfl := Option.some.inj hid
      exact hmem

/-- Reports report their ids. -/
theorem filterMap_id?_reports (ids : List UInt32) : (ids.map report).filterMap id? = ids := by
  rw [List.filterMap_map]
  exact List.filterMap_some

end Piece

/-- The ids of all points. -/
def Points.ids (points : Points) : List UInt32 :=
  points.statements.map StatementPoint.id ++ points.branches.map BranchPoint.id

/-- The offset and the id of every point. -/
def Points.marks (points : Points) : List (UInt32 × UInt32) :=
  points.statements.map (fun point => (point.offset, point.id))
    ++ points.branches.map fun point => (point.offset, point.id)

/-- The ids of the points are those of their marks. -/
theorem Points.ids_eq (points : Points) : points.ids = points.marks.map Prod.snd := by
  rw [ids, marks, List.map_append, List.map_map, List.map_map]
  rfl

/-- What a configuration leaves out does not make ids meet. -/
theorem Points.nodup_enabled {points : Points} (hids : points.ids.Nodup)
    (configuration : Configuration) : (points.enabled configuration).ids.Nodup := by
  refine hids.sublist (List.Sublist.append ?_ ?_)
  · unfold Points.enabled
    dsimp only
    split
    · exact List.Sublist.refl _
    · exact List.nil_sublist _
  · unfold Points.enabled
    dsimp only
    split
    · exact List.Sublist.refl _
    · exact List.nil_sublist _

/-- The pieces of the code of a block. -/
def blockPieces (id? : Option UInt32) : List Piece :=
  id?.toList.map Piece.report ++ [.instruction .jump]

/-- The blocks of a branch report the first point of each path. -/
theorem filterMap_blockPieces (registered : List BranchPoint) (pathCount : Nat) :
    ((blockIds registered pathCount).flatMap blockPieces).filterMap Piece.id?
      = (List.range pathCount).filterMap (idOfPath? registered) := by
  unfold blockIds
  generalize List.range pathCount = paths
  induction paths with
  | nil => rfl
  | cons path rest ih =>
    rw [List.filterMap_cons, List.filterMap_cons]
    cases hid : idOfPath? registered path with
    | some id =>
      dsimp only
      rw [List.flatMap_cons, List.filterMap_append, ih]
      rfl
    | none =>
      dsimp only
      split
      · rename_i hskipped
        exact ih
      · rename_i id? hguarded
        split at hguarded
        · obtain rfl := Option.some.inj hguarded
          rw [List.flatMap_cons, List.filterMap_append, ih]
          rfl
        · cases hguarded

namespace Method

variable {method other decoded : Method} {points : Points} {probe : Probe} {handle : Handle}
  {id : UInt32}

/-- The ids of the statement points at an instruction. -/
def idsAt (method : Method) (points : List StatementPoint) (handle : Handle) : List UInt32 :=
  (points.filter fun point => (method.get handle).origin == some point.offset.toNat).map
    StatementPoint.id

/-- An instruction with the probes that are placed at it. -/
def piecesAt (method : Method) (points : Points) (handle : Handle) : List Piece :=
  (if method.keepsEntry handle then []
    else (method.idsAt points.statements handle).map Piece.report)
  ++ .instruction (method.get handle).outline
  :: ((if method.keepsEntry handle then
        (method.idsAt points.statements handle).reverse.map Piece.report
      else [])
    ++ if handle ∈ method.conditionalBranches then
        (blockIds (method.registeredAt points.branches handle)
          ((method.get handle).targets.length + 1)).flatMap blockPieces
      else [])

/-- The method with the probes of the points. -/
def pieces (method : Method) (points : Points) : List Piece :=
  method.order.flatMap (method.piecesAt points)

/-- The outlines of reports are those of their templates. -/
theorem flatMap_outlines_reports (ids : List UInt32) :
    (ids.map Piece.report).flatMap (Piece.outlines probe)
      = (ids.map fun id => (probe.sequence id).map Template.outline).flatten := by
  rw [List.flatMap_map, List.flatMap_def]
  rfl

/-- The outlines of the pieces of blocks are those of the blocks. -/
theorem flatMap_outlines_blockPieces (probe : Probe) (ids : List (Option UInt32)) :
    (ids.flatMap blockPieces).flatMap (Piece.outlines probe) = ids.flatMap (blockOutlines probe) := by
  rw [List.flatMap_assoc]
  apply List.flatMap_congr
  intro id? _
  cases id? with
  | none => rfl
  | some id =>
    rw [blockPieces, blockOutlines, List.flatMap_append, Option.toList_some, List.map_singleton,
      List.flatMap_singleton, List.flatMap_singleton, List.flatMap_singleton]
    rfl

/-- The pieces are what placement makes of the method. -/
theorem flatMap_outlines_pieces (method : Method) (points : Points) (probe : Probe) :
    (method.pieces points).flatMap (Piece.outlines probe)
      = method.order.flatMap
          ((method.probeAdditions points probe method.conditionalBranches).around method) := by
  rw [pieces, List.flatMap_assoc]
  apply List.flatMap_congr
  intro handle _
  have hstatements : method.statementOutlines points.statements probe handle
      = (method.idsAt points.statements handle).map fun id =>
          (probe.sequence id).map Template.outline := by
    rw [statementOutlines, idsAt, List.map_map]
    rfl
  rw [piecesAt, Additions.around, List.flatMap_append, List.flatMap_cons, List.flatMap_append]
  simp only [probeAdditions, hstatements, branchOutlines, ← List.map_reverse]
  congr 1
  · split
    · rfl
    · exact flatMap_outlines_reports _
  · show [(method.get handle).outline] ++ _ = [(method.get handle).outline] ++ _
    congr 2
    · split
      · exact flatMap_outlines_reports _
      · rfl
    · split
      · exact flatMap_outlines_blockPieces probe _
      · rfl

/-- The ids that are reported at an instruction. -/
theorem filterMap_id?_piecesAt (method : Method) (points : Points) (handle : Handle) :
    (method.piecesAt points handle).filterMap Piece.id?
      = (if method.keepsEntry handle then (method.idsAt points.statements handle).reverse
          else method.idsAt points.statements handle)
        ++ if handle ∈ method.conditionalBranches then
            (List.range ((method.get handle).targets.length + 1)).filterMap
              (idOfPath? (method.registeredAt points.branches handle))
          else [] := by
  have hblocks : (if handle ∈ method.conditionalBranches then
        (blockIds (method.registeredAt points.branches handle)
          ((method.get handle).targets.length + 1)).flatMap blockPieces
      else []).filterMap Piece.id?
      = if handle ∈ method.conditionalBranches then
          (List.range ((method.get handle).targets.length + 1)).filterMap
            (idOfPath? (method.registeredAt points.branches handle))
        else [] := by
    split
    · exact filterMap_blockPieces _ _
    · rfl
  rw [piecesAt, List.filterMap_append, List.filterMap_cons, Piece.id?, List.filterMap_append, hblocks]
  dsimp only
  split
  · rw [Piece.filterMap_id?_reports]
    rfl
  · rw [Piece.filterMap_id?_reports]
    rfl

/-- The ids at an instruction are those of the points at its offset. -/
theorem mem_idsAt {points : List StatementPoint} :
    id ∈ method.idsAt points handle ↔ ∃ point ∈ points,
      (method.get handle).origin = some point.offset.toNat ∧ point.id = id := by
  simp only [idsAt, List.mem_map, List.mem_filter, beq_iff_eq, and_assoc]

/-- The id of a path is that of a point on it. -/
theorem mem_of_idOfPath? {points : List BranchPoint} {path : Nat}
    (hid : idOfPath? (method.registeredAt points handle) path = some id) :
    ∃ point ∈ points, (method.get handle).origin = some point.offset.toNat
      ∧ point.path.toNat = path ∧ point.id = id := by
  obtain ⟨point, hfind, rfl⟩ := Option.map_eq_some_iff.mp hid
  obtain ⟨hmem, horigin⟩ := mem_registeredAt.mp (List.mem_of_find?_eq_some hfind)
  exact ⟨point, hmem, horigin, by simpa using List.find?_some hfind, rfl⟩

/-- The ids reported at an instruction are those of its statement points and those of the paths of a
branch. -/
theorem mem_filterMap_piecesAt :
    id ∈ (method.piecesAt points handle).filterMap Piece.id?
      ↔ id ∈ method.idsAt points.statements handle
        ∨ handle ∈ method.conditionalBranches ∧ ∃ path ≤ (method.get handle).targets.length,
            idOfPath? (method.registeredAt points.branches handle) path = some id := by
  rw [filterMap_id?_piecesAt, List.mem_append]
  refine or_congr ?_ ?_
  · split
    · exact List.mem_reverse
    · rfl
  · split
    · rename_i hbranch
      simp only [List.mem_filterMap, List.mem_range, Nat.lt_succ_iff, hbranch, true_and]
    · rename_i hplain
      simp [hplain]

/-- What is reported at an instruction are points at its offset. -/
theorem exists_mark (hmem : id ∈ (method.piecesAt points handle).filterMap Piece.id?) :
    ∃ mark ∈ points.marks, (method.get handle).origin = some mark.1.toNat ∧ mark.2 = id := by
  rcases mem_filterMap_piecesAt.mp hmem with hstatement | ⟨-, path, -, hid⟩
  · obtain ⟨point, hpoint, horigin, rfl⟩ := mem_idsAt.mp hstatement
    exact ⟨_, List.mem_append_left _ (List.mem_map_of_mem hpoint), horigin, rfl⟩
  · obtain ⟨point, hpoint, horigin, -, rfl⟩ := mem_of_idOfPath? hid
    exact ⟨_, List.mem_append_right _ (List.mem_map_of_mem hpoint), horigin, rfl⟩

/-- Points with different ids are not reported twice at one instruction. -/
theorem nodup_piecesAt (hids : points.ids.Nodup) (handle : Handle) :
    ((method.piecesAt points handle).filterMap Piece.id?).Nodup := by
  obtain ⟨hstatements, hbranches, hdisjoint⟩ := List.nodup_append'.mp hids
  rw [filterMap_id?_piecesAt, List.nodup_append']
  have hat : (method.idsAt points.statements handle).Nodup :=
    hstatements.sublist (List.filter_sublist.map _)
  refine ⟨?_, ?_, ?_⟩
  · split
    · exact List.nodup_reverse.mpr hat
    · exact hat
  · split
    · refine List.nodup_range.filterMap ?_
      intro one another id hone hanother
      obtain ⟨point, hpoint, -, rfl, hid⟩ := mem_of_idOfPath? hone
      obtain ⟨point', hpoint', -, rfl, hid'⟩ := mem_of_idOfPath? hanother
      rw [List.inj_on_of_nodup_map hbranches hpoint hpoint' (hid.trans hid'.symm)]
    · exact List.nodup_nil
  · intro id hone hanother
    have hstatement : id ∈ method.idsAt points.statements handle := by
      split at hone
      · exact List.mem_reverse.mp hone
      · exact hone
    obtain ⟨point, hpoint, -, rfl⟩ := mem_idsAt.mp hstatement
    split at hanother
    · obtain ⟨path, -, hid⟩ := List.mem_filterMap.mp hanother
      obtain ⟨point', hpoint', -, -, hid⟩ := mem_of_idOfPath? hid
      exact hdisjoint (List.mem_map_of_mem hpoint) (hid ▸ List.mem_map_of_mem hpoint')
    · cases hanother

/-- Points with different ids are not reported twice. -/
theorem Consistent.nodup_pieces (hc : method.Consistent) (hids : points.ids.Nodup) :
    ((method.pieces points).filterMap Piece.id?).Nodup := by
  rw [pieces, List.filterMap_flatMap, List.nodup_flatMap]
  refine ⟨fun handle _ => nodup_piecesAt hids handle, ?_⟩
  refine hc.nodup.imp_of_mem ?_
  intro one another hone hanother hne id hid hid'
  obtain ⟨mark, hmark, horigin, rfl⟩ := exists_mark hid
  obtain ⟨mark', hmark', horigin', hsame⟩ := exists_mark hid'
  rw [Points.ids_eq] at hids
  obtain rfl := List.inj_on_of_nodup_map hids hmark' hmark hsame
  exact hne (hc.origins one hone another hanother _ horigin horigin')

/-- Every statement point that gets a probe is at an instruction that was read. -/
theorem Consistent.exists_origin (hc : method.Consistent) {points : List StatementPoint}
    {placed : Nat} (hok : (addStatementProbes probe points method).outcome = .ok placed) :
    ∀ point ∈ points, ∃ outline ∈ method.readOutlines,
      outline.origin = some point.offset.toNat := by
  refine (addStatementProbes_run (I := fun done other => other.Consistent
      ∧ other.readOutlines = method.readOutlines
      ∧ ∀ point ∈ done, ∃ outline ∈ method.readOutlines,
        outline.origin = some point.offset.toNat) ?_ [] ⟨hc, rfl, nofun⟩ hok).2.2
  rintro done other point target inserted ⟨hother, hread, hdone⟩ htarget horigin hinsert
  obtain ⟨segment, hg⟩ := hother.toOrdered.grown.insertAt hother htarget (other.own_none target)
    hinsert
  refine ⟨hg.consistent hother, hg.readOutlines_eq.trans hread, ?_⟩
  intro later hlater
  rcases List.mem_append.mp hlater with hlater | hlater
  · exact hdone later hlater
  · obtain rfl := List.mem_singleton.mp hlater
    refine ⟨(other.get target).outline, ?_, horigin⟩
    rw [← hread, readOutlines, List.mem_filter]
    refine ⟨List.mem_map_of_mem htarget, ?_⟩
    rw [show (other.get target).outline.origin = _ from horigin]
    rfl

/-- If the placement succeeds, then every statement point has an instruction. -/
theorem Consistent.exists_handle (hc : method.Consistent) {configuration : Configuration}
    {placement : Placement}
    (hok : (method.instrument points probe configuration).outcome = .ok placement) :
    ∀ point ∈ (points.enabled configuration).statements, ∃ handle ∈ method.order,
      (method.get handle).origin = some point.offset.toNat := by
  obtain ⟨routed, noted, rfl, hrouted, rfl, hnoted, -⟩ := instrument_spec hok
  obtain ⟨segment, hg⟩ := hc.grown_addBranchProbes hrouted
  intro point hpoint
  obtain ⟨outline, hmem, horigin⟩ := (hg.consistent hc).exists_origin hnoted point hpoint
  rw [hg.readOutlines_eq] at hmem
  obtain ⟨handle, hhandle, rfl⟩ := List.mem_map.mp (List.mem_filter.mp hmem).1
  exact ⟨handle, hhandle, horigin⟩

/-- The id is that of a point whose probe is placed: as far as the configuration asks for them,
these are all statement points and the first branch point on each path of a conditional branch. -/
def Places (method : Method) (points : Points) (configuration : Configuration) (id : UInt32) :
    Prop :=
  (configuration.statementProbes = true ∧ ∃ point ∈ points.statements, point.id = id)
    ∨ configuration.branchProbes = true ∧ ∃ branch ∈ method.conditionalBranches,
        ∃ path ≤ (method.get branch).targets.length,
          idOfPath? (method.registeredAt points.branches branch) path = some id

/-- An id is reported in the instrumented method if the configuration places it. -/
theorem Consistent.report_mem_pieces_iff (hc : method.Consistent) {configuration : Configuration}
    {placement : Placement}
    (hok : (method.instrument points probe configuration).outcome = .ok placement) :
    Piece.report id ∈ method.pieces (points.enabled configuration)
      ↔ method.Places points configuration id := by
  have hknown := hc.exists_handle hok
  have hbranch (branch : Handle) (path : Nat) :
      idOfPath? (method.registeredAt (points.enabled configuration).branches branch) path = some id
        ↔ configuration.branchProbes = true
          ∧ idOfPath? (method.registeredAt points.branches branch) path = some id := by
    cases hprobes : configuration.branchProbes with
    | true => simp [Points.enabled, hprobes]
    | false => simp [Points.enabled, hprobes, registeredAt_nil, idOfPath?]
  have hstatement (point : StatementPoint) : point ∈ (points.enabled configuration).statements
      ↔ configuration.statementProbes = true ∧ point ∈ points.statements := by
    cases hprobes : configuration.statementProbes <;> simp [Points.enabled, hprobes]
  rw [Piece.report_mem_iff, pieces, List.filterMap_flatMap, List.mem_flatMap]
  simp only [mem_filterMap_piecesAt, mem_idsAt, hbranch]
  constructor
  · rintro ⟨handle, -, ⟨point, hpoint, -, hid⟩ | ⟨hconditional, path, hpath, hprobes, hid⟩⟩
    · obtain ⟨hprobes, hpoint⟩ := (hstatement point).mp hpoint
      exact Or.inl ⟨hprobes, point, hpoint, hid⟩
    · exact Or.inr ⟨hprobes, handle, hconditional, path, hpath, hid⟩
  · rintro (⟨hprobes, point, hpoint, hid⟩ | ⟨hprobes, branch, hconditional, path, hpath, hid⟩)
    · have henabled := (hstatement point).mpr ⟨hprobes, hpoint⟩
      obtain ⟨handle, hhandle, horigin⟩ := hknown point henabled
      exact ⟨handle, hhandle, Or.inl ⟨point, henabled, horigin, hid⟩⟩
    · exact ⟨branch, (mem_conditionalBranches.mp hconditional).1,
        Or.inr ⟨hconditional, path, hpath, hprobes, hid⟩⟩

/-- The instructions among the pieces are those of the method and the branches that end the
blocks. -/
theorem eq_of_instruction_mem_pieces {outline : Outline}
    (hmem : Piece.instruction outline ∈ method.pieces points) :
    (∃ handle ∈ method.order, outline = (method.get handle).outline) ∨ outline = .jump := by
  obtain ⟨handle, hhandle, hmem⟩ := List.mem_flatMap.mp hmem
  simp only [piecesAt, List.mem_append, List.mem_cons] at hmem
  rcases hmem with hbefore | hhere | hbehind | hblocks
  · split at hbefore <;> simp at hbefore
  · exact Or.inl ⟨handle, hhandle, Piece.instruction.inj hhere⟩
  · split at hbehind <;> simp at hbehind
  · split at hblocks
    · obtain ⟨id?, -, hmem⟩ := List.mem_flatMap.mp hblocks
      rcases List.mem_append.mp hmem with hmem | hmem
      · simp at hmem
      · exact Or.inr (Piece.instruction.inj (List.mem_singleton.mp hmem))
    · cases hblocks

/-- If the body does not call the collector then only probes do. -/
theorem silent_pieces
    (hforeign : ∀ instruction ∈ method.instructions, instruction.opcode = probe.call.opcode →
      instruction.operand ≠ probe.call.operand) :
    ∀ piece ∈ method.pieces points, piece.Silent probe := by
  have hplain : probe.call.opcode.isBranch = false := by
    cases probe <;> rfl
  have hjump : Outline.jump.operation ≠ probe.stop := by
    intro hsame
    have hopcode : Opcode.br = probe.call.opcode := (Prod.mk.inj hsame).1
    rw [← hopcode] at hplain
    cases hplain
  intro piece hmem
  cases piece with
  | report id => trivial
  | instruction outline =>
    rcases eq_of_instruction_mem_pieces hmem with ⟨handle, hhandle, rfl⟩ | rfl
    · intro hsame
      obtain ⟨hopcode, hoperand⟩ := Prod.mk.inj hsame
      refine hforeign (method.get handle) (List.mem_map_of_mem hhandle) hopcode ?_
      rw [← hoperand]
      show _ = if (method.get handle).isBranch && _ then _ else _
      rw [isBranch, show (method.get handle).opcode = probe.call.opcode from hopcode, hplain,
        Bool.false_and, if_neg Bool.false_ne_true]
    · exact hjump

/-- The operations of an instrumented method are those of its pieces. -/
theorem Consistent.operations_instrument (hc : method.Consistent) {configuration : Configuration}
    {placement : Placement}
    (hok : (method.instrument points probe configuration).outcome = .ok placement) :
    (method.instrument points probe configuration).method.operations
      = (method.pieces (points.enabled configuration)).flatMap (Piece.spell probe) := by
  obtain ⟨segment, hg⟩ := hc.grown_instrument hok
  rw [operations, hg.outlines_eq, ← flatMap_outlines_pieces, List.map_flatMap]
  rfl

end Method

end CilCoverage
