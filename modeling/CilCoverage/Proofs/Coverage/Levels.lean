import CilCoverage.Proofs.Coverage.Reachability
import CilCoverage.Proofs.Coverage.Pieces

/-!
# Levels of injected code

How much a probe has on the stack is told by its code alone: each instruction in front of the call
leaves one value, and the call takes all of them. So the instructions of a probe have levels, which
are their places in the probe, and injected branches have level 0. No injected instruction leaves
more on the stack than the level of the instruction that control goes on to (`Method.Leveled`).
Nothing is asked of where a branch leads to, as no level is below 0.

An instrumented method has such levels up to the stack depth of its probe, and without a probe there
is nothing but level 0 (`Consistent.leveled_instrument`).
-/

set_option autoImplicit false

namespace CilCoverage

open Instruction

/-- The change in the number of values on the stack that an injected instruction makes. -/
def Opcode.injectedShift (opcode : Opcode) : Int :=
  if opcode = .ldcI4 ∨ opcode = .ldcI8 then 1
  else if opcode = .call then -1
  else if opcode = .calli then -2
  else 0

namespace Piece

variable {probe : Probe} {pieces : List Piece} {piece : Piece} {outline : Outline}
  {position index : Nat}

/-- The place of each instruction in its piece. -/
def levels (probe : Probe) (pieces : List Piece) : List Nat :=
  pieces.flatMap fun piece => List.range (piece.outlines probe).length

/-- An instruction that was not read and belongs to no probe leaves the stack as it is. -/
def Quiet : Piece → Prop
  | instruction outline => outline.origin = none → outline.opcode.injectedShift = 0
  | report _ => True

/-- Every instruction has a place in a piece, and the next one stands behind it there if there is
one. -/
theorem exists_place (hat : (pieces.flatMap (outlines probe))[position]? = some outline) :
    ∃ piece ∈ pieces, ∃ index, (piece.outlines probe)[index]? = some outline
      ∧ (levels probe pieces)[position]? = some index
      ∧ (index + 1 < (piece.outlines probe).length →
        (levels probe pieces)[position + 1]? = some (index + 1)) := by
  induction pieces generalizing position with
  | nil => cases hat
  | cons first rest ih =>
    have hlevels : levels probe (first :: rest)
        = List.range (first.outlines probe).length ++ levels probe rest := List.flatMap_cons
    rw [List.flatMap_cons] at hat
    rw [hlevels]
    rcases Nat.lt_or_ge position (first.outlines probe).length with hin | hout
    · rw [List.getElem?_append_left hin] at hat
      refine ⟨first, List.mem_cons_self, position, hat, ?_, ?_⟩
      · rw [List.getElem?_append_left (by rwa [List.length_range]), List.getElem?_range hin]
      · intro hnext
        rw [List.getElem?_append_left (by rwa [List.length_range]), List.getElem?_range hnext]
    · rw [List.getElem?_append_right hout] at hat
      obtain ⟨piece, hmem, index, hplace, hlevel, hnext⟩ := ih hat
      refine ⟨piece, List.mem_cons_of_mem _ hmem, index, hplace, ?_, ?_⟩
      · rw [List.getElem?_append_right (by rwa [List.length_range]), List.length_range, hlevel]
      · intro hinside
        rw [List.getElem?_append_right (by rw [List.length_range]; omega), List.length_range,
          Nat.sub_add_comm hout, hnext hinside]

/-- An instruction of a probe is a push with the next one behind it, or the call that takes what was
pushed. -/
theorem push_or_call {id : UInt32}
    (hplace : ((probe.sequence id).map Template.outline)[index]? = some outline) :
    (outline.opcode.flow = .sequential ∧ outline.opcode.injectedShift = 1
        ∧ index + 1 < ((probe.sequence id).map Template.outline).length)
      ∨ index + outline.opcode.injectedShift = 0 := by
  cases probe with
  | managed method =>
    rcases index with _ | _ | index
    · obtain rfl := Option.some.inj hplace
      exact Or.inl ⟨rfl, rfl, Nat.le_refl 2⟩
    · obtain rfl := Option.some.inj hplace
      exact Or.inr rfl
    · cases hplace
  | unmanaged function signature width =>
    rcases index with _ | _ | _ | index
    · obtain rfl := Option.some.inj hplace
      exact Or.inl ⟨rfl, rfl, Nat.le_succ 2⟩
    · obtain rfl := Option.some.inj hplace
      cases width <;> exact Or.inl ⟨rfl, rfl, Nat.le_refl 3⟩
    · obtain rfl := Option.some.inj hplace
      exact Or.inr rfl
    · cases hplace

/-- An injected instruction is a push of a probe with the next one behind it, or leaves nothing. -/
theorem Quiet.push_or_level (hq : piece.Quiet)
    (hplace : (piece.outlines probe)[index]? = some outline) (hinjected : outline.origin = none) :
    (outline.opcode.flow = .sequential ∧ outline.opcode.injectedShift = 1
        ∧ index + 1 < (piece.outlines probe).length)
      ∨ index + outline.opcode.injectedShift = 0 := by
  cases piece with
  | instruction own =>
    obtain ⟨hindex, hown⟩ := List.getElem?_eq_some_iff.mp hplace
    obtain rfl : index = 0 := Nat.lt_one_iff.mp hindex
    obtain rfl : own = outline := hown
    exact Or.inr (by rw [hq hinjected]; rfl)
  | report id => exact push_or_call hplace

/-- The pieces are no longer than a level and the one below it. -/
theorem le_of_mem_levels {cap level : Nat}
    (hlength : ∀ piece ∈ pieces, (piece.outlines probe).length ≤ cap + 1)
    (hmem : level ∈ levels probe pieces) : level ≤ cap := by
  obtain ⟨piece, hpiece, hrange⟩ := List.mem_flatMap.mp hmem
  exact Nat.le_of_lt_succ (Nat.lt_of_lt_of_le (List.mem_range.mp hrange) (hlength piece hpiece))

/-- A report has as many operations as it needs depth, and the call. -/
theorem length_outlines_report (probe : Probe) (id : UInt32) :
    ((report id).outlines probe).length = probe.stackDepth.toNat + 1 := by
  cases probe <;> rfl

end Piece

namespace Method

/-- Injected code can be given levels up to `cap`, so that no instruction of it leaves more on the
stack than the level of the next one. -/
def Leveled (method : Method) (cap : Nat) : Prop :=
  ∃ level : Handle → Nat, (∀ handle, level handle ≤ cap)
    ∧ ∀ handle next, (method.get handle).Injected → method.after? handle 0 = some next →
      level handle + (method.get handle).opcode.injectedShift ≤ level next

variable {method other : Method} {points : Points} {probe : Probe} {configuration : Configuration}
  {placement : Placement} {cap : Nat}

/-- Control goes from an injected instruction to the next one, or is led elsewhere. -/
theorem next?_of_after? {handle next : Handle}
    (hflow : (method.get handle).opcode.flow = .sequential)
    (hmove : method.after? handle 0 = some next) : method.next? handle = some next := by
  rw [after?, Instruction.flow, hflow] at hmove
  exact hmove

/-- Code that consists of quiet pieces and probes has levels. -/
theorem Ordered.leveled (ho : method.Ordered) {pieces : List Piece}
    (houtlines : method.outlines = pieces.flatMap (Piece.outlines probe))
    (hquiet : ∀ piece ∈ pieces, piece.Quiet)
    (hlength : ∀ piece ∈ pieces, (piece.outlines probe).length ≤ cap + 1) :
    method.Leveled cap := by
  refine ⟨fun handle => ((Piece.levels probe pieces)[method.order.idxOf handle]?).getD 0, ?_, ?_⟩
  · intro handle
    dsimp only
    cases hlevel : (Piece.levels probe pieces)[method.order.idxOf handle]? with
    | none => exact Nat.zero_le _
    | some level => exact Piece.le_of_mem_levels hlength (List.mem_of_getElem? hlevel)
  · intro handle next hinjected hmove
    have hat := getElem?_idxOf (ho.mem_of_after? hmove)
    have houtline : (pieces.flatMap (Piece.outlines probe))[method.order.idxOf handle]?
        = some (method.get handle).outline := by
      rw [← houtlines, outlines, List.getElem?_map, hat]
      rfl
    obtain ⟨piece, hpiece, index, hplace, hlevel, hnext⟩ := Piece.exists_place houtline
    have hshift : (method.get handle).opcode.injectedShift
        = (method.get handle).outline.opcode.injectedShift := rfl
    dsimp only
    rw [hlevel, Option.getD_some, hshift]
    rcases (hquiet piece hpiece).push_or_level hplace hinjected.origin
      with ⟨hflow, hpush, hinside⟩ | hzero
    · have hbehind := next?_of_after? hflow hmove
      rw [ho.next?_of_getElem? hat] at hbehind
      have hposition := ho.nodup.idxOf_getElem _ (List.getElem?_eq_some_iff.mp hbehind).1
      rw [(List.getElem?_eq_some_iff.mp hbehind).2] at hposition
      rw [hposition, hnext hinside, Option.getD_some, hpush]
      exact le_of_eq (Int.natCast_succ index).symm
    · exact le_of_eq_of_le hzero (Int.natCast_nonneg _)

/-- What was not read but stood in the body is the label at its end. -/
theorem AsRead.quiet_pieces (hm : method.AsRead) (points : Points) :
    ∀ piece ∈ method.pieces points, piece.Quiet := by
  intro piece hmem
  cases piece with
  | report id => trivial
  | instruction outline =>
    intro hinjected
    rcases eq_of_instruction_mem_pieces hmem with ⟨handle, -, rfl⟩ | rfl
    · show (method.get handle).opcode.injectedShift = 0
      rw [hm.unread handle hinjected]
      rfl
    · rfl

/-- The number of statement probes that are placed is that of the points. -/
theorem outcome_addStatementProbes {points : List StatementPoint} {placed : Nat}
    (hok : (addStatementProbes probe points method).outcome = .ok placed) :
    placed = points.length := by
  induction points generalizing method placed with
  | nil => exact (Except.ok.inj hok).symm
  | cons point rest ih =>
    obtain ⟨_, -, hrest, -⟩ := Edited.andThen_spec hok
    obtain ⟨more, hmore, hplaced, -⟩ := Edited.andThen_spec hrest
    rw [← Except.ok.inj hplaced, ih hmore, List.length_cons]

/-- Where no probe is counted, none is placed. -/
theorem AsRead.report_notMem_pieces (hm : method.AsRead)
    (hok : (method.instrument points probe configuration).outcome = .ok placement)
    (hnone : placement.total = 0) (id : UInt32) :
    Piece.report id ∉ method.pieces (points.enabled configuration) := by
  obtain ⟨routed, noted, rfl, hrouted, rfl, hnoted, -⟩ := instrument_spec hok
  obtain ⟨hstatements, hbranches⟩ := Nat.add_eq_zero_iff.mp hnone
  rw [outcome_addStatementProbes hnoted, List.length_eq_zero_iff] at hstatements
  rw [(hm.addBranchProbes_ok hrouted).1, List.length_eq_zero_iff] at hbranches
  rw [Piece.report_mem_iff, pieces, List.filterMap_flatMap, List.mem_flatMap]
  rintro ⟨handle, -, hid⟩
  rcases mem_filterMap_piecesAt.mp hid with hstatement | ⟨hconditional, path, hpath, hid⟩
  · rw [hstatements] at hstatement
    cases hstatement
  · obtain ⟨point, hpoint, horigin, hsame, -⟩ := mem_of_idOfPath? hid
    have hcovered : (handle, path) ∈ method.coveredPaths (points.enabled configuration).branches := by
      refine List.mem_flatMap.mpr ⟨handle, hconditional, List.mem_map_of_mem ?_⟩
      rw [pathsWithPoint, List.mem_filter, Instruction.pathCount,
        if_pos (mem_conditionalBranches.mp hconditional).2.2, List.mem_range, List.any_eq_true]
      refine ⟨Nat.lt_succ_of_le hpath, point, hpoint, ?_⟩
      rw [horigin, hsame]
      simp
    rw [hbranches] at hcovered
    cases hcovered

/-- An instrumented method has levels up to what its probes need. -/
theorem AsRead.leveled_instrument (hm : method.AsRead)
    (hok : (method.instrument points probe configuration).outcome = .ok placement) :
    (method.instrument points probe configuration).method.Leveled
      (if placement.total = 0 then 0 else probe.stackDepth.toNat) := by
  obtain ⟨segment, hg⟩ := hm.consistent.grown_instrument hok
  have houtlines := hg.outlines_eq
  rw [← flatMap_outlines_pieces] at houtlines
  refine hg.ordered.leveled houtlines (hm.quiet_pieces _) ?_
  intro piece hmem
  cases piece with
  | instruction outline => exact Nat.le_add_left _ _
  | report id =>
    rw [Piece.length_outlines_report, if_neg]
    exact fun hnone => hm.report_notMem_pieces hok hnone id hmem

end Method

end CilCoverage
