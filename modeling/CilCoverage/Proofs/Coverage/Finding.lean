import CilCoverage.Proofs.Coverage.Pieces

/-!
# Finding placed probes

A probe of an instrumented method is found again after the method was encoded and decoded. If the
body did not call the collector then nothing else is found (`instrument_findInstrumentation`). In
particular a method with statement probes counts as instrumented.
-/

set_option autoImplicit false

namespace CilCoverage

open Instruction

namespace Method

variable {method decoded : Method} {points : Points} {probe : Probe} {id : UInt32}
  {raw : RawBody} {regions : List Region} {targets : List (List Handle)}
  {configuration : Configuration} {placement : Placement} {buffer bytes : List UInt8}

/-- After a method was instrumented, encoded and decoded again, a report occurs where its operations
stand in the pieces. -/
theorem DecodedFrom.occursAt_iff_standsAt (hd : method.DecodedFrom raw regions targets)
    (hok : (method.instrument points probe configuration).outcome = .ok placement)
    (hwrite : (method.instrument points probe configuration).method.write buffer = .ok bytes)
    (hdecoded : decode bytes = .ok decoded) (position : Nat) :
    decoded.occursAt position (probe.sequence id) = true
      ↔ StandsAt (probe.pushed id ++ [probe.stop]) position
          ((method.pieces (points.enabled configuration)).flatMap (Piece.spell probe)) := by
  have hsettled := hd.settled_instrument hok
  obtain ⟨common, cut, rest, hmethod, hagain, hends⟩ :=
    hsettled.toValid.exists_operations hsettled.laid hwrite hdecoded
  obtain ⟨raw', regions', targets', -, hd'⟩ := decode_spec hdecoded
  have hstop : probe.stop ∉ cut ++ rest := by
    intro hmem
    exact absurd (hends _ hmem) probe.stop_long
  rw [List.mem_append, not_or] at hstop
  rw [hd'.recodable.toValid.occursAt_iff (fun _ => Probe.plain_sequence) Probe.sequence_ne_nil,
    Probe.operations_sequence, hagain, standsAt_append_iff hstop.2, ← standsAt_append_iff hstop.1,
    ← hmethod, hd.asRead.consistent.operations_instrument hok]

/-- If the body did not call the collector then a report occurs where a probe was placed. -/
theorem DecodedFrom.occursAt_iff (hd : method.DecodedFrom raw regions targets)
    (hforeign : ∀ instruction ∈ method.instructions, instruction.opcode = probe.call.opcode →
      instruction.operand ≠ probe.call.operand)
    (hok : (method.instrument points probe configuration).outcome = .ok placement)
    (hwrite : (method.instrument points probe configuration).method.write buffer = .ok bytes)
    (hdecoded : decode bytes = .ok decoded) (position : Nat) :
    decoded.occursAt position (probe.sequence id) = true
      ↔ ∃ front back, method.pieces (points.enabled configuration) = front ++ .report id :: back
          ∧ (front.flatMap (Piece.spell probe)).length = position := by
  rw [hd.occursAt_iff_standsAt hok hwrite hdecoded, Piece.standsAt_iff (silent_pieces hforeign)]

/-- If moreover no two points have one id then a report that was placed occurs only there. -/
theorem DecodedFrom.occursAt_iff_eq (hd : method.DecodedFrom raw regions targets)
    (hforeign : ∀ instruction ∈ method.instructions, instruction.opcode = probe.call.opcode →
      instruction.operand ≠ probe.call.operand)
    (hids : points.ids.Nodup)
    (hok : (method.instrument points probe configuration).outcome = .ok placement)
    (hwrite : (method.instrument points probe configuration).method.write buffer = .ok bytes)
    (hdecoded : decode bytes = .ok decoded) {front back : List Piece}
    (hsplit : method.pieces (points.enabled configuration) = front ++ .report id :: back)
    (position : Nat) :
    decoded.occursAt position (probe.sequence id) = true
      ↔ position = (front.flatMap (Piece.spell probe)).length := by
  have hnodup := hd.asRead.consistent.nodup_pieces (Points.nodup_enabled hids configuration)
  rw [hd.occursAt_iff hforeign hok hwrite hdecoded]
  constructor
  · rintro ⟨front', back', hsplit', rfl⟩
    rw [Piece.front_eq hnodup hsplit', ← Piece.front_eq hnodup hsplit]
  · rintro rfl
    exact ⟨front, back, hsplit, rfl⟩

/-- A probe that was placed is found, whatever the body called before. -/
theorem DecodedFrom.isSome_findInstrumentation? (hd : method.DecodedFrom raw regions targets)
    (hok : (method.instrument points probe configuration).outcome = .ok placement)
    (hwrite : (method.instrument points probe configuration).method.write buffer = .ok bytes)
    (hdecoded : decode bytes = .ok decoded) (hplaces : method.Places points configuration id) :
    (decoded.findInstrumentation? (probe.sequence id)).isSome = true := by
  obtain ⟨front, back, hsplit⟩ := List.append_of_mem
    ((hd.asRead.consistent.report_mem_pieces_iff hok).mpr hplaces)
  refine isSome_findInstrumentation?_iff.mpr ⟨(front.flatMap (Piece.spell probe)).length, ?_⟩
  rw [hd.occursAt_iff_standsAt hok hwrite hdecoded, hsplit]
  refine ⟨front.flatMap (Piece.spell probe), back.flatMap (Piece.spell probe), ?_, rfl⟩
  rw [List.flatMap_append, List.flatMap_cons, Piece.spell_report, ← List.append_assoc]

/-- A probe that was not placed is not found, if the body did not call the collector. -/
theorem DecodedFrom.findInstrumentation?_eq_none (hd : method.DecodedFrom raw regions targets)
    (hforeign : ∀ instruction ∈ method.instructions, instruction.opcode = probe.call.opcode →
      instruction.operand ≠ probe.call.operand)
    (hok : (method.instrument points probe configuration).outcome = .ok placement)
    (hwrite : (method.instrument points probe configuration).method.write buffer = .ok bytes)
    (hdecoded : decode bytes = .ok decoded) (hplaces : ¬ method.Places points configuration id) :
    decoded.findInstrumentation? (probe.sequence id) = none := by
  apply findInstrumentation?_of_absent
  intro position
  rw [Bool.eq_false_iff]
  intro hat
  obtain ⟨front, back, hsplit, -⟩ := (hd.occursAt_iff hforeign hok hwrite hdecoded position).mp hat
  refine hplaces ((hd.asRead.consistent.report_mem_pieces_iff hok).mp ?_)
  rw [hsplit]
  exact List.mem_append_right _ List.mem_cons_self

/-- Without statement points a method never counts as instrumented. -/
theorem isAlreadyInstrumented_of_nil (hempty : points.statements = []) :
    method.isAlreadyInstrumented points probe = false := by
  rw [isAlreadyInstrumented, hempty]

/-- A method with statement probes counts as instrumented, whatever its body called before. -/
theorem DecodedFrom.isAlreadyInstrumented_eq_true (hd : method.DecodedFrom raw regions targets)
    (hok : (method.instrument points probe configuration).outcome = .ok placement)
    (hwrite : (method.instrument points probe configuration).method.write buffer = .ok bytes)
    (hdecoded : decode bytes = .ok decoded) (hprobes : configuration.statementProbes = true)
    (hstatements : points.statements ≠ []) :
    decoded.isAlreadyInstrumented points probe = true := by
  obtain ⟨first, others, hcons⟩ := List.exists_cons_of_ne_nil hstatements
  rw [isAlreadyInstrumented, hcons]
  refine hd.isSome_findInstrumentation? hok hwrite hdecoded (Or.inl ⟨hprobes, first, ?_, rfl⟩)
  rw [hcons]
  exact List.mem_cons_self

/-- A method without statement probes does not count as instrumented if no two points have one id
and its body did not call the collector. -/
theorem DecodedFrom.isAlreadyInstrumented_eq_false (hd : method.DecodedFrom raw regions targets)
    (hforeign : ∀ instruction ∈ method.instructions, instruction.opcode = probe.call.opcode →
      instruction.operand ≠ probe.call.operand)
    (hok : (method.instrument points probe configuration).outcome = .ok placement)
    (hwrite : (method.instrument points probe configuration).method.write buffer = .ok bytes)
    (hdecoded : decode bytes = .ok decoded) (hids : points.ids.Nodup)
    (hprobes : configuration.statementProbes = false) :
    decoded.isAlreadyInstrumented points probe = false := by
  cases hstatements : points.statements with
  | nil => exact isAlreadyInstrumented_of_nil hstatements
  | cons first others =>
    have hfirst : first ∈ points.statements := by
      rw [hstatements]
      exact List.mem_cons_self
    have hplaces : ¬ method.Places points configuration first.id := by
      rintro (⟨henabled, -⟩ | ⟨-, branch, -, path, -, hid⟩)
      · rw [hprobes] at henabled
        cases henabled
      · obtain ⟨point, hpoint, -, -, hid⟩ := mem_of_idOfPath? hid
        exact List.disjoint_of_nodup_append hids (List.mem_map_of_mem hfirst)
          (hid ▸ List.mem_map_of_mem hpoint)
    rw [isAlreadyInstrumented, hstatements]
    dsimp only
    rw [hd.findInstrumentation?_eq_none hforeign hok hwrite hdecoded hplaces]
    rfl

/-- A method counts as instrumented exactly if it has a statement point and statement probes were
placed. -/
theorem DecodedFrom.isAlreadyInstrumented_eq (hd : method.DecodedFrom raw regions targets)
    (hforeign : ∀ instruction ∈ method.instructions, instruction.opcode = probe.call.opcode →
      instruction.operand ≠ probe.call.operand)
    (hok : (method.instrument points probe configuration).outcome = .ok placement)
    (hwrite : (method.instrument points probe configuration).method.write buffer = .ok bytes)
    (hdecoded : decode bytes = .ok decoded) (hids : points.ids.Nodup) :
    decoded.isAlreadyInstrumented points probe
      = (configuration.statementProbes && !points.statements.isEmpty) := by
  cases hprobes : configuration.statementProbes with
  | false => exact hd.isAlreadyInstrumented_eq_false hforeign hok hwrite hdecoded hids hprobes
  | true =>
    by_cases hempty : points.statements = []
    · rw [isAlreadyInstrumented_of_nil hempty, hempty]
      rfl
    · rw [hd.isAlreadyInstrumented_eq_true hok hwrite hdecoded hprobes hempty]
      simpa using hempty

end Method

/-- A probe that was placed is found again by its id, at the only position where its instructions
stand, and a probe that was not placed is not found, after the instrumented method was encoded and
decoded again. The body must not have called the collector before, and no two points may have one
id. In particular the method counts as instrumented if and only if it has a statement point and
statement probes were placed. -/
theorem instrument_findInstrumentation {data bytes : List UInt8} {method decoded : Method}
    (hdecode : Method.decode data = .ok method) {points : Points} {probe : Probe}
    {configuration : Configuration} {placement : Placement}
    (hforeign : ∀ instruction ∈ method.instructions, instruction.opcode = probe.call.opcode →
      instruction.operand ≠ probe.call.operand)
    (hids : points.ids.Nodup)
    (hplaced : (method.instrument points probe configuration).outcome = .ok placement)
    (hbytes : (method.instrument points probe configuration).method.toBytes = .ok bytes)
    (hdecoded : Method.decode bytes = .ok decoded) :
    (∀ id, method.Places points configuration id →
        ∃ position handle, decoded.order[position]? = some handle
          ∧ (∀ other, decoded.occursAt other (probe.sequence id) = true ↔ other = position)
          ∧ decoded.findInstrumentation? (probe.sequence id) = some handle)
      ∧ (∀ id, ¬ method.Places points configuration id →
          decoded.findInstrumentation? (probe.sequence id) = none)
      ∧ decoded.isAlreadyInstrumented points probe
        = (configuration.statementProbes && !points.statements.isEmpty) := by
  obtain ⟨raw, regions, targets, -, hd⟩ := Method.decode_spec hdecode
  refine ⟨?_, fun id hplaces => hd.findInstrumentation?_eq_none hforeign hplaced hbytes hdecoded
    hplaces, hd.isAlreadyInstrumented_eq hforeign hplaced hbytes hdecoded hids⟩
  intro id hplaces
  obtain ⟨front, back, hsplit⟩ := List.append_of_mem
    ((hd.asRead.consistent.report_mem_pieces_iff hplaced).mpr hplaces)
  have hunique := hd.occursAt_iff_eq hforeign hids hplaced hbytes hdecoded hsplit
  have hlt := Method.lt_of_occursAt ((hunique _).mpr rfl)
  refine ⟨_, _, List.getElem?_eq_getElem hlt, hunique, ?_⟩
  rw [Method.findInstrumentation?_of_unique hunique, List.getElem?_eq_getElem hlt]

set_option maxRecDepth 4000 in
/-- In the instrumented `guardedLoop`, the probe of the first statement point is found again. -/
theorem instrument_findInstrumentation_guardedLoop :
    ∃ method bytes decoded position, Method.decode guardedLoop = .ok method
      ∧ (method.instrument guardedPoints (.managed ⟨0x0A000001⟩) {}).method.toBytes = .ok bytes
      ∧ Method.decode bytes = .ok decoded
      ∧ (∀ other, decoded.occursAt other (Probe.sequence (.managed ⟨0x0A000001⟩) 1) = true
          ↔ other = position)
      ∧ decoded.isAlreadyInstrumented guardedPoints (.managed ⟨0x0A000001⟩) = true := by
  have hrun : ((Method.decode guardedLoop).bind fun method =>
      (method.instrument guardedPoints (.managed ⟨0x0A000001⟩) {}).outcome.bind fun placement =>
        (method.instrument guardedPoints (.managed ⟨0x0A000001⟩) {}).method.toBytes.bind fun bytes =>
          (Method.decode bytes).bind fun decoded =>
            .ok (placement, method.instructions.all fun instruction => instruction.opcode != .call))
      = .ok (⟨2, 2⟩, true) := by decide +kernel
  obtain ⟨method, hdecode, hrest⟩ := bind_eq_ok_iff.mp hrun
  obtain ⟨placement, hplaced, hrest⟩ := bind_eq_ok_iff.mp hrest
  obtain ⟨bytes, hbytes, hrest⟩ := bind_eq_ok_iff.mp hrest
  obtain ⟨decoded, hdecoded, hresult⟩ := bind_eq_ok_iff.mp hrest
  have hcalls := (Prod.mk.inj (Except.ok.inj hresult)).2
  rw [List.all_eq_true] at hcalls
  have hforeign : ∀ instruction ∈ method.instructions,
      instruction.opcode = (Probe.call (.managed ⟨0x0A000001⟩)).opcode →
      instruction.operand ≠ (Probe.call (.managed ⟨0x0A000001⟩)).operand := by
    intro instruction hmem hopcode
    exact absurd hopcode (bne_iff_ne.mp (hcalls instruction hmem))
  obtain ⟨hfound, -, hinstrumented⟩ := instrument_findInstrumentation hdecode hforeign (by decide)
    hplaced hbytes hdecoded
  obtain ⟨position, handle, -, hunique, -⟩ := hfound 1 (Or.inl ⟨rfl, ⟨0, 1⟩, by decide, rfl⟩)
  exact ⟨method, bytes, decoded, position, hdecode, hbytes, hdecoded, hunique, hinstrumented⟩

end CilCoverage
