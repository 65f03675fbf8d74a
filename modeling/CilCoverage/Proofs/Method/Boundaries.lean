import CilCoverage.Proofs.Method.Decoding

/-!
# Ranges at the end of the code

A boundary of a clause is bound to the instruction at its offset; at the end of the code it is bound
to the label. The label is made for the end of a range, but once it is there, the start of a later
one is bound to it as well. `StartsFirstAt` tells the clauses whose first boundary at an offset is
such a start: a body is refused if that is so for the end of its code, and this depends on the order
of its clauses. `decode_boundaries` says what all boundaries and branch targets of a decoded body
name, and which orders of its clauses are accepted.
-/

set_option autoImplicit false

namespace CilCoverage

open Instruction

/-- The offsets of the boundaries of a clause in the order in which they are bound, each with
whether it is the end of a range. -/
def Clause.boundaries (clause : Clause) : List (Nat × Bool) :=
  [(clause.tryOffset.toNat, false), (clause.tryEnd, true), (clause.handlerOffset.toNat, false),
    (clause.handlerEnd, true)]
    ++ clause.filterOffset?.toList.map fun start => (start.toNat, false)

/-- The first boundary of the clauses at an offset is the start of a range. -/
def StartsFirstAt (offset : Nat) (clauses : List Clause) : Prop :=
  (clauses.flatMap Clause.boundaries).find? (fun boundary => boundary.1 == offset)
    = some (offset, false)

section Offsets

variable {instructions : List Instruction} {clauses others : List Clause} {regions : List Region}
  {targets : List (List Handle)}

/-- The boundaries of a clause are the offsets of those of its region. -/
theorem Region.Binds.boundaries_eq {clause : Clause} {region : Region}
    (hbinds : Region.Binds instructions clause region) :
    clause.boundaries
      = region.boundaries.map fun boundary => (startOf instructions boundary.1, boundary.2) := by
  have hfilter : clause.filterOffset?.toList.map (fun start => (start.toNat, false))
      = region.filterStart?.toList.map fun start => (startOf instructions start, false) := by
    have hkind := hbinds.kind
    have hstart := hbinds.filterStart
    obtain ⟨tryStart, tryEnd, handlerStart, handlerEnd, handler⟩ := region
    cases handler with
    | catching | finalizing | faulting =>
      simp [Clause.filterOffset?, hkind, Region.kind, Region.filterStart?]
    | filtering start =>
      have hoffset := hstart start rfl
      simp [Clause.filterOffset?, hkind, Region.kind, Region.filterStart?, hoffset]
  rw [Clause.boundaries, Region.boundaries, hfilter, List.map_append, List.map_map, List.map_cons,
    List.map_cons, List.map_cons, List.map_cons, List.map_nil, hbinds.tryStart, hbinds.tryEnd,
    hbinds.handlerStart, hbinds.handlerEnd]
  rfl

/-- The boundaries of all clauses are the offsets of those of the regions. -/
theorem flatMap_boundaries_eq (hbound : List.Forall₂ (Region.Binds instructions) clauses regions) :
    clauses.flatMap Clause.boundaries = (regions.flatMap Region.boundaries).map
      fun boundary => (startOf instructions boundary.1, boundary.2) := by
  induction hbound with
  | nil => rfl
  | cons hbinds _ ih =>
    rw [List.flatMap_cons, List.flatMap_cons, List.map_append, hbinds.boundaries_eq, ih]

/-- No boundary lies behind the end of the code. -/
theorem boundary_le (hbound : List.Forall₂ (Region.Binds instructions) clauses regions) :
    ∀ boundary ∈ regions.flatMap Region.boundaries, boundary.1 ≤ instructions.length := by
  induction hbound with
  | nil => simp
  | cons hbinds _ ih =>
    intro boundary hmem
    rw [List.flatMap_cons, List.mem_append] at hmem
    exact hmem.elim (hbinds.bound boundary) (ih boundary)

/-- Whether the clauses can be bound in their order can be told from their offsets. -/
theorem admits_iff_not_startsFirstAt (hs : Streamed instructions)
    (hbound : List.Forall₂ (Region.Binds instructions) clauses regions) :
    Admits instructions.length false (regions.flatMap Region.boundaries)
      ↔ ¬ StartsFirstAt (startOf instructions instructions.length) clauses := by
  have hcongr : (regions.flatMap Region.boundaries).find? ((fun boundary : Nat × Bool =>
        boundary.1 == startOf instructions instructions.length)
          ∘ fun boundary => (startOf instructions boundary.1, boundary.2))
      = (regions.flatMap Region.boundaries).find? fun boundary =>
          boundary.1 == instructions.length := by
    apply List.find?_congr
    intro boundary hmem
    have hle := boundary_le hbound boundary hmem
    rw [Function.comp_apply, Bool.eq_iff_iff, beq_iff_eq, beq_iff_eq]
    exact ⟨startOf_inj hs.size_pos hle (Nat.le_refl _), fun heq => by rw [heq]⟩
  rw [StartsFirstAt, flatMap_boundaries_eq hbound, List.find?_map, hcongr, Admits]
  cases hfind : (regions.flatMap Region.boundaries).find? fun boundary =>
      boundary.1 == instructions.length with
  | none => simp
  | some first =>
    have hend : first.1 = instructions.length := by simpa using List.find?_some hfind
    simp [hend]

/-- In a linked body the end of the code is not first met as a start. -/
theorem Linked.not_startsFirstAt (hs : Streamed instructions)
    (hl : Linked instructions clauses regions targets) :
    ¬ StartsFirstAt (startOf instructions instructions.length) clauses :=
  (admits_iff_not_startsFirstAt hs hl.bound).mp hl.opened

/-- The clauses can be linked in another order, too, unless the end of the code is first met as a
start. -/
theorem Linked.exists_reordered_iff (hs : Streamed instructions)
    (hl : Linked instructions clauses regions targets) (hperm : others.Perm clauses) :
    (∃ reordered targets, Linked instructions others reordered targets)
      ↔ ¬ StartsFirstAt (startOf instructions instructions.length) others := by
  constructor
  · rintro ⟨reordered, targets, hlinked⟩
    exact hlinked.not_startsFirstAt hs
  · intro hstarts
    obtain ⟨reordered, hbound, -⟩ := List.perm_comp_forall₂ hperm hl.bound
    exact ⟨reordered, targets, hbound, (admits_iff_not_startsFirstAt hs hbound).mpr hstarts,
      hl.landed⟩

/-- Every order of the clauses is free of early starts exactly if each clause is. -/
theorem forall_perm_not_startsFirstAt_iff {offset : Nat} :
    (∀ others : List Clause, others.Perm clauses → ¬ StartsFirstAt offset others)
      ↔ ∀ clause ∈ clauses, ¬ StartsFirstAt offset [clause] := by
  constructor
  · intro hall clause hmem hstarts
    obtain ⟨front, back, rfl⟩ := List.append_of_mem hmem
    apply hall (clause :: (front ++ back)) List.perm_middle.symm
    rw [StartsFirstAt, List.flatMap_cons, List.flatMap_nil, List.append_nil] at hstarts
    rw [StartsFirstAt, List.flatMap_cons, List.find?_append, hstarts]
    rfl
  · intro heach others hperm hstarts
    rw [StartsFirstAt, List.find?_flatMap] at hstarts
    obtain ⟨clause, hmem, hfirst⟩ := List.exists_of_findSome?_eq_some hstarts
    apply heach clause (hperm.mem_iff.mp hmem)
    rw [StartsFirstAt, List.flatMap_cons, List.flatMap_nil, List.append_nil, hfirst]

end Offsets

namespace Method

/-- What an offset of the body stands for in the decoded method: the instruction that was read
there, or the label at the end of the code. -/
def Names (method : Method) (codeSize offset : Nat) (handle : Handle) : Prop :=
  handle ∈ method.order ∧
    if offset = codeSize then (method.get handle).opcode = .label
    else (method.get handle).opcode ≠ .label ∧ (method.get handle).origin = some offset

/-- The slots of a decoded method are named by the offsets they start at. -/
theorem DecodedFrom.names {method : Method} {raw : RawBody} {regions : List Region}
    {targets : List (List Handle)} (hd : method.DecodedFrom raw regions targets) {handle : Handle}
    (hmem : handle ∈ method.order) (hle : handle ≤ raw.instructions.length) :
    method.Names raw.header.codeSize.toNat (startOf raw.instructions handle) handle := by
  refine ⟨hmem, ?_⟩
  rw [hd.codeSize]
  split
  · rename_i hend
    have hlast := startOf_inj hd.streamed.size_pos hle (Nat.le_refl _) hend
    by_contra hreal
    exact absurd hlast (Nat.ne_of_lt ((hd.opcode_ne_label_iff handle).mp hreal))
  · rename_i hinside
    have hlt : handle < raw.instructions.length :=
      Nat.lt_of_le_of_ne hle fun heq => hinside (by rw [heq])
    exact ⟨(hd.opcode_ne_label_iff handle).mpr hlt, by rw [hd.origin_eq, if_pos hlt]⟩

/-- Every boundary of a clause is bound to what its offset stands for. -/
theorem DecodedFrom.forall₂_names {method : Method} {raw : RawBody} {regions : List Region}
    {targets : List (List Handle)} (hd : method.DecodedFrom raw regions targets) :
    List.Forall₂ (fun clause region => clause.kind? = some region.kind
        ∧ List.Forall₂ (fun stored bound => stored.2 = bound.2
            ∧ method.Names raw.header.codeSize.toNat stored.1 bound.1)
          clause.boundaries region.boundaries)
      raw.clauses method.regions := by
  obtain rfl := hd.regions_eq
  have hall := hd.linked.bound
  rw [List.forall₂_iff_get] at hall ⊢
  refine ⟨hall.1, fun k hclause hregion => ?_⟩
  have hbinds := hall.2 k hclause hregion
  refine ⟨hbinds.kind, ?_⟩
  rw [hbinds.boundaries_eq, List.forall₂_map_left_iff, List.forall₂_same]
  intro boundary hmem
  have horder := hd.recodable.boundary_mem_order (List.get_mem _ _) hmem
  exact ⟨rfl, hd.names horder (hbinds.bound boundary hmem)⟩

section Order

variable {method : Method} {raw : RawBody} {regions : List Region} {targets : List (List Handle)}

/-- A body is accepted in another order of its clauses unless the end of the code is first met as a
start. -/
theorem DecodedFrom.decode_reordered_iff (hd : method.DecodedFrom raw regions targets)
    {other : List UInt8} {reordered : RawBody} (hread : RawBody.read other = .ok reordered)
    (hsame : reordered.instructions = raw.instructions)
    (hperm : reordered.clauses.Perm raw.clauses) :
    (∃ accepted, decode other = .ok accepted)
      ↔ ¬ StartsFirstAt raw.header.codeSize.toNat reordered.clauses := by
  rw [hd.codeSize, ← hd.linked.exists_reordered_iff hd.streamed hperm]
  constructor
  · rintro ⟨accepted, hdecode⟩
    obtain ⟨again, regions', targets', hagain, hlinked, -⟩ := decode_eq_ok_iff.mp hdecode
    obtain rfl := Except.ok.inj (hread.symm.trans hagain)
    exact ⟨regions', targets', hsame ▸ hlinked⟩
  · rintro ⟨regions', targets', hlinked⟩
    exact ⟨_, decode_eq_ok_iff.mpr ⟨reordered, regions', targets', hread, hsame ▸ hlinked, rfl⟩⟩

/-- Every order of the clauses is accepted exactly if none of them starts at the end of the code
first. -/
theorem DecodedFrom.forall_perm_ofParts_iff (hd : method.DecodedFrom raw regions targets)
    {code : List UInt8} (hcode : ofCode code = .ok raw.instructions) :
    (∀ clauses : List Clause, clauses.Perm raw.clauses →
        ∃ accepted, ofParts raw.header code clauses = .ok accepted)
      ↔ ∀ clause ∈ raw.clauses, ¬ StartsFirstAt raw.header.codeSize.toNat [clause] := by
  rw [← forall_perm_not_startsFirstAt_iff]
  apply forall_congr'
  intro clauses
  apply imp_congr_right
  intro hperm
  rw [hd.codeSize, ← hd.linked.exists_reordered_iff hd.streamed hperm]
  constructor
  · rintro ⟨accepted, hparts⟩
    obtain ⟨regions', targets', hlinked, -⟩ :=
      (ofParts_eq_ok_iff hd.streamed hcode hd.codeSize).mp hparts
    exact ⟨regions', targets', hlinked⟩
  · rintro ⟨regions', targets', hlinked⟩
    exact ⟨_, (ofParts_eq_ok_iff hd.streamed hcode hd.codeSize).mpr
      ⟨regions', targets', hlinked, rfl⟩⟩

end Order

end Method

/-- In a decoded method, branch targets are instructions that were read, and every boundary of a
clause names the instruction at its offset, or the label if it lies at the end of the code, whether
it ends a range or starts one. A body with the same code and the same clauses in another order is
accepted unless the first of their boundaries at the end of the code starts a range; every order is
accepted exactly if that holds for no clause alone. -/
theorem decode_boundaries {data : List UInt8} {method : Method}
    (hdecode : Method.decode data = .ok method) :
    ∃ raw code, RawBody.read data = .ok raw
      ∧ Body.code { header := raw.header, clauses := raw.clauses } data = .ok code
      ∧ (∀ handle, ∀ target ∈ (method.get handle).targets, (method.get target).opcode ≠ .label)
      ∧ List.Forall₂ (fun clause region => clause.kind? = some region.kind
          ∧ List.Forall₂ (fun stored bound => stored.2 = bound.2
              ∧ method.Names raw.header.codeSize.toNat stored.1 bound.1)
            clause.boundaries region.boundaries)
        raw.clauses method.regions
      ∧ (∀ other reordered, RawBody.read other = .ok reordered →
          reordered.instructions = raw.instructions → reordered.clauses.Perm raw.clauses →
          ((∃ accepted, Method.decode other = .ok accepted)
            ↔ ¬ StartsFirstAt raw.header.codeSize.toNat reordered.clauses))
      ∧ ((∀ clauses : List Clause, clauses.Perm raw.clauses →
            ∃ accepted, Method.ofParts raw.header code clauses = .ok accepted)
          ↔ ∀ clause ∈ raw.clauses, ¬ StartsFirstAt raw.header.codeSize.toNat [clause]) := by
  obtain ⟨raw, regions, targets, hread, hd⟩ := Method.decode_spec hdecode
  obtain ⟨code, -, hcode, hstream⟩ := RawBody.read_eq_ok_iff.mp hread
  exact ⟨raw, code, hread, hcode, hd.recodable.landing, hd.forall₂_names,
    fun other reordered => hd.decode_reordered_iff, hd.forall_perm_ofParts_iff hstream⟩

/-- Two instructions and two clauses: the handler of the first one ends with the code, the second
one protects nothing at the end of the code. -/
def emptyTail : List UInt8 :=
  [0x0B, 0x30, 8, 0, 2, 0, 0, 0, 0, 0, 0, 0, 0x00, 0x2A, 0, 0, 1, 28, 0, 0]
    ++ [2, 0, 0, 0, 1, 1, 0, 1, 0, 0, 0, 0] ++ [2, 0, 2, 0, 0, 0, 0, 1, 0, 0, 0, 0]

/-- The boundaries of `emptyTail` and the orders of its clauses. -/
theorem decode_boundaries_emptyTail :
    ∃ method raw code, Method.decode emptyTail = .ok method
      ∧ RawBody.read emptyTail = .ok raw
      ∧ Body.code { header := raw.header, clauses := raw.clauses } emptyTail = .ok code
      ∧ List.Forall₂ (fun clause region => clause.kind? = some region.kind
          ∧ List.Forall₂ (fun stored bound => stored.2 = bound.2
              ∧ method.Names raw.header.codeSize.toNat stored.1 bound.1)
            clause.boundaries region.boundaries)
        raw.clauses method.regions
      ∧ ((∀ clauses : List Clause, clauses.Perm raw.clauses →
            ∃ accepted, Method.ofParts raw.header code clauses = .ok accepted)
          ↔ ∀ clause ∈ raw.clauses, ¬ StartsFirstAt raw.header.codeSize.toNat [clause]) := by
  have hcount : (Method.decode emptyTail).map (fun method => method.regions.length) = .ok 2 := by
    decide +kernel
  cases hdecode : Method.decode emptyTail with
  | error cause =>
    rw [hdecode] at hcount
    cases hcount
  | ok method =>
    obtain ⟨raw, code, hread, hcode, -, hnames, -, horders⟩ := decode_boundaries hdecode
    exact ⟨method, raw, code, rfl, hread, hcode, hnames, horders⟩

/-- The same with the clauses the other way round. -/
def emptyTailFirst : List UInt8 :=
  [0x0B, 0x30, 8, 0, 2, 0, 0, 0, 0, 0, 0, 0, 0x00, 0x2A, 0, 0, 1, 28, 0, 0]
    ++ [2, 0, 2, 0, 0, 0, 0, 1, 0, 0, 0, 0] ++ [2, 0, 0, 0, 1, 1, 0, 1, 0, 0, 0, 0]

/-- The empty range of `emptyTail` starts at the label, and in the other order of the clauses the
body is refused. -/
theorem emptyTail_starts_at_label :
    ∃ method, Method.decode emptyTail = .ok method
      ∧ (∃ region ∈ method.regions, (method.get region.tryStart).opcode = .label)
      ∧ Method.decode emptyTailFirst = .error (.instructionNotFound 2) := by
  have hstart : (Method.decode emptyTail).map (fun method =>
      method.regions.any fun region => (method.get region.tryStart).opcode == .label)
        = .ok true := by decide +kernel
  have hrefused : (Method.decode emptyTailFirst).map (fun method => method.regions.length)
      = .error (.instructionNotFound 2) := by decide +kernel
  cases hdecode : Method.decode emptyTail with
  | error cause =>
    rw [hdecode] at hstart
    cases hstart
  | ok method =>
    rw [hdecode] at hstart
    obtain ⟨region, hmem, hlabel⟩ := List.any_eq_true.mp (Except.ok.inj hstart)
    refine ⟨method, rfl, ⟨region, hmem, beq_iff_eq.mp hlabel⟩, ?_⟩
    cases hother : Method.decode emptyTailFirst with
    | error cause =>
      rw [hother] at hrefused
      exact congrArg Except.error (Except.error.inj hrefused)
    | ok other =>
      rw [hother] at hrefused
      cases hrefused

end CilCoverage
