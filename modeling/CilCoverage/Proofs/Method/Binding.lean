import CilCoverage.Method.Decode
import CilCoverage.Proofs.Method.Validity
import CilCoverage.Proofs.Outcome

/-!
# Binding offsets to instructions

While a body is bound to its instructions, the slots hold the instructions as read and, from some
moment on, the label behind them (`readSlots`). `run_bindBoundary` says when an offset is bound to a
handle: the handle starts there, and if it is that of the label, then the label exists already or
the offset is the end of a range. `run_bindRegions` carries this over to all clauses, and
`ofParts_eq_ok_iff` to the whole method: `Linked` relates what was read to the regions and the
targets that were found for it.
-/

set_option autoImplicit false

namespace CilCoverage

open Instruction

/-- The slots while clauses are bound: the instructions and, once it was needed, the label. -/
def readSlots (instructions : List Instruction) (labelled : Bool) : Array Instruction :=
  (instructions ++ if labelled then [label (startOf instructions instructions.length : Nat)]
    else []).toArray

/-- Instructions as they come out of a code stream. -/
structure Streamed (instructions : List Instruction) : Prop where
  encodable : ∀ instruction ∈ instructions, instruction.Encodable
  stream : instructions = streamed 0 instructions

/-- The first boundary that lies at the end of the code, if any, is the end of a range, unless the
label exists already. -/
def Admits (count : Nat) (labelled : Bool) (boundaries : List (Handle × Bool)) : Prop :=
  labelled = true ∨ ∀ boundary,
    boundaries.find? (fun boundary => boundary.1 == count) = some boundary → boundary.2 = true

section Admission

variable (count : Nat) (labelled : Bool)

/-- Without boundaries there is nothing to refuse. -/
theorem admits_nil : Admits count labelled [] := Or.inr fun _ h => by cases h

/-- A boundary at the end of the code needs the label or has to be an end. -/
theorem admits_singleton (handle : Nat) (isEnd : Bool) :
    Admits count labelled [(handle, isEnd)]
      ↔ (handle = count → labelled = true ∨ isEnd = true) := by
  unfold Admits
  by_cases heq : handle = count
  · simp [heq]
  · simp [heq]

/-- Later boundaries find the label that earlier ones have needed. -/
theorem admits_append (a b : List (Handle × Bool)) :
    Admits count labelled (a ++ b) ↔ Admits count labelled a
      ∧ Admits count (labelled || a.any fun boundary => boundary.1 == count) b := by
  unfold Admits
  cases labelled with
  | true => simp
  | false =>
    rw [List.find?_append]
    cases hfind : a.find? fun boundary => boundary.1 == count with
    | none =>
      have hany : (a.any fun boundary => boundary.1 == count) = false := by
        simpa using hfind
      simp [hany]
    | some first =>
      have hany : (a.any fun boundary => boundary.1 == count) = true :=
        List.any_eq_true.mpr ⟨first, List.mem_of_find?_eq_some hfind, by
          simpa using List.find?_some hfind⟩
      simp [hany]

end Admission

/-- If at most one element has a property, it is the one that is found. -/
theorem findIdx?_eq_some_iff_of_unique {slots : Array Instruction} {p : Instruction → Bool}
    (hunique : ∀ {i j : Nat} {a b : Instruction}, slots[i]? = some a → slots[j]? = some b →
      p a = true → p b = true → i = j) {handle : Nat} :
    slots.findIdx? p = some handle ↔ ∃ a, slots[handle]? = some a ∧ p a = true := by
  rw [Array.findIdx?_eq_some_iff_getElem]
  constructor
  · rintro ⟨hlt, hp, -⟩
    exact ⟨_, Array.getElem?_eq_getElem hlt, hp⟩
  · rintro ⟨a, ha, hp⟩
    obtain ⟨hlt, rfl⟩ := Array.getElem?_eq_some_iff.mp ha
    refine ⟨hlt, hp, ?_⟩
    intro j hj hpj
    have hsame := hunique ha (Array.getElem?_eq_getElem (Nat.lt_trans hj hlt)) hp hpj
    omega

namespace Streamed

variable {instructions : List Instruction}

/-- Streamed instructions take bytes. -/
theorem size_pos (hs : Streamed instructions) :
    ∀ instruction ∈ instructions, 0 < instruction.size := fun instruction hmem =>
  (hs.encodable instruction hmem).size_pos

/-- A streamed instruction has the offset at which it starts. -/
theorem getElem? (hs : Streamed instructions) {k : Nat} {instruction : Instruction}
    (hk : instructions[k]? = some instruction) :
    instruction = instruction.readAs (startOf instructions k) := by
  have hread := getElem?_streamed 0 instructions k
  rw [← hs.stream, hk, Nat.zero_add] at hread
  exact Option.some.inj hread

/-- The label starts where the code ends. -/
theorem getElem?_readSlots (hs : Streamed instructions) {labelled : Bool} {k : Nat}
    {instruction : Instruction} (hk : (readSlots instructions labelled)[k]? = some instruction) :
    instruction.offset = startOf instructions k
      ∧ (k < instructions.length ∧ instruction.opcode ≠ .label
        ∨ k = instructions.length ∧ labelled = true ∧ instruction.opcode = .label) := by
  rw [readSlots, List.getElem?_toArray] at hk
  by_cases hlt : k < instructions.length
  · rw [List.getElem?_append_left hlt] at hk
    have hread := congrArg Instruction.offset (hs.getElem? hk)
    exact ⟨hread, Or.inl ⟨hlt, (hs.encodable _ (List.mem_of_getElem? hk)).opcode⟩⟩
  · rw [List.getElem?_append_right (Nat.le_of_not_lt hlt)] at hk
    cases labelled with
    | false => cases hk
    | true =>
      obtain ⟨hone, hlabel⟩ := List.getElem?_eq_some_iff.mp hk
      have hend : k = instructions.length := by
        change _ < 1 at hone
        omega
      have heq : instruction = label (startOf instructions instructions.length : Nat) := by
        rw [← hlabel]
        exact List.getElem_singleton _
      rw [heq, hend]
      exact ⟨rfl, Or.inr ⟨rfl, rfl, rfl⟩⟩

/-- The slots are those of the instructions and of the label. -/
theorem size_readSlots (instructions : List Instruction) (labelled : Bool) :
    (readSlots instructions labelled).size = instructions.length + labelled.toNat := by
  cases labelled <;> simp [readSlots]

/-- No two slots have one offset. -/
theorem eq_of_offset (hs : Streamed instructions) {labelled : Bool} {i j : Nat}
    {a b : Instruction} (hi : (readSlots instructions labelled)[i]? = some a)
    (hj : (readSlots instructions labelled)[j]? = some b) (heq : a.offset = b.offset) : i = j := by
  obtain ⟨ha, hia⟩ := hs.getElem?_readSlots hi
  obtain ⟨hb, hjb⟩ := hs.getElem?_readSlots hj
  refine startOf_inj hs.size_pos ?_ ?_ (by omega)
  · omega
  · omega

/-- A search by offset finds the slot that starts there. -/
theorem findIdx?_offset (hs : Streamed instructions) {labelled : Bool} {offset : Int}
    {handle : Nat} :
    ((readSlots instructions labelled).findIdx? fun instruction => instruction.offset == offset)
        = some handle
      ↔ (startOf instructions handle : Int) = offset
        ∧ handle < instructions.length + labelled.toNat := by
  rw [findIdx?_eq_some_iff_of_unique fun hi hj hpa hpb =>
    hs.eq_of_offset hi hj ((eq_of_beq hpa).trans (eq_of_beq hpb).symm)]
  rw [← size_readSlots instructions]
  constructor
  · rintro ⟨a, ha, hp⟩
    exact ⟨(hs.getElem?_readSlots ha).1 ▸ eq_of_beq hp, (Array.getElem?_eq_some_iff.mp ha).1⟩
  · rintro ⟨hoffset, hlt⟩
    have ha := Array.getElem?_eq_getElem hlt
    exact ⟨_, ha, beq_iff_eq.mpr ((hs.getElem?_readSlots ha).1.trans hoffset)⟩

/-- A target is resolved to the instruction that starts at its offset, never to the label. -/
theorem resolveTarget_eq_ok (hs : Streamed instructions) {labelled : Bool} {offset : Int}
    {handle : Nat} :
    resolveTarget (readSlots instructions labelled) offset = .ok handle
      ↔ (startOf instructions handle : Int) = offset ∧ handle < instructions.length := by
  have hfind : ((readSlots instructions labelled).findIdx? fun instruction =>
        instruction.offset == offset && instruction.opcode != .label) = some handle
      ↔ (startOf instructions handle : Int) = offset ∧ handle < instructions.length := by
    rw [findIdx?_eq_some_iff_of_unique fun hi hj hpa hpb => ?unique]
    case unique =>
      simp only [Bool.and_eq_true, beq_iff_eq] at hpa hpb
      exact hs.eq_of_offset hi hj (hpa.1.trans hpb.1.symm)
    simp only [Bool.and_eq_true, beq_iff_eq, bne_iff_ne]
    constructor
    · rintro ⟨a, ha, hoffset, hreal⟩
      obtain ⟨hstart, hplace⟩ := hs.getElem?_readSlots ha
      rcases hplace with ⟨hlt, -⟩ | ⟨-, -, hlabel⟩
      · exact ⟨by rw [← hstart, hoffset], hlt⟩
      · exact absurd hlabel hreal
    · rintro ⟨hoffset, hlt⟩
      have hsize := size_readSlots instructions labelled
      have hin : handle < (readSlots instructions labelled).size := by omega
      have ha := Array.getElem?_eq_getElem hin
      obtain ⟨hstart, hplace⟩ := hs.getElem?_readSlots ha
      rcases hplace with ⟨-, hreal⟩ | ⟨heq, -, -⟩
      · exact ⟨_, ha, hstart.trans hoffset, hreal⟩
      · omega
  unfold resolveTarget
  split
  · rename_i found hfound
    rw [← hfind, hfound]
    simp
  · rename_i hnone
    rw [← hfind, hnone]
    simp

/-- The label is pushed behind the instructions. -/
theorem push_readSlots (instructions : List Instruction) :
    (readSlots instructions false).push
        (label (startOf instructions instructions.length : Nat)) = readSlots instructions true := by
  simp [readSlots]

end Streamed

/-- Two programs succeed if the second one does on the slots that the first one leaves. -/
theorem run_bind_eq_ok {α β : Type} {program : Binding α} {next : α → Binding β}
    {slots last : Array Instruction} {y : β} :
    (program >>= next).run slots = .ok (y, last)
      ↔ ∃ x middle, program.run slots = .ok (x, middle) ∧ (next x).run middle = .ok (y, last) := by
  rw [StateT.run_bind]
  cases hrun : program.run slots with
  | error cause =>
    constructor
    · nofun
    · rintro ⟨x, middle, h, -⟩
      cases h
  | ok result =>
    obtain ⟨x, middle⟩ := result
    constructor
    · intro h
      exact ⟨x, middle, rfl, h⟩
    · rintro ⟨x', middle', h, hnext⟩
      cases h
      exact hnext

section Regions

variable {instructions : List Instruction}

/-- The start of an instruction that was read, or of the label, is bound to its handle. -/
theorem run_bindBoundary_known (hs : Streamed instructions) {labelled : Bool} {handle : Nat}
    (hlt : handle < instructions.length + labelled.toNat) (isEnd : Bool) :
    (bindBoundary (startOf instructions instructions.length) (startOf instructions handle)
        isEnd).run (readSlots instructions labelled)
      = .ok (handle, readSlots instructions labelled) := by
  rw [bindBoundary, run_bind_eq_ok]
  refine ⟨_, _, rfl, ?_⟩
  rw [hs.findIdx?_offset.mpr ⟨rfl, hlt⟩]
  rfl

/-- Without the label nothing is found at the end of the code. -/
theorem findIdx?_readSlots_end (hs : Streamed instructions) :
    ((readSlots instructions false).findIdx? fun instruction =>
      instruction.offset == (startOf instructions instructions.length : Int)) = none := by
  cases hfound : (readSlots instructions false).findIdx? fun instruction =>
      instruction.offset == (startOf instructions instructions.length : Int) with
  | none => rfl
  | some found =>
    obtain ⟨hstart, hlt⟩ := hs.findIdx?_offset.mp hfound
    rw [Bool.toNat_false, Nat.add_zero] at hlt
    have hsame := startOf_inj hs.size_pos (Nat.le_of_lt hlt) (Nat.le_refl _)
      (Int.natCast_inj.mp hstart)
    exact absurd hsame (Nat.ne_of_lt hlt)

/-- The label is made for the end of a range at the end of the code. -/
theorem run_bindBoundary_end (hs : Streamed instructions) :
    (bindBoundary (startOf instructions instructions.length)
        (startOf instructions instructions.length) true).run (readSlots instructions false)
      = .ok (instructions.length, readSlots instructions true) := by
  have hsize := Streamed.size_readSlots instructions false
  rw [bindBoundary, run_bind_eq_ok]
  refine ⟨_, _, rfl, ?_⟩
  rw [findIdx?_readSlots_end hs]
  simp only [beq_self_eq_true, Bool.true_and, if_true]
  refine run_bind_eq_ok.mpr ⟨(), _, rfl, ?_⟩
  rw [hsize, Streamed.push_readSlots]
  rfl

/-- There is nothing to be made for a boundary that is known. -/
theorem labelled_of_known {labelled : Bool} {handle count : Nat}
    (hlt : handle < count + labelled.toNat) : (labelled || handle == count) = labelled := by
  cases labelled with
  | true => rfl
  | false =>
    rw [Bool.false_or, beq_eq_false_iff_ne]
    exact Nat.ne_of_lt hlt

/-- An offset is bound to the handle that starts there; the label is made for an end. -/
theorem run_bindBoundary (hs : Streamed instructions) {labelled isEnd : Bool} {offset : Nat}
    {handle : Nat} {last : Array Instruction} :
    (bindBoundary (startOf instructions instructions.length) offset isEnd).run
        (readSlots instructions labelled) = .ok (handle, last)
      ↔ startOf instructions handle = offset ∧ handle ≤ instructions.length
        ∧ Admits instructions.length labelled [(handle, isEnd)]
        ∧ last = readSlots instructions (labelled || handle == instructions.length) := by
  rw [admits_singleton]
  constructor
  · intro hbind
    rw [bindBoundary, run_bind_eq_ok] at hbind
    obtain ⟨slots, middle, hget, hrun⟩ := hbind
    cases hget
    split at hrun
    · rename_i found hfound
      cases hrun
      obtain ⟨hstart, hlt⟩ := hs.findIdx?_offset.mp hfound
      have hone := labelled.toNat_le
      refine ⟨Int.natCast_inj.mp hstart, by omega, ?_, ?_⟩
      · rintro rfl
        cases labelled with
        | true => exact Or.inl rfl
        | false => exact absurd hlt (Nat.lt_irrefl _)
      · rw [labelled_of_known hlt]
    · rename_i hnone
      split at hrun
      · rename_i hcond
        obtain ⟨hisEnd, hoffset⟩ := Bool.and_eq_true_iff.mp hcond
        obtain rfl := beq_iff_eq.mp hoffset
        -- with the label made already, the end of the code would have been found
        have hfresh : labelled = false := by
          cases labelled with
          | false => rfl
          | true =>
            rw [hs.findIdx?_offset.mpr ⟨rfl, Nat.lt_succ_self _⟩] at hnone
            cases hnone
        subst hfresh
        obtain ⟨_, _, hset, hpure⟩ := run_bind_eq_ok.mp hrun
        cases hset
        cases hpure
        rw [Streamed.size_readSlots]
        refine ⟨rfl, Nat.le_refl _, fun _ => Or.inr hisEnd, ?_⟩
        rw [Streamed.push_readSlots, Bool.toNat_false, Nat.add_zero, beq_self_eq_true]
        rfl
      · cases hrun
  · rintro ⟨rfl, hle, hadmits, rfl⟩
    rcases Nat.lt_or_ge handle (instructions.length + labelled.toNat) with hknown | hbeyond
    · rw [labelled_of_known hknown]
      exact run_bindBoundary_known hs hknown isEnd
    · obtain rfl : handle = instructions.length := by omega
      have hfresh : labelled = false := by
        cases labelled with
        | false => rfl
        | true => exact absurd hbeyond (Nat.not_le.mpr (Nat.lt_succ_self _))
      subst hfresh
      obtain rfl := (hadmits rfl).resolve_left Bool.false_ne_true
      rw [beq_self_eq_true]
      exact run_bindBoundary_end hs

/-- The handles of the region start at the boundaries of the clause, which has its kind and its
type. -/
structure Region.Binds (instructions : List Instruction) (clause : Clause) (region : Region) :
    Prop where
  kind : clause.kind? = some region.kind
  type : region.classToken? = clause.classToken?
  tryStart : startOf instructions region.tryStart = clause.tryOffset.toNat
  tryEnd : startOf instructions region.tryEnd = clause.tryEnd
  handlerStart : startOf instructions region.handlerStart = clause.handlerOffset.toNat
  handlerEnd : startOf instructions region.handlerEnd = clause.handlerEnd
  filterStart : ∀ start, region.filterStart? = some start →
    startOf instructions start = clause.classOrFilter.toNat
  bound : ∀ boundary ∈ region.boundaries, boundary.1 ≤ instructions.length

/-- A bound boundary and what comes after it. -/
theorem run_bindBoundary_bind (hs : Streamed instructions) {labelled isEnd : Bool} {offset : Nat}
    {α : Type} {next : Handle → Binding α} {result : α} {last : Array Instruction} :
    (bindBoundary (startOf instructions instructions.length) offset isEnd >>= next).run
        (readSlots instructions labelled) = .ok (result, last)
      ↔ ∃ handle : Nat, (startOf instructions handle = offset ∧ handle ≤ instructions.length
          ∧ Admits instructions.length labelled [(handle, isEnd)])
        ∧ (next handle).run (readSlots instructions (labelled || handle == instructions.length))
          = .ok (result, last) := by
  rw [run_bind_eq_ok]
  constructor
  · rintro ⟨handle, middle, hbind, hnext⟩
    obtain ⟨hstart, hle, hadmits, rfl⟩ := (run_bindBoundary hs).mp hbind
    exact ⟨handle, ⟨hstart, hle, hadmits⟩, hnext⟩
  · rintro ⟨handle, ⟨hstart, hle, hadmits⟩, hnext⟩
    exact ⟨handle, _, (run_bindBoundary hs).mpr ⟨hstart, hle, hadmits, rfl⟩, hnext⟩

/-- A program that only returns leaves the slots alone. -/
theorem run_pure_eq_ok {α : Type} {value result : α} {slots last : Array Instruction} :
    (pure value : Binding α).run slots = .ok (result, last) ↔ result = value ∧ last = slots := by
  constructor
  · intro h
    cases h
    exact ⟨rfl, rfl⟩
  · rintro ⟨rfl, rfl⟩
    rfl

/-- The first instruction of the filter, if there is one, is bound after the two ranges. -/
def Region.filterBoundaries (region : Region) : List (Handle × Bool) :=
  region.filterStart?.toList.map fun start => (start, false)

/-- What holds of all boundaries holds of the four of the ranges and of the filter. -/
theorem forall_boundaries {region : Region} {p : Handle × Bool → Prop} :
    (∀ boundary ∈ region.boundaries, p boundary)
      ↔ p (region.tryStart, false) ∧ p (region.tryEnd, true) ∧ p (region.handlerStart, false)
        ∧ p (region.handlerEnd, true) ∧ ∀ boundary ∈ region.filterBoundaries, p boundary := by
  simp only [Region.boundaries, Region.filterBoundaries, List.cons_append, List.nil_append,
    List.forall_mem_cons]

/-- Some boundary has a property if one of the ranges or the filter has it. -/
theorem any_boundaries {region : Region} {p : Handle × Bool → Bool} {labelled : Bool} :
    (labelled || region.boundaries.any p)
      = (labelled || p (region.tryStart, false) || p (region.tryEnd, true)
        || p (region.handlerStart, false) || p (region.handlerEnd, true)
        || region.filterBoundaries.any p) := by
  simp only [Region.boundaries, Region.filterBoundaries, List.cons_append, List.nil_append,
    List.any_cons, Bool.or_assoc]

/-- The boundaries of a region are admitted one after the other. -/
theorem admits_boundaries {region : Region} {count : Nat} {labelled : Bool} :
    Admits count labelled region.boundaries
      ↔ Admits count labelled [(region.tryStart, false)]
        ∧ Admits count (labelled || region.tryStart == count) [(region.tryEnd, true)]
        ∧ Admits count (labelled || region.tryStart == count || region.tryEnd == count)
          [(region.handlerStart, false)]
        ∧ Admits count (labelled || region.tryStart == count || region.tryEnd == count
          || region.handlerStart == count) [(region.handlerEnd, true)]
        ∧ Admits count (labelled || region.tryStart == count || region.tryEnd == count
          || region.handlerStart == count || region.handlerEnd == count) region.filterBoundaries := by
  have hsplit : region.boundaries = [(region.tryStart, false)] ++ ([(region.tryEnd, true)]
      ++ ([(region.handlerStart, false)] ++ ([(region.handlerEnd, true)]
        ++ region.filterBoundaries))) := rfl
  rw [hsplit, admits_append, admits_append, admits_append, admits_append]
  simp only [List.any_cons, List.any_nil, Bool.or_false]

/-- Binds what a clause of a kind has besides its two ranges. -/
def bindHandler (codeSize : Nat) (clause : Clause) : Clause.Kind → Binding Region.Handler
  | .catching => pure (.catching ⟨clause.classOrFilter⟩)
  | .filtering => Region.Handler.filtering <$> bindBoundary codeSize clause.classOrFilter.toNat false
  | .finalizing => pure .finalizing
  | .faulting => pure .faulting

/-- A clause of a known kind has its two ranges bound first, then what its kind asks for. -/
theorem bindRegion_of_kind {codeSize : Nat} {clause : Clause} {kind : Clause.Kind}
    (hkind : clause.kind? = some kind) :
    bindRegion codeSize clause = do
      let tryStart ← bindBoundary codeSize clause.tryOffset.toNat false
      let tryEnd ← bindBoundary codeSize clause.tryEnd true
      let handlerStart ← bindBoundary codeSize clause.handlerOffset.toNat false
      let handlerEnd ← bindBoundary codeSize clause.handlerEnd true
      let handler ← bindHandler codeSize clause kind
      return { tryStart, tryEnd, handlerStart, handlerEnd, handler } := by
  unfold bindRegion
  rw [hkind]
  cases kind <;> rfl

/-- A handler is bound to that of a region if both have one kind and catch one type, and the filter,
if there is one, starts at its offset. -/
theorem run_bindHandler (hs : Streamed instructions) {labelled : Bool} {clause : Clause}
    {kind : Clause.Kind} (hkind : clause.kind? = some kind) (region : Region)
    {last : Array Instruction} :
    (bindHandler (startOf instructions instructions.length) clause kind).run
        (readSlots instructions labelled) = .ok (region.handler, last)
      ↔ region.kind = kind ∧ region.classToken? = clause.classToken?
        ∧ (∀ start, region.filterStart? = some start →
            startOf instructions start = clause.classOrFilter.toNat)
        ∧ (∀ boundary ∈ region.filterBoundaries, boundary.1 ≤ instructions.length)
        ∧ Admits instructions.length labelled region.filterBoundaries
        ∧ last = readSlots instructions (labelled
          || region.filterBoundaries.any fun boundary => boundary.1 == instructions.length) := by
  obtain ⟨tryStart, tryEnd, handlerStart, handlerEnd, handler⟩ := region
  -- only a filter has a boundary of its own, the other handlers leave the slots alone
  cases kind with
  | catching | finalizing | faulting =>
    rw [bindHandler, run_pure_eq_ok]
    constructor
    · rintro ⟨rfl, rfl⟩
      refine ⟨rfl, ?_, nofun, nofun, admits_nil _ _, ?_⟩
      · rw [Clause.classToken?, hkind]
        rfl
      · exact congrArg _ (Bool.or_false labelled).symm
    · rintro ⟨hsame, htype, -, -, -, rfl⟩
      rw [Clause.classToken?, hkind] at htype
      cases handler <;> cases hsame
      all_goals exact ⟨by cases htype; rfl, congrArg _ (Bool.or_false labelled)⟩
  | filtering =>
    rw [bindHandler, ← bind_pure_comp, run_bindBoundary_bind hs]
    constructor
    · rintro ⟨start, ⟨hstart, hle, hadmits⟩, hrun⟩
      obtain ⟨rfl, rfl⟩ := run_pure_eq_ok.mp hrun
      refine ⟨rfl, ?_, ?_, ?_, hadmits, ?_⟩
      · rw [Clause.classToken?, hkind]
        rfl
      · rintro _ ⟨⟩
        exact hstart
      · exact fun boundary hmem => List.mem_singleton.mp hmem ▸ hle
      · exact congrArg (fun rest => readSlots instructions (labelled || rest))
          (Bool.or_false (start == instructions.length)).symm
    · rintro ⟨hsame, -, hfilter, hbound, hadmits, rfl⟩
      cases handler with
      | catching | finalizing | faulting => cases hsame
      | filtering start =>
        refine ⟨start, ⟨hfilter start rfl, hbound _ List.mem_cons_self, hadmits⟩, ?_⟩
        refine run_pure_eq_ok.mpr ⟨rfl, ?_⟩
        exact congrArg (fun rest => readSlots instructions (labelled || rest))
          (Bool.or_false (start == instructions.length))

/-- A clause is bound to a region if its boundaries are, one after the other. -/
theorem run_bindRegion (hs : Streamed instructions) {labelled : Bool} {clause : Clause}
    {region : Region} {last : Array Instruction} :
    (bindRegion (startOf instructions instructions.length) clause).run
        (readSlots instructions labelled) = .ok (region, last)
      ↔ Region.Binds instructions clause region
        ∧ Admits instructions.length labelled region.boundaries
        ∧ last = readSlots instructions (labelled
          || region.boundaries.any fun boundary => boundary.1 == instructions.length) := by
  cases hkind : clause.kind? with
  | none =>
    constructor
    · intro hrun
      rw [bindRegion, hkind] at hrun
      cases hrun
    · rintro ⟨hbinds, -⟩
      rw [hbinds.kind] at hkind
      cases hkind
  | some kind =>
    rw [bindRegion_of_kind hkind]
    simp only [run_bindBoundary_bind hs]
    constructor
    · rintro ⟨a, ⟨ha, hale, haok⟩, b, ⟨hb, hble, hbok⟩, c, ⟨hc, hcle, hcok⟩, d,
        ⟨hd, hdle, hdok⟩, hrun⟩
      obtain ⟨handler, _, hhandler, hpure⟩ := run_bind_eq_ok.mp hrun
      obtain ⟨rfl, rfl⟩ := run_pure_eq_ok.mp hpure
      obtain ⟨rfl, htype, hfilter, hbound, hfok, rfl⟩ :=
        (run_bindHandler hs hkind ⟨a, b, c, d, handler⟩).mp hhandler
      refine ⟨⟨hkind, htype, ha, hb, hc, hd, hfilter, ?_⟩, ?_, ?_⟩
      · exact forall_boundaries.mpr ⟨hale, hble, hcle, hdle, hbound⟩
      · exact admits_boundaries.mpr ⟨haok, hbok, hcok, hdok, hfok⟩
      · rw [any_boundaries]
    · rintro ⟨hbinds, hadmits, rfl⟩
      obtain ⟨hale, hble, hcle, hdle, hbound⟩ := forall_boundaries.mp hbinds.bound
      obtain ⟨haok, hbok, hcok, hdok, hfok⟩ := admits_boundaries.mp hadmits
      refine ⟨_, ⟨hbinds.tryStart, hale, haok⟩, _, ⟨hbinds.tryEnd, hble, hbok⟩, _,
        ⟨hbinds.handlerStart, hcle, hcok⟩, _, ⟨hbinds.handlerEnd, hdle, hdok⟩,
        run_bind_eq_ok.mpr ⟨region.handler, _, (run_bindHandler hs hkind region).mpr ⟨?_, hbinds.type,
          hbinds.filterStart, hbound, hfok, any_boundaries ▸ rfl⟩, rfl⟩⟩
      exact Option.some.inj (hbinds.kind.symm.trans hkind)

/-- Clauses are bound to regions if these start at the boundaries and are admitted; the label is
pushed where one is needed. -/
theorem run_bindRegions (hs : Streamed instructions) {labelled : Bool} {clauses : List Clause}
    {regions : List Region} {last : Array Instruction} :
    (clauses.mapM (bindRegion (startOf instructions instructions.length))).run
        (readSlots instructions labelled) = .ok (regions, last)
      ↔ List.Forall₂ (Region.Binds instructions) clauses regions
        ∧ Admits instructions.length labelled (regions.flatMap Region.boundaries)
        ∧ last = readSlots instructions (labelled
          || (regions.flatMap Region.boundaries).any fun boundary =>
            boundary.1 == instructions.length) := by
  induction clauses generalizing labelled regions last with
  | nil =>
    rw [List.mapM_nil, run_pure_eq_ok]
    constructor
    · rintro ⟨rfl, rfl⟩
      exact ⟨.nil, admits_nil _ _, by simp⟩
    · rintro ⟨⟨⟩, -, rfl⟩
      exact ⟨rfl, by simp⟩
  | cons clause rest ih =>
    rw [List.mapM_cons, run_bind_eq_ok]
    constructor
    · rintro ⟨region, middle, hregion, hrest⟩
      obtain ⟨hbinds, hadmits, rfl⟩ := (run_bindRegion hs).mp hregion
      obtain ⟨others, behind, hothers, hpure⟩ := run_bind_eq_ok.mp hrest
      obtain ⟨hall, hadmits', rfl⟩ := ih.mp hothers
      obtain ⟨rfl, rfl⟩ := run_pure_eq_ok.mp hpure
      refine ⟨.cons hbinds hall, ?_, ?_⟩
      · rw [List.flatMap_cons, admits_append]
        exact ⟨hadmits, hadmits'⟩
      · rw [List.flatMap_cons, List.any_append, Bool.or_assoc]
    · rintro ⟨hall, hadmits, rfl⟩
      obtain _ | ⟨hbinds, hrest⟩ := hall
      rw [List.flatMap_cons, admits_append] at hadmits
      refine ⟨_, _, (run_bindRegion hs).mpr ⟨hbinds, hadmits.1, rfl⟩, ?_⟩
      refine run_bind_eq_ok.mpr ⟨_, _, ih.mpr ⟨hrest, hadmits.2, rfl⟩, ?_⟩
      refine run_pure_eq_ok.mpr ⟨rfl, ?_⟩
      rw [List.flatMap_cons, List.any_append, Bool.or_assoc]

end Regions

/-- The handle is that of the instruction a displacement leads to. -/
def Instruction.LandsAt (instructions : List Instruction) (instruction : Instruction)
    (displacement : Int) (target : Handle) : Prop :=
  (startOf instructions target : Int) = instruction.finish + displacement
    ∧ target < instructions.length

/-- The regions and the targets, by instruction, are those that the clauses and the displacements
name. -/
structure Linked (instructions : List Instruction) (clauses : List Clause) (regions : List Region)
    (targets : List (List Handle)) : Prop where
  bound : List.Forall₂ (Region.Binds instructions) clauses regions
  opened : Admits instructions.length false (regions.flatMap Region.boundaries)
  landed : List.Forall₂ (fun instruction targets =>
    List.Forall₂ (instruction.LandsAt instructions) instruction.displacements targets)
    instructions targets

/-- Whether a boundary of the regions lies at the end of the code. -/
def needsLabel (instructions : List Instruction) (regions : List Region) : Bool :=
  (regions.flatMap Region.boundaries).any fun boundary => boundary.1 == instructions.length

namespace Method

/-- The method that is assembled from its parts before it is laid out. -/
def assembled (header : Header) (instructions : List Instruction) (regions : List Region)
    (targets : List (List Handle)) : Method :=
  let slots := readSlots instructions (needsLabel instructions regions)
  { header
    slots := (instructions.zipWith linked targets
      ++ if needsLabel instructions regions
        then [label (startOf instructions instructions.length : Nat)] else []).toArray
    order := List.range slots.size
    regions }

end Method

section Resolution

/-- An instruction is resolved if all its displacements are. -/
theorem resolved_eq_ok {slots : Array Instruction} {instruction result : Instruction} :
    instruction.resolved slots = .ok result
      ↔ ∃ targets, List.Forall₂ (fun displacement target =>
          resolveTarget slots (instruction.finish + displacement) = .ok target)
          instruction.displacements targets ∧ result = { instruction with targets } := by
  unfold Instruction.resolved
  rw [bind_eq_ok_iff]
  simp only [mapM_eq_ok_iff]
  constructor
  · rintro ⟨targets, hall, h⟩
    cases h
    exact ⟨targets, hall, rfl⟩
  · rintro ⟨targets, hall, rfl⟩
    exact ⟨targets, hall, rfl⟩

variable {instructions : List Instruction}

/-- Its targets are then the instructions in which the displacements land. -/
theorem resolved_readSlots (hs : Streamed instructions) {labelled : Bool}
    {instruction result : Instruction} :
    instruction.resolved (readSlots instructions labelled) = .ok result
      ↔ ∃ targets, List.Forall₂ (instruction.LandsAt instructions) instruction.displacements targets
        ∧ result = { instruction with targets } := by
  have hlands : (fun displacement target =>
        resolveTarget (readSlots instructions labelled) (instruction.finish + displacement)
          = .ok target) = instruction.LandsAt instructions := by
    funext displacement target
    exact propext hs.resolveTarget_eq_ok
  rw [resolved_eq_ok, hlands]

/-- Choices that can be made one by one can be made together. -/
theorem forall₂_exists_iff {α β γ : Type} {R : α → β → Prop} {g : α → β → γ} {items : List α}
    {results : List γ} :
    List.Forall₂ (fun item result => ∃ choice, R item choice ∧ result = g item choice) items results
      ↔ ∃ choices, List.Forall₂ R items choices ∧ results = items.zipWith g choices := by
  induction items generalizing results with
  | nil =>
    constructor
    · rintro ⟨⟩
      exact ⟨[], .nil, rfl⟩
    · rintro ⟨_, ⟨⟩, rfl⟩
      exact .nil
  | cons item rest ih =>
    constructor
    · rintro (_ | ⟨⟨choice, hchoice, rfl⟩, hrest⟩)
      obtain ⟨choices, hall, rfl⟩ := ih.mp hrest
      exact ⟨choice :: choices, .cons hchoice hall, rfl⟩
    · rintro ⟨_, _ | ⟨hchoice, hall⟩, rfl⟩
      exact .cons ⟨_, hchoice, rfl⟩ (ih.mpr ⟨_, hall, rfl⟩)

/-- Resolving leaves the label alone and gives every other instruction its targets. -/
theorem resolved_slots (hs : Streamed instructions) {labelled : Bool}
    {resolved : List Instruction} :
    (readSlots instructions labelled).toList.mapM
        (Instruction.resolved (readSlots instructions labelled)) = .ok resolved
      ↔ ∃ targets, List.Forall₂ (fun instruction targets =>
          List.Forall₂ (instruction.LandsAt instructions) instruction.displacements targets)
          instructions targets
        ∧ resolved = instructions.zipWith (fun instruction targets =>
            { instruction with targets }) targets
          ++ if labelled then [label (startOf instructions instructions.length : Nat)]
            else [] := by
  have hreal {results : List Instruction} :
      instructions.mapM (Instruction.resolved (readSlots instructions labelled)) = .ok results
        ↔ ∃ targets, List.Forall₂ (fun instruction targets =>
            List.Forall₂ (instruction.LandsAt instructions) instruction.displacements targets)
            instructions targets
          ∧ results = instructions.zipWith (fun instruction targets =>
              { instruction with targets }) targets := by
    rw [mapM_eq_ok_iff]
    simp only [resolved_readSlots hs]
    exact forall₂_exists_iff
  have hlabel : (if labelled then [label (startOf instructions instructions.length : Nat)]
        else []).mapM (Instruction.resolved (readSlots instructions labelled))
      = .ok (if labelled then [label (startOf instructions instructions.length : Nat)]
        else []) := by
    cases labelled <;> rfl
  rw [readSlots, List.mapM_append, ← readSlots, hlabel, bind_eq_ok_iff]
  constructor
  · rintro ⟨results, hmap, h⟩
    obtain ⟨targets, hall, rfl⟩ := hreal.mp hmap
    cases h
    exact ⟨targets, hall, rfl⟩
  · rintro ⟨targets, hall, rfl⟩
    exact ⟨_, hreal.mpr ⟨targets, hall, rfl⟩, rfl⟩

end Resolution

namespace Method

/-- Assembling succeeds exactly when everything that was read can be linked. -/
theorem ofParts_eq_ok_iff {header : Header} {code : List UInt8} {clauses : List Clause}
    {method : Method} {instructions : List Instruction} (hs : Streamed instructions)
    (hcode : ofCode code = .ok instructions)
    (hsize : header.codeSize.toNat = startOf instructions instructions.length) :
    ofParts header code clauses = .ok method
      ↔ ∃ regions targets, Linked instructions clauses regions targets
        ∧ method = (assembled header instructions regions targets).layOut := by
  have hread : instructions.toArray = readSlots instructions false := by
    simp [readSlots]
  have hwidened (labelled : Bool) (targets : List (List Handle)) :
      (instructions.zipWith (fun instruction targets =>
          ({ instruction with targets } : Instruction)) targets
        ++ if labelled then [label (startOf instructions instructions.length : Nat)]
          else []).map Instruction.widened
      = instructions.zipWith linked targets ++ if labelled
          then [label (startOf instructions instructions.length : Nat)] else [] := by
    rw [List.map_append, List.map_zipWith]
    congr 1
    cases labelled <;> rfl
  rw [ofParts, hcode, hsize, bind_eq_ok_iff]
  constructor
  · rintro ⟨_, hok, h⟩
    cases hok
    obtain ⟨⟨regions, slots⟩, hbind, h⟩ := bind_eq_ok_iff.mp h
    rw [hread] at hbind
    obtain ⟨hbound, hopened, rfl⟩ := (run_bindRegions hs).mp hbind
    obtain ⟨resolved, hresolved, h⟩ := bind_eq_ok_iff.mp h
    obtain ⟨targets, hlanded, rfl⟩ := (resolved_slots hs).mp hresolved
    cases h
    refine ⟨regions, targets, ⟨hbound, hopened, hlanded⟩, ?_⟩
    rw [hwidened, Bool.false_or]
    rfl
  · rintro ⟨regions, targets, hlinked, rfl⟩
    have hbind := (run_bindRegions hs).mpr ⟨hlinked.bound, hlinked.opened, rfl⟩
    rw [← hread] at hbind
    refine ⟨instructions, rfl, bind_eq_ok_iff.mpr ⟨_, hbind, ?_⟩⟩
    refine bind_eq_ok_iff.mpr ⟨_, (resolved_slots hs).mpr ⟨targets, hlinked.landed, rfl⟩, ?_⟩
    rw [hwidened, Bool.false_or]
    rfl

end Method

end CilCoverage
