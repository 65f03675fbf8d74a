import CilCoverage.Proofs.Coverage.Readback

/-!
# Occurrences

A sequence without branches occurs at a position of a method if its operations stand there one after
the other (`occursAt_iff`). Where a list is composed of pieces that either end with a certain
element and have it nowhere else, or do not have it at all, a word of that form stands only where a
piece spells it (`standsAt_flatMap_iff`): the last element of the word gives away where the piece
ends.
-/

set_option autoImplicit false

namespace CilCoverage

open Instruction

section Words

variable {α β : Type} {stop : α} {body word long tail front back : List α} {position : Nat}

/-- The word stands at a position of the list. -/
def StandsAt (word : List α) (position : Nat) (long : List α) : Prop :=
  ∃ front back, long = front ++ word ++ back ∧ front.length = position

/-- The last element that is a `stop` lies in front of what has none. -/
theorem exists_of_append_eq (hstop : stop ∉ tail) (heq : long ++ tail = front ++ stop :: back) :
    ∃ middle, long = front ++ stop :: middle ∧ back = middle ++ tail := by
  rcases List.append_eq_append_iff.mp heq with ⟨between, -, htail⟩ | ⟨between, hlong, hrest⟩
  · rw [htail] at hstop
    exact absurd (List.mem_append_right _ List.mem_cons_self) hstop
  · cases between with
    | nil =>
      rw [List.nil_append] at hrest
      rw [← hrest] at hstop
      exact absurd List.mem_cons_self hstop
    | cons first middle =>
      obtain ⟨rfl, hback⟩ := List.cons.inj hrest
      exact ⟨middle, hlong, hback⟩

/-- A word that ends with `stop` does not reach into what has none. -/
theorem standsAt_append_iff (hstop : stop ∉ tail) :
    StandsAt (body ++ [stop]) position (long ++ tail) ↔ StandsAt (body ++ [stop]) position long := by
  constructor
  · rintro ⟨front, back, heq, hlength⟩
    rw [List.append_assoc, List.append_assoc, ← List.append_assoc front, List.singleton_append] at heq
    obtain ⟨middle, rfl, -⟩ := exists_of_append_eq hstop heq
    exact ⟨front, middle, by simp, hlength⟩
  · rintro ⟨front, back, rfl, hlength⟩
    exact ⟨front, back ++ tail, List.append_assoc _ _ _, hlength⟩

/-- A piece has no `stop`, or it is as long as the word and its last element is its only `stop`. -/
def Spells (stop : α) (body piece : List α) : Prop :=
  stop ∉ piece
    ∨ ∃ inside, piece = inside ++ [stop] ∧ inside.length = body.length ∧ stop ∉ inside

/-- A word that ends with `stop` stands only where a piece spells it. -/
theorem standsAt_flatMap_iff {pieces : List β} {spell : β → List α}
    (hspells : ∀ piece ∈ pieces, Spells stop body (spell piece)) :
    StandsAt (body ++ [stop]) position (pieces.flatMap spell)
      ↔ ∃ front piece back, pieces = front ++ piece :: back ∧ spell piece = body ++ [stop]
          ∧ (front.flatMap spell).length = position := by
  constructor
  · -- the last piece either holds the `stop` of the word, or lies behind it
    induction pieces using List.reverseRecOn with
    | nil =>
      rintro ⟨front, back, heq, -⟩
      have hlength := congrArg List.length heq
      simp at hlength
    | append_singleton pieces last ih =>
      have hearlier (hstands : StandsAt (body ++ [stop]) position (pieces.flatMap spell)) :
          ∃ front piece back, pieces ++ [last] = front ++ piece :: back
            ∧ spell piece = body ++ [stop] ∧ (front.flatMap spell).length = position := by
        obtain ⟨front, piece, back, rfl, hpiece, hlength⟩ :=
          ih (fun piece hmem => hspells piece (List.mem_append_left _ hmem)) hstands
        exact ⟨front, piece, back ++ [last], by simp, hpiece, hlength⟩
      intro hstands
      rw [List.flatMap_append, List.flatMap_singleton] at hstands
      rcases hspells last (by simp) with hsilent | ⟨inside, hlast, hinside, hstop⟩
      · exact hearlier ((standsAt_append_iff hsilent).mp hstands)
      · obtain ⟨front, back, heq, hlength⟩ := hstands
        rw [hlast] at heq
        rcases List.eq_nil_or_concat back with rfl | ⟨middle, final, rfl⟩
        · rw [List.append_nil, ← List.append_assoc, ← List.append_assoc] at heq
          have hwhole := List.append_cancel_right heq
          obtain ⟨hpieces, rfl⟩ := List.append_inj' hwhole hinside
          exact ⟨pieces, last, [], rfl, hlast, by rw [hpieces, hlength]⟩
        · rw [List.concat_eq_append, ← List.append_assoc, ← List.append_assoc] at heq
          obtain ⟨hwhole, -⟩ := List.append_inj' heq rfl
          have hmiddle : StandsAt (body ++ [stop]) position (pieces.flatMap spell ++ inside) :=
            ⟨front, middle, hwhole, hlength⟩
          exact hearlier ((standsAt_append_iff hstop).mp hmiddle)
  · rintro ⟨front, piece, back, rfl, hpiece, hlength⟩
    refine ⟨front.flatMap spell, back.flatMap spell, ?_, hlength⟩
    simp [hpiece]

end Words

/-- The template does not branch. -/
structure Template.Plain (template : Template) : Prop where
  plain : template.opcode.isBranch = false
  bare : template.targets = []

/-- The copy of a plain template has its operation and its operand. -/
theorem Template.Plain.operation_outline {template : Template} (hp : template.Plain) :
    template.outline.operation = (template.opcode, template.operand) := by
  have hcopy : (template.copied id).CopyOf template id := Template.copyOf_of_content rfl
  have hkind := Opcode.operandKind_ne_of_not_branch hp.plain
  have hopcode : (template.copied id).opcode = template.opcode :=
    hcopy.opcode.trans (Opcode.widened_of_ne hkind)
  have hplain : (template.copied id).isBranch = false := by
    rw [isBranch, hopcode]
    exact hp.plain
  apply Prod.ext
  · exact hopcode
  · show (if (template.copied id).isBranch && _ then _ else (template.copied id).operand) = _
    rw [hplain, Bool.false_and, if_neg Bool.false_ne_true]
    exact hcopy.operand hplain

/-- A template that does not branch is matched by its operation. -/
theorem Instruction.WellFormed.matchesTemplate_iff {instruction : Instruction} {template : Template}
    (hw : instruction.WellFormed) (hp : template.Plain) :
    instruction.matchesTemplate template = true
      ↔ instruction.outline.operation = template.outline.operation := by
  rw [hp.operation_outline, matchesTemplate, hp.bare, Bool.and_eq_true, Bool.and_eq_true,
    Bool.or_eq_true, beq_iff_eq, beq_iff_eq, beq_iff_eq]
  have hoperation : instruction.outline.operation = (template.opcode, template.operand)
      ↔ instruction.opcode = template.opcode ∧ instruction.outline.operand = template.operand :=
    Prod.mk_inj
  rw [hoperation, and_assoc]
  refine and_congr_right fun hopcode => ?_
  have hplain : instruction.isBranch = false := by
    rw [isBranch, hopcode]
    exact hp.plain
  have hoperand : instruction.outline.operand = instruction.operand := by
    show (if instruction.isBranch && _ then _ else _) = _
    rw [hplain, Bool.false_and, if_neg Bool.false_ne_true]
  rw [hoperand, hplain, hw.targets_eq_nil hplain]
  simp

namespace Method

variable {method : Method} {templates : List Template} {template : Template} {position : Nat}

/-- The instruction at a handle matches the template at an index. -/
def MatchesAt (method : Method) (templates : List Template) (pair : Handle × Nat) : Prop :=
  ∃ instruction template, method.get? pair.1 = some instruction ∧ templates[pair.2]? = some template
    ∧ instruction.matchesTemplate template = true

/-- Without branches among the templates there is nothing to compare but the given pairs. -/
theorem agreesFrom_iff (hbare : ∀ template ∈ templates, template.targets = [])
    (met pending : List (Handle × Nat)) :
    method.agreesFrom templates met pending = true
      ↔ ∀ pair ∈ pending, pair ∈ met ∨ method.MatchesAt templates pair := by
  fun_induction method.agreesFrom templates met pending with
  | case1 met => simp
  | case2 met handle index pending hmet ih =>
    rw [ih]
    simp [hmet]
  | case3 met handle index pending hmet instruction template hfound hnamed ih =>
    -- templates without targets add no pairs, so only the given ones are compared
    have htargets : targetPairs instruction template = [] := by
      rw [targetPairs, hbare template (List.mem_of_getElem? hnamed), List.zip_nil_right]
    have hpair : method.MatchesAt templates (handle, index)
        ↔ instruction.matchesTemplate template = true := by
      constructor
      · rintro ⟨other, named, hother, hnamed', hmatches⟩
        rw [hfound] at hother
        rw [hnamed] at hnamed'
        rwa [Option.some.inj hother, Option.some.inj hnamed']
      · exact fun hmatches => ⟨instruction, template, hfound, hnamed, hmatches⟩
    rw [Bool.and_eq_true, ih, htargets, List.nil_append, List.forall_mem_cons, ← hpair]
    constructor
    · rintro ⟨hfirst, hrest⟩
      refine ⟨Or.inr hfirst, fun pair hmem => ?_⟩
      rcases hrest pair hmem with hin | hmatches
      · rcases List.mem_cons.mp hin with rfl | hin
        · exact Or.inr hfirst
        · exact Or.inl hin
      · exact Or.inr hmatches
    · rintro ⟨hfirst, hrest⟩
      refine ⟨hfirst.resolve_left hmet, fun pair hmem => ?_⟩
      exact (hrest pair hmem).imp_left (List.mem_cons_of_mem _)
  | case4 met handle index pending hmet hmissing =>
    simp only [Bool.false_eq_true, false_iff]
    intro hall
    rcases hall (handle, index) List.mem_cons_self with hin | ⟨instruction, template, hfound, hnamed, -⟩
    · exact hmet hin
    · exact hmissing instruction template hfound hnamed

/-- The pairs of a window match if its operations are those of the templates. -/
theorem Valid.matches_window_iff (hv : method.Valid) (hplain : ∀ template ∈ templates, template.Plain)
    {handles : List Handle} (hhandles : ∀ handle ∈ handles, handle ∈ method.order) :
    (handles.length = templates.length
        ∧ ∀ pair ∈ handles.zipIdx, method.MatchesAt templates pair)
      ↔ handles.map (fun handle => (method.get handle).outline.operation)
          = templates.map fun template => template.outline.operation := by
  have hget {k : Nat} {handle : Handle} (hk : handles[k]? = some handle) :
      method.get? handle = some (method.get handle) :=
    get_of_lt ((hv.ordered.mem_iff handle).mp (hhandles handle (List.mem_of_getElem? hk)))
  constructor
  · rintro ⟨hlength, hmatches⟩
    apply List.ext_getElem?
    intro k
    rw [List.getElem?_map, List.getElem?_map]
    cases hk : handles[k]? with
    | none =>
      rw [List.getElem?_eq_none (by rw [← hlength]; exact List.getElem?_eq_none_iff.mp hk)]
      rfl
    | some handle =>
      obtain ⟨instruction, template, hfound, hnamed, hmatch⟩ :=
        hmatches (handle, k) (List.mem_zipIdx_iff_getElem?.mpr hk)
      obtain rfl := Option.some.inj ((hget hk).symm.trans hfound)
      rw [show templates[k]? = some template from hnamed, Option.map_some, Option.map_some,
        ((hv.wellFormed handle).matchesTemplate_iff
          (hplain template (List.mem_of_getElem? hnamed))).mp hmatch]
  · intro hsame
    refine ⟨by simpa using congrArg List.length hsame, ?_⟩
    rintro ⟨handle, k⟩ hmem
    have hk := List.mem_zipIdx_iff_getElem?.mp hmem
    have hat := congrArg (fun operations => operations[k]?) hsame
    simp only [List.getElem?_map, hk, Option.map_some] at hat
    obtain ⟨template, hnamed, hoperation⟩ := Option.map_eq_some_iff.mp hat.symm
    refine ⟨method.get handle, template, hget hk, hnamed, ?_⟩
    exact ((hv.wellFormed handle).matchesTemplate_iff
      (hplain template (List.mem_of_getElem? hnamed))).mpr hoperation.symm

/-- A sequence without branches occurs where its operations stand. -/
theorem Valid.occursAt_iff (hv : method.Valid) (hplain : ∀ template ∈ templates, template.Plain)
    (hne : templates ≠ []) :
    method.occursAt position templates = true
      ↔ StandsAt (templates.map fun template => template.outline.operation) position
          method.operations := by
  have hempty : templates.isEmpty = false := by simpa using hne
  have hoperations : method.operations
      = method.order.map fun handle => (method.get handle).outline.operation := List.map_map
  -- the handles of the window matter only through their operations
  have hwindow : method.occursAt position templates = true
      ↔ ((method.order.drop position).take templates.length).map
          (fun handle => (method.get handle).outline.operation)
        = templates.map fun template => template.outline.operation := by
    rw [← hv.matches_window_iff hplain fun handle hmem =>
      List.mem_of_mem_drop (List.mem_of_mem_take hmem), occursAt]
    simp only [hempty, Bool.not_false, Bool.true_and, Bool.and_eq_true, beq_iff_eq,
      agreesFrom_iff fun template hmem => (hplain template hmem).bare]
    simp
  rw [hwindow, hoperations, List.map_take, List.map_drop]
  generalize hlist : (method.order.map fun handle => (method.get handle).outline.operation) = list
  generalize hword : (templates.map fun template => template.outline.operation) = word
  have hcount : templates.length = word.length := by rw [← hword, List.length_map]
  have hword' : word ≠ [] := by
    rw [← hword]
    simpa using hne
  rw [hcount]
  constructor
  · intro hsame
    have hinside : position < list.length := by
      by_contra hout
      rw [List.drop_eq_nil_of_le (Nat.le_of_not_lt hout), List.take_nil] at hsame
      exact hword' hsame.symm
    refine ⟨list.take position, (list.drop position).drop word.length, ?_, ?_⟩
    · have hsplit := List.take_append_drop word.length (list.drop position)
      rw [hsame] at hsplit
      rw [List.append_assoc, hsplit, List.take_append_drop]
    · rw [List.length_take]
      omega
  · rintro ⟨front, back, rfl, rfl⟩
    rw [List.append_assoc, List.drop_left, List.take_left]

/-- What occurs at a position occurs within the method. -/
theorem lt_of_occursAt (hoccurs : method.occursAt position templates = true) :
    position < method.length := by
  rw [occursAt, Bool.and_eq_true, Bool.and_eq_true, beq_iff_eq] at hoccurs
  obtain ⟨⟨hne, hlength⟩, -⟩ := hoccurs
  by_contra hout
  rw [List.drop_eq_nil_of_le (Nat.le_of_not_lt hout), List.take_nil, List.length_nil] at hlength
  rw [List.eq_nil_of_length_eq_zero hlength.symm] at hne
  cases hne

/-- A sequence that occurs somewhere is found. -/
theorem isSome_findInstrumentation?_iff :
    (method.findInstrumentation? templates).isSome = true
      ↔ ∃ position, method.occursAt position templates = true := by
  have hsearch : (method.findInstrumentation? templates).isSome = true
      ↔ ((List.range method.length).find? (method.occursAt · templates)).isSome = true := by
    unfold findInstrumentation?
    split
    · rename_i position hfound
      have hlt := List.mem_range.mp (List.mem_of_find?_eq_some hfound)
      rw [hfound, List.getElem?_eq_getElem hlt]
      exact iff_of_true rfl rfl
    · rename_i hfound
      rw [hfound]
  rw [hsearch, List.find?_isSome]
  constructor
  · rintro ⟨position, -, hoccurs⟩
    exact ⟨position, hoccurs⟩
  · rintro ⟨position, hoccurs⟩
    exact ⟨position, List.mem_range.mpr (lt_of_occursAt hoccurs), hoccurs⟩

/-- A sequence that occurs at one position only is found there. -/
theorem findInstrumentation?_of_unique
    (hunique : ∀ other, method.occursAt other templates = true ↔ other = position) :
    method.findInstrumentation? templates = method.order[position]? := by
  have hoccurs := (hunique position).mpr rfl
  have hsome : ((List.range method.length).find? (method.occursAt · templates)).isSome = true := by
    rw [List.find?_isSome]
    exact ⟨position, List.mem_range.mpr (lt_of_occursAt hoccurs), hoccurs⟩
  obtain ⟨found, hfound⟩ := Option.isSome_iff_exists.mp hsome
  have hat : method.occursAt found templates = true := by simpa using List.find?_some hfound
  obtain rfl := (hunique found).mp hat
  rw [findInstrumentation?, hfound]

/-- Templates that occur nowhere are not found. -/
theorem findInstrumentation?_of_absent
    (habsent : ∀ position, method.occursAt position templates = false) :
    method.findInstrumentation? templates = none := by
  rw [← Option.not_isSome_iff_eq_none, isSome_findInstrumentation?_iff]
  rintro ⟨position, hoccurs⟩
  rw [habsent] at hoccurs
  cases hoccurs

end Method

end CilCoverage
