import CilCoverage.Proofs.Coverage.Occurrence
import CilCoverage.Proofs.Coverage.Reachability

/-!
# Recognition as an equivalence of code

Two pieces of code that may branch back into themselves are equivalent if a relation between their
positions is closed: what it relates matches, and it relates the targets again (`Method.Closed`).
The relation may be assumed to hold where it is met again, so it is the largest such relation that
matters and not one that is built up from the end of the code.

`agreesFrom` finds such a relation whenever there is one. The pairs it has gone through are closed
up to those that were taken for granted (`exists_done_of_agreesFrom`), and nothing in a closed
relation makes it fail (`agreesFrom_of_known`). `Reachable.isInstrumented_iff` is what this means
for the search at an offset.
-/

set_option autoImplicit false

namespace CilCoverage

namespace Method

/-- A relation of instructions and positions among the templates is closed if related instructions
match and their targets are related to the targets of the templates, all of which are inside the
sequence. -/
structure Closed (method : Method) (templates : List Template) (related : Handle → Nat → Prop) :
    Prop where
  matched : ∀ {handle index}, related handle index → handle ∈ method.order
    ∧ ∃ template, templates[index]? = some template
      ∧ (method.get handle).matchesTemplate template = true
  targets : ∀ {handle index template}, related handle index → templates[index]? = some template →
    ∀ k position : Nat, template.targets[k]? = some position → position < templates.length
      ∧ ∃ target, (method.get handle).targets[k]? = some target ∧ related target position

variable {method : Method} {templates : List Template} {met pending : List (Handle × Nat)}
  {known : Handle × Nat → Prop}

/-- A pair matches and the pairs of targets that it leads to are known. -/
def LeadsInto (method : Method) (templates : List Template) (known : Handle × Nat → Prop)
    (pair : Handle × Nat) : Prop :=
  ∃ instruction template, method.get? pair.1 = some instruction ∧ templates[pair.2]? = some template
    ∧ instruction.matchesTemplate template = true
    ∧ ∀ next ∈ targetPairs instruction template, known next

/-- A pair still leads into what is known if more is known. -/
theorem LeadsInto.mono {known' : Handle × Nat → Prop} {pair : Handle × Nat}
    (hinto : method.LeadsInto templates known pair) (hmore : ∀ next, known next → known' next) :
    method.LeadsInto templates known' pair := by
  obtain ⟨instruction, template, hfound, hnamed, hmatches, hnext⟩ := hinto
  exact ⟨instruction, template, hfound, hnamed, hmatches, fun next hmem => hmore next (hnext next hmem)⟩

/-- What is agreed on was gone through: the pairs that were met on the way lead to one another or to
pairs that were met before. -/
theorem exists_done_of_agreesFrom (hagrees : method.agreesFrom templates met pending = true) :
    ∃ done : List (Handle × Nat), (∀ pair ∈ pending, pair ∈ met ∨ pair ∈ done)
      ∧ ∀ pair ∈ done, method.LeadsInto templates (fun next => next ∈ met ∨ next ∈ done) pair := by
  fun_induction method.agreesFrom templates met pending with
  | case1 met =>
    exact ⟨[], fun _ hmem => absurd hmem List.not_mem_nil, fun _ hmem => absurd hmem List.not_mem_nil⟩
  | case2 met handle index pending hmet ih =>
    obtain ⟨done, hpending, hdone⟩ := ih hagrees
    exact ⟨done, List.forall_mem_cons.mpr ⟨Or.inl hmet, hpending⟩, hdone⟩
  | case3 met handle index pending hmet instruction template hfound hnamed ih =>
    rw [Bool.and_eq_true] at hagrees
    obtain ⟨done, hpending, hdone⟩ := ih hagrees.2
    -- the pair itself counts as met for those behind it and is now one that was gone through
    have hcover (pair : Handle × Nat) (hcovered : pair ∈ (handle, index) :: met ∨ pair ∈ done) :
        pair ∈ met ∨ pair ∈ (handle, index) :: done := by
      rw [List.mem_cons] at hcovered ⊢
      rcases hcovered with (hself | hmet) | hdone
      · exact Or.inr (Or.inl hself)
      · exact Or.inl hmet
      · exact Or.inr (Or.inr hdone)
    refine ⟨(handle, index) :: done, ?_, ?_⟩
    · rw [List.forall_mem_cons]
      refine ⟨Or.inr List.mem_cons_self, fun pair hmem => hcover pair ?_⟩
      exact hpending pair (List.mem_append_right _ hmem)
    · rw [List.forall_mem_cons]
      constructor
      · refine ⟨instruction, template, hfound, hnamed, hagrees.1, fun next hmem => hcover next ?_⟩
        exact hpending next (List.mem_append_left _ hmem)
      · exact fun pair hmem => (hdone pair hmem).mono hcover
  | case4 met handle index pending hmet hmissing => cases hagrees

/-- Pairs that lead to one another are agreed on. -/
theorem agreesFrom_of_known (hknown : ∀ pair, known pair → method.LeadsInto templates known pair)
    (hpending : ∀ pair ∈ pending, known pair) : method.agreesFrom templates met pending = true := by
  fun_induction method.agreesFrom templates met pending with
  | case1 met => rfl
  | case2 met handle index pending hmet ih => exact ih (List.forall_mem_cons.mp hpending).2
  | case3 met handle index pending hmet instruction template hfound hnamed ih =>
    obtain ⟨hfirst, hrest⟩ := List.forall_mem_cons.mp hpending
    obtain ⟨other, named, hother, hnamed', hmatches, hnext⟩ := hknown _ hfirst
    obtain rfl := Option.some.inj (hfound.symm.trans hother)
    obtain rfl := Option.some.inj (hnamed.symm.trans hnamed')
    rw [Bool.and_eq_true]
    refine ⟨hmatches, ih fun pair hmem => ?_⟩
    exact (List.mem_append.mp hmem).elim (hnext pair) (hrest pair)
  | case4 met handle index pending hmet hmissing =>
    obtain ⟨instruction, template, hfound, hnamed, -⟩ := hknown _ (List.forall_mem_cons.mp hpending).1
    exact absurd hnamed (hmissing instruction template hfound)

/-- The targets of a match are related one by one. -/
theorem forall_targetPairs_iff {instruction : Instruction} {template : Template}
    (hmatches : instruction.matchesTemplate template = true) :
    (∀ next ∈ targetPairs instruction template, known next)
      ↔ ∀ k position : Nat, template.targets[k]? = some position →
          ∃ target, instruction.targets[k]? = some target ∧ known (target, position) := by
  rw [Instruction.matchesTemplate, Bool.and_eq_true, beq_iff_eq] at hmatches
  have hlength : instruction.targets.length = template.targets.length := hmatches.2
  constructor
  · intro hall k position hposition
    have hlt : k < instruction.targets.length := hlength ▸ (List.getElem?_eq_some_iff.mp hposition).1
    have hat := List.getElem?_eq_getElem hlt
    refine ⟨_, hat, hall _ (List.mem_of_getElem? (i := k) ?_)⟩
    rw [targetPairs, List.getElem?_zip_eq_some]
    exact ⟨hat, hposition⟩
  · rintro hall ⟨target, position⟩ hmem
    obtain ⟨k, hk⟩ := List.getElem?_of_mem hmem
    rw [targetPairs, List.getElem?_zip_eq_some] at hk
    obtain ⟨target', htarget, hrelated⟩ := hall k position hk.2
    obtain rfl := Option.some.inj (hk.1.symm.trans htarget)
    exact hrelated

/-- A relation is closed if its pairs lead to one another. -/
theorem Ordered.closed_iff (ho : method.Ordered) {related : Handle → Nat → Prop} :
    method.Closed templates related
      ↔ ∀ pair : Handle × Nat, related pair.1 pair.2 →
          method.LeadsInto templates (fun next => related next.1 next.2) pair := by
  constructor
  · rintro hclosed ⟨handle, index⟩ hrelated
    obtain ⟨hmem, template, hnamed, hmatches⟩ := hclosed.matched hrelated
    refine ⟨_, template, get_of_lt ((ho.mem_iff _).mp hmem), hnamed, hmatches, ?_⟩
    rw [forall_targetPairs_iff hmatches]
    exact fun k position hposition => (hclosed.targets hrelated hnamed k position hposition).2
  · intro hall
    have hget {handle : Handle} {instruction : Instruction}
        (hfound : method.get? handle = some instruction) :
        handle ∈ method.order ∧ method.get handle = instruction := by
      refine ⟨(ho.mem_iff _).mpr (Array.getElem?_eq_some_iff.mp hfound).1, ?_⟩
      rw [get, hfound, Option.getD_some]
    constructor
    · intro handle index hrelated
      obtain ⟨instruction, template, hfound, hnamed, hmatches, -⟩ := hall (handle, index) hrelated
      obtain ⟨hmem, rfl⟩ := hget hfound
      exact ⟨hmem, template, hnamed, hmatches⟩
    · intro handle index template hrelated hnamed k position hposition
      obtain ⟨instruction, template', hfound, hnamed', hmatches, hnext⟩ :=
        hall (handle, index) hrelated
      obtain rfl := Option.some.inj (hnamed.symm.trans hnamed')
      obtain ⟨-, rfl⟩ := hget hfound
      obtain ⟨target, htarget, hrelated'⟩ :=
        (forall_targetPairs_iff hmatches).mp hnext k position hposition
      obtain ⟨-, aimed, -, haimed, -⟩ := hall (target, position) hrelated'
      exact ⟨(List.getElem?_eq_some_iff.mp haimed).1, target, htarget, hrelated'⟩

/-- Pairs are agreed on if a closed relation holds of them all. -/
theorem Ordered.agreesFrom_iff_closed (ho : method.Ordered) :
    method.agreesFrom templates [] pending = true
      ↔ ∃ related, method.Closed templates related ∧ ∀ pair ∈ pending, related pair.1 pair.2 := by
  constructor
  · intro hagrees
    obtain ⟨done, hpending, hdone⟩ := exists_done_of_agreesFrom hagrees
    refine ⟨fun handle index => (handle, index) ∈ done, ?_, ?_⟩
    · rw [ho.closed_iff]
      rintro pair hmem
      exact (hdone pair hmem).mono fun next hnext => hnext.resolve_left List.not_mem_nil
    · exact fun pair hmem => (hpending pair hmem).resolve_left List.not_mem_nil
  · rintro ⟨related, hclosed, hpending⟩
    exact agreesFrom_of_known (ho.closed_iff.mp hclosed) hpending

/-- A copy of the templates starts at a position if the instructions from it on are related to them
by a closed relation. -/
theorem Ordered.occursAt_iff_closed (ho : method.Ordered) {position : Nat} :
    method.occursAt position templates = true
      ↔ templates ≠ [] ∧ position + templates.length ≤ method.length
        ∧ ∃ related, method.Closed templates related
          ∧ ∀ index < templates.length, ∀ handle, method.order[position + index]? = some handle →
              related handle index := by
  have hwindow (index : Nat) : ((method.order.drop position).take templates.length)[index]?
      = if index < templates.length then method.order[position + index]? else none := by
    rw [List.getElem?_take, List.getElem?_drop]
  have hlength : ((method.order.drop position).take templates.length).length = templates.length
      ↔ position + templates.length ≤ method.length ∨ templates = [] := by
    rw [List.length_take, List.length_drop, ← List.length_eq_zero_iff, length]
    omega
  rw [occursAt]
  simp only [Bool.and_eq_true, beq_iff_eq, ho.agreesFrom_iff_closed, hlength, Bool.not_eq_true',
    List.isEmpty_eq_false_iff, Prod.forall, List.mem_zipIdx_iff_getElem?, hwindow,
    Option.ite_none_right_eq_some, and_imp]
  constructor
  · rintro ⟨⟨hne, hfits⟩, related, hclosed, hpairs⟩
    exact ⟨hne, hfits.resolve_right hne, related, hclosed,
      fun index hindex handle hat => hpairs handle index hindex hat⟩
  · rintro ⟨hne, hfits, related, hclosed, hpairs⟩
    exact ⟨⟨hne, Or.inl hfits⟩, related, hclosed,
      fun handle index hindex hat => hpairs index hindex handle hat⟩

/-- The search by offset finds the instruction that was read from it. Instructions that were not
read are not found at any offset. -/
theorem Consistent.findByOrigin?_eq_some_iff (hc : method.Consistent) {offset : Int}
    {handle : Handle} :
    method.findByOrigin? offset = some handle
      ↔ handle ∈ method.order ∧ ∃ start : Nat, (method.get handle).origin = some start
          ∧ (start : Int) = offset := by
  constructor
  · intro hfind
    have hnegative : ¬ offset < 0 := by
      intro hneg
      rw [findByOrigin?, if_pos hneg] at hfind
      cases hfind
    have hstart : ((offset.toNat : Nat) : Int) = offset := Int.toNat_of_nonneg (by omega)
    rw [← hstart] at hfind
    obtain ⟨hmem, horigin⟩ := origin_of_findByOrigin? hfind
    exact ⟨hmem, offset.toNat, horigin, hstart⟩
  · rintro ⟨hmem, start, horigin, rfl⟩
    rw [findByOrigin?, if_neg (by omega), Int.toNat_natCast]
    have hsome : (method.order.find? fun other => (method.get other).origin == some start).isSome
        = true := by
      rw [List.find?_isSome]
      exact ⟨handle, hmem, by rw [horigin, beq_self_eq_true]⟩
    obtain ⟨found, hfound⟩ := Option.isSome_iff_exists.mp hsome
    have horigin' : (method.get found).origin = some start := by
      simpa using List.find?_some hfound
    rw [hfound, hc.origins found (List.mem_of_find?_eq_some hfound) handle hmem start horigin' horigin]

/-- The templates are recognised at an offset if an instruction was read from it and a copy of them
starts there. -/
theorem Consistent.isInstrumented_iff_occursAt (hc : method.Consistent) {offset : Int} :
    method.isInstrumented offset templates = true
      ↔ ∃ position handle, ∃ start : Nat, method.order[position]? = some handle
          ∧ (method.get handle).origin = some start ∧ (start : Int) = offset
          ∧ method.occursAt position templates = true := by
  have ho := hc.toOrdered
  rw [isInstrumented]
  constructor
  · intro hfound
    cases hfind : method.findByOrigin? offset with
    | none =>
      rw [hfind] at hfound
      cases hfound
    | some handle =>
      obtain ⟨hmem, start, horigin, hstart⟩ := hc.findByOrigin?_eq_some_iff.mp hfind
      obtain ⟨position, hat⟩ := List.getElem?_of_mem hmem
      rw [hfind] at hfound
      dsimp only at hfound
      rw [ho.position?_of_getElem? hat] at hfound
      exact ⟨position, handle, start, hat, horigin, hstart, hfound⟩
  · rintro ⟨position, handle, start, hat, horigin, hstart, hoccurs⟩
    have hfind := hc.findByOrigin?_eq_some_iff.mpr
      ⟨List.mem_of_getElem? hat, start, horigin, hstart⟩
    rw [hfind]
    dsimp only
    rw [ho.position?_of_getElem? hat]
    exact hoccurs

/-- Recognition decides the equivalence of code that may be cyclic: the templates are recognised at
an offset if an instruction was read from it, enough instructions follow, and a closed relation
holds of the instructions from it on and the templates. -/
theorem Reachable.isInstrumented_iff (hr : method.Reachable) (offset : Int)
    (templates : List Template) :
    method.isInstrumented offset templates = true
      ↔ templates ≠ [] ∧ ∃ position handle, ∃ start : Nat,
          method.order[position]? = some handle
          ∧ (method.get handle).origin = some start ∧ (start : Int) = offset
          ∧ position + templates.length ≤ method.length
          ∧ ∃ related : Handle → Nat → Prop, method.Closed templates related
            ∧ ∀ index < templates.length, ∀ other,
                method.order[position + index]? = some other → related other index := by
  have hc := hr.consistent
  rw [hc.isInstrumented_iff_occursAt]
  constructor
  · rintro ⟨position, handle, start, hat, horigin, hstart, hoccurs⟩
    obtain ⟨hne, hfits, hrelated⟩ := hc.toOrdered.occursAt_iff_closed.mp hoccurs
    exact ⟨hne, position, handle, start, hat, horigin, hstart, hfits, hrelated⟩
  · rintro ⟨hne, position, handle, start, hat, horigin, hstart, hfits, hrelated⟩
    exact ⟨position, handle, start, hat, horigin, hstart,
      hc.toOrdered.occursAt_iff_closed.mpr ⟨hne, hfits, hrelated⟩⟩

/-- The loop of `guardedLoop`, a load and a branch back to it, is recognised where it starts: the
load and the branch are related to their templates. -/
theorem Reachable.isInstrumented_iff_guardedLoop :
    ∃ method, decode guardedLoop = .ok method ∧ ∃ position handle, ∃ start : Nat,
      method.order[position]? = some handle
        ∧ (method.get handle).origin = some start ∧ (start : Int) = 0
        ∧ position + 2 ≤ method.length
        ∧ ∃ related : Handle → Nat → Prop,
          method.Closed [{ opcode := .ldarg0 }, { opcode := .brtrue, targets := [0] }] related
          ∧ ∀ index < 2, ∀ other, method.order[position + index]? = some other →
              related other index := by
  have hrun : (decode guardedLoop).map (Method.isInstrumented · 0
      [{ opcode := .ldarg0 }, { opcode := .brtrue, targets := [0] }]) = .ok true := by cbv
  cases hdecode : decode guardedLoop with
  | error cause =>
    rw [hdecode] at hrun
    cases hrun
  | ok method =>
    rw [hdecode] at hrun
    have hrecognised := Except.ok.inj hrun
    obtain ⟨-, hwindow⟩ := ((Reachable.decoded hdecode).isInstrumented_iff 0 _).mp hrecognised
    exact ⟨method, rfl, hwindow⟩

end Method

end CilCoverage
