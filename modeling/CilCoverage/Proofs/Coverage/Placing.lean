import CilCoverage.Proofs.Coverage.Plan
import CilCoverage.Proofs.Method.Insertion

/-!
# Steps of placement

Placement consists of edits of the execution order, between which the method is laid out. An edit
happens at an instruction of the body as read, so injected code stays as it is (`Reports.replaced`),
and of the other instructions nothing changes but their offsets. What remains to be said of an edit
is what becomes of the instruction where it happens (`Instrumented.replaced`).

For insertions this is said here: the id of a probe is reported before the instruction that it is
inserted at (`Instrumented.insertAt`), unless that is a `rethrow` which has to stay the entry of its
handler.
-/

set_option autoImplicit false

namespace CilCoverage

open Instruction

namespace Method

variable {method other : Method} {plan plan' : Plan} {body body' : Handle → Handle}
  {source target position : Nat}

/-- A valid method whose instructions were read from different offsets; only its label was not
read. -/
structure AsRead (method : Method) : Prop extends method.Valid where
  unread : ∀ handle, (method.get handle).origin = none → (method.get handle).opcode = .label
  origins : ∀ one ∈ method.order, ∀ another ∈ method.order, ∀ offset,
    (method.get one).origin = some offset → (method.get another).origin = some offset →
      one = another

/-- Laying out does not change what an instruction does. -/
theorem Ordered.alike_layOut (ho : other.Ordered) (handle : Handle) :
    (other.layOut.get handle).Alike (other.get handle) := by
  obtain ⟨offset, hget⟩ := ho.exists_get_layOut handle
  rw [hget]
  refine ⟨opcode_aimed _ _, origin_aimed _ _, targets_aimed _ _, ?_⟩
  intro hplain
  have hnot : ¬ (((other.get handle).movedTo offset).isBranch
      && !((other.get handle).movedTo offset).targets.isEmpty) = true := by
    rw [show ((other.get handle).movedTo offset).isBranch = false from hplain]
    exact nofun
  rw [aimed_of_not_branch _ _ hnot]
  rfl

/-- Laying out changes nothing that matters to a plan. -/
theorem Instrumented.layOut (hi : method.Instrumented other plan body) :
    method.Instrumented other.layOut plan body where
  ordered := hi.ordered.layOut
  size := by
    rw [size_slots_layOut]
    exact hi.size
  regions := hi.regions
  entry := hi.entry
  placed := by
    intro handle hmem
    have hp := hi.placed handle hmem
    have halike := hi.ordered.alike_layOut
    refine hp.frame hp.here (halike _) (after?_congr (halike _) rfl) ?_ rfl rfl
    intro start ids finish hreports
    exact hreports.frame hi.ordered fun handle _ _ => ⟨halike handle, rfl⟩
  tracked := by
    intro handle hmem offset horigin
    rw [(hi.ordered.alike_layOut handle).origin] at horigin
    exact hi.tracked handle hmem offset horigin

section Replacing

variable {first : Instruction} {rest : List Instruction}

/-- Where other instructions lead to is not changed by an edit. -/
theorem after?_replaced_of_ne (ho : other.Ordered) (hat : other.order[position]? = some target)
    {handle : Handle} (hmem : handle ∈ other.order) (hne : target ≠ handle) (path : Nat) :
    (other.replaced target position first rest).after? handle path = other.after? handle path := by
  apply after?_congr
  · rw [get_replaced_of_ne ((ho.mem_iff handle).mp hmem) hne]
    exact .refl _
  · exact next?_replaced_of_ne ho hat hmem hne

/-- Injected code is not touched by an edit at an instruction that was read. -/
theorem Reports.replaced (ho : other.Ordered) (hat : other.order[position]? = some target)
    (hread : (other.get target).origin ≠ none) {start finish : Handle} {ids : List UInt32}
    (hreports : other.Reports start ids finish) :
    (other.replaced target position first rest).Reports start ids finish := by
  apply hreports.frame ho
  intro handle hmem horigin
  have hne : target ≠ handle := by
    rintro rfl
    exact hread horigin
  rw [get_replaced_of_ne ((ho.mem_iff handle).mp hmem) hne]
  exact ⟨.refl _, next?_replaced_of_ne ho hat hmem hne⟩

/-- The handles that an edit writes to are those of the chain. -/
theorem exists_chained (ho : other.Ordered) {handle : Nat}
    (hmem : handle ∈ (other.replaced target position first rest).order)
    (hwritten : handle = target ∨ other.slots.size ≤ handle) :
    ∃ index ≤ rest.length, handle = other.chained target index := by
  rcases hwritten with rfl | hfresh
  · exact ⟨0, Nat.zero_le _, rfl⟩
  · have hlt := (ho.replaced.mem_iff handle).mp hmem
    rw [size_replaced] at hlt
    exact ⟨handle - other.slots.size + 1, Nat.sub_lt_left_of_lt_add hfresh hlt,
      (Nat.add_sub_cancel' hfresh).symm⟩

/-- An edit at the instruction `source` of the body as read carries on with the plan if it does so
for `source` itself. -/
theorem Instrumented.replaced (hm : method.AsRead) (hi : method.Instrumented other plan body)
    (hat : other.order[position]? = some target) (hsource : source ∈ method.order)
    (hbody : body source = target) (hread : (method.get source).origin ≠ none)
    (hothers : ∀ handle, handle ≠ source → plan'.before handle = plan.before handle
      ∧ plan'.block? handle = plan.block? handle ∧ body' handle = body handle)
    (hsettled : method.Placed (other.replaced target position first rest) plan' source
      (body' source))
    (hwritten : ∀ index ≤ rest.length, ∀ instruction, (first :: rest)[index]? = some instruction →
      instruction.origin ≠ none → body' source = other.chained target index) :
    method.Instrumented (other.replaced target position first rest) plan' body' := by
  have hlt := hi.ordered.lt_of_getElem? hat
  have horigin := (hi.placed source hsource).origin
  rw [hbody] at horigin
  have hread' : (other.get target).origin ≠ none := by rwa [horigin]
  -- handles are told apart by the offsets that their instructions were read from
  have hapart {handle : Handle} (hmem : handle ∈ method.order) (hne : handle ≠ source) :
      target ≠ body handle := by
    intro heq
    obtain ⟨offset, hoffset⟩ := Option.ne_none_iff_exists'.mp hread
    have hsame := (hi.placed handle hmem).origin
    rw [← heq, horigin, hoffset] at hsame
    exact hne (hm.origins handle hmem source hsource offset hsame.symm hoffset)
  refine ⟨hi.ordered.replaced, ?_, hi.regions, ?_, ?_, ?_⟩
  · rw [size_replaced]
    exact Nat.le_trans hi.size (Nat.le_add_right _ _)
  · rw [head?_order_replaced hat]
    exact hi.entry
  · intro handle hmem
    by_cases hne : handle = source
    · rw [hne]
      exact hsettled
    · obtain ⟨hbefore, hblock, hsame⟩ := hothers handle hne
      have hp := hi.placed handle hmem
      have hother := hapart hmem hne
      have hget : (other.replaced target position first rest).get (body handle)
          = other.get (body handle) :=
        get_replaced_of_ne ((hi.ordered.mem_iff _).mp hp.here) hother
      rw [hsame]
      refine hp.frame ?_ ?_ (after?_replaced_of_ne hi.ordered hat hp.here hother)
        (Reports.replaced hi.ordered hat hread') hbefore hblock
      · rw [order_replaced]
        exact sublist_insertBehind.subset hp.here
      · rw [hget]
        exact .refl _
  · intro handle hmem offset hoffset
    by_cases hedited : handle = target ∨ other.slots.size ≤ handle
    · obtain ⟨index, hindex, rfl⟩ := exists_chained hi.ordered hmem hedited
      rw [get_replaced_chained hlt] at hoffset
      cases hinstruction : (first :: rest)[index]? with
      | none =>
        rw [hinstruction] at hoffset
        cases hoffset
      | some instruction =>
        rw [hinstruction, Option.getD_some] at hoffset
        refine ⟨source, hsource, hwritten index hindex instruction hinstruction ?_⟩
        rw [hoffset]
        exact nofun
    · rw [not_or, Nat.not_le] at hedited
      rw [get_replaced_of_ne hedited.2 (Ne.symm hedited.1)] at hoffset
      obtain ⟨known, hknown, rfl⟩ :=
        hi.tracked handle ((hi.ordered.mem_iff handle).mpr hedited.2) offset hoffset
      refine ⟨known, hknown, (hothers known ?_).2.2⟩
      rintro rfl
      exact hedited.1 hbody

end Replacing

section Inserting

variable {probe : Probe} {id : UInt32}

/-- What has to keep its place is told by the body as read. -/
theorem Instrumented.keepsEntry_eq (hm : method.AsRead)
    (hi : method.Instrumented other plan body) (hsource : source ∈ method.order) :
    other.keepsEntry (body source) = method.keepsEntry source := by
  have hp := hi.placed source hsource
  rcases hp.moved with hsame | hmoved
  · rw [keepsEntry, keepsEntry, hp.opcode, hi.regions, hsame]
  · rw [keepsEntry_eq_false hm.boundaries hi.regions hmoved]
    cases hkeeps : method.keepsEntry source with
    | false => rfl
    | true =>
      have hlt := (hm.ordered.mem_iff _).mp hsource
      rw [hp.kept hkeeps] at hmoved
      exact absurd hlt (Nat.not_lt.mpr hmoved)

section TakingOver

variable {first : Instruction} {rest : List Instruction} {probe : Probe} {id : UInt32}

/-- The last handle of the chain holds the instruction whose handle was taken over. -/
theorem get_replaced_end (hlt : target < other.slots.size)
    (hend : (first :: rest)[rest.length]? = some (other.get target)) :
    (other.replaced target position first rest).get (other.chained target rest.length)
      = other.get target := by
  rw [get_replaced_chained hlt, hend]
  rfl

/-- The end of an edited place leads to where the target led. -/
theorem after?_replaced_end (ho : other.Ordered) (hat : other.order[position]? = some target)
    (hend : (first :: rest)[rest.length]? = some (other.get target)) (path : Nat) :
    (other.replaced target position first rest).after? (other.chained target rest.length) path
      = other.after? target path := by
  apply after?_congr
  · rw [get_replaced_end (ho.lt_of_getElem? hat) hend]
    exact .refl _
  · exact next?_replaced_last ho hat

/-- The copies of a probe at the front of the chain report its id. -/
theorem reports_chained (ho : other.Ordered) (hat : other.order[position]? = some target)
    (hlength : rest.length = (probe.sequence id).length)
    (hcopy : ∀ {index : Nat} {template : Template}, (probe.sequence id)[index]? = some template →
      (first :: rest)[index]? = some (template.copied (other.chained target))) :
    (other.replaced target position first rest).Reports target [id]
      (other.chained target rest.length) := by
  have hcode {index : Nat} {template : Template}
      (hindex : (probe.sequence id)[index]? = some template) :
      ((other.replaced target position first rest).get (other.chained target index)).Alike
        (template.copied (other.chained target)) := by
    rw [get_replaced_chained (ho.lt_of_getElem? hat), hcopy hindex]
    exact .refl _
  have hnext (index : Nat) (hindex : index < (probe.sequence id).length) :
      (other.replaced target position first rest).next? (other.chained target index)
        = some (other.chained target (index + 1)) :=
    next?_replaced_chained ho hat (by rwa [hlength])
  rw [hlength]
  exact reports_sequence probe id hcode hnext

/-- An instruction that has moved to another handle, with ids that are reported on the way to it. -/
theorem Placed.moved_behind {other' : Method} {now : Handle} {ids : List UInt32}
    (hp : method.Placed other plan source (body source))
    (hget : other'.get now = other.get (body source)) (hhere : now ∈ other'.order)
    (hafter : ∀ path, other'.after? now path = other.after? (body source) path)
    (hreports : ∀ {start ids finish}, other.Reports start ids finish →
      other'.Reports start ids finish)
    (hbehind : other'.Reports (body source) ids now) (hmoved : method.slots.size ≤ now)
    (hkeeps : method.keepsEntry source = false) :
    method.Placed other'
      { plan with before := Function.update plan.before source (plan.before source ++ ids) }
      source now where
  here := hhere
  opcode := by rw [hget, hp.opcode]
  origin := by rw [hget, hp.origin]
  count := by rw [hget, hp.count]
  arrives := by
    show other'.Reports _ (Function.update plan.before source _ source) _
    rw [Function.update_self]
    exact (hreports hp.arrives).trans hbehind
  direct := by
    intro path hpath hnone
    rw [hafter, hp.direct path hpath hnone]
  detour := by
    intro path hpath block hsome
    obtain ⟨start, hstart, hreport⟩ := hp.detour path hpath block hsome
    exact ⟨start, (hafter path).trans hstart, hreports hreport⟩
  moved := Or.inr hmoved
  kept := by
    intro hkept
    rw [hkeeps] at hkept
    cases hkept

/-- The code of a probe that takes over the handle of an instruction reports before it. -/
theorem Instrumented.insertTakingOver (hm : method.AsRead)
    (hi : method.Instrumented other plan body) (hsource : source ∈ method.order)
    (hread : (method.get source).origin ≠ none)
    (hat : other.order[position]? = some (body source))
    (hkeeps : method.keepsEntry source = false) (probe : Probe) (id : UInt32) :
    ∃ body', method.Instrumented
      (other.insertTakingOver (body source) position (probe.sequence id))
      (plan.reporting method source id) body' := by
  have hp := hi.placed source hsource
  have hlt := hi.ordered.lt_of_getElem? hat
  have hread' : (other.get (body source)).origin ≠ none := by rwa [hp.origin]
  obtain ⟨first, rest, heq, hcontents⟩ :=
    exists_insertTakingOver_eq other (body source) position Probe.sequence_ne_nil
  have hlength : rest.length = (probe.sequence id).length := by
    simpa using congrArg List.length hcontents
  have hcopy {index : Nat} {template : Template}
      (hindex : (probe.sequence id)[index]? = some template) :
      (first :: rest)[index]? = some (template.copied (other.chained (body source))) := by
    have hin := (List.getElem?_eq_some_iff.mp hindex).1
    rw [hcontents, List.getElem?_append_left (by rwa [List.length_map]), List.getElem?_map, hindex]
    rfl
  have hend : (first :: rest)[rest.length]? = some (other.get (body source)) := by
    rw [hcontents, hlength, List.getElem?_append_right (by simp)]
    simp
  refine ⟨Function.update body source (other.chained (body source) rest.length), ?_⟩
  rw [Plan.reporting, hkeeps, if_neg Bool.false_ne_true, heq]
  refine hi.replaced hm hat hsource rfl hread ?_ ?_ ?_
  · intro handle hother
    exact ⟨Function.update_of_ne hother _ _, rfl, Function.update_of_ne hother _ _⟩
  · rw [Function.update_self]
    refine hp.moved_behind (get_replaced_end hlt hend) ?_ (after?_replaced_end hi.ordered hat hend)
      (Reports.replaced hi.ordered hat hread') (reports_chained hi.ordered hat hlength hcopy) ?_
      hkeeps
    · exact List.mem_of_getElem? (getElem?_order_chained hat (Nat.le_refl _))
    · have hpos : 0 < (probe.sequence id).length := List.length_pos_iff.mpr Probe.sequence_ne_nil
      rw [chained, if_neg (by omega)]
      exact Nat.le_trans hi.size (Nat.le_add_right _ _)
  · -- the copies were not read, so only the last handle of the chain is to be looked at
    intro index hindex instruction hinstruction hread
    rw [Function.update_self]
    rcases Nat.lt_or_ge index rest.length with hcopied | hlast
    · rw [hlength] at hcopied
      rw [hcopy (List.getElem?_eq_getElem hcopied)] at hinstruction
      cases hinstruction
      exact absurd rfl hread
    · rw [Nat.le_antisymm hindex hlast]

end TakingOver

/-- Code behind an instruction that is left at once is never run. -/
theorem Instrumented.insertBehindTarget (hm : method.AsRead)
    (hi : method.Instrumented other plan body) (hsource : source ∈ method.order)
    (hread : (method.get source).origin ≠ none)
    (hat : other.order[position]? = some (body source))
    (hkeeps : method.keepsEntry source = true) (templates : List Template) :
    method.Instrumented (other.insertBehindTarget position templates) plan body := by
  have hp := hi.placed source hsource
  have hlt := hi.ordered.lt_of_getElem? hat
  have hread' : (other.get (body source)).origin ≠ none := by rwa [hp.origin]
  rw [insertBehindTarget_eq hlt]
  refine hi.replaced hm hat hsource rfl hread (fun _ _ => ⟨rfl, rfl, rfl⟩) ?_ ?_
  · have hget : (other.replaced (body source) position (other.get (body source))
        (templates.map (Template.copied · (other.slots.size + ·)))).get (body source)
          = other.get (body source) := get_replaced_self hlt
    have hthrow : (other.get (body source)).flow = .throw := by
      rw [Instruction.flow, hp.opcode, opcode_of_keepsEntry hkeeps]
      rfl
    refine hp.frame ?_ ?_ ?_ (Reports.replaced hi.ordered hat hread') rfl rfl
    · rw [order_replaced]
      exact sublist_insertBehind.subset hp.here
    · rw [hget]
      exact .refl _
    · intro path
      rw [after?, after?, hget, hthrow]
  · intro index hindex instruction hinstruction hread
    cases index with
    | zero => rfl
    | succ index =>
      rw [List.getElem?_cons_succ] at hinstruction
      obtain ⟨template, -, rfl⟩ := List.mem_map.mp (List.mem_of_getElem? hinstruction)
      exact absurd rfl hread

/-- A probe that is inserted at an instruction reports before it. -/
theorem Instrumented.insertAt (hm : method.AsRead) (hi : method.Instrumented other plan body)
    (hsource : source ∈ method.order) (hread : (method.get source).origin ≠ none) {probe : Probe}
    {id : UInt32} {inserted : Method}
    (hinsert : other.insertAt (body source) (probe.sequence id) = .ok inserted) :
    ∃ body', method.Instrumented inserted (plan.reporting method source id) body' := by
  unfold Method.insertAt at hinsert
  split at hinsert
  · rename_i hempty
    exact absurd (List.isEmpty_iff.mp hempty) Probe.sequence_ne_nil
  · split at hinsert
    · cases hinsert
    · rename_i position hposition
      have hat := getElem?_of_position? hposition
      split at hinsert
      · cases hinsert
      · rw [hi.keepsEntry_eq hm hsource] at hinsert
        split at hinsert
        · rename_i hkeeps
          cases hinsert
          refine ⟨body, ?_⟩
          rw [Plan.reporting, if_pos hkeeps]
          exact (hi.insertBehindTarget hm hsource hread hat hkeeps _).layOut
        · rename_i hkeeps
          cases hinsert
          rw [Bool.not_eq_true] at hkeeps
          obtain ⟨body', hplaced⟩ := hi.insertTakingOver hm hsource hread hat hkeeps probe id
          exact ⟨body', hplaced.layOut⟩

end Inserting

end Method

end CilCoverage
