import CilCoverage.Proofs.Method.Growth
import CilCoverage.Proofs.Method.Relinking

/-!
# Methods that agree

Which handles the instructions of a method have is of no account to its bytes, as far as no branch
and no region refers to them. `Method.Agrees` compares two methods by their contents in execution
order and by the places of the handles that are referred to. If both are laid out, then their
instructions have the same sizes, so that these handles have the same offsets, the branches the same
displacements, and the regions the same clauses, so the encoder sees no difference
(`Agrees.matches`).

This is so if both have grown out of one method with the same additions, and branches lead to the
same handles in both (`Grown.agrees`).
-/

set_option autoImplicit false

namespace CilCoverage

open Instruction

namespace Instruction

variable {one other : Instruction}

/-- Instructions of the same content have the same size. -/
theorem size_eq_of_content (hsame : one.content = other.content) (hone : one.Counted)
    (hother : other.Counted) : one.size = other.size := by
  rw [hone.size_eq, hother.size_eq, opcode_eq_of_content hsame, targets_eq_of_content hsame]

/-- What the outline leaves out of the content are the targets. -/
theorem content_eq_of_outline (hsame : one.outline = other.outline)
    (htargets : one.targets = other.targets) : one.content = other.content := by
  have hopcode : one.opcode = other.opcode := congrArg Outline.opcode hsame
  have hoperand : one.content.operand = other.content.operand := congrArg Outline.operand hsame
  have horigin : one.origin = other.origin := congrArg Outline.origin hsame
  show Instruction.mk one.opcode one.content.operand (-1) one.origin one.targets [] = _
  rw [hopcode, hoperand, horigin, htargets]
  rfl

/-- The outlines of instructions count their targets, so the targets of all of them are enough to
tell the contents. -/
theorem map_content_eq {code code' : List Instruction}
    (houtlines : code.map outline = code'.map outline)
    (hlinks : code.flatMap targets = code'.flatMap targets) :
    code.map content = code'.map content := by
  induction code generalizing code' with
  | nil => rw [List.map_eq_nil_iff.mp houtlines.symm]
  | cons first rest ih =>
    cases code' with
    | nil => cases houtlines
    | cons first' rest' =>
      obtain ⟨hfirst, hrest⟩ := List.cons.inj houtlines
      have hcount : first.targets.length = first'.targets.length :=
        congrArg Outline.targetCount hfirst
      rw [List.flatMap_cons, List.flatMap_cons] at hlinks
      obtain ⟨htargets, hlater⟩ := List.append_inj hlinks hcount
      rw [List.map_cons, List.map_cons, content_eq_of_outline hfirst htargets, ih hrest hlater]

/-- Its content, its offset and the offsets of its targets tell an instruction that is aimed. -/
theorem WellFormed.eq_of_content (hw : one.WellFormed) (hw' : other.WellFormed)
    (hsame : one.content = other.content) (hoffset : one.offset = other.offset)
    {offsetOf offsetOf' : Handle → Int} (haimed : one.aimed offsetOf = one)
    (haimed' : other.aimed offsetOf' = other)
    (htargets : ∀ target ∈ one.targets, offsetOf target = offsetOf' target) : one = other := by
  have hopcode := opcode_eq_of_content hsame
  have horigin := origin_eq_of_content hsame
  have hlinks := targets_eq_of_content hsame
  have hfinish : one.finish = other.finish := by
    rw [finish, finish, hoffset, size_eq_of_content hsame hw.counted hw'.counted]
  have hbranches : (one.isBranch && !one.targets.isEmpty)
      = (other.isBranch && !other.targets.isEmpty) := by
    rw [isBranch, isBranch, hopcode, hlinks]
  -- what the content leaves out of a branch is read off its targets, which start at the same
  -- offsets
  have hrest : one.operand = other.operand ∧ one.displacements = other.displacements := by
    by_cases hbranch : (one.isBranch && !one.targets.isEmpty) = true
    · have hdistances : one.distances offsetOf = other.distances offsetOf' := by
        rw [distances, distances, hfinish, ← hlinks]
        apply List.map_congr_left
        intro target hmem
        rw [htargets target hmem]
      rw [aimed_of_branch _ _ hbranch] at haimed
      rw [aimed_of_branch _ _ (hbranches ▸ hbranch), ← hdistances, ← hopcode] at haimed'
      have hoperand := congrArg Instruction.operand haimed
      have hoperand' := congrArg Instruction.operand haimed'
      have hdisplacements := congrArg Instruction.displacements haimed
      have hdisplacements' := congrArg Instruction.displacements haimed'
      exact ⟨(Eq.symm hoperand).trans hoperand', (Eq.symm hdisplacements).trans hdisplacements'⟩
    · have hnil : one.targets = [] := by
        cases hkind : one.isBranch with
        | false => exact hw.targets_eq_nil hkind
        | true => simpa [hkind] using hbranch
      refine ⟨?_, ?_⟩
      · have hoperand := congrArg Instruction.operand hsame
        simp only [content] at hoperand
        rwa [if_neg hbranch, if_neg (hbranches ▸ hbranch)] at hoperand
      · rw [hw.bare hnil, hw'.bare (hlinks ▸ hnil)]
  obtain ⟨hoperand, hdisplacements⟩ := hrest
  cases one
  cases other
  simp only [mk.injEq]
  exact ⟨hopcode, hoperand, hoffset, horigin, hlinks, hdisplacements⟩

end Instruction

/-- A clause depends on the offsets of its boundaries only. -/
theorem Region.toClause_congr {region : Region} {f g : Handle → UInt32}
    (hsame : ∀ boundary ∈ region.boundaries, f boundary.1 = g boundary.1) :
    region.toClause f = region.toClause g := by
  have hself : region.renamed id = region := renamed_eq_self region id fun _ _ => rfl
  have hrenamed : (region.renamed id).toClause f = region.toClause g :=
    toClause_renamed region id hsame
  rwa [hself] at hrenamed

namespace Method

/-- The methods are the same to the encoder. -/
structure Matches (one other : Method) : Prop where
  header : one.header = other.header
  instructions : one.instructions = other.instructions
  clauses : one.clauses = other.clauses

section Matching

variable {one other : Method}

/-- Methods that match have the same bytes. -/
theorem Matches.toBytes_eq (hm : one.Matches other) : one.toBytes = other.toBytes := by
  have hcount : one.regions.length = other.regions.length := by
    rw [← length_clauses, ← length_clauses, hm.clauses]
  have hempty : one.regions.isEmpty = other.regions.isEmpty := by
    rw [← isEmpty_clauses, ← isEmpty_clauses, hm.clauses]
  have hsize : one.encodedSize = other.encodedSize := by
    rw [encodedSize, encodedSize, codeSize, codeSize, hm.header, hcount, hempty]
  have hregions (method : Method) : (method.regions.forM fun region =>
      (region.toClause method.storedOffset).write) = method.clauses.forM Clause.write :=
    List.forM_map.symm
  have hemit : one.emit = other.emit := by
    rw [emit, emit, emitRegions, emitRegions, hregions, hregions, hm.header, hm.instructions,
      hm.clauses, hcount, hempty]
  rw [toBytes, toBytes, write, write, fill, fill, hemit, hsize]

/-- Methods that match still do with more stack. -/
theorem Matches.increaseMaxStack (hm : one.Matches other) (extra : UInt16) :
    (one.increaseMaxStack extra).Matches (other.increaseMaxStack extra) where
  header := by
    rw [Method.increaseMaxStack, Method.increaseMaxStack, hm.header]
  instructions := hm.instructions
  clauses := hm.clauses

end Matching

/-- Where the branches lead to, in execution order. -/
def links (method : Method) : List Handle := method.instructions.flatMap targets

/-- The methods have the same contents in execution order, and what branches lead to and regions are
bounded by has the same place. -/
structure Agrees (one other : Method) : Prop where
  contents : one.contents = other.contents
  regions : one.regions = other.regions
  places : ∀ handle ∈ one.links ++ one.boundaries.map Prod.fst,
    one.order.idxOf handle = other.order.idxOf handle

section Agreement

variable {one other : Method}

/-- The contents are those of the instructions. -/
theorem contents_eq_map (method : Method) :
    method.contents = method.instructions.map Instruction.content := by
  rw [contents, instructions, List.map_map]
  rfl

/-- The links are those of the contents. -/
theorem links_eq_flatMap (method : Method) : method.links = method.contents.flatMap targets := by
  rw [contents_eq_map, List.flatMap_map]
  rfl

/-- The targets of a listed instruction are links. -/
theorem mem_links_of_targets {method : Method} {handle target : Handle}
    (hmem : handle ∈ method.order) (htarget : target ∈ (method.get handle).targets) :
    target ∈ method.links :=
  List.mem_flatMap.mpr ⟨method.get handle, List.mem_map_of_mem hmem, htarget⟩

/-- In a valid method links lead to listed instructions. -/
theorem Valid.mem_order_of_links {method : Method} (hv : method.Valid) {target : Handle}
    (htarget : target ∈ method.links) : target ∈ method.order := by
  obtain ⟨instruction, hmem, htarget⟩ := List.mem_flatMap.mp htarget
  obtain ⟨handle, -, rfl⟩ := List.mem_map.mp hmem
  exact hv.targets_mem_order htarget

/-- Methods that agree are equally long. -/
theorem Agrees.length_eq (ha : one.Agrees other) : one.order.length = other.order.length := by
  have hlength := congrArg List.length ha.contents
  rwa [Method.contents, Method.contents, List.length_map, List.length_map] at hlength

/-- An instruction has a counterpart of the same content at its position. -/
theorem Agrees.exists_counterpart (ha : one.Agrees other) {k : Nat} {handle : Handle}
    (hat : one.order[k]? = some handle) : ∃ handle', other.order[k]? = some handle'
      ∧ (one.get handle).content = (other.get handle').content := by
  have hcontent : one.contents[k]? = some (one.get handle).content := by
    rw [Method.contents, List.getElem?_map, hat]
    rfl
  rw [ha.contents, Method.contents, List.getElem?_map, Option.map_eq_some_iff] at hcontent
  obtain ⟨handle', hat', hsame⟩ := hcontent
  exact ⟨handle', hat', hsame.symm⟩

/-- Instructions with the same place are the same if they are so where it matters. -/
theorem Agrees.map_instructions_eq {α : Type} {f : Instruction → α} (ha : one.Agrees other)
    (hf : ∀ {k : Nat} {handle handle' : Handle}, one.order[k]? = some handle →
      other.order[k]? = some handle' →
      (one.get handle).content = (other.get handle').content →
        f (one.get handle) = f (other.get handle')) :
    one.instructions.map f = other.instructions.map f := by
  apply List.ext_getElem?
  intro k
  rw [instructions, instructions, List.map_map, List.map_map, List.getElem?_map, List.getElem?_map]
  cases hat : one.order[k]? with
  | none =>
    rw [List.getElem?_eq_none (ha.length_eq ▸ List.getElem?_eq_none_iff.mp hat)]
    rfl
  | some handle =>
    obtain ⟨handle', hat', hsame⟩ := ha.exists_counterpart hat
    rw [hat']
    exact congrArg some (hf hat hat' hsame)

/-- In methods that agree positions start at the same offset. -/
theorem Agrees.startOf_eq (ha : one.Agrees other) (hv : one.Valid) (hv' : other.Valid) (k : Nat) :
    startOf one.instructions k = startOf other.instructions k := by
  refine congrFun (startOf_congr (ha.map_instructions_eq ?_)) k
  intro k handle handle' _ _ hsame
  exact size_eq_of_content hsame (hv.wellFormed handle).counted (hv'.wellFormed handle').counted

/-- What is referred to has the same offset. -/
theorem Agrees.offsetOf_eq (ha : one.Agrees other) (hv : one.Valid) (hv' : other.Valid)
    (hl : one.Laid) (hl' : other.Laid) {handle : Handle}
    (hreferred : handle ∈ one.links ++ one.boundaries.map Prod.fst) (hmem : handle ∈ one.order) :
    one.offsetOf handle = other.offsetOf handle := by
  have hplace := ha.places handle hreferred
  have hmem' : handle ∈ other.order := by
    have hlt := List.idxOf_lt_length_of_mem hmem
    rw [hplace, ha.length_eq] at hlt
    exact List.idxOf_lt_length_iff.mp hlt
  rw [hl.offsetOf_eq hmem, hl'.offsetOf_eq hmem', hplace, ha.startOf_eq hv hv']

/-- Laid out, methods that agree have the same instructions. -/
theorem Agrees.instructions_eq (ha : one.Agrees other) (hv : one.Valid) (hv' : other.Valid)
    (hl : one.Laid) (hl' : other.Laid) : one.instructions = other.instructions := by
  rw [← List.map_id one.instructions, ← List.map_id other.instructions]
  apply ha.map_instructions_eq
  intro k handle handle' hat hat' hsame
  have hmem := List.mem_of_getElem? hat
  have hoffset : one.offsetOf handle = other.offsetOf handle' := by
    rw [hl.offset hat, hl'.offset hat', ha.startOf_eq hv hv']
  refine (hv.wellFormed handle).eq_of_content (hv'.wellFormed handle') hsame hoffset
    (hl.aimed handle hmem) (hl'.aimed handle' (List.mem_of_getElem? hat')) ?_
  intro target htarget
  exact ha.offsetOf_eq hv hv' hl hl' (List.mem_append_left _ (mem_links_of_targets hmem htarget))
    (hv.targets_mem_order htarget)

/-- Laid out, methods that agree have the same clauses. -/
theorem Agrees.clauses_eq (ha : one.Agrees other) (hv : one.Valid) (hv' : other.Valid)
    (hl : one.Laid) (hl' : other.Laid) : one.clauses = other.clauses := by
  rw [clauses, clauses, ← ha.regions]
  apply List.map_congr_left
  intro region hregion
  apply Region.toClause_congr
  intro boundary hmem
  have hreferred : boundary.1 ∈ one.links ++ one.boundaries.map Prod.fst :=
    List.mem_append_right _ (List.mem_map_of_mem (List.mem_flatMap.mpr ⟨region, hregion, hmem⟩))
  rw [storedOffset, storedOffset, ha.offsetOf_eq hv hv' hl hl' hreferred
    (hv.boundary_mem_order hregion hmem)]

/-- The code sizes of methods that agree are the same, so it is enough to compare the other fields
of their headers. -/
theorem Agrees.matches (ha : one.Agrees other) (hv : one.Valid) (hv' : other.Valid)
    (hl : one.Laid) (hl' : other.Laid)
    (hheader : one.header = { other.header with codeSize := one.header.codeSize }) :
    one.Matches other where
  header := by
    have hcode : one.header.codeSize = other.header.codeSize := by
      rw [hl.codeSize, hl'.codeSize, ha.startOf_eq hv hv']
      exact congrArg (fun k => UInt32.ofNat (min (startOf other.instructions k) _)) ha.length_eq
    rw [hheader, hcode]
  instructions := ha.instructions_eq hv hv' hl hl'
  clauses := ha.clauses_eq hv hv' hl hl'

end Agreement

section Growing

variable {method one other : Method} {additions : Additions}
  {segment segment' : Handle → List Handle}

/-- The place of an old handle is told by the additions. -/
theorem Grown.idxOf_eq (hg : method.Grown other additions segment) {handle : Handle}
    (hmem : handle ∈ method.order) : other.order.idxOf handle
      = ((method.order.take (method.order.idxOf handle)).map fun earlier =>
          (additions.around method earlier).length).sum := by
  have hnodup := hg.ordered.nodup
  rw [hg.order] at hnodup ⊢
  rw [idxOf_flatMap hnodup (fun _ => hg.head?_segment) hmem]
  congr 1
  apply List.map_congr_left
  intro earlier hearlier
  rw [← hg.outlines earlier (List.mem_of_mem_take hearlier), List.length_map]

/-- Additions tell a method, as long as branches go on to lead to old handles. -/
theorem Grown.agrees (hg : method.Grown one additions segment)
    (hg' : method.Grown other additions segment') (hv : method.Valid)
    (hlinks : one.links = method.links) (hlinks' : other.links = method.links) :
    one.Agrees other where
  contents := by
    have houtlines : one.instructions.map outline = other.instructions.map outline := by
      rw [instructions, instructions, List.map_map, List.map_map]
      exact hg.outlines_eq.trans hg'.outlines_eq.symm
    rw [contents_eq_map, contents_eq_map]
    exact map_content_eq houtlines (hlinks.trans hlinks'.symm)
  regions := hg.regions.trans hg'.regions.symm
  places := by
    intro handle hmem
    have hold : handle ∈ method.order := by
      rcases List.mem_append.mp hmem with hlink | hboundary
      · exact hv.mem_order_of_links (hlinks ▸ hlink)
      · obtain ⟨boundary, hin, rfl⟩ := List.mem_map.mp hboundary
        rw [boundaries, hg.regions] at hin
        exact (hv.ordered.mem_iff _).mpr (hv.boundaries boundary hin)
    rw [hg.idxOf_eq hold, hg'.idxOf_eq hold]

end Growing

end Method

end CilCoverage
