import CilCoverage.Proofs.Coverage.Placing

/-!
# Blocks of branches

The blocks of a branch follow it one after the other (`exists_locateBlocks`), each reports its id
and leads to its exit (`reports_block`), and every path of the branch that has a block is led to it
(`placed_ledTo`). The block of the fall-through path comes first whenever there is any
(`exists_pathBlocks_eq_cons`), so that control falls into it.
-/

set_option autoImplicit false

namespace CilCoverage

open Instruction

section Locating

variable {probe : Probe} {blocks : List PathBlock}

/-- The code of a located block stands at its place. -/
theorem exists_locateBlocks {start : Nat} {block : PathBlock} {entry : Handle}
    (hmem : (block, entry) ∈ locateBlocks probe start blocks) :
    ∃ k, entry = start + k ∧ ∀ {j : Nat} {instruction : Instruction},
      (block.code probe)[j]? = some instruction →
        (blocks.flatMap (PathBlock.code probe))[k + j]? = some instruction := by
  induction blocks generalizing start with
  | nil => cases hmem
  | cons first rest ih =>
    rw [locateBlocks, List.mem_cons] at hmem
    rcases hmem with heq | hrest
    · cases heq
      refine ⟨0, rfl, ?_⟩
      intro j instruction hj
      have hlt := (List.getElem?_eq_some_iff.mp hj).1
      rwa [Nat.zero_add, List.flatMap_cons, List.getElem?_append_left hlt]
    · obtain ⟨k, hentry, hcode⟩ := ih hrest
      refine ⟨(first.code probe).length + k, ?_, ?_⟩
      · rw [hentry, Nat.add_assoc]
      · intro j instruction hj
        rw [List.flatMap_cons, Nat.add_assoc, List.getElem?_append_right (Nat.le_add_right _ _),
          Nat.add_sub_cancel_left]
        exact hcode hj

/-- Locating keeps the blocks and their order. -/
theorem map_fst_locateBlocks (probe : Probe) (start : Nat) (blocks : List PathBlock) :
    (locateBlocks probe start blocks).map Prod.fst = blocks := by
  induction blocks generalizing start with
  | nil => rfl
  | cons first rest ih => rw [locateBlocks, List.map_cons, ih]

/-- Locating the blocks does not change which of them belongs to a path. -/
theorem find?_locateBlocks (probe : Probe) (start : Nat) (blocks : List PathBlock) (path : Nat) :
    ((locateBlocks probe start blocks).find? fun (block, _) => block.path == path).map Prod.fst
      = blocks.find? fun block => block.path == path := by
  conv_rhs => rw [← map_fst_locateBlocks probe start blocks, List.find?_map]
  rfl

end Locating

namespace Method

variable {method other : Method} {probe : Probe}

/-- A block reports its id and leads to its exit. -/
theorem reports_block (probe : Probe) {block : PathBlock} (handleOf : Nat → Handle)
    (hcode : ∀ {j : Nat} {instruction : Instruction},
      (block.code probe)[j]? = some instruction → method.get (handleOf j) = instruction)
    (hnext : ∀ j, j + 1 < (block.code probe).length →
      method.next? (handleOf j) = some (handleOf (j + 1))) :
    method.Reports (handleOf 0) block.id?.toList block.exit := by
  have hexit {j : Nat} (hj : method.get (handleOf j) = .branchTo block.exit) :
      method.Reports (handleOf j) [] block.exit := by
    refine .of_silent ?_ ?_ ?_
    · rw [hj]
      exact ⟨rfl, nofun⟩
    · rw [after?, hj]
      rfl
    · intro stack
      rw [hj]
      rfl
  unfold PathBlock.code at hcode hnext
  cases hid : block.id? with
  | none =>
    simp only [hid, List.map_nil, List.nil_append] at hcode
    exact hexit (hcode rfl)
  | some reported =>
    simp only [hid, List.length_append, List.length_map, List.length_singleton] at hcode hnext
    have hprobe {j : Nat} {template : Template}
        (hj : (probe.sequence reported)[j]? = some template) :
        (method.get (handleOf j)).Alike (template.copied id) := by
      have hlt := (List.getElem?_eq_some_iff.mp hj).1
      have hcopy : ((probe.sequence reported).map (Template.copied · id)
          ++ [Instruction.branchTo block.exit])[j]? = some (template.copied id) := by
        rw [List.getElem?_append_left (by rwa [List.length_map]), List.getElem?_map, hj]
        rfl
      rw [hcode hcopy]
      exact .refl _
    have hreports := reports_sequence probe reported hprobe fun j hj => hnext j (by omega)
    refine hreports.trans (hexit (hcode ?_))
    rw [List.getElem?_append_right (by simp)]
    simp

/-- The block of a path that led to `target`, if it has one. -/
def chosenBlock? (method : Method) (branch : Handle) (registered : List BranchPoint)
    (anyProbed : Bool) (target : Handle) (path : Nat) : Option PathBlock :=
  match idOfPath? registered path with
  | some id => some { path, id? := some id, exit := method.pathExit branch target }
  | none =>
    if path = 0 && anyProbed then
      some { path, id? := none, exit := method.pathExit branch target }
    else none

/-- Where the paths of a branch lead to. -/
def destinations (method : Method) (branch fallThrough : Handle) : List Handle :=
  fallThrough :: (method.get branch).targets

/-- Whether a path of the branch has a point. -/
def anyProbed (method : Method) (branch fallThrough : Handle) (registered : List BranchPoint) :
    Bool :=
  registered.any fun point => point.path.toNat < (method.destinations branch fallThrough).length

section Choosing

variable {branch fallThrough : Handle} {path : Nat} {registered : List BranchPoint}
  {block : PathBlock}

/-- The block of a path carries the first id for it and leads on to its exit. -/
theorem chosenBlock?_eq_some {anyProbed : Bool} {target : Handle}
    (hchosen : method.chosenBlock? branch registered anyProbed target path = some block) :
    block = ⟨path, idOfPath? registered path, method.pathExit branch target⟩ := by
  unfold chosenBlock? at hchosen
  split at hchosen
  · rename_i id hid
    rw [hid]
    exact (Option.some.inj hchosen).symm
  · rename_i hid
    rw [Option.ite_none_right_eq_some] at hchosen
    rw [hid]
    exact (Option.some.inj hchosen.2).symm

/-- The blocks of a branch are those that its paths choose, in the order of the paths. -/
theorem pathBlocks_eq :
    method.pathBlocks branch fallThrough registered
      = (method.destinations branch fallThrough).zipIdx.filterMap fun (target, path) =>
          method.chosenBlock? branch registered
            (method.anyProbed branch fallThrough registered) target path := rfl

/-- In a list made from numbered targets, what has the number of a path was made from its target. -/
theorem find?_filterMap_zipIdx {f : Handle × Nat → Option PathBlock}
    (hf : ∀ {target path block}, f (target, path) = some block → block.path = path)
    (targets : List Handle) (first path : Nat) :
    ((targets.zipIdx first).filterMap f).find? (fun block => block.path == path)
      = if first ≤ path then targets[path - first]?.bind fun target => f (target, path)
        else none := by
  induction targets generalizing first with
  | nil => simp
  | cons target rest ih =>
    rw [List.zipIdx_cons, List.filterMap_cons]
    by_cases hself : path = first
    · subst hself
      rw [if_pos (Nat.le_refl _), Nat.sub_self, List.getElem?_cons_zero, Option.bind_some]
      cases hblock : f (target, path) with
      | none => rw [ih, if_neg (Nat.not_succ_le_self _)]
      | some block => exact List.find?_cons_of_pos (beq_iff_eq.mpr (hf hblock))
    · have hrest : (if first + 1 ≤ path then rest[path - (first + 1)]?.bind fun target =>
            f (target, path) else none)
          = if first ≤ path then (target :: rest)[path - first]?.bind fun target =>
              f (target, path) else none := by
        by_cases hlater : first + 1 ≤ path
        · rw [if_pos hlater, if_pos (by omega), show path - first = path - (first + 1) + 1 by omega,
            List.getElem?_cons_succ]
        · rw [if_neg hlater, if_neg (by omega)]
      rw [← hrest, ← ih]
      cases hblock : f (target, first) with
      | none => rfl
      | some block =>
        refine List.find?_cons_of_neg ?_
        rw [hf hblock, beq_iff_eq]
        exact Ne.symm hself

/-- The block of a path is found by its path. -/
theorem find?_pathBlocks :
    ((method.pathBlocks branch fallThrough registered).find? fun block => block.path == path)
      = (method.destinations branch fallThrough)[path]?.bind fun target =>
          method.chosenBlock? branch registered
            (method.anyProbed branch fallThrough registered) target path := by
  rw [pathBlocks_eq, find?_filterMap_zipIdx, if_pos (Nat.zero_le _), Nat.sub_zero]
  intro target path block hchosen
  rw [chosenBlock?_eq_some hchosen]

/-- A path has an id if a point is registered for it. -/
theorem idOfPath?_isSome_iff :
    (idOfPath? registered path).isSome = true ↔ ∃ point ∈ registered, point.path.toNat = path := by
  simp [idOfPath?, List.find?_isSome]

/-- If a path has a point then some block has a probe. -/
theorem exists_probed (hany : method.anyProbed branch fallThrough registered = true) :
    ∃ block ∈ method.pathBlocks branch fallThrough registered, block.id?.isSome = true := by
  obtain ⟨point, hpoint, hlt⟩ := List.any_eq_true.mp hany
  rw [decide_eq_true_eq] at hlt
  have hid := idOfPath?_isSome_iff.mpr ⟨point, hpoint, rfl⟩
  obtain ⟨id, hid⟩ := Option.isSome_iff_exists.mp hid
  have hfound : ((method.pathBlocks branch fallThrough registered).find? fun block =>
      block.path == point.path.toNat) = some ⟨point.path.toNat, some id, method.pathExit branch
        (method.destinations branch fallThrough)[point.path.toNat]⟩ := by
    rw [find?_pathBlocks, List.getElem?_eq_getElem hlt, Option.bind_some, chosenBlock?, hid]
  exact ⟨_, List.mem_of_find?_eq_some hfound, rfl⟩

/-- If there is a block then a path has a point. -/
theorem anyProbed_of_mem (hmem : block ∈ method.pathBlocks branch fallThrough registered) :
    method.anyProbed branch fallThrough registered = true := by
  rw [pathBlocks_eq, List.mem_filterMap] at hmem
  obtain ⟨⟨target, path⟩, hin, hchosen⟩ := hmem
  have hat := List.mem_zipIdx_iff_getElem?.mp hin
  have hlt : path < (method.destinations branch fallThrough).length :=
    (List.getElem?_eq_some_iff.mp hat).1
  change method.chosenBlock? branch registered _ target path = some block at hchosen
  unfold chosenBlock? at hchosen
  split at hchosen
  · rename_i id hid
    obtain ⟨point, hpoint, hpath⟩ :=
      idOfPath?_isSome_iff.mp (Option.isSome_iff_exists.mpr ⟨id, hid⟩)
    refine List.any_eq_true.mpr ⟨point, hpoint, ?_⟩
    rw [decide_eq_true_eq, hpath]
    exact hlt
  · rw [Option.ite_none_right_eq_some, Bool.and_eq_true] at hchosen
    exact hchosen.1.2

/-- There are no blocks but with a probe. -/
theorem pathBlocks_eq_nil
    (hnone : (method.pathBlocks branch fallThrough registered).countP (fun block =>
      block.id?.isSome) = 0) : method.pathBlocks branch fallThrough registered = [] := by
  rw [List.eq_nil_iff_forall_not_mem]
  intro block hmem
  obtain ⟨probed, hprobed, hid⟩ := exists_probed (anyProbed_of_mem hmem)
  exact List.countP_eq_zero.mp hnone probed hprobed hid

/-- Without points a branch has no blocks. -/
theorem pathBlocks_nil (method : Method) (branch fallThrough : Handle) :
    method.pathBlocks branch fallThrough [] = [] := by
  rw [List.eq_nil_iff_forall_not_mem]
  intro block hmem
  cases anyProbed_of_mem hmem

/-- Control that falls through comes to the first block. -/
theorem exists_pathBlocks_eq_cons
    (hne : method.pathBlocks branch fallThrough registered ≠ []) :
    ∃ first rest, method.pathBlocks branch fallThrough registered = first :: rest
      ∧ first.path = 0 := by
  obtain ⟨block, hmem⟩ := List.exists_mem_of_ne_nil _ hne
  have hany := anyProbed_of_mem hmem
  rw [pathBlocks_eq, hany]
  obtain ⟨first, hfirst⟩ : ∃ first, method.chosenBlock? branch registered true fallThrough 0
      = some first := by
    unfold chosenBlock?
    cases idOfPath? registered 0 <;> exact ⟨_, rfl⟩
  refine ⟨first, _, List.filterMap_cons_some hfirst, ?_⟩
  rw [chosenBlock?_eq_some hfirst]

end Choosing

/-- The block that a path of a branch is led through. -/
def pathBlock? (method : Method) (points : List BranchPoint) (branch : Handle) (path : Nat) :
    Option PathBlock :=
  match (method.get branch).origin, method.next? branch with
  | some offset, some fallThrough =>
    (method.pathBlocks branch fallThrough
      (points.filter fun point => point.offset.toNat == offset)).find? fun block =>
        block.path == path
  | _, _ => none

/-- The branch with its paths led to the blocks that they have. -/
def ledTo (located : List (PathBlock × Handle)) (instruction : Instruction) : Instruction :=
  { instruction with
    targets := (instruction.targets.zipIdx 1).map fun (target, path) =>
      match located.find? fun (block, _) => block.path == path with
      | some (_, start) => start
      | none => target }

section Splicing

variable {branch position : Nat} {blocks : List PathBlock}

/-- A branch that is led to blocks goes to the block of each path that has one. -/
theorem getElem?_targets_ledTo (located : List (PathBlock × Handle)) (instruction : Instruction)
    (k : Nat) :
    (ledTo located instruction).targets[k]? = instruction.targets[k]?.map fun target =>
      match located.find? fun (block, _) => block.path == k + 1 with
      | some (_, start) => start
      | none => target := by
  rw [ledTo, List.getElem?_map, List.getElem?_zipIdx, Option.map_map, Nat.add_comm 1 k]
  rfl

/-- Splicing blocks in replaces the branch and puts the code of the blocks behind it. -/
theorem spliceBlocks_eq (hlt : branch < other.slots.size) :
    other.spliceBlocks branch position blocks probe
      = other.replaced branch position
        (ledTo (locateBlocks probe other.slots.size blocks) (other.get branch))
        (blocks.flatMap (PathBlock.code probe)) := by
  have hslots : other.slots.modify branch (ledTo (locateBlocks probe other.slots.size blocks))
      = other.slots.setIfInBounds branch
        (ledTo (locateBlocks probe other.slots.size blocks) (other.get branch)) := by
    apply Array.ext_getElem?
    intro handle
    rw [Array.getElem?_modify, Array.getElem?_setIfInBounds]
    by_cases hsame : branch = handle
    · subst hsame
      rw [if_pos rfl, if_pos rfl, if_pos hlt, get_of_lt hlt, Option.map_some]
    · rw [if_neg hsame, if_neg hsame]
  rw [replaced, ← hslots]
  rfl

/-- Every block reports where it was put. -/
theorem reports_located (ho : other.Ordered) (hat : other.order[position]? = some branch)
    {first : Instruction} {block : PathBlock} {entry : Handle}
    (hmem : (block, entry) ∈ locateBlocks probe other.slots.size blocks) :
    (other.replaced branch position first (blocks.flatMap (PathBlock.code probe))).Reports entry
      block.id?.toList block.exit := by
  obtain ⟨k, hentry, hcode⟩ := exists_locateBlocks hmem
  have hlt := ho.lt_of_getElem? hat
  have hhandle : entry = other.chained branch (k + 0 + 1) := hentry
  rw [hhandle]
  refine reports_block probe (fun j => other.chained branch (k + j + 1)) ?_ ?_
  · intro j instruction hj
    rw [get_replaced_chained hlt, List.getElem?_cons_succ, hcode hj]
    rfl
  · intro j hj
    refine next?_replaced_chained ho hat ?_
    exact (List.getElem?_eq_some_iff.mp (hcode (List.getElem?_eq_getElem hj))).1

/-- The first path of a conditional branch goes to the next instruction, the others go to its
targets. -/
theorem after?_of_conditional {handle : Handle}
    (hflow : (other.get handle).flow = .conditionalBranch) (path : Nat) :
    other.after? handle path
      = if path = 0 then other.next? handle else (other.get handle).targets[path - 1]? := by
  rw [after?, hflow]

/-- A path to a target leads to the block of the path if there is one. -/
theorem after?_succ_of_ledTo {located : List (PathBlock × Handle)}
    (hled : other.get branch = ledTo located (method.get branch))
    (hflow : (method.get branch).flow = .conditionalBranch) (k : Nat) :
    other.after? branch (k + 1) = (method.after? branch (k + 1)).map fun target =>
      match located.find? fun (block, _) => block.path == k + 1 with
      | some (_, start) => start
      | none => target := by
  have hflow' : (other.get branch).flow = .conditionalBranch := by
    rw [hled]
    exact hflow
  rw [after?_of_conditional hflow', after?_of_conditional hflow, if_neg (Nat.succ_ne_zero k),
    if_neg (Nat.succ_ne_zero k), hled, Nat.add_sub_cancel, getElem?_targets_ledTo]

/-- The first block falls behind the branch. -/
theorem next?_replaced_blocks (ho : other.Ordered) (hat : other.order[position]? = some branch)
    {first : Instruction} (hne : blocks ≠ []) :
    (other.replaced branch position first (blocks.flatMap (PathBlock.code probe))).next? branch
      = some other.slots.size := by
  obtain ⟨block, rest, rfl⟩ := List.exists_cons_of_ne_nil hne
  have hcode : 0 < ((block :: rest).flatMap (PathBlock.code probe)).length := by
    rw [List.flatMap_cons, List.length_append, PathBlock.code, List.length_append,
      List.length_singleton]
    omega
  exact next?_replaced_chained ho hat hcode

/-- A path that has a block is led to where the block was put. -/
theorem exists_located (probe : Probe) {path start : Nat} {block : PathBlock}
    (hsome : (blocks.find? fun block => block.path == path) = some block) :
    ∃ entry, (block, entry) ∈ locateBlocks probe start blocks
      ∧ (locateBlocks probe start blocks).find? (fun (block, _) => block.path == path)
        = some (block, entry) := by
  have hfound := find?_locateBlocks probe start blocks path
  rw [hsome, Option.map_eq_some_iff] at hfound
  obtain ⟨⟨block', entry⟩, hfound, rfl⟩ := hfound
  exact ⟨entry, List.mem_of_find?_eq_some hfound, hfound⟩

/-- The path of a branch that has a block is led to it, the others stay. -/
theorem placed_ledTo {plan : Plan} {fallThrough : Handle} {registered : List BranchPoint}
    (ho : other.Ordered) (hat : other.order[position]? = some branch)
    (hget : other.get branch = method.get branch)
    (hflow : (method.get branch).flow = .conditionalBranch)
    (hblocks : blocks = method.pathBlocks branch fallThrough registered) (hne : blocks ≠ [])
    (hbefore : plan.before branch = [])
    (hblock : ∀ path, plan.block? branch path = blocks.find? fun block => block.path == path) :
    method.Placed (other.replaced branch position
        (ledTo (locateBlocks probe other.slots.size blocks) (other.get branch))
        (blocks.flatMap (PathBlock.code probe))) plan branch branch := by
  have hlt := ho.lt_of_getElem? hat
  generalize hedited : other.replaced branch position
    (ledTo (locateBlocks probe other.slots.size blocks) (other.get branch))
    (blocks.flatMap (PathBlock.code probe)) = edited
  have hled : edited.get branch
      = ledTo (locateBlocks probe other.slots.size blocks) (method.get branch) := by
    rw [← hedited, get_replaced_self hlt, hget]
  have hreports {block : PathBlock} {entry : Handle}
      (hin : (block, entry) ∈ locateBlocks probe other.slots.size blocks) :
      edited.Reports entry block.id?.toList block.exit := by
    rw [← hedited]
    exact reports_located ho hat hin
  -- path 0 always has a block among them, and it is the first one, next to the branch
  obtain ⟨first, others, hcons, hzero⟩ := exists_pathBlocks_eq_cons (hblocks ▸ hne)
  rw [← hblocks] at hcons
  have hfirst : (blocks.find? fun block => block.path == 0) = some first := by
    rw [hcons]
    exact List.find?_cons_of_pos (beq_iff_eq.mpr hzero)
  refine ⟨?_, ?_, ?_, ?_, ?_, ?_, ?_, Or.inl rfl, fun _ => rfl⟩
  · rw [← hedited, order_replaced]
    exact sublist_insertBehind.subset (List.mem_of_getElem? hat)
  · rw [hled]
    rfl
  · rw [hled]
    rfl
  · rw [hled, ledTo, List.length_map, List.length_zipIdx]
  · rw [hbefore]
    exact .refl _ _
  · intro path hpath hnone
    rw [hblock] at hnone
    -- only the targets are redirected: path 0 falls through and cannot lack a block
    cases path with
    | zero => cases hfirst.symm.trans hnone
    | succ k =>
      have hunled : (locateBlocks probe other.slots.size blocks).find?
          (fun (block, _) => block.path == k + 1) = none := by
        rw [← Option.map_eq_none_iff, find?_locateBlocks, hnone]
      rw [after?_succ_of_ledTo hled hflow, hunled, Option.map_id']
  · intro path hpath block hsome
    rw [hblock] at hsome
    cases path with
    | zero =>
      cases hfirst.symm.trans hsome
      have hflow' : (edited.get branch).flow = .conditionalBranch := by
        rw [hled]
        exact hflow
      refine ⟨other.slots.size, ?_, hreports ?_⟩
      · rw [after?_of_conditional hflow', if_pos rfl, ← hedited]
        exact next?_replaced_blocks ho hat hne
      · rw [hcons, locateBlocks]
        exact List.mem_cons_self
    | succ k =>
      obtain ⟨entry, hin, hfound⟩ := exists_located probe hsome
      refine ⟨entry, ?_, hreports hin⟩
      rw [Instruction.pathCount, if_pos hflow] at hpath
      have htarget := List.getElem?_eq_getElem (Nat.lt_of_succ_lt_succ hpath)
      rw [after?_succ_of_ledTo hled hflow, after?_of_conditional hflow,
        if_neg (Nat.succ_ne_zero k), Nat.add_sub_cancel, htarget, hfound]
      rfl

end Splicing

end Method

end CilCoverage
