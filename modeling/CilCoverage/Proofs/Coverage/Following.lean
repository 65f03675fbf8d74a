import CilCoverage.Proofs.Coverage.Recoding

/-!
# Where following ends

The block of a path ends with a branch that stands beside the branch of the path, and so in its
exception blocks, and that must not be taken across their boundaries by following a chain of `br`s.
Blocks may be nested, adjacent or empty, so what is compared is which of them an instruction is in
(`Method.SameScope`). Following is shown to go along a chain that stays in the blocks of the branch
and to go on for as long as it can (`followBranches_maximal`).

The chain may run into itself. Following then ends at the first instruction that it meets again,
after no more hops than the method has instructions.
-/

set_option autoImplicit false

namespace CilCoverage

namespace Method

variable {method : Method} {scope : List (Nat × Nat)} {handle source target : Handle}

/-- The instruction is in the block: it is not in front of its start and is in front of its end. -/
def Encloses (method : Method) (block : Handle × Handle) (handle : Handle) : Prop :=
  ∃ position start finish, method.position? handle = some position
    ∧ method.position? block.1 = some start ∧ method.position? block.2 = some finish
    ∧ start ≤ position ∧ position < finish

/-- Two instructions are in the same blocks of the exception regions. -/
def SameScope (method : Method) (one other : Handle) : Prop :=
  ∀ region ∈ method.regions, ∀ block ∈ region.blocks,
    (method.Encloses block one ↔ method.Encloses block other)

/-- The check of positions finds the blocks that enclose an instruction. -/
theorem isInside_eq_true_iff {position : Nat} {block : Handle × Handle}
    (hposition : method.position? handle = some position) :
    method.isInside position block = true ↔ method.Encloses block handle := by
  unfold isInside Encloses
  rw [hposition]
  constructor
  · intro hinside
    split at hinside
    · rename_i start finish hstart hfinish
      rw [Bool.and_eq_true, decide_eq_true_eq, decide_eq_true_eq] at hinside
      exact ⟨position, start, finish, rfl, hstart, hfinish, hinside⟩
    · cases hinside
  · rintro ⟨position', start, finish, hsame, hstart, hfinish, hfirst, hlast⟩
    obtain rfl := Option.some.inj hsame
    rw [hstart, hfinish]
    simp [hfirst, hlast]

/-- No block encloses what is not listed. -/
theorem not_encloses_of_position?_eq_none (hposition : method.position? handle = none)
    (block : Handle × Handle) : ¬ method.Encloses block handle := by
  rintro ⟨position, -, -, hsome, -⟩
  rw [hposition] at hsome
  cases hsome

instance (block : Handle × Handle) : Decidable (method.Encloses block handle) :=
  match hposition : method.position? handle with
  | some _ => decidable_of_iff _ (isInside_eq_true_iff hposition)
  | none => isFalse (not_encloses_of_position?_eq_none hposition block)

/-- The scope of an instruction lists the blocks that it is in. -/
theorem enclosingBlocks_eq (method : Method) (handle : Handle) :
    method.enclosingBlocks handle
      = method.regions.zipIdx.flatMap fun (region, regionIndex) =>
          region.blocks.zipIdx.filterMap fun (block, blockIndex) =>
            if method.Encloses block handle then some (regionIndex, blockIndex) else none := by
  unfold enclosingBlocks
  cases hposition : method.position? handle with
  | none => simp [not_encloses_of_position?_eq_none hposition]
  | some position => simp only [isInside_eq_true_iff hposition]

/-- The enclosing blocks of an instruction are those of the regions that enclose it. -/
theorem mem_enclosingBlocks_iff {regionIndex blockIndex : Nat} :
    (regionIndex, blockIndex) ∈ method.enclosingBlocks handle
      ↔ ∃ region, method.regions[regionIndex]? = some region
          ∧ ∃ block, region.blocks[blockIndex]? = some block ∧ method.Encloses block handle := by
  rw [enclosingBlocks_eq]
  constructor
  · intro hmem
    obtain ⟨⟨region, i⟩, hregion, hmem⟩ := List.mem_flatMap.mp hmem
    obtain ⟨⟨block, j⟩, hblock, hin⟩ := List.mem_filterMap.mp hmem
    rw [Option.ite_none_right_eq_some, Option.some.injEq, Prod.mk.injEq] at hin
    obtain ⟨hin, rfl, rfl⟩ := hin
    exact ⟨region, List.mem_zipIdx_iff_getElem?.mp hregion, block,
      List.mem_zipIdx_iff_getElem?.mp hblock, hin⟩
  · rintro ⟨region, hregion, block, hblock, hin⟩
    refine List.mem_flatMap.mpr ⟨(region, regionIndex), List.mem_zipIdx_iff_getElem?.mpr hregion, ?_⟩
    refine List.mem_filterMap.mpr
      ⟨(block, blockIndex), List.mem_zipIdx_iff_getElem?.mpr hblock, if_pos hin⟩

/-- Instructions with one scope are those in the same blocks. -/
theorem enclosingBlocks_eq_iff {one other : Handle} :
    method.enclosingBlocks one = method.enclosingBlocks other ↔ method.SameScope one other := by
  constructor
  · intro hsame region hregion block hblock
    obtain ⟨regionIndex, hregion⟩ := List.getElem?_of_mem hregion
    obtain ⟨blockIndex, hblock⟩ := List.getElem?_of_mem hblock
    have hmem (handle : Handle) : (regionIndex, blockIndex) ∈ method.enclosingBlocks handle
        ↔ method.Encloses block handle := by
      simp only [mem_enclosingBlocks_iff, hregion, Option.some.injEq, exists_eq_left', hblock]
    rw [← hmem one, ← hmem other, hsame]
  · intro hsame
    rw [enclosingBlocks_eq, enclosingBlocks_eq]
    apply List.flatMap_congr
    rintro ⟨region, regionIndex⟩ hregion
    apply List.filterMap_congr
    rintro ⟨block, blockIndex⟩ hblock
    have hregion' := List.mem_of_getElem? (List.mem_zipIdx_iff_getElem?.mp hregion)
    have hblock' := List.mem_of_getElem? (List.mem_zipIdx_iff_getElem?.mp hblock)
    exact if_congr (hsame region hregion' block hblock') rfl rfl

/-- The instruction is a `br` with the target as its only one. -/
def JumpsTo (method : Method) (handle target : Handle) : Prop :=
  (method.get handle).opcode = .br ∧ (method.get handle).targets = [target]

/-- A chain of `br`s with one target each, met one after the other, whose targets are all in the
blocks of the source. -/
inductive Chain (method : Method) (source : Handle) : Handle → List Handle → Handle → Prop
  | stop (handle : Handle) : Chain method source handle [] handle
  | hop {handle target last : Handle} {met : List Handle} (jumps : method.JumpsTo handle target)
      (within : method.SameScope source target) (rest : Chain method source target met last) :
      Chain method source handle (handle :: met) last

/-- A chain meets slots of the method only. -/
theorem Chain.lt_size {last : Handle} {met : List Handle}
    (hchain : method.Chain source handle met last) : ∀ other ∈ met, other < method.slots.size := by
  induction hchain with
  | stop handle => exact fun _ hmem => absurd hmem List.not_mem_nil
  | hop hjumps _ _ ih =>
    rw [List.forall_mem_cons]
    refine ⟨?_, ih⟩
    by_contra hout
    have hlabel := hjumps.1
    rw [get, get?, Array.getElem?_eq_none (Nat.le_of_not_lt hout)] at hlabel
    cases hlabel

/-- A chain that moves ends in the blocks of the source. -/
theorem Chain.eq_or_sameScope {last : Handle} {met : List Handle}
    (hchain : method.Chain source handle met last) :
    last = handle ∨ method.SameScope source last := by
  induction hchain with
  | stop handle => exact Or.inl rfl
  | hop _ hwithin _ ih =>
    refine Or.inr ?_
    rcases ih with rfl | hsame
    · exact hwithin
    · exact hsame

/-- From the blocks of the source, a hop follows a jump whose target is in the same blocks. -/
theorem hop?_eq_some_iff_jumpsTo : method.hop? (method.enclosingBlocks source) handle = some target
    ↔ method.JumpsTo handle target ∧ method.SameScope source target := by
  rw [hop?_eq_some_iff, ← and_assoc, eq_comm (a := method.enclosingBlocks target),
    enclosingBlocks_eq_iff]
  rfl

/-- Following goes along a chain to an instruction that was met before or that nothing leads on
from. -/
theorem exists_chain_followWithin (method : Method) (source : Handle) (met : List Handle)
    (handle : Handle) : ∃ more,
      method.Chain source handle more
          (method.followWithin (method.enclosingBlocks source) met handle)
        ∧ more.Nodup ∧ (∀ other ∈ more, other ∉ met)
        ∧ (method.followWithin (method.enclosingBlocks source) met handle ∈ met ++ more
          ∨ ∀ target,
            method.JumpsTo (method.followWithin (method.enclosingBlocks source) met handle) target →
              ¬ method.SameScope source target) := by
  fun_induction method.followWithin (method.enclosingBlocks source) met handle with
  | case1 met handle hmet =>
    exact ⟨[], .stop handle, .nil, fun _ hmem => absurd hmem List.not_mem_nil,
      Or.inl (List.mem_append_left _ hmet)⟩
  | case2 met handle hmet target hhop ih =>
    obtain ⟨hjumps, hscoped⟩ := hop?_eq_some_iff_jumpsTo.mp hhop
    obtain ⟨more, hchain, hnodup, hnew, hend⟩ := ih
    refine ⟨handle :: more, .hop hjumps hscoped hchain, ?_, ?_, hend.imp_left fun hagain => ?_⟩
    · exact List.nodup_cons.mpr ⟨fun hin => hnew handle hin List.mem_cons_self, hnodup⟩
    · exact List.forall_mem_cons.mpr
        ⟨hmet, fun other hin => fun hold => hnew other hin (List.mem_cons_of_mem _ hold)⟩
    -- the instruction is among those met in the recursion, and on the chain here
    · rwa [List.mem_append, List.mem_cons, or_comm (a := _ = _), or_assoc, ← List.mem_cons,
        ← List.mem_append] at hagain
  | case3 met handle hmet hhop =>
    refine ⟨[], .stop handle, .nil, fun _ hmem => absurd hmem List.not_mem_nil,
      Or.inr fun target hjumps hscoped => ?_⟩
    rw [hop?_eq_some_iff_jumpsTo.mpr ⟨hjumps, hscoped⟩] at hhop
    cases hhop

/-- Following a chain from an instruction, for a branch beside `source`, ends in every method,
cycles of `br`s included. It goes along a chain whose targets are all in the blocks of `source`, in
no more hops than there are instructions, and stops only where the chain does: at an instruction
that is no `br` with one target, at a `br` whose target is in other blocks, or at an instruction
that it has met. So the block of a path of the branch leads on from the target of the path or from
an instruction in the blocks of the branch. -/
theorem followBranches_maximal (method : Method) (source handle : Handle) :
    (∃ met, method.Chain source handle met (method.followBranches source handle)
      ∧ met.Nodup ∧ met.length ≤ method.slots.size
      ∧ ((∀ target, ¬ method.JumpsTo (method.followBranches source handle) target)
        ∨ (∃ target, method.JumpsTo (method.followBranches source handle) target
            ∧ ¬ method.SameScope source target)
        ∨ method.followBranches source handle ∈ met))
    ∧ ∀ (fallThrough : Handle) (registered : List BranchPoint),
        ∀ block ∈ method.pathBlocks source fallThrough registered,
          ∃ target, (method.destinations source fallThrough)[block.path]? = some target
            ∧ (block.exit = target ∨ method.SameScope source block.exit) := by
  obtain ⟨met, hchain, hnodup, -, hend⟩ := method.exists_chain_followWithin source [] handle
  constructor
  · refine ⟨met, hchain, hnodup, ?_, ?_⟩
    · have hslots : met ⊆ List.range method.slots.size := fun other hmem =>
        List.mem_range.mpr (hchain.lt_size other hmem)
      have hbound := (hnodup.subperm hslots).length_le
      rwa [List.length_range] at hbound
    · rcases hend with hagain | hstays
      · exact Or.inr (Or.inr hagain)
      · by_cases hjumps : ∃ target, method.JumpsTo (method.followBranches source handle) target
        · obtain ⟨target, hjumps⟩ := hjumps
          exact Or.inr (Or.inl ⟨target, hjumps, hstays target hjumps⟩)
        · exact Or.inl (not_exists.mp hjumps)
  · intro fallThrough registered block hmem
    obtain ⟨target, htarget, hexit⟩ := exit_of_mem_pathBlocks hmem
    refine ⟨target, htarget, ?_⟩
    rw [hexit, pathExit]
    split
    · exact Or.inl rfl
    · obtain ⟨_, hpath, -⟩ := method.exists_chain_followWithin source [] target
      exact hpath.eq_or_sameScope

end Method

end CilCoverage
