import CilCoverage.Proofs.Coverage.BranchBlocks

/-!
# Placement on branches

What the placement of probes on one branch comes to is said by the blocks that its points ask for
(`branchBlocks`): so many probes are placed, and the code of the blocks is put behind the branch
(`probeBranch_spec`). It only fails if there are points but no instruction behind the branch
(`probeBranch_of_ready`, `ready_of_probeBranch`). A run over branches keeps what its steps keep
(`probeBranches_run`, `addBranchProbes_run`, `addBranchProbes_keeps`).
-/

set_option autoImplicit false

namespace CilCoverage

open Instruction

namespace Edited

variable {α β : Type} {first : Edited α} {next : Method → α → Edited β}

/-- A sequence of steps succeeds if its parts do. -/
theorem andThen_spec {value : β} (hok : (first.andThen next).outcome = .ok value) :
    ∃ middle, first.outcome = .ok middle ∧ (next first.method middle).outcome = .ok value
      ∧ (first.andThen next).method = (next first.method middle).method := by
  unfold andThen at hok ⊢
  cases hfirst : first.outcome with
  | ok middle =>
    rw [hfirst] at hok
    exact ⟨middle, rfl, hok, rfl⟩
  | error cause =>
    rw [hfirst] at hok
    cases hok

/-- Behind a step that succeeds comes the next one. -/
theorem andThen_of_ok (next : Method → α → Edited β) {middle : α}
    (hfirst : first.outcome = .ok middle) :
    (first.andThen next).outcome = (next first.method middle).outcome
      ∧ (first.andThen next).method = (next first.method middle).method := by
  unfold andThen
  rw [hfirst]
  exact ⟨rfl, rfl⟩

/-- Behind a step that fails comes nothing. -/
theorem andThen_of_error (next : Method → α → Edited β) {cause : Error}
    (hfirst : first.outcome = .error cause) :
    (first.andThen next).outcome = .error cause
      ∧ (first.andThen next).method = first.method := by
  unfold andThen
  rw [hfirst]
  exact ⟨rfl, rfl⟩

end Edited

/-- The ids of the blocks of a branch with the given number of paths. -/
def blockIds (registered : List BranchPoint) (pathCount : Nat) : List (Option UInt32) :=
  (List.range pathCount).filterMap fun path =>
    match idOfPath? registered path with
    | some id => some (some id)
    | none =>
      if path = 0 && registered.any fun point => point.path.toNat < pathCount then some none
      else none

namespace Method

variable {method other : Method} {points : List BranchPoint} {probe : Probe}

/-- The conditional branches of a method are those that were read. -/
theorem mem_conditionalBranches {handle : Handle} :
    handle ∈ method.conditionalBranches ↔ handle ∈ method.order
      ∧ (method.get handle).origin ≠ none ∧ (method.get handle).flow = .conditionalBranch := by
  rw [conditionalBranches, List.mem_filter, Bool.and_eq_true, Option.isSome_iff_ne_none,
    beq_iff_eq]

/-- No conditional branch is listed twice. -/
theorem Ordered.nodup_conditionalBranches (ho : method.Ordered) :
    method.conditionalBranches.Nodup :=
  ho.nodup.filter _

/-- The points at the offset of a branch. -/
def registeredAt (method : Method) (points : List BranchPoint) (branch : Handle) :
    List BranchPoint :=
  match (method.get branch).origin with
  | some offset => points.filter fun point => point.offset.toNat == offset
  | none => []

/-- The points of a branch are those at the offset where it was read. -/
theorem mem_registeredAt {branch : Handle} {point : BranchPoint} :
    point ∈ method.registeredAt points branch
      ↔ point ∈ points ∧ (method.get branch).origin = some point.offset.toNat := by
  unfold registeredAt
  cases (method.get branch).origin with
  | none => simp
  | some offset =>
    simp only [List.mem_filter, beq_iff_eq, Option.some.injEq, @eq_comm _ offset]

/-- The blocks that the points ask for at a branch. -/
def branchBlocks (method : Method) (points : List BranchPoint) (branch : Handle) :
    List PathBlock :=
  match method.next? branch with
  | some fallThrough => method.pathBlocks branch fallThrough (method.registeredAt points branch)
  | none => []

/-- A branch with an instruction behind it has the blocks of its paths. -/
theorem branchBlocks_of_next? {branch fallThrough : Handle}
    (hnext : method.next? branch = some fallThrough) :
    method.branchBlocks points branch
      = method.pathBlocks branch fallThrough (method.registeredAt points branch) := by
  rw [branchBlocks, hnext]

/-- A branch without points has no blocks. -/
theorem branchBlocks_of_registeredAt {branch : Handle}
    (hnone : method.registeredAt points branch = []) : method.branchBlocks points branch = [] := by
  rw [branchBlocks, hnone]
  cases method.next? branch with
  | none => rfl
  | some fallThrough => exact pathBlocks_nil ..

/-- The blocks of a branch report the ids of its paths in the order of the paths. -/
theorem map_id?_pathBlocks (method : Method) (branch fallThrough : Handle)
    (registered : List BranchPoint) :
    (method.pathBlocks branch fallThrough registered).map PathBlock.id?
      = blockIds registered ((method.get branch).targets.length + 1) := by
  have hpaths : List.range ((method.get branch).targets.length + 1)
      = (method.destinations branch fallThrough).zipIdx.map Prod.snd := by
    rw [List.zipIdx_map_snd, List.range_eq_range']
    rfl
  rw [pathBlocks_eq, List.map_filterMap, blockIds, hpaths, List.filterMap_map]
  apply List.filterMap_congr
  rintro ⟨target, path⟩ -
  simp only [Function.comp, chosenBlock?]
  cases idOfPath? registered path with
  | some id => rfl
  | none =>
    show Option.map _ (if (decide (path = 0) && method.anyProbed branch fallThrough registered) = true
      then _ else _) = if (decide (path = 0) && method.anyProbed branch fallThrough registered) = true
      then _ else _
    split <;> rfl

/-- Without points no block reports anything. -/
theorem blockIds_nil (pathCount : Nat) : blockIds [] pathCount = [] := by
  rw [blockIds, List.filterMap_eq_nil_iff]
  intro path _
  show (if (decide (path = 0) && false) = true then _ else _) = none
  rw [Bool.and_false, if_neg Bool.false_ne_true]

/-- Which blocks a branch gets is told by its points and by the number of its paths. -/
theorem map_id?_branchBlocks {branch : Handle}
    (hready : method.registeredAt points branch ≠ [] → (method.next? branch).isSome = true) :
    (method.branchBlocks points branch).map PathBlock.id?
      = blockIds (method.registeredAt points branch)
          ((method.get branch).targets.length + 1) := by
  by_cases hnone : method.registeredAt points branch = []
  · rw [branchBlocks_of_registeredAt hnone, hnone, blockIds_nil]
    rfl
  · obtain ⟨fallThrough, hnext⟩ := Option.isSome_iff_exists.mp (hready hnone)
    rw [branchBlocks_of_next? hnext, map_id?_pathBlocks]

/-- The block of a path is the one with its number. -/
theorem pathBlock?_eq (method : Method) (points : List BranchPoint) (branch : Handle) (path : Nat) :
    method.pathBlock? points branch path
      = (method.branchBlocks points branch).find? fun block => block.path == path := by
  unfold pathBlock? branchBlocks registeredAt
  cases (method.get branch).origin with
  | some offset => cases method.next? branch <;> rfl
  | none =>
    cases method.next? branch with
    | none => rfl
    | some fallThrough =>
      dsimp only
      rw [pathBlocks_nil, List.find?_nil]

/-- A branch without blocks leads where it led. -/
theorem ledTo_nil (instruction : Instruction) : ledTo [] instruction = instruction := by
  have htargets : (ledTo [] instruction).targets = instruction.targets := by
    apply List.ext_getElem?
    intro k
    rw [getElem?_targets_ledTo, List.find?_nil, Option.map_id']
  show { instruction with targets := (ledTo [] instruction).targets } = instruction
  rw [htargets]

/-- No blocks change nothing. -/
theorem spliceBlocks_nil (method : Method) (branch position : Nat) (probe : Probe) :
    method.spliceBlocks branch position [] probe = method := by
  have hslots : method.slots.modify branch (ledTo []) = method.slots := by
    apply Array.ext_getElem?
    intro handle
    rw [Array.getElem?_modify, funext ledTo_nil]
    split
    · exact Option.map_id'
    · rfl
  show ({ method with slots := method.slots.modify branch (ledTo []) }).splice position [] = method
  rw [hslots, splice, insertBehind, freshHandles]
  simp

/-- The placement on a branch succeeds if the branch has no points or an instruction behind it, and
then puts its blocks behind it. -/
theorem probeBranch_of_ready (probe : Probe) {branch : Handle}
    (hready : other.registeredAt points branch ≠ [] → (other.next? branch).isSome = true) :
    (other.probeBranch branch points probe).outcome
        = .ok ((other.branchBlocks points branch).countP fun block => block.id?.isSome)
      ∧ (other.probeBranch branch points probe).method
        = other.spliceBlocks branch (other.order.idxOf branch) (other.branchBlocks points branch)
          probe := by
  by_cases hnone : other.registeredAt points branch = []
  -- without points the instruction behind the branch is not looked for
  · rw [branchBlocks_of_registeredAt hnone, spliceBlocks_nil]
    unfold registeredAt at hnone
    unfold probeBranch
    dsimp only
    cases horigin : (other.get branch).origin with
    | none => exact ⟨rfl, rfl⟩
    | some offset =>
      rw [horigin] at hnone
      dsimp only at hnone ⊢
      rw [hnone]
      exact ⟨rfl, rfl⟩
  · obtain ⟨fallThrough, hnext⟩ := Option.isSome_iff_exists.mp (hready hnone)
    have hposition : other.position? branch = some (other.order.idxOf branch) := by
      cases hfound : other.position? branch with
      | none =>
        rw [next?, hfound] at hnext
        cases hnext
      | some position =>
        rw [position?] at hfound
        rw [List.idxOf_eq_getD_idxOf?, hfound, Option.getD_some]
    rw [branchBlocks_of_next? hnext]
    unfold registeredAt at hnone ⊢
    unfold probeBranch
    dsimp only
    cases horigin : (other.get branch).origin with
    | none =>
      rw [horigin] at hnone
      exact absurd rfl hnone
    | some offset =>
      rw [horigin] at hnone
      dsimp only at hnone ⊢
      rw [if_neg (by rwa [List.isEmpty_iff]), hposition, hnext]
      dsimp only
      split
      · rename_i hcount
        rw [hcount, pathBlocks_eq_nil hcount, spliceBlocks_nil]
        exact ⟨rfl, rfl⟩
      · exact ⟨rfl, rfl⟩

/-- The placement on a branch with points stops if nothing is behind the branch, and then changes
nothing. -/
theorem probeBranch_of_unready (probe : Probe) {branch : Handle}
    (hregistered : other.registeredAt points branch ≠ []) (hnext : other.next? branch = none) :
    (other.probeBranch branch points probe).method = other
      ∧ ∃ offset, (other.probeBranch branch points probe).outcome
        = .error (.instructionNotFound offset) := by
  unfold registeredAt at hregistered
  unfold probeBranch
  dsimp only
  cases horigin : (other.get branch).origin with
  | none =>
    rw [horigin] at hregistered
    exact absurd rfl hregistered
  | some offset =>
    rw [horigin] at hregistered
    dsimp only at hregistered ⊢
    rw [if_neg (by rwa [List.isEmpty_iff]), hnext]
    cases other.position? branch <;> exact ⟨rfl, _, rfl⟩

/-- A branch whose points were placed has an instruction behind it. -/
theorem ready_of_probeBranch {branch : Handle} {placed : Nat}
    (hok : (other.probeBranch branch points probe).outcome = .ok placed)
    (hregistered : other.registeredAt points branch ≠ []) :
    (other.next? branch).isSome = true := by
  rw [Option.isSome_iff_ne_none]
  intro hnext
  obtain ⟨-, offset, hcause⟩ := probeBranch_of_unready probe hregistered hnext
  cases hok.symm.trans hcause

/-- What the placement on one branch comes to. -/
theorem probeBranch_spec {branch : Handle} {placed : Nat}
    (hok : (other.probeBranch branch points probe).outcome = .ok placed) :
    placed = (other.branchBlocks points branch).countP (fun block => block.id?.isSome)
      ∧ (other.probeBranch branch points probe).method
        = other.spliceBlocks branch (other.order.idxOf branch) (other.branchBlocks points branch)
          probe := by
  obtain ⟨houtcome, hmethod⟩ :=
    probeBranch_of_ready probe (ready_of_probeBranch hok)
  rw [houtcome] at hok
  exact ⟨(Except.ok.inj hok).symm, hmethod⟩

/-- The placement on a branch is the same for points that ask for the same blocks. -/
theorem probeBranch_congr {points' : List BranchPoint} {branch : Handle} {placed : Nat}
    (hblocks : other.branchBlocks points' branch = other.branchBlocks points branch)
    (hregistered : other.registeredAt points' branch ≠ [] → other.registeredAt points branch ≠ [])
    (hok : (other.probeBranch branch points probe).outcome = .ok placed) :
    (other.probeBranch branch points' probe).outcome = .ok placed
      ∧ (other.probeBranch branch points' probe).method
        = (other.probeBranch branch points probe).method := by
  obtain ⟨houtcome, hmethod⟩ := probeBranch_of_ready probe fun hsome =>
    ready_of_probeBranch hok (hregistered hsome)
  obtain ⟨hcount, hspliced⟩ := probeBranch_spec hok
  rw [houtcome, hmethod, hspliced, hblocks, hcount]
  exact ⟨rfl, rfl⟩

/-- The placement on a branch fails only if points are registered for it and nothing is behind it,
and it leaves the method. -/
theorem probeBranch_stops {branch : Handle} {cause : Error}
    (hstop : (other.probeBranch branch points probe).outcome = .error cause) :
    (other.probeBranch branch points probe).method = other
      ∧ other.registeredAt points branch ≠ [] ∧ other.next? branch = none
      ∧ ∃ offset, cause = .instructionNotFound offset := by
  have hunready : ¬ (other.registeredAt points branch ≠ [] →
      (other.next? branch).isSome = true) := by
    intro hready
    rw [(probeBranch_of_ready probe hready).1] at hstop
    cases hstop
  rw [Classical.not_imp, Option.isSome_iff_ne_none, not_not] at hunready
  obtain ⟨hsame, offset, hcause⟩ := probeBranch_of_unready probe hunready.1 hunready.2
  rw [hcause] at hstop
  exact ⟨hsame, hunready.1, hunready.2, offset, (Except.error.inj hstop).symm⟩

/-- The branches behind the first one are still to be worked through when that has been. -/
theorem unrouted_rest {branch : Handle} {rest routed : List Handle} (hnodup : (branch :: rest).Nodup)
    (hbranches : ∀ next ∈ branch :: rest, next ∈ method.conditionalBranches ∧ next ∉ routed) :
    ∀ next ∈ rest, next ∈ method.conditionalBranches ∧ next ∉ branch :: routed := by
  intro next hnext
  obtain ⟨hmem, hout⟩ := hbranches next (List.mem_cons_of_mem _ hnext)
  refine ⟨hmem, ?_⟩
  rw [List.mem_cons, not_or]
  refine ⟨?_, hout⟩
  rintro rfl
  exact (List.nodup_cons.mp hnodup).1 hnext

/-- If every step of a run over branches keeps something then so does the run; it may count the
probes that are placed. -/
theorem probeBranches_run {I : List Handle → Nat → Method → Prop}
    (hstep : ∀ {routed total other branch placed}, I routed total other → branch ∉ routed →
      branch ∈ method.conditionalBranches →
      (other.probeBranch branch points probe).outcome = .ok placed →
        I (branch :: routed) (total + placed) (other.probeBranch branch points probe).method)
    {branches routed : List Handle} {total placed : Nat} (hnodup : branches.Nodup)
    (hbranches : ∀ branch ∈ branches, branch ∈ method.conditionalBranches ∧ branch ∉ routed)
    (hstart : I routed total other)
    (hok : (probeBranches points probe branches other).outcome = .ok placed) :
    I (branches.reverse ++ routed) (total + placed)
      (probeBranches points probe branches other).method := by
  induction branches generalizing other routed total placed with
  | nil =>
    rw [← Except.ok.inj hok]
    exact hstart
  | cons branch rest ih =>
    obtain ⟨-, hrest⟩ := List.nodup_cons.mp hnodup
    obtain ⟨hmem, hout⟩ := hbranches branch List.mem_cons_self
    obtain ⟨count, hone, hothers, hmethod⟩ := Edited.andThen_spec hok
    obtain ⟨more, hmore, hsum, hmethod'⟩ := Edited.andThen_spec hothers
    have hrun := ih hrest (unrouted_rest hnodup hbranches) (hstep hstart hout hmem hone) hmore
    rw [List.reverse_cons, List.append_assoc, ← Except.ok.inj hsum, ← Nat.add_assoc]
    show I _ _ (Edited.andThen _ _).method
    rw [hmethod, hmethod']
    exact hrun

/-- A run that stops does so at one of the branches, and keeps what the steps up to it keep. -/
theorem probeBranches_stops {I : List Handle → Nat → Method → Prop}
    (hstep : ∀ {routed total other branch placed}, I routed total other → branch ∉ routed →
      branch ∈ method.conditionalBranches →
      (other.probeBranch branch points probe).outcome = .ok placed →
        I (branch :: routed) (total + placed) (other.probeBranch branch points probe).method)
    {branches routed : List Handle} (total : Nat) {cause : Error} (hnodup : branches.Nodup)
    (hbranches : ∀ branch ∈ branches, branch ∈ method.conditionalBranches ∧ branch ∉ routed)
    (hstart : I routed total other)
    (hstop : (probeBranches points probe branches other).outcome = .error cause) :
    ∃ front branch back placed, branches = front ++ branch :: back
      ∧ I (front.reverse ++ routed) placed (probeBranches points probe branches other).method
      ∧ ((probeBranches points probe branches other).method.probeBranch branch points probe).outcome
        = .error cause := by
  induction branches generalizing other routed total with
  | nil => cases hstop
  | cons branch rest ih =>
    obtain ⟨-, hrest⟩ := List.nodup_cons.mp hnodup
    obtain ⟨hmem, hout⟩ := hbranches branch List.mem_cons_self
    rw [probeBranches] at hstop ⊢
    cases hone : (other.probeBranch branch points probe).outcome with
    | error cause' =>
      obtain ⟨houtcome, hmethod⟩ := Edited.andThen_of_error
        (fun method placed => (probeBranches points probe rest method).andThen fun method more =>
          .done method (placed + more)) hone
      rw [hstop] at houtcome
      cases houtcome
      rw [hmethod, (probeBranch_stops hone).1]
      -- the run stops here: no branch of this part has been routed
      exact ⟨[], branch, rest, total, rfl, hstart, hone⟩
    | ok placed =>
      obtain ⟨houtcome, hmethod⟩ := Edited.andThen_of_ok
        (fun method placed => (probeBranches points probe rest method).andThen fun method more =>
          .done method (placed + more)) hone
      rw [houtcome] at hstop
      cases hothers : (probeBranches points probe rest
          (other.probeBranch branch points probe).method).outcome with
      | ok more =>
        rw [(Edited.andThen_of_ok _ hothers).1] at hstop
        cases hstop
      | error cause' =>
        obtain ⟨houtcome', hmethod'⟩ := Edited.andThen_of_error
          (fun method more => Edited.done method (placed + more)) hothers
        rw [hstop] at houtcome'
        cases houtcome'
        obtain ⟨front, last, back, count, hsplit, hinv, hlast⟩ :=
          ih _ hrest (unrouted_rest hnodup hbranches) (hstep hstart hout hmem hone) hothers
        rw [hmethod, hmethod']
        refine ⟨branch :: front, last, back, count, by rw [hsplit]; rfl, ?_, hlast⟩
        rw [List.reverse_cons, List.append_assoc]
        exact hinv

/-- A run whose steps succeed succeeds. -/
theorem probeBranches_cons {branch : Handle} {rest : List Handle} {placed more : Nat}
    (hone : (other.probeBranch branch points probe).outcome = .ok placed)
    (hrest : (probeBranches points probe rest
      (other.probeBranch branch points probe).method).outcome = .ok more) :
    (probeBranches points probe (branch :: rest) other).outcome = .ok (placed + more)
      ∧ (probeBranches points probe (branch :: rest) other).method
        = (probeBranches points probe rest (other.probeBranch branch points probe).method).method := by
  rw [probeBranches]
  obtain ⟨houtcome, hmethod⟩ := Edited.andThen_of_ok _ hone
  obtain ⟨houtcome', hmethod'⟩ := Edited.andThen_of_ok _ hrest
  rw [houtcome, hmethod, houtcome', hmethod']
  exact ⟨rfl, rfl⟩

/-- Runs place the same for points that ask for the same blocks wherever the run comes to. What is
known of the branches ahead and of the method so far is in `I`. -/
theorem probeBranches_congr {I : List Handle → Method → Prop} {points' : List BranchPoint}
    (hblocks : ∀ {branch rest other}, I (branch :: rest) other →
      other.branchBlocks points' branch = other.branchBlocks points branch)
    (hregistered : ∀ {branch rest other}, I (branch :: rest) other →
      other.registeredAt points' branch ≠ [] → other.registeredAt points branch ≠ [])
    (hstep : ∀ {branch rest other placed}, I (branch :: rest) other →
      (other.probeBranch branch points probe).outcome = .ok placed →
        I rest (other.probeBranch branch points probe).method)
    {branches : List Handle} {placed : Nat} (hstart : I branches other)
    (hok : (probeBranches points probe branches other).outcome = .ok placed) :
    (probeBranches points' probe branches other).outcome = .ok placed
      ∧ (probeBranches points' probe branches other).method
        = (probeBranches points probe branches other).method := by
  induction branches generalizing other placed with
  | nil => exact ⟨hok, rfl⟩
  | cons branch rest ih =>
    obtain ⟨count, hone, hothers, -⟩ := Edited.andThen_spec hok
    obtain ⟨more, hmore, hsum, -⟩ := Edited.andThen_spec hothers
    obtain ⟨hone', hmethod⟩ := probeBranch_congr (hblocks hstart) (hregistered hstart) hone
    obtain ⟨hmore', hsame⟩ := ih (hstep hstart hone) hmore
    rw [← hmethod] at hmore'
    obtain ⟨hall, hmethods⟩ := probeBranches_cons hone' hmore'
    obtain ⟨-, hmethods'⟩ := probeBranches_cons hone hmore
    rw [hmethods, hmethods', hmethod, hsame, hall, ← Except.ok.inj hsum]
    exact ⟨rfl, rfl⟩

/-- Without points no branch has any. -/
theorem registeredAt_nil (method : Method) (branch : Handle) :
    method.registeredAt [] branch = [] := by
  unfold registeredAt
  cases (method.get branch).origin <;> rfl

/-- Without points nothing is placed. -/
theorem probeBranches_nil (other : Method) (branches : List Handle) (probe : Probe) :
    (probeBranches [] probe branches other).outcome = .ok 0
      ∧ (probeBranches [] probe branches other).method = other := by
  induction branches with
  | nil => exact ⟨rfl, rfl⟩
  | cons branch rest ih =>
    have hnone := registeredAt_nil other branch
    obtain ⟨hone, hmethod⟩ :=
      probeBranch_of_ready probe fun hsome => absurd hnone hsome
    rw [branchBlocks_of_registeredAt hnone] at hone hmethod
    rw [spliceBlocks_nil] at hmethod
    obtain ⟨houtcome, hmethod'⟩ := probeBranches_cons hone (by rw [hmethod]; exact ih.1)
    rw [hmethod] at hmethod'
    exact ⟨houtcome, hmethod'.trans ih.2⟩

/-- What is kept by the placement on every branch is so by the placement on all of them, but for the
layout that follows. -/
theorem addBranchProbes_run {I : List Handle → Nat → Method → Prop}
    (hstep : ∀ {routed total other branch placed}, I routed total other → branch ∉ routed →
      branch ∈ method.conditionalBranches →
      (other.probeBranch branch points probe).outcome = .ok placed →
        I (branch :: routed) (total + placed) (other.probeBranch branch points probe).method)
    (ho : method.Ordered) (hstart : I [] 0 method) {placed : Nat}
    (hok : (method.addBranchProbes points probe).outcome = .ok placed) :
    ∃ edited, I method.conditionalBranches.reverse placed edited
      ∧ ((method.addBranchProbes points probe).method = edited ∧ edited = method
        ∨ (method.addBranchProbes points probe).method = edited.layOut) := by
  have hbranches : ∀ branch ∈ method.conditionalBranches,
      branch ∈ method.conditionalBranches ∧ branch ∉ ([] : List Handle) :=
    fun _ hin => ⟨hin, List.not_mem_nil⟩
  have hrun {count : Nat}
      (hrun : (probeBranches points probe method.conditionalBranches method).outcome = .ok count) :=
    probeBranches_run hstep ho.nodup_conditionalBranches hbranches hstart hrun
  simp only [List.append_nil, Nat.zero_add] at hrun
  by_cases hempty : points.isEmpty = true
  · obtain ⟨hnone, hsame⟩ := probeBranches_nil method method.conditionalBranches probe
    rw [addBranchProbes, if_pos hempty] at hok ⊢
    rw [← List.isEmpty_iff.mp hempty] at hnone hsame
    refine ⟨method, ?_, Or.inl ⟨rfl, rfl⟩⟩
    have hinv := hrun hnone
    rw [hsame] at hinv
    rwa [← Except.ok.inj hok]
  · rw [addBranchProbes, if_neg hempty] at hok ⊢
    obtain ⟨count, hcount, hplaced, hmethod⟩ := Edited.andThen_spec hok
    refine ⟨_, ?_, Or.inr hmethod⟩
    rw [← Except.ok.inj hplaced]
    exact hrun hcount

/-- If the blocks of one branch keep `I`, then a placement on all branches leads from `I` to what
laying out makes of it. -/
theorem addBranchProbes_keeps {I J : Method → Prop}
    (hstep : ∀ {other branch placed}, I other → branch < other.slots.size →
      (other.probeBranch branch points probe).outcome = .ok placed →
        I (other.probeBranch branch points probe).method)
    (hlayOut : ∀ {other}, I other → J other.layOut)
    (ho : method.Ordered) (hstart : I method) (hend : J method) {placed : Nat}
    (hok : (method.addBranchProbes points probe).outcome = .ok placed) :
    J (method.addBranchProbes points probe).method := by
  obtain ⟨edited, ⟨hedited, -⟩, hresult⟩ := addBranchProbes_run
    (I := fun _ _ other => I other ∧ method.slots.size ≤ other.slots.size)
    (by
      intro routed total other branch placed ⟨hother, hsize⟩ _ hbranch hok
      have hin := (ho.mem_iff branch).mp (mem_conditionalBranches.mp hbranch).1
      have hlt := Nat.lt_of_lt_of_le hin hsize
      refine ⟨hstep hother hlt hok, Nat.le_trans hsize ?_⟩
      rw [(probeBranch_spec hok).2, spliceBlocks_eq hlt, size_replaced]
      exact Nat.le_add_right _ _)
    ho ⟨hstart, Nat.le_refl _⟩ hok
  rcases hresult with ⟨hmethod, rfl⟩ | hmethod
  · rw [hmethod]
    exact hend
  · rw [hmethod]
    exact hlayOut hedited

end Method

end CilCoverage
