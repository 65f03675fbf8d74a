import CilCoverage.Proofs.Coverage.Transparency
import CilCoverage.Proofs.Method.Growth
import CilCoverage.Proofs.Method.Identity

/-!
# What placement adds, and in which scope

Every step of placement grows the method that it is applied to. An insertion adds the copies of its
templates at its target (`Grown.insertAt`), the placement on a branch adds the code of its blocks
behind the branch (`Grown.probeBranch`). A run of either kind adds up what its steps do
(`Consistent.grown_addBranchProbes`, `Grown.addStatementProbes`), so that all that instrumentation
adds is said by `Method.probeAdditions` (`Consistent.grown_instrument`).

Other than the plan of an instrumentation, which says what is reported where, additions are known
for every method and not only for bodies as read, since it is not asked what the code does.
-/

set_option autoImplicit false

namespace CilCoverage

open Instruction

/-- The outline of all copies of a template. -/
def Template.outline (template : Template) : Outline := (template.copied id).outline

/-- The outline of an unconditional branch. -/
def Outline.jump : Outline := (Instruction.branchTo 0).outline

/-- The code of a block that reports an id, or only leads on. -/
def blockOutlines (probe : Probe) (id? : Option UInt32) : List Outline :=
  (id?.toList.flatMap probe.sequence).map Template.outline ++ [.jump]

/-- The outlines of the code of a block depend on what it reports. -/
theorem outlines_code (probe : Probe) (block : PathBlock) :
    (block.code probe).map outline = blockOutlines probe block.id? := by
  unfold PathBlock.code blockOutlines
  cases block.id? with
  | none => rfl
  | some id =>
    rw [List.map_append, List.map_map, Option.toList_some, List.flatMap_singleton]
    rfl

/-- The outlines of the code of blocks depend on what they report. -/
theorem outlines_flatMap_code (probe : Probe) (blocks : List PathBlock) :
    (blocks.flatMap (PathBlock.code probe)).map outline
      = (blocks.map PathBlock.id?).flatMap (blockOutlines probe) := by
  rw [List.map_flatMap, List.flatMap_map]
  apply List.flatMap_congr
  intro block _
  exact outlines_code probe block

/-- The outlines of a block were not read. -/
theorem origin_of_mem_blockOutlines {probe : Probe} {id? : Option UInt32} {outline : Outline}
    (hmem : outline ∈ blockOutlines probe id?) : outline.origin = none := by
  rw [blockOutlines, List.mem_append, List.mem_map, List.mem_singleton] at hmem
  rcases hmem with ⟨template, -, rfl⟩ | rfl <;> rfl

/-- Copies of templates at an instruction, in front of it or behind it if it has to stay the entry
of its handler. -/
def Additions.inserting (additions : Additions) (method : Method) (source : Handle)
    (outlines : List Outline) : Additions :=
  if method.keepsEntry source then additions.add source [] outlines
  else additions.add source outlines []

namespace Method

variable {method other : Method} {additions : Additions} {segment : Handle → List Handle}
  {source part : Handle} {probe : Probe}

/-- A method as it was read has consistent regions. -/
theorem AsRead.consistent (hm : method.AsRead) : method.Consistent where
  toOrdered := hm.ordered
  boundaries := hm.boundaries
  origins := hm.origins

/-- What has to keep its place still has to. -/
theorem Grown.keepsEntry_eq (hg : method.Grown other additions segment) (hc : method.Consistent)
    (hmem : source ∈ method.order)
    (hown : other.Own additions (segment source) source part) :
    other.keepsEntry part = method.keepsEntry source := by
  have hopcode : (other.get part).opcode = (method.get source).opcode :=
    congrArg Outline.opcode (hg.outline_eq_of_own hmem hown)
  obtain ⟨tail, htail, hfresh⟩ := hg.opens source hmem
  obtain ⟨front, back, hsplit, hfront, -⟩ := hown
  rw [htail] at hsplit
  cases front with
  | nil =>
    obtain rfl := (List.cons.inj hsplit).1
    rw [keepsEntry, keepsEntry, hopcode, hg.regions]
  | cons first front =>
    have hpart : part ∈ tail := by
      rw [(List.cons.inj hsplit).2]
      exact List.mem_append_right _ List.mem_cons_self
    rw [keepsEntry_eq_false hc.boundaries hg.regions (hfresh part hpart)]
    cases hkeeps : method.keepsEntry source with
    | false => rfl
    | true =>
      rw [hg.kept source hmem hkeeps] at hfront
      cases hfront

/-- Copies of templates have the outlines of the templates. -/
theorem outlines_copies (target : Handle) (templates : List Template) :
    (other.copies target templates).map outline = templates.map Template.outline := by
  rw [copies, List.map_map]
  apply List.map_congr_left
  intro template _
  exact outline_copied template _ _

/-- An insertion adds the copies of its templates. -/
theorem Grown.insertAt (hg : method.Grown other additions segment) (hc : method.Consistent)
    (hmem : source ∈ method.order)
    (hown : other.Own additions (segment source) source part) {templates : List Template}
    {inserted : Method} (hinsert : other.insertAt part templates = .ok inserted) :
    ∃ segment', method.Grown inserted
      (additions.inserting method source (templates.map Template.outline)) segment' := by
  by_cases hne : templates = []
  · subst hne
    cases hinsert
    refine ⟨segment, ?_⟩
    rw [Additions.inserting, List.map_nil, Additions.add_nil_nil, ite_self]
    exact hg
  · obtain ⟨-, position, first, rest, hat, hrow, rfl⟩ :=
      (insertAt_eq_ok_iff hg.ordered hne).mp hinsert
    have hself := hg.outline_eq_of_own hmem hown
    have hunread : ∀ outline ∈ templates.map Template.outline, outline.origin = none := by
      intro outline hin
      obtain ⟨template, -, rfl⟩ := List.mem_map.mp hin
      rfl
    rw [row, hg.keepsEntry_eq hc hmem hown] at hrow
    unfold Additions.inserting
    split at hrow
    · rename_i hkeeps
      rw [if_pos hkeeps]
      obtain ⟨segment', hg'⟩ := hg.replaced hc.toOrdered hmem hown hat []
        (templates.map Template.outline)
        (by rw [hrow, List.map_cons, outlines_copies, hself]; rfl) hunread fun _ => rfl
      exact ⟨segment', hg'.layOut⟩
    · rename_i hkeeps
      rw [if_neg hkeeps]
      obtain ⟨segment', hg'⟩ := hg.replaced hc.toOrdered hmem hown hat
        (templates.map Template.outline) []
        (by rw [hrow, List.map_append, outlines_copies, List.map_singleton, hself])
        (by rwa [List.append_nil]) fun hkeeps' => absurd hkeeps' hkeeps
      exact ⟨segment', hg'.layOut⟩

/-- The code of the blocks of a branch. -/
def branchOutlines (method : Method) (points : List BranchPoint) (probe : Probe)
    (branch : Handle) : List Outline :=
  (blockIds (method.registeredAt points branch) ((method.get branch).targets.length + 1)).flatMap
    (blockOutlines probe)

/-- The probes of the points at an instruction, in the order of the points. -/
def statementOutlines (method : Method) (points : List StatementPoint) (probe : Probe)
    (handle : Handle) : List (List Outline) :=
  (points.filter fun point => (method.get handle).origin == some point.offset.toNat).map
    fun point => (probe.sequence point.id).map Template.outline

/-- The probes of the points: those of statements in front of their instructions, the last one next
to it, or behind an instruction that has to stay the entry of its handler, and then again the last
one next to it; the blocks of the given branches behind them. -/
def probeAdditions (method : Method) (points : Points) (probe : Probe) (routed : List Handle) :
    Additions where
  before := fun handle =>
    if method.keepsEntry handle then []
    else (method.statementOutlines points.statements probe handle).flatten
  behind := fun handle =>
    (if method.keepsEntry handle then
        (method.statementOutlines points.statements probe handle).reverse.flatten
      else [])
    ++ if handle ∈ routed then method.branchOutlines points.branches probe handle else []

/-- Without points there are no additions. -/
theorem probeAdditions_nil {points : List BranchPoint} :
    method.probeAdditions ⟨[], points⟩ probe [] = .none := by
  ext1
  · funext handle
    exact ite_self _
  · funext handle
    show (if _ then [] else []) ++ (if handle ∈ [] then _ else []) = []
    rw [ite_self, if_neg List.not_mem_nil]
    rfl

/-- Working through one more branch. -/
theorem probeAdditions_cons {points : List BranchPoint} {routed : List Handle} {branch : Handle}
    (hout : branch ∉ routed) :
    (method.probeAdditions ⟨[], points⟩ probe routed).add branch []
        (method.branchOutlines points probe branch)
      = method.probeAdditions ⟨[], points⟩ probe (branch :: routed) := by
  have hbefore (routed : List Handle) (handle : Handle) :
      (method.probeAdditions ⟨[], points⟩ probe routed).before handle = [] := ite_self _
  have hbehind (routed : List Handle) (handle : Handle) :
      (method.probeAdditions ⟨[], points⟩ probe routed).behind handle
        = if handle ∈ routed then method.branchOutlines points probe handle else [] := by
    show (if _ then [] else []) ++ _ = _
    rw [ite_self, List.nil_append]
  ext1
  · funext handle
    rw [hbefore]
    by_cases hself : handle = branch
    · rw [hself, Additions.before_add_self, hbefore]
      rfl
    · rw [Additions.before_add_of_ne hself, hbefore]
  · funext handle
    rw [hbehind]
    by_cases hself : handle = branch
    · rw [hself, Additions.behind_add_self, hbehind, if_neg hout, if_pos List.mem_cons_self,
        List.append_nil]
    · rw [Additions.behind_add_of_ne hself, hbehind]
      simp only [List.mem_cons, hself, false_or]

/-- Noting one more point at its instruction. -/
theorem probeAdditions_concat {points : List BranchPoint} {routed : List Handle}
    {point : StatementPoint} (hsource : ∀ handle,
      (method.get handle).origin = some point.offset.toNat ↔ handle = source)
    (done : List StatementPoint) :
    (method.probeAdditions ⟨done, points⟩ probe routed).inserting method source
        ((probe.sequence point.id).map Template.outline)
      = method.probeAdditions ⟨done ++ [point], points⟩ probe routed := by
  have hself : method.statementOutlines (done ++ [point]) probe source
      = method.statementOutlines done probe source
        ++ [(probe.sequence point.id).map Template.outline] := by
    have horigin := beq_iff_eq.mpr ((hsource source).mpr rfl)
    rw [statementOutlines, List.filter_append, List.filter_singleton, horigin, List.map_append]
    rfl
  have hother {handle : Handle} (hne : handle ≠ source) :
      method.statementOutlines (done ++ [point]) probe handle
        = method.statementOutlines done probe handle := by
    have horigin := beq_eq_false_iff_ne.mpr ((hsource handle).not.mpr hne)
    rw [statementOutlines, List.filter_append, List.filter_singleton, horigin, List.map_append]
    exact List.append_nil _
  -- in front of and behind the source, and then of all other instructions
  unfold Additions.inserting
  ext1
  · funext handle
    by_cases hne : handle = source
    · subst hne
      by_cases hkeeps : method.keepsEntry handle = true
      · rw [if_pos hkeeps, Additions.before_add_self, List.append_nil, probeAdditions,
          probeAdditions]
        simp only [hkeeps, if_true]
      · rw [if_neg hkeeps, Additions.before_add_self, probeAdditions, probeAdditions]
        simp only [hkeeps, if_false, hself, Bool.false_eq_true]
        rw [List.flatten_append, List.flatten_singleton]
    · rw [apply_ite Additions.before]
      simp only [ite_apply, Additions.before_add_of_ne hne, ite_self, probeAdditions, hother hne]
  · funext handle
    by_cases hne : handle = source
    · subst hne
      by_cases hkeeps : method.keepsEntry handle = true
      · rw [if_pos hkeeps, Additions.behind_add_self, probeAdditions, probeAdditions]
        simp only [hkeeps, if_true, hself, List.reverse_append, List.reverse_singleton]
        rw [List.flatten_append, List.flatten_singleton, List.append_assoc]
      · rw [if_neg hkeeps, Additions.behind_add_self, List.nil_append, probeAdditions,
          probeAdditions]
        simp only [hkeeps, if_false, Bool.false_eq_true]
    · rw [apply_ite Additions.behind]
      simp only [ite_apply, Additions.behind_add_of_ne hne, ite_self, probeAdditions, hother hne]

section Branches

variable {points : List BranchPoint} {routed : List Handle} {branch : Handle}

/-- The placement on a branch adds the code of its blocks behind it. -/
theorem Grown.probeBranch
    (hg : method.Grown other (method.probeAdditions ⟨[], points⟩ probe routed) segment)
    (hc : method.Consistent) (hmem : branch ∈ method.order) (hout : branch ∉ routed) {placed : Nat}
    (hok : (other.probeBranch branch points probe).outcome = .ok placed) :
    ∃ segment', method.Grown (other.probeBranch branch points probe).method
      (method.probeAdditions ⟨[], points⟩ probe (branch :: routed)) segment' := by
  have hown := hg.own_of_before hmem (ite_self _)
  have hself := hg.outline_eq_of_own hmem hown
  have hat := getElem?_idxOf (hg.mem_order hmem (List.mem_of_mem_head? (hg.head?_segment hmem)))
  have hids := map_id?_branchBlocks (ready_of_probeBranch hok)
  have horigin : (other.get branch).origin = (method.get branch).origin :=
    congrArg Outline.origin hself
  have hcount : (other.get branch).targets.length = (method.get branch).targets.length :=
    congrArg Outline.targetCount hself
  have hregistered : other.registeredAt points branch = method.registeredAt points branch := by
    rw [registeredAt, registeredAt, horigin]
  rw [hregistered, hcount] at hids
  rw [← probeAdditions_cons hout, (probeBranch_spec hok).2,
    spliceBlocks_eq (hg.ordered.lt_of_getElem? hat)]
  refine hg.replaced hc.toOrdered hmem hown hat [] _ ?_ ?_ fun _ => rfl
  · rw [List.map_cons, outlines_flatMap_code, hids, ← hself]
    congr 1
    apply outline_retargeted
    rw [List.length_map, List.length_zipIdx]
  · intro outline hin
    obtain ⟨id?, -, hcode⟩ := List.mem_flatMap.mp hin
    exact origin_of_mem_blockOutlines hcode

/-- The additions depend on which branches were worked through, not on their order. -/
theorem probeAdditions_congr {points : Points} {one two : List Handle}
    (hsame : ∀ handle, handle ∈ one ↔ handle ∈ two) :
    method.probeAdditions points probe one = method.probeAdditions points probe two := by
  unfold probeAdditions
  simp only [hsame]

/-- The placement on all branches adds the blocks of all of them. -/
theorem Consistent.grown_addBranchProbes (hc : method.Consistent) {placed : Nat}
    (hok : (method.addBranchProbes points probe).outcome = .ok placed) :
    ∃ segment, method.Grown (method.addBranchProbes points probe).method
      (method.probeAdditions ⟨[], points⟩ probe method.conditionalBranches) segment := by
  have hstart : ∃ segment, method.Grown method (method.probeAdditions ⟨[], points⟩ probe [])
      segment := by
    rw [probeAdditions_nil]
    exact ⟨_, hc.toOrdered.grown⟩
  obtain ⟨edited, ⟨segment, hg⟩, hmethod⟩ := addBranchProbes_run
    (I := fun routed _ other => ∃ segment,
      method.Grown other (method.probeAdditions ⟨[], points⟩ probe routed) segment)
    (fun ⟨_, hg⟩ hout hbranch hone =>
      hg.probeBranch hc (mem_conditionalBranches.mp hbranch).1 hout hone)
    hc.toOrdered hstart hok
  refine ⟨segment, ?_⟩
  rw [← probeAdditions_congr fun _ => List.mem_reverse]
  rcases hmethod with ⟨hmethod, -⟩ | hmethod
  · rw [hmethod]
    exact hg
  · rw [hmethod]
    exact hg.layOut

end Branches

/-- A run over statement points adds the probes of all of them. -/
theorem Grown.addStatementProbes (hc : method.Consistent) {points : List StatementPoint}
    {branches : List BranchPoint} {routed : List Handle} (done : List StatementPoint)
    (hg : method.Grown other (method.probeAdditions ⟨done, branches⟩ probe routed) segment)
    {placed : Nat} (hok : (addStatementProbes probe points other).outcome = .ok placed) :
    ∃ segment', method.Grown (addStatementProbes probe points other).method
      (method.probeAdditions ⟨done ++ points, branches⟩ probe routed) segment' := by
  refine addStatementProbes_run (I := fun done other => ∃ segment,
    method.Grown other (method.probeAdditions ⟨done, branches⟩ probe routed) segment) ?_
    done ⟨segment, hg⟩ hok
  rintro done other point target inserted ⟨segment, hg⟩ htarget horigin hinsert
  obtain ⟨source, hsource, hpart⟩ := hg.exists_segment htarget
  have hown := hg.own_of_read hsource hpart (by rw [horigin]; exact nofun)
  have hself : (other.get target).origin = (method.get source).origin :=
    congrArg Outline.origin (hg.outline_eq_of_own hsource hown)
  rw [hself] at horigin
  have hunique := hc.toOrdered.origin_eq_some_iff hc.origins hsource horigin
  obtain ⟨segment', hstep⟩ := hg.insertAt hc hsource hown hinsert
  rw [probeAdditions_concat hunique] at hstep
  exact ⟨segment', hstep⟩

/-- Instrumentation adds the probes of its points. -/
theorem Consistent.grown_instrument (hc : method.Consistent) {points : Points}
    {configuration : Configuration} {placement : Placement}
    (hok : (method.instrument points probe configuration).outcome = .ok placement) :
    ∃ segment, method.Grown (method.instrument points probe configuration).method
      (method.probeAdditions (points.enabled configuration) probe method.conditionalBranches)
      segment := by
  refine instrument_keeps
    (I := fun other => ∃ segment, method.Grown other
      (method.probeAdditions (points.enabled configuration) probe method.conditionalBranches)
      segment)
    hok ?_ fun extra ⟨segment, hg⟩ => ⟨segment, hg.increaseMaxStack extra⟩
  intro hrouted hnoted
  obtain ⟨segment, hg⟩ := hc.grown_addBranchProbes hrouted
  exact hg.addStatementProbes hc [] hnoted

end Method

end CilCoverage
