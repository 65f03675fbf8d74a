import CilCoverage.Method.Basic

/-!
# Recognition of inserted sequences

A sequence of templates occurs at an instruction if the instructions from it on match the
templates one by one and every branch among them leads to code that matches from the template it
should lead to. The code may be cyclic: a pair of an instruction and a template that has been met
before is not looked at again.

`agreesFrom` works through the pairs that are still to be compared. It ends because a method has
finitely many handles and a sequence finitely many templates, so that only finitely many pairs can
be met for the first time (`unmet_lt`).
-/

set_option autoImplicit false

namespace CilCoverage

/-- Number of elements of `all` that are not in `met`. -/
def unmet {α : Type} [DecidableEq α] (all met : List α) : Nat :=
  (all.filter fun element => element ∉ met).length

/-- Meeting an element for the first time leaves fewer to be met. -/
theorem unmet_lt {α : Type} [DecidableEq α] {all met : List α} {element : α} (known : element ∈ all)
    (first : element ∉ met) : unmet all (element :: met) < unmet all met := by
  have shrink (rest : List α) : unmet rest (element :: met) ≤ unmet rest met := by
    unfold unmet
    induction rest with
    | nil => simp
    | cons head tail ih =>
      by_cases isMet : head ∈ met
      · simpa [List.filter_cons, isMet] using ih
      · by_cases same : head = element
        · simp only [List.filter_cons, List.mem_cons, same, true_or, not_true, decide_false]
          simp only [Bool.false_eq_true, if_false, first, not_false_eq_true, decide_true, if_true,
            List.length_cons]
          simp only [List.mem_cons] at ih
          exact Nat.le_succ_of_le ih
        · simpa [List.filter_cons, isMet, same] using ih
  induction all with
  | nil => cases known
  | cons head tail ih =>
    by_cases same : head = element
    · have rest := shrink tail
      unfold unmet at rest ⊢
      simp only [List.filter_cons, List.mem_cons, same, true_or, not_true, decide_false]
      simp only [Bool.false_eq_true, if_false, first, not_false_eq_true, decide_true, if_true,
        List.length_cons]
      simp only [List.mem_cons] at rest
      exact Nat.lt_succ_of_le rest
    · have rest := ih (by simpa [Ne.symm same] using known)
      unfold unmet at rest ⊢
      by_cases isMet : head ∈ met
      · simpa [List.filter_cons, isMet] using rest
      · simpa [List.filter_cons, isMet, same] using rest

namespace Method

/-- All pairs of a handle and a position among the templates. -/
def allPairs (method : Method) (templates : List Template) : List (Handle × Nat) :=
  (List.range method.slots.size).flatMap fun handle =>
    (List.range templates.length).map fun index => (handle, index)

/-- All pairs of a slot and a template are listed. -/
theorem mem_allPairs {method : Method} {templates : List Template} {handle index : Nat} :
    (handle, index) ∈ method.allPairs templates ↔
      handle < method.slots.size ∧ index < templates.length := by
  simp [allPairs]

/-- The pairs of targets that an instruction and a template put side by side. -/
def targetPairs (instruction : Instruction) (template : Template) : List (Handle × Nat) :=
  instruction.targets.zip template.targets

/-- Whether the pairs in `pending`, and all pairs that branches lead to from them, match, those in
`met` being taken for granted. -/
def agreesFrom (method : Method) (templates : List Template) (met : List (Handle × Nat)) :
    List (Handle × Nat) → Bool
  | [] => true
  | (handle, index) :: pending =>
    if (handle, index) ∈ met then
      method.agreesFrom templates met pending
    else
      match _found : method.get? handle, _named : templates[index]? with
      | some instruction, some template =>
        instruction.matchesTemplate template
          && method.agreesFrom templates ((handle, index) :: met)
            (targetPairs instruction template ++ pending)
      | _, _ => false
termination_by pending => (unmet (method.allPairs templates) met, pending.length)
decreasing_by
  · simp [Prod.lex_def]
  · refine Prod.Lex.left _ _ (unmet_lt (mem_allPairs.mpr ?_) (by assumption))
    constructor
    · exact (Array.getElem?_eq_some_iff.mp _found).1
    · exact (List.getElem?_eq_some_iff.mp _named).1

/-- Whether a copy of the templates starts at a position of the execution order. -/
def occursAt (method : Method) (position : Nat) (templates : List Template) : Bool :=
  let window := (method.order.drop position).take templates.length
  !templates.isEmpty && window.length == templates.length
    && method.agreesFrom templates [] window.zipIdx

/-- Whether a copy of the templates starts at the instruction that started at `offset` in the body
as it was read. -/
def isInstrumented (method : Method) (offset : Int) (templates : List Template) : Bool :=
  match method.findByOrigin? offset with
  | some handle =>
    match method.position? handle with
    | some position => method.occursAt position templates
    | none => false
  | none => false

/-- The first instruction in execution order at which a copy of the templates starts. -/
def findInstrumentation? (method : Method) (templates : List Template) : Option Handle :=
  match (List.range method.length).find? (method.occursAt · templates) with
  | some position => method.order[position]?
  | none => none

end Method

end CilCoverage
