import CilCoverage.Proofs.Coverage.Walks

/-!
# Skeletons

The skeleton of a method is a graph of its control flow: nodes, what is seen of them, and where
their paths lead to. A method follows a skeleton if its walks are those through the graph, up to
instructions of which nothing is seen: such instructions may stand in front of a node and on the way
from one node to another.

Two methods that go through the same skeleton (`Tours`) match each other's walks
(`Tours.exists_walk`), which is shown by a simulation that goes from node to node. What the walks
have in common is up to the relation that it is run with. With the traces, it shows that methods
which follow the same skeleton have the same ones (`Follows.trace_iff`).
-/

set_option autoImplicit false

namespace CilCoverage

/-- Nothing is seen of the instruction. -/
def Instruction.Unseen (instruction : Instruction) : Prop :=
  ∀ path, instruction.mark? path = none

/-- A graph of control flow. -/
structure Skeleton where
  nodes : List Handle
  look : Handle → Instruction
  leadsTo : Handle → Nat → Option Handle

namespace Method

/-- The walks of the method are those through the skeleton, and nodes are found at their `body`. The
instructions in between satisfy `P`. -/
structure Tours (method : Method) (P : Instruction → Prop) (skeleton : Skeleton)
    (body : Handle → Handle) : Prop where
  arrives : ∀ node ∈ skeleton.nodes, ∃ visits, method.Leads P node visits (body node)
  pathCount : ∀ node ∈ skeleton.nodes,
    (method.get (body node)).pathCount = (skeleton.look node).pathCount
  ends : ∀ node ∈ skeleton.nodes, ∀ path < (skeleton.look node).pathCount,
    skeleton.leadsTo node path = none → method.after? (body node) path = none
  moves : ∀ node ∈ skeleton.nodes, ∀ path < (skeleton.look node).pathCount, ∀ next,
    skeleton.leadsTo node path = some next → next ∈ skeleton.nodes ∧
      ∃ start visits, method.after? (body node) path = some start
        ∧ method.Leads P start visits next

/-- The walks of the method are those through the skeleton, and `body` holds what is seen of a
node. -/
structure Follows (method : Method) (skeleton : Skeleton) (body : Handle → Handle) : Prop where
  arrives : ∀ node ∈ skeleton.nodes, ∃ visits,
    method.Leads Instruction.Unseen node visits (body node)
  pathCount : ∀ node ∈ skeleton.nodes,
    (method.get (body node)).pathCount = (skeleton.look node).pathCount
  mark : ∀ node ∈ skeleton.nodes, ∀ path,
    (method.get (body node)).mark? path = (skeleton.look node).mark? path
  ends : ∀ node ∈ skeleton.nodes, ∀ path < (skeleton.look node).pathCount,
    skeleton.leadsTo node path = none → method.after? (body node) path = none
  moves : ∀ node ∈ skeleton.nodes, ∀ path < (skeleton.look node).pathCount, ∀ next,
    skeleton.leadsTo node path = some next → next ∈ skeleton.nodes ∧
      ∃ start visits, method.after? (body node) path = some start
        ∧ method.Leads Instruction.Unseen start visits next

section Simulation

variable {method one other : Method} {skeleton : Skeleton} {body body' : Handle → Handle}

/-- The parts of a walk are seen one after the other. -/
theorem trace_append (method : Method) (front back : List Visit) :
    method.trace (front ++ back) = method.trace front ++ method.trace back :=
  List.filterMap_append

/-- Of a visit and what follows it, the visit is seen first. -/
theorem trace_cons (method : Method) (visit : Visit) (rest : List Visit) :
    method.trace (visit :: rest)
      = ((method.get visit.handle).mark? visit.path).toList ++ method.trace rest := by
  rw [trace, List.filterMap_cons]
  cases (method.get visit.handle).mark? visit.path <;> rfl

/-- Nothing is seen of unseen instructions. -/
theorem trace_eq_nil {visits : List Visit}
    (hunseen : ∀ visit ∈ visits, (method.get visit.handle).Unseen) : method.trace visits = [] := by
  rw [trace, List.filterMap_eq_nil_iff]
  exact fun visit hmem => hunseen visit hmem visit.path

/-- Instructions in between of which nothing is seen are toured. -/
theorem Follows.tours (hf : method.Follows skeleton body) :
    method.Tours Instruction.Unseen skeleton body :=
  ⟨hf.arrives, hf.pathCount, hf.ends, hf.moves⟩

/-- A tour past unseen instructions follows the skeleton if its nodes look the same. -/
theorem Tours.follows (ht : method.Tours Instruction.Unseen skeleton body)
    (hmark : ∀ node ∈ skeleton.nodes, ∀ path,
      (method.get (body node)).mark? path = (skeleton.look node).mark? path) :
    method.Follows skeleton body :=
  ⟨ht.arrives, ht.pathCount, hmark, ht.ends, ht.moves⟩

/-- What holds of the instructions in between may be replaced by what it implies. -/
theorem Tours.mono {P Q : Instruction → Prop} (himp : ∀ instruction, P instruction → Q instruction)
    (ht : method.Tours P skeleton body) : method.Tours Q skeleton body where
  arrives := by
    intro node hnode
    obtain ⟨visits, hleads⟩ := ht.arrives node hnode
    exact ⟨visits, hleads.mono himp⟩
  pathCount := ht.pathCount
  ends := ht.ends
  moves := by
    intro node hnode path hpath next hto
    obtain ⟨hnext, start, visits, hafter, hleads⟩ := ht.moves node hnode path hpath next hto
    exact ⟨hnext, start, visits, hafter, hleads.mono himp⟩

/-- A walk from a node is matched by one of any other method that goes through the skeleton, up to a
relation that holds of the nodes and leaves out what lies in between. -/
theorem Tours.exists_walk {P Q : Instruction → Prop} (hone : one.Tours P skeleton body)
    (hother : other.Tours Q skeleton body') {R : List Visit → List Visit → Prop}
    (happend : ∀ {front front' back back'}, R front front' → R back back' →
      R (front ++ back) (front' ++ back'))
    (hskip : ∀ {cut}, (∀ visit ∈ cut, P (one.get visit.handle)) → R cut [])
    (hskip' : ∀ {cut}, (∀ visit ∈ cut, Q (other.get visit.handle)) → R [] cut)
    (hsame : ∀ node ∈ skeleton.nodes, ∀ path, R [⟨body node, path⟩] [⟨body' node, path⟩])
    {node : Handle} (hnode : node ∈ skeleton.nodes) {visits : List Visit}
    (hwalk : one.Walk (some node) visits) :
    ∃ visits', other.Walk (some node) visits' ∧ R visits visits' := by
  -- the walk is cut at the nodes, so the induction is on its length
  induction hlength : visits.length using Nat.strong_induction_on generalizing node visits with
  | _ count ih =>
    subst hlength
    obtain ⟨front, hfront⟩ := hone.arrives node hnode
    rcases hfront.walk_cases hwalk with hcut | ⟨back, rfl, hback⟩
    · exact ⟨[], .stay _, hskip fun visit hmem => hfront.such (hcut.subset hmem)⟩
    have harrived := hskip fun visit => hfront.such
    cases hback with
    | stay =>
      refine ⟨[], .stay _, ?_⟩
      rwa [List.append_nil]
    | @go _ path rest hknown hrest =>
      rw [hone.pathCount node hnode] at hknown
      obtain ⟨front', hfront'⟩ := hother.arrives node hnode
      have harrived' := hskip' fun visit => hfront'.such
      suffices htail : ∃ tail, other.Walk (other.after? (body' node) path) tail ∧ R rest tail by
        obtain ⟨tail, htail, hmatched⟩ := htail
        refine ⟨front' ++ ⟨body' node, path⟩ :: tail, hfront'.walk (.go ?_ htail), ?_⟩
        · rwa [hother.pathCount node hnode]
        · have hmet := happend harrived harrived'
          rw [List.append_nil, List.nil_append] at hmet
          exact happend hmet (happend (hsame node hnode path) hmatched)
      cases hto : skeleton.leadsTo node path with
      | none =>
        rw [hone.ends node hnode path hknown hto] at hrest
        cases hrest
        exact ⟨[], .stay _, hskip nofun⟩
      | some next =>
        obtain ⟨hnext, start, way, hafter, hway⟩ := hone.moves node hnode path hknown next hto
        rw [hafter] at hrest
        rcases hway.walk_cases hrest with hcut | ⟨later, rfl, hlater⟩
        · exact ⟨[], .stay _, hskip fun visit hmem => hway.such (hcut.subset hmem)⟩
        · have hshorter : later.length < (front ++ ⟨body node, path⟩ :: (way ++ later)).length := by
            simp only [List.length_append, List.length_cons]
            omega
          obtain ⟨later', hlater', hmatched⟩ := ih _ hshorter hnext hlater rfl
          obtain ⟨-, start', way', hafter', hway'⟩ :=
            hother.moves node hnode path hknown next hto
          refine ⟨way' ++ later', ?_, ?_⟩
          · rw [hafter']
            exact hway'.walk hlater'
          · have hmet := happend (hskip fun visit => hway.such) (hskip' fun visit => hway'.such)
            rw [List.append_nil, List.nil_append] at hmet
            exact happend hmet hmatched

/-- A walk from a node is seen like one of any other method that follows the skeleton. -/
theorem Follows.exists_walk (hone : one.Follows skeleton body)
    (hother : other.Follows skeleton body') {node : Handle} (hnode : node ∈ skeleton.nodes)
    {visits : List Visit} (hwalk : one.Walk (some node) visits) :
    ∃ visits', other.Walk (some node) visits' ∧ other.trace visits' = one.trace visits := by
  refine hone.tours.exists_walk hother.tours
    (R := fun visits visits' => other.trace visits' = one.trace visits) ?_ ?_ ?_ ?_ hnode hwalk
  · intro front front' back back' hfront hback
    rw [trace_append, trace_append, hfront, hback]
  · intro cut hunseen
    exact (trace_eq_nil hunseen).symm
  · intro cut hunseen
    exact trace_eq_nil hunseen
  · intro node hnode path
    rw [trace_cons, trace_cons, hone.mark node hnode, hother.mark node hnode]
    rfl

/-- Methods that follow one skeleton are seen the same from every node. -/
theorem Follows.trace_iff (hone : one.Follows skeleton body)
    (hother : other.Follows skeleton body') {node : Handle} (hnode : node ∈ skeleton.nodes)
    (seen : List (Nat × Option Nat)) :
    (∃ visits, one.Walk (some node) visits ∧ one.trace visits = seen)
      ↔ ∃ visits, other.Walk (some node) visits ∧ other.trace visits = seen := by
  constructor
  · rintro ⟨visits, hwalk, rfl⟩
    exact hone.exists_walk hother hnode hwalk
  · rintro ⟨visits, hwalk, rfl⟩
    exact hother.exists_walk hone hnode hwalk

end Simulation

end Method

end CilCoverage
