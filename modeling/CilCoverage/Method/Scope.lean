import CilCoverage.Method.Recognition

/-!
# Exception scopes and chains of branches

The blocks of its exception regions that enclose an instruction are its scope. A chain of
unconditional branches is followed only as long as it stays in the scope it was entered from, so
that a branch to its end neither enters nor leaves a block. Following ends because every
instruction of the chain is met at most once.
-/

set_option autoImplicit false

namespace CilCoverage

namespace Method

/-- Whether a position of the execution order lies in a block. -/
def isInside (method : Method) (position : Nat) (block : Handle × Handle) : Bool :=
  match method.position? block.1, method.position? block.2 with
  | some start, some finish => start ≤ position && position < finish
  | _, _ => false

/-- The blocks that enclose an instruction: the index of the region and that of the block within
it, in this order. -/
def enclosingBlocks (method : Method) (handle : Handle) : List (Nat × Nat) :=
  match method.position? handle with
  | none => []
  | some position =>
    method.regions.zipIdx.flatMap fun (region, regionIndex) =>
      region.blocks.zipIdx.filterMap fun (block, blockIndex) =>
        if method.isInside position block then some (regionIndex, blockIndex) else none

/-- The target of an unconditional branch whose target lies in the given scope. -/
def hop? (method : Method) (scope : List (Nat × Nat)) (handle : Handle) : Option Handle :=
  match method.get? handle with
  | some instruction =>
    match instruction.opcode, instruction.targets with
    | .br, [target] => if method.enclosingBlocks target = scope then some target else none
    | _, _ => none
  | none => none

/-- Only a slot of the method is left by a hop. -/
theorem lt_size_of_hop? {method : Method} {scope : List (Nat × Nat)} {handle target : Handle}
    (hop : method.hop? scope handle = some target) : handle < method.slots.size := by
  unfold hop? at hop
  split at hop
  · exact (Array.getElem?_eq_some_iff.mp (by assumption)).1
  · cases hop

/-- Follows hops within a scope and stops at the last instruction or at the first one that is met
again. -/
def followWithin (method : Method) (scope : List (Nat × Nat)) (met : List Handle)
    (handle : Handle) : Handle :=
  if handle ∈ met then handle
  else
    match _hop : method.hop? scope handle with
    | some target => method.followWithin scope (handle :: met) target
    | none => handle
termination_by unmet (List.range method.slots.size) met
decreasing_by
  exact unmet_lt (List.mem_range.mpr (lt_size_of_hop? _hop)) (by assumption)

/-- The instruction that a branch placed beside `source` may go to instead of `handle`. -/
def followBranches (method : Method) (source handle : Handle) : Handle :=
  method.followWithin (method.enclosingBlocks source) [] handle

end Method

end CilCoverage
