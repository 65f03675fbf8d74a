import CilCoverage.Coverage.Configuration
import CilCoverage.Coverage.Points
import CilCoverage.Event
import CilCoverage.Method.Decode
import CilCoverage.Method.Insertion
import CilCoverage.Method.Recognition
import CilCoverage.Method.Scope

/-!
# Placement of probes

Statement probes are inserted at the instruction of their point. Branch probes get a block of code
per path, placed directly behind the branch:

    brtrue B1            path 1 now leads to B1
    probe of path 0      path 0 falls into its block
    br (destination of path 0)
    B1: probe of path 1
    br (destination of path 1)

A block without probe guards the fall-through path if only other paths have points. The destination
of a block is the old one of its path, past chains of unconditional branches that stay in the scope
of the branch; those of a `switch` are kept as they are.

Placement changes a method step by step. `Edited` tells what became of the method even if a later
step failed, together with the events that the steps caused.
-/

set_option autoImplicit false

namespace CilCoverage

/-- What a sequence of changes to a method comes to. -/
structure Edited (α : Type) where
  /-- The method after the last step that was carried out. -/
  method : Method
  /-- The events caused by the steps, in order. -/
  events : List Event
  /-- The result, or why the sequence stopped. -/
  outcome : Except Error α

namespace Edited

variable {α β : Type}

/-- The sequence of no steps. -/
def done (method : Method) (value : α) : Edited α := ⟨method, [], .ok value⟩

/-- Goes on with the method and the result of the first steps, if they did not stop. -/
def andThen (first : Edited α) (next : Method → α → Edited β) : Edited β :=
  match first.outcome with
  | .ok value =>
    let rest := next first.method value
    { rest with events := first.events ++ rest.events }
  | .error cause => ⟨first.method, first.events, .error cause⟩

/-- The insertion of templates at the instruction that a search came to. -/
def insertion (method : Method) (offset : Int) (target? : Option Handle)
    (templates : List Template) : Edited Unit :=
  match target? with
  | none => ⟨method, [], .error (.instructionNotFound offset)⟩
  | some target =>
    match method.insertAt target templates with
    | .error cause => ⟨method, [], .error cause⟩
    | .ok inserted =>
      let events :=
        if !templates.isEmpty && method.keepsEntry target then
          [.entryKept (method.offsetOf target)]
        else []
      ⟨inserted, events, .ok ()⟩

end Edited

/-- How many probes were placed in a method. -/
structure Placement where
  statements : Nat
  branches : Nat
deriving DecidableEq, Repr

/-- Number of probes of both kinds. -/
def Placement.total (placement : Placement) : Nat := placement.statements + placement.branches

/-- The code behind a branch for one of its paths. -/
structure PathBlock where
  /-- The path that the block is for. -/
  path : Nat
  /-- The id that its probe reports; a block without probe only leads on. -/
  id? : Option UInt32
  /-- Where the block leads to. -/
  exit : Handle
deriving DecidableEq, Repr

/-- The instructions of a block. -/
def PathBlock.code (probe : Probe) (block : PathBlock) : List Instruction :=
  let report :=
    match block.id? with
    | some id => probe.sequence id
    | none => []
  report.map (Template.copied · id) ++ [.branchTo block.exit]

/-- The blocks with the handles of their first instructions, if the code of the first one starts
at the handle `start`. -/
def locateBlocks (probe : Probe) (start : Handle) : List PathBlock → List (PathBlock × Handle)
  | [] => []
  | block :: rest =>
    (block, start) :: locateBlocks probe (start + (block.code probe).length) rest

/-- The id of the first point on a path. -/
def idOfPath? (registered : List BranchPoint) (path : Nat) : Option UInt32 :=
  (registered.find? fun point => point.path.toNat == path).map BranchPoint.id

namespace Method

/-- Where the block of a path leads to if the path led to `target`. -/
def pathExit (method : Method) (branch target : Handle) : Handle :=
  if (method.get branch).opcode = .switch then target else method.followBranches branch target

/-- The blocks of a branch: one per path with a point, and one without probe for the fall-through
path if only other paths have points. -/
def pathBlocks (method : Method) (branch fallThrough : Handle) (registered : List BranchPoint) :
    List PathBlock :=
  let destinations := fallThrough :: (method.get branch).targets
  let anyProbed := registered.any fun point => point.path.toNat < destinations.length
  destinations.zipIdx.filterMap fun (target, path) =>
    match idOfPath? registered path with
    | some id => some { path, id? := some id, exit := method.pathExit branch target }
    | none =>
      if path = 0 && anyProbed then
        some { path, id? := none, exit := method.pathExit branch target }
      else none

/-- Puts the code of the blocks behind the branch at `position` and leads its paths to them. -/
def spliceBlocks (method : Method) (branch position : Nat) (blocks : List PathBlock)
    (probe : Probe) : Method :=
  let located := locateBlocks probe method.slots.size blocks
  let led (instruction : Instruction) : Instruction :=
    { instruction with
      targets := (instruction.targets.zipIdx 1).map fun (target, path) =>
        match located.find? fun (block, _) => block.path == path with
        | some (_, start) => start
        | none => target }
  { method with slots := method.slots.modify branch led }.splice position
    (blocks.flatMap (PathBlock.code probe))

/-- Places the probes of the points on one branch; the method is not laid out again. -/
def probeBranch (method : Method) (branch : Handle) (points : List BranchPoint) (probe : Probe) :
    Edited Nat :=
  let instruction := method.get branch
  match instruction.origin with
  | none => .done method 0
  | some offset =>
    let registered := points.filter fun point => point.offset.toNat == offset
    let pathCount := instruction.targets.length + 1
    let missing := (registered.filter fun point => pathCount ≤ point.path.toNat).map fun point =>
      Event.pathMissing offset point.path point.id
    if registered.isEmpty then .done method 0
    else
      match method.position? branch, method.next? branch with
      | some position, some fallThrough =>
        let unprobed := ((List.range pathCount).filter fun path =>
          (idOfPath? registered path).isNone).map (Event.pathUnprobed offset)
        let blocks := method.pathBlocks branch fallThrough registered
        let placed := blocks.countP fun block => block.id?.isSome
        if placed = 0 then ⟨method, missing ++ unprobed, .ok 0⟩
        else
          ⟨method.spliceBlocks branch position blocks probe,
            missing ++ unprobed ++ [.branchProbed offset placed pathCount], .ok placed⟩
      | _, _ =>
        ⟨method, missing, .error (.instructionNotFound (offset + instruction.size))⟩

/-- Places the probes of the points on the given branches, one after the other. -/
def probeBranches (points : List BranchPoint) (probe : Probe) : List Handle → Method → Edited Nat
  | [], method => .done method 0
  | branch :: rest, method =>
    (method.probeBranch branch points probe).andThen fun method placed =>
      (probeBranches points probe rest method).andThen fun method more =>
        .done method (placed + more)

/-- The conditional branches of the body as read, in execution order. -/
def conditionalBranches (method : Method) : List Handle :=
  method.order.filter fun handle =>
    (method.get handle).origin.isSome && (method.get handle).flow == .conditionalBranch

/-- Places branch probes and lays the method out again. If a branch stops the placement, the
probes placed before it stay, without layout. -/
def addBranchProbes (method : Method) (points : List BranchPoint) (probe : Probe) : Edited Nat :=
  if points.isEmpty then .done method 0
  else
    (probeBranches points probe method.conditionalBranches method).andThen fun method placed =>
      .done method.layOut placed

/-- Inserts the probe of each point at its instruction. -/
def addStatementProbes (probe : Probe) : List StatementPoint → Method → Edited Nat
  | [], method => .done method 0
  | point :: rest, method =>
    let offset : Int := point.offset.toNat
    (Edited.insertion method offset (method.findByOrigin? offset)
        (probe.sequence point.id)).andThen fun method _ =>
      (addStatementProbes probe rest method).andThen fun method placed =>
        .done method (placed + 1)

/-- Places the probes that the configuration asks for, those of branches first, and raises the
stack depth if there is any. -/
def instrument (method : Method) (points : Points) (probe : Probe)
    (configuration : Configuration) : Edited Placement :=
  (if configuration.branchProbes then method.addBranchProbes points.branches probe
    else .done method 0).andThen fun method branches =>
  (if configuration.statementProbes then addStatementProbes probe points.statements method
    else .done method 0).andThen fun method statements =>
  let placement : Placement := { statements, branches }
  let method :=
    if placement.total = 0 then method
    else method.increaseMaxStack (max configuration.extraMaxStack probe.stackDepth)
  ⟨method, [.probesPlaced statements branches method.codeSize], .ok placement⟩

/-- Whether the method carries the probe of the first statement point, wherever it is. -/
def isAlreadyInstrumented (method : Method) (points : Points) (probe : Probe) : Bool :=
  match points.statements with
  | [] => false
  | first :: _ => (method.findInstrumentation? (probe.sequence first.id)).isSome

/-- The event that goes with reading a body of `codeBytes` bytes of code. -/
def decodedEvent (method : Method) (codeBytes : Nat) : Event :=
  .decoded method.length method.regions.length codeBytes method.codeSize

/-- Reads a method body and notes the event that goes with it. -/
def decodeNoting (data : List UInt8) : Except Error (Method × Event) := do
  let body ← Body.read data
  let method ← decode data
  return (method, method.decodedEvent body.header.codeSize.toNat)

end Method

end CilCoverage
