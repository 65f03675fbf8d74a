import CilCoverage.Error
import CilCoverage.Method.Layout

/-!
# Insertion

A sequence of templates is inserted at an instruction so that everything that led to the
instruction leads to the sequence. The handle of the instruction is taken over by the first copy,
the remaining copies and the instruction itself move to fresh handles, and the fresh handles follow
in execution order.

A `rethrow` at the entry of a catch handler keeps its handle, because it has to stay the first
instruction of the handler; the copies follow it.
-/

set_option autoImplicit false

namespace CilCoverage

/-- The copy of a template in a method: widened, not laid out, and with the handles that
`handleOf` gives to the positions of its targets. -/
def Template.copied (template : Template) (handleOf : Nat → Handle) : Instruction :=
  { Instruction.widened (.ofTemplate template) with targets := template.targets.map handleOf }

/-- The first target of a sequence that lies outside the sequence. -/
def strayTarget? (templates : List Template) : Option Nat :=
  templates.findSome? fun template => template.targets.find? (templates.length ≤ ·)

/-- The list with `inserted` behind the element at `position`. -/
def insertBehind (position : Nat) (inserted order : List Handle) : List Handle :=
  order.take (position + 1) ++ inserted ++ order.drop (position + 1)

namespace Method

/-- The first `count` handles that no slot has yet. -/
def freshHandles (method : Method) (count : Nat) : List Handle :=
  List.range' method.slots.size count

/-- Puts instructions into fresh slots that follow `position` in execution order. -/
def splice (method : Method) (position : Nat) (instructions : List Instruction) : Method :=
  { method with
    slots := method.slots ++ instructions
    order := insertBehind position (method.freshHandles instructions.length) method.order }

/-- Whether the instruction is a `rethrow` that opens a catch handler. -/
def keepsEntry (method : Method) (handle : Handle) : Bool :=
  (method.get handle).opcode == .rethrow
    && method.regions.any fun region =>
      region.kind == .catching && region.handlerStart == handle

/-- Copies the templates into fresh slots behind the instruction at `position`. -/
def insertBehindTarget (method : Method) (position : Nat) (templates : List Template) : Method :=
  method.splice position (templates.map fun template => template.copied (method.slots.size + ·))

/-- Copies the templates so that the first one takes over the handle `target`, whose instruction
moves behind the last copy. The chain of handles `target`, first fresh one, second fresh one and so
on holds the copies and then the instruction. -/
def insertTakingOver (method : Method) (target position : Nat) (templates : List Template) :
    Method :=
  let handleOf (index : Nat) : Handle :=
    if index = 0 then target else method.slots.size + (index - 1)
  let contents := templates.map (Template.copied · handleOf) ++ [method.get target]
  match contents with
  | [] => method
  | first :: rest =>
    { method with slots := method.slots.setIfInBounds target first }.splice position rest

/-- Inserts copies of the templates at the instruction of a handle and lays the method out again.
An empty sequence changes nothing. -/
def insertAt (method : Method) (target : Handle) (templates : List Template) :
    Except Error Method :=
  if templates.isEmpty then .ok method
  else
    match method.position? target with
    | none => .error (.instructionNotFound (method.offsetOf target))
    | some position =>
      match strayTarget? templates with
      | some stray => .error (.malformed (.templateTarget stray templates.length))
      | none =>
        if method.keepsEntry target then
          .ok (method.insertBehindTarget position templates).layOut
        else
          .ok (method.insertTakingOver target position templates).layOut

/-- Inserts at the instruction that starts at `offset` in the current layout. -/
def insertAtOffset (method : Method) (offset : Int) (templates : List Template) :
    Except Error Method :=
  match method.findByOffset? offset with
  | some target => method.insertAt target templates
  | none => .error (.instructionNotFound offset)

/-- Inserts at the instruction that started at `offset` in the body as it was read. -/
def insertAtOrigin (method : Method) (offset : Int) (templates : List Template) :
    Except Error Method :=
  match method.findByOrigin? offset with
  | some target => method.insertAt target templates
  | none => .error (.instructionNotFound offset)

end Method

end CilCoverage
