import CilCoverage.Body.Section
import CilCoverage.Instruction.Basic

/-!
# Methods

A `Method` keeps its instructions in slots. A handle names a slot, and the order in which the
instructions execute is a list of handles of its own, so that branches and exception regions, which
refer to handles, stay valid while instructions are inserted around them.

`Method.findByOffset?` searches the order by bisection for the first instruction that is not before
an offset; `Method.findByOrigin?` goes by the offsets of the body as it was read.
-/

set_option autoImplicit false

namespace CilCoverage

/-- What the handler of a region is for. -/
inductive Region.Handler
  /-- Exceptions of one type. -/
  | catching (type : Token)
  /-- Exceptions that the filter starting at a handle accepts. -/
  | filtering (start : Handle)
  /-- Every exit from the protected block. -/
  | finalizing
  /-- Every exit by an exception. -/
  | faulting
deriving DecidableEq, Repr

/-- A protected block and its handler. The two ends are the first handles behind the blocks. -/
structure Region where
  tryStart : Handle
  tryEnd : Handle
  handlerStart : Handle
  handlerEnd : Handle
  handler : Region.Handler
deriving DecidableEq, Repr

namespace Region

/-- The kind of clause that stands for the region. -/
def kind (region : Region) : Clause.Kind :=
  match region.handler with
  | .catching _ => .catching
  | .filtering _ => .filtering
  | .finalizing => .finalizing
  | .faulting => .faulting

/-- The type that is caught. -/
def classToken? (region : Region) : Option Token :=
  match region.handler with
  | .catching type => some type
  | _ => none

/-- The first instruction of the filter. -/
def filterStart? (region : Region) : Option Handle :=
  match region.handler with
  | .filtering start => some start
  | _ => none

/-- The blocks as first handle and end: the protected block, the filter if there is one, which
ends at the handler, and the handler. -/
def blocks (region : Region) : List (Handle × Handle) :=
  match region.handler with
  | .filtering start =>
    [(region.tryStart, region.tryEnd), (start, region.handlerStart),
      (region.handlerStart, region.handlerEnd)]
  | _ => [(region.tryStart, region.tryEnd), (region.handlerStart, region.handlerEnd)]

end Region

/-- A method body as a graph of instructions. -/
structure Method where
  /-- The header as read, with stack depth and code size of the current state. -/
  header : Header
  /-- The instructions, by handle. -/
  slots : Array Instruction
  /-- The handles in execution order. -/
  order : List Handle
  /-- The exception regions in the order of their clauses. -/
  regions : List Region
deriving DecidableEq

namespace Method

/-- The instruction in a slot. -/
def get? (method : Method) (handle : Handle) : Option Instruction := method.slots[handle]?

/-- The instruction in a slot; a handle that names no slot reads as a label without offset, which
no operation on a method whose handles all name slots comes across. -/
def get (method : Method) (handle : Handle) : Instruction :=
  (method.get? handle).getD (.label (-1))

/-- The instructions in execution order. -/
def instructions (method : Method) : List Instruction := method.order.map method.get

/-- Number of instructions, a label at the end of the code included. -/
def length (method : Method) : Nat := method.order.length

/-- Whether the method has no instructions. -/
def isEmpty (method : Method) : Bool := method.order.isEmpty

/-- The stack depth that will be written. -/
def maxStack (method : Method) : UInt16 := method.header.maxStack

/-- Number of bytes of code in the current layout. -/
def codeSize (method : Method) : Nat := method.header.codeSize.toNat

/-- The offset of a slot in the current layout. -/
def offsetOf (method : Method) (handle : Handle) : Int := (method.get handle).offset

/-- The position of a handle in execution order. -/
def position? (method : Method) (handle : Handle) : Option Nat := method.order.idxOf? handle

/-- The handle behind another one in execution order. -/
def next? (method : Method) (handle : Handle) : Option Handle :=
  match method.position? handle with
  | some position => method.order[position + 1]?
  | none => none

end Method

/-- Bisection for the first of `size` positions from `base` on that is not `before`. The answer is
that position whenever those before it come first. -/
def partitionPoint (before : Nat → Bool) (size base : Nat) : Nat :=
  if size ≤ 1 then
    if size = 1 && before base then base + 1 else base
  else
    let half := size / 2
    partitionPoint before (size - half) (if before (base + half) then base + half else base)
termination_by size
decreasing_by omega

namespace Method

/-- The first instruction in execution order that starts at `offset` in the current layout. -/
def findByOffset? (method : Method) (offset : Int) : Option Handle :=
  let isBefore (position : Nat) : Bool :=
    match method.order[position]? with
    | some handle => method.offsetOf handle < offset
    | none => false
  match method.order[partitionPoint isBefore method.length 0]? with
  | some handle => if method.offsetOf handle = offset then some handle else none
  | none => none

/-- The instruction that started at `offset` in the body as it was read. -/
def findByOrigin? (method : Method) (offset : Int) : Option Handle :=
  if offset < 0 then none
  else method.order.find? fun handle => (method.get handle).origin == some offset.toNat

/-- Raises the stack depth, at most to the largest that a header can hold. -/
def increaseMaxStack (method : Method) (extra : UInt16) : Method :=
  let raised := min (method.header.maxStack.toNat + extra.toNat) (UInt16.size - 1)
  { method with header := { method.header with maxStack := UInt16.ofNat raised } }

end Method

end CilCoverage
