import CilCoverage.Instruction.Listing
import CilCoverage.Method.Encode
import CilCoverage.Text.Json
import CilCoverage.Text.Table

/-!
# Reports

What the two commands print: `Dump` describes a method, `Summary` tells what became of one. Both
are written as a JSON document or as plain text.
-/

set_option autoImplicit false

namespace CilCoverage.CommandLine

open Text

/-- The last component of a path that names a file; the path itself if it has none. -/
def fileName (path : String) : String :=
  let components := (path.splitOn "/").filter fun component => component != "" && component != "."
  match components.getLast? with
  | some ".." | none => path
  | some name => name

/-- The label of an offset, with marks in place of the digits if it was never laid out. -/
def shownLabel (offset : Int) : String :=
  if offset < 0 then "IL_????" else offsetLabel offset

/-- An instruction as a report shows it. -/
structure Dump.Instruction where
  offset : Int
  origin : Option Nat
  text : String

/-- An exception region as a report shows it. -/
structure Dump.Region where
  kind : String
  tryStart : Int
  tryEnd : Int
  handlerStart : Int
  handlerEnd : Int
  filterStart? : Option Int
  classToken? : Option String

/-- The description of a method. -/
structure Dump where
  file : String
  inputSize : Nat
  fatInput : Bool
  maxStack : Nat
  initLocals : Bool
  locals : String
  codeSize : Nat
  methodSize : Nat
  instructions : List Dump.Instruction
  regions : List Dump.Region

namespace Dump

/-- Describes the method that was read from `inputSize` bytes of a file. -/
def ofMethod (path : String) (inputSize : Nat) (method : Method) : Dump :=
  { file := fileName path
    inputSize
    fatInput := method.header.isFat
    maxStack := method.maxStack.toNat
    initLocals := method.header.initLocals
    locals := method.header.locals.text
    codeSize := method.codeSize
    methodSize := method.encodedSize
    instructions := method.instructions.map fun instruction =>
      { offset := instruction.offset, origin := instruction.origin, text := instruction.body }
    regions := method.regions.map fun region =>
      { kind := region.kind.name
        tryStart := method.offsetOf region.tryStart
        tryEnd := method.offsetOf region.tryEnd
        handlerStart := method.offsetOf region.handlerStart
        handlerEnd := method.offsetOf region.handlerEnd
        filterStart? := region.filterStart?.map method.offsetOf
        classToken? := region.classToken?.map Token.text } }

/-- A member that is left out if it has no value. -/
def optional (name : String) (value? : Option Json.Scalar) : Json.Row :=
  match value? with
  | some value => [(name, value)]
  | none => []

/-- The object of an instruction. -/
def Instruction.row (instruction : Dump.Instruction) : Json.Row :=
  [("offset", .number instruction.offset)]
    ++ optional "original_offset" (instruction.origin.map fun offset => .number offset)
    ++ [("text", .text instruction.text)]

/-- The object of an exception region. -/
def Region.row (region : Dump.Region) : Json.Row :=
  [("kind", .text region.kind), ("try_start", .number region.tryStart),
    ("try_end", .number region.tryEnd), ("handler_start", .number region.handlerStart),
    ("handler_end", .number region.handlerEnd)]
    ++ optional "filter_start" (region.filterStart?.map .number)
    ++ optional "class_token" (region.classToken?.map .text)

/-- The description as a JSON document. -/
def json (dump : Dump) : String :=
  let members : Json.Document :=
    [("file", .scalar (.text dump.file)),
      ("input_size", .scalar (.number dump.inputSize)),
      ("fat_input", .scalar (.flag dump.fatInput)),
      ("max_stack", .scalar (.number dump.maxStack)),
      ("init_locals", .scalar (.flag dump.initLocals)),
      ("local_var_sig_token", .scalar (.text dump.locals)),
      ("code_size", .scalar (.number dump.codeSize)),
      ("method_size", .scalar (.number dump.methodSize)),
      ("instructions", .rows (dump.instructions.map Instruction.row))]
  let regions : Json.Document :=
    if dump.regions.isEmpty then [] else [("regions", .rows (dump.regions.map Region.row))]
  Json.render (members ++ regions) ++ "\n"

/-- The cells of an instruction. -/
def Instruction.cells (instruction : Dump.Instruction) : List String :=
  let origin :=
    match instruction.origin with
    | some offset => shownLabel offset
    | none => "injected"
  [shownLabel instruction.offset, origin, instruction.text]

/-- The cells of an exception region. -/
def Region.cells (region : Dump.Region) : List String :=
  let range (start finish : Int) : String := shownLabel start ++ ".." ++ shownLabel finish
  let detail := (region.filterStart?.map shownLabel <|> region.classToken?).getD ""
  [region.kind, range region.tryStart region.tryEnd,
    range region.handlerStart region.handlerEnd, detail]

/-- The columns of the instructions. -/
def instructionColumns : List Column :=
  [⟨"OFFSET", .right⟩, ⟨"ORIGINAL", .right⟩, ⟨"INSTRUCTION", .left⟩]

/-- The columns of the exception regions. -/
def regionColumns : List Column :=
  [⟨"KIND", .left⟩, ⟨"TRY", .left⟩, ⟨"HANDLER", .left⟩, ⟨"FILTER/CLASS", .left⟩]

/-- The description as plain text. -/
def plain (dump : Dump) : String :=
  let summary :=
    [dump.file,
      "  input:      " ++ toString dump.inputSize ++ " bytes, "
        ++ (if dump.fatInput then "fat" else "tiny") ++ " header",
      "  rewritten:  " ++ toString dump.methodSize ++ " bytes, " ++ toString dump.codeSize
        ++ " bytes of code",
      "  max stack:  " ++ toString dump.maxStack
        ++ (if dump.initLocals then ", init locals" else ""),
      "  locals sig: " ++ dump.locals,
      ""]
  let instructions :=
    tableLines "  " instructionColumns (dump.instructions.map Instruction.cells)
  let regions :=
    if dump.regions.isEmpty then []
    else "" :: tableLines "  " regionColumns (dump.regions.map Region.cells)
  String.join ((summary ++ instructions ++ regions).map (· ++ "\n"))

end Dump

/-- What became of a method that was to be instrumented. -/
structure Summary where
  input : String
  output : String
  alreadyInstrumented : Bool
  statements : Nat
  branches : Nat
  inputSize : Nat
  outputSize : Nat
  maxStack : Nat

namespace Summary

/-- The result as a JSON document. -/
def json (summary : Summary) : String :=
  Json.render
    [("input", .scalar (.text summary.input)),
      ("output", .scalar (.text summary.output)),
      ("already_instrumented", .scalar (.flag summary.alreadyInstrumented)),
      ("sequence_points", .scalar (.number summary.statements)),
      ("branch_points", .scalar (.number summary.branches)),
      ("input_size", .scalar (.number summary.inputSize)),
      ("output_size", .scalar (.number summary.outputSize)),
      ("max_stack", .scalar (.number summary.maxStack))] ++ "\n"

/-- The result as plain text. -/
def plain (summary : Summary) : String :=
  let lines :=
    [summary.input ++ " -> " ++ summary.output]
      ++ (if summary.alreadyInstrumented then ["  already instrumented"] else [])
      ++ ["  statement probes: " ++ toString summary.statements,
        "  branch probes:    " ++ toString summary.branches,
        "  size:             " ++ toString summary.inputSize ++ " -> "
          ++ toString summary.outputSize ++ " bytes",
        "  max stack:        " ++ toString summary.maxStack]
  String.join (lines.map (· ++ "\n"))

end Summary

end CilCoverage.CommandLine
