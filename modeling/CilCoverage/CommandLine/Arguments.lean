/-!
# Command line arguments

The grammar of the command line: `dump FILE` and `instrument FILE` with its options. Options have a
long name, some also a short one; a value follows as the next argument or is attached, behind `=` or
directly behind a short name. Short names without value may be joined. Behind `--` every argument is
positional. `Invocation.ofArguments?` answers `none` for everything that is not of this form.
-/

set_option autoImplicit false

namespace CilCoverage.CommandLine

/-- The names of an option and whether it takes a value. -/
structure OptionForm where
  long : String
  short? : Option Char := none
  takesValue : Bool := false

/-- An option that occurred; one without value has the empty text. -/
structure Occurrence where
  option : String
  value : String
deriving DecidableEq, Repr

/-- What a list of arguments holds: options and positional arguments, each in order. -/
structure Parts where
  options : List Occurrence
  positional : List String
deriving DecidableEq, Repr

namespace Parts

/-- The parts with another option in front. -/
def withOption (parts : Parts) (option value : String) : Parts :=
  { parts with options := { option, value } :: parts.options }

/-- The parts with another positional argument in front. -/
def withPositional (parts : Parts) (text : String) : Parts :=
  { parts with positional := text :: parts.positional }

/-- The values given for an option. -/
def values (parts : Parts) (option : String) : List String :=
  (parts.options.filter (·.option == option)).map Occurrence.value

/-- Whether an option occurs. -/
def has (parts : Parts) (option : String) : Bool := !(parts.values option).isEmpty

/-- The first value of an option. -/
def value? (parts : Parts) (option : String) : Option String := (parts.values option).head?

end Parts

/-- How an argument is to be read. -/
inductive Shape
  /-- The mark behind which all arguments are positional. -/
  | terminator
  /-- A long option, with the value behind `=`. -/
  | long (name : String) (attached? : Option String)
  /-- One or more short options. -/
  | short (letters : List Char)
  /-- A positional argument or the value of an option. -/
  | plain

/-- How an argument is to be read. A single `-` is an ordinary argument. -/
def shapeOf (argument : String) : Shape :=
  match argument.toList with
  | ['-', '-'] => .terminator
  | '-' :: '-' :: rest =>
    let name := rest.takeWhile (· != '=')
    let attached? :=
      match rest.dropWhile (· != '=') with
      | [] => none
      | _ :: value => some (String.ofList value)
    .long (String.ofList name) attached?
  | '-' :: letter :: rest => .short (letter :: rest)
  | _ => .plain

/-- What a row of short options comes to. -/
inductive ShortRow
  /-- All of them are known and complete. -/
  | complete (occurrences : List Occurrence)
  /-- The last one still needs the next argument as its value. -/
  | needsValue (before : List Occurrence) (option : String)

/-- Reads a row of short options; the first one that takes a value takes all the rest. -/
def readShort (forms : List OptionForm) : List Char → Option ShortRow
  | [] => some (.complete [])
  | letter :: rest =>
    match forms.find? fun form => form.short? == some letter with
    | none => none
    | some form =>
      if form.takesValue then
        match rest with
        | [] => some (.needsValue [] form.long)
        | '=' :: value => some (.complete [⟨form.long, String.ofList value⟩])
        | value => some (.complete [⟨form.long, String.ofList value⟩])
      else
        match readShort forms rest with
        | none => none
        | some (.complete occurrences) => some (.complete (⟨form.long, ""⟩ :: occurrences))
        | some (.needsValue before option) =>
          some (.needsValue (⟨form.long, ""⟩ :: before) option)

/-- Reads arguments under the given option forms. An argument that looks like an option is never
taken for a value. -/
def readParts (forms : List OptionForm) : List String → Option Parts
  | [] => some ⟨[], []⟩
  | argument :: rest =>
    match shapeOf argument with
    | .terminator => some ⟨[], rest⟩
    | .plain => (readParts forms rest).map (·.withPositional argument)
    | .long name attached? =>
      match forms.find? fun form => form.long == name with
      | none => none
      | some form =>
        match form.takesValue, attached?, rest with
        | false, none, rest => (readParts forms rest).map (·.withOption name "")
        | false, some _, _ => none
        | true, some value, rest => (readParts forms rest).map (·.withOption name value)
        | true, none, value :: rest =>
          match shapeOf value with
          | .plain => (readParts forms rest).map (·.withOption name value)
          | _ => none
        | true, none, [] => none
    | .short letters =>
      match readShort forms letters, rest with
      | none, _ => none
      | some (.complete occurrences), rest =>
        (readParts forms rest).map fun parts =>
          { parts with options := occurrences ++ parts.options }
      | some (.needsValue before option), value :: rest =>
        match shapeOf value with
        | .plain =>
          (readParts forms rest).map fun parts =>
            { parts with options := before ++ ⟨option, value⟩ :: parts.options }
        | _ => none
      | some (.needsValue _ _), [] => none

/-- The options that may stand anywhere. -/
def globalForms : List OptionForm :=
  [{ long := "json" }, { long := "verbose", short? := some 'v' }]

/-- The options of `instrument`. -/
def instrumentForms : List OptionForm :=
  [{ long := "points", short? := some 'p', takesValue := true },
   { long := "token", short? := some 't', takesValue := true },
   { long := "function", takesValue := true },
   { long := "signature", takesValue := true },
   { long := "pointer32" },
   { long := "output", short? := some 'o', takesValue := true },
   { long := "no-sequence" },
   { long := "no-branches" },
   { long := "force" },
   { long := "extra-max-stack", takesValue := true }]

/-- What to instrument, and how. -/
structure InstrumentOptions where
  path : String
  points : String
  output : String
  token? : Option String
  function? : Option String
  signature? : Option String
  pointer32 : Bool
  statements : Bool
  branches : Bool
  force : Bool
  extraMaxStack : UInt16
deriving DecidableEq, Repr

/-- The two things that the program does. -/
inductive Command
  | dump (path : String)
  | instrument (options : InstrumentOptions)
deriving DecidableEq, Repr

/-- A command together with the options that may stand anywhere. -/
structure Invocation where
  json : Bool
  verbose : Bool
  command : Command
deriving DecidableEq, Repr

/-- A signed decimal number that fits 16 bits without sign. -/
def readWord16? (text : String) : Option UInt16 :=
  let (negative, digits) :=
    match text.toList with
    | '-' :: digits => (true, digits)
    | '+' :: digits => (false, digits)
    | digits => (false, digits)
  if digits.isEmpty || digits.any (fun digit => !digit.isDigit) then none
  else
    let value := digits.foldl (fun value digit => value * 10 + (digit.toNat - '0'.toNat)) 0
    if value < UInt16.size && (!negative || value == 0) then some (UInt16.ofNat value) else none

/-- The value of an option that has to be given and names a file. -/
def Parts.path? (parts : Parts) (option : String) : Option String :=
  (parts.value? option).filter fun path => !path.isEmpty

/-- The single positional argument, which names a file. -/
def Parts.file? (parts : Parts) : Option String :=
  match parts.positional with
  | [path] => if path.isEmpty then none else some path
  | _ => none

/-- Whether no option is given twice. -/
def Parts.repeatsNothing (parts : Parts) : Bool :=
  parts.options.all fun occurrence => (parts.values occurrence.option).length == 1

/-- Whether the options that describe the probe go together. A token excludes a function. Signature
and pointer width belong to a function, but with a token none is missed. Function and pointer width
need a signature in any case. -/
def Parts.probeIsConsistent (parts : Parts) : Bool :=
  let token := parts.has "token"
  let function := parts.has "function"
  let signature := parts.has "signature"
  let pointer32 := parts.has "pointer32"
  !(token && function)
    && (signature || !(function || pointer32))
    && (function || token || !(signature || pointer32))

/-- The stack slots to set aside; two if the option is not given. -/
def Parts.extraMaxStack? (parts : Parts) : Option UInt16 :=
  match parts.value? "extra-max-stack" with
  | some text => readWord16? text
  | none => some 2

/-- The options of `instrument` in its arguments. -/
def InstrumentOptions.ofParts? (parts : Parts) : Option InstrumentOptions := do
  let path ← parts.file?
  let points ← parts.path? "points"
  let output ← parts.path? "output"
  let extraMaxStack ← parts.extraMaxStack?
  if parts.probeIsConsistent then
    some
      { path, points, output, token? := parts.value? "token", function? := parts.value? "function",
        signature? := parts.value? "signature", pointer32 := parts.has "pointer32",
        statements := !parts.has "no-sequence", branches := !parts.has "no-branches",
        force := parts.has "force", extraMaxStack }
  else none

/-- Reads the arguments behind the name of a command. -/
def readCommand? (name : String) (arguments : List String) : Option (Parts × Command) :=
  match name with
  | "dump" => do
    let parts ← readParts globalForms arguments
    let path ← parts.file?
    if parts.repeatsNothing then some (parts, .dump path) else none
  | "instrument" => do
    let parts ← readParts (globalForms ++ instrumentForms) arguments
    let options ← InstrumentOptions.ofParts? parts
    if parts.repeatsNothing then some (parts, .instrument options) else none
  | _ => none

/-- Reads the options before the name of a command and then the command. -/
def readInvocation? (before : List Occurrence) : List String → Option Invocation
  | [] => none
  | argument :: rest =>
    match shapeOf argument with
    | .terminator => none
    | .plain => do
      let leading : Parts := ⟨before, []⟩
      let (parts, command) ← readCommand? argument rest
      if leading.repeatsNothing then
        some
          { json := leading.has "json" || parts.has "json"
            verbose := leading.has "verbose" || parts.has "verbose"
            command }
      else none
    | .long name attached? =>
      if attached?.isNone && globalForms.any (·.long == name) then
        readInvocation? (before ++ [⟨name, ""⟩]) rest
      else none
    | .short letters =>
      match readShort globalForms letters with
      | some (.complete occurrences) => readInvocation? (before ++ occurrences) rest
      | _ => none

/-- The invocation that the arguments ask for. -/
def Invocation.ofArguments? (arguments : List String) : Option Invocation :=
  readInvocation? [] arguments

end CilCoverage.CommandLine
