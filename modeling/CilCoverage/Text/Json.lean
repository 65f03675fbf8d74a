import CilCoverage.Text.Hex

/-!
# JSON documents

Reports are objects whose members keep their order and are scalars or lists of objects of scalars.
They are written over several lines, two blanks deeper for each level.
-/

set_option autoImplicit false

namespace CilCoverage.Text.Json

/-- A value without parts. -/
inductive Scalar
  | text (value : String)
  | number (value : Int)
  | flag (value : Bool)
deriving DecidableEq, Repr

/-- An object of scalars. -/
abbrev Row := List (String × Scalar)

/-- A member of a document. -/
inductive Value
  | scalar (value : Scalar)
  | rows (values : List Row)
deriving DecidableEq, Repr

/-- An object of scalars and lists. -/
abbrev Document := List (String × Value)

/-- A character inside a quoted text: quotes, backslashes and control characters are escaped. -/
def escaped (character : Char) : String :=
  match character.toNat with
  | 0x22 => "\\\""
  | 0x5C => "\\\\"
  | 0x08 => "\\b"
  | 0x09 => "\\t"
  | 0x0A => "\\n"
  | 0x0C => "\\f"
  | 0x0D => "\\r"
  | code => if code < 0x20 then "\\u" ++ hex 4 code else String.singleton character

/-- A text in quotes. -/
def quoted (text : String) : String := "\"" ++ String.join (text.toList.map escaped) ++ "\""

/-- The text of a scalar. -/
def Scalar.render : Scalar → String
  | .text value => quoted value
  | .number value => toString value
  | .flag value => if value then "true" else "false"

/-- Items between brackets, each on a line of its own behind `indent`; nothing but the brackets if
there are none. -/
def bracketed (opening closing indent : String) (items : List String) : String :=
  if items.isEmpty then opening ++ closing
  else
    opening ++ "\n" ++ String.intercalate ",\n" (items.map (indent ++ "  " ++ ·)) ++ "\n" ++ indent
      ++ closing

/-- An object of members that are rendered already. -/
def object (indent : String) (members : List (String × String)) : String :=
  bracketed "\x7b" "\x7d" indent (members.map fun (name, value) => quoted name ++ ": " ++ value)

/-- The text of a member. -/
def Value.render (indent : String) : Value → String
  | .scalar value => value.render
  | .rows values =>
    bracketed "[" "]" indent (values.map fun row =>
      object (indent ++ "  ") (row.map fun (name, value) => (name, value.render)))

/-- The text of a document, without a final line feed. -/
def render (document : Document) : String :=
  object "" (document.map fun (name, value) => (name, value.render "  "))

end CilCoverage.Text.Json
