/-!
# Terminal control in a text

`visible` leaves out of a text what would steer a terminal: escape sequences, control strings and
all control characters but white space. The sequences are read by the usual state machine of
terminals: `Phase` is what the characters so far have opened, and `Phase.next` what another one
makes of it. White space inside an escape sequence is shown and interrupts it: what follows is shown
up to the next control character, which goes on with the sequence.
-/

set_option autoImplicit false

namespace CilCoverage.Text

/-- What the characters before a point of the text have opened and not closed. -/
inductive Phase
  /-- Nothing. -/
  | ground
  /-- An escape sequence of which only the escape character has been met. -/
  | escape
  /-- An escape sequence that waits for its final character. -/
  | escapeIntermediate
  /-- A control sequence, up to its final character. -/
  | control
  /-- A device control string whose head has just begun. -/
  | deviceEntry
  /-- The parameters in the head of a device control string. -/
  | deviceParameter
  /-- The head of a device control string behind its parameters. -/
  | deviceIntermediate
  /-- The body of a device control string, or a string of another kind. -/
  | controlString
  /-- A command to the operating system. -/
  | systemCommand
deriving DecidableEq, Repr

namespace Phase

/-- The phase behind an ASCII character. -/
def next (phase : Phase) (code : Nat) : Phase :=
  if code = 0x18 ∨ code = 0x1A then ground
  else if code = 0x1B then escape
  else if code = 0x7F then phase
  else if code < 0x20 then
    if phase = systemCommand ∧ code = 0x07 then ground else phase
  else
    match phase with
    | ground => ground
    | escape =>
      if code < 0x30 then escapeIntermediate
      else if code = '['.toNat then control
      else if code = 'P'.toNat then deviceEntry
      else if code = ']'.toNat then systemCommand
      else if code = 'X'.toNat ∨ code = '^'.toNat ∨ code = '_'.toNat then controlString
      else ground
    | escapeIntermediate => if code < 0x30 then escapeIntermediate else ground
    | control => if code < 0x40 then control else ground
    | deviceEntry =>
      if code < 0x30 then deviceIntermediate
      else if code < 0x40 then deviceParameter
      else controlString
    | deviceParameter =>
      if code < 0x30 then deviceIntermediate
      else if code < 0x3C then deviceParameter
      else controlString
    | deviceIntermediate => if code < 0x30 then deviceIntermediate else controlString
    | controlString => controlString
    | systemCommand => systemCommand

/-- Whether white space is shown although the phase hides other characters. -/
def admitsSpace : Phase → Bool
  | escape | escapeIntermediate | control => true
  | _ => false

end Phase

/-- The byte that ends a control string, even within the encoding of another character. -/
def stringTerminator : UInt8 := 0x9C

/-- The phase behind a character that is hidden. -/
def Phase.behind (phase : Phase) (character : Char) : Phase :=
  if character.toNat < 0x80 then phase.next character.toNat
  else if phase = controlString
      ∧ (String.utf8EncodeChar character).contains stringTerminator then ground
  else phase

/-- Whether a character is white space among the control characters. -/
def isControlSpace (character : Char) : Bool :=
  character == '\t' || character == '\n' || character == '\x0C' || character == '\r'

/-- Whether a character is shown where nothing hides it. -/
def isShown (character : Char) : Bool :=
  isControlSpace character || (0x20 ≤ character.toNat && character.toNat != 0x7F)

/-- How far the reading of a text has come. -/
structure Scan where
  /-- What is open. -/
  phase : Phase := .ground
  /-- Whether white space has interrupted it. -/
  interrupted : Bool := false
deriving DecidableEq, Repr

namespace Scan

/-- Whether every character that can be shown is. -/
def isOpen (scan : Scan) : Bool := scan.interrupted || scan.phase == .ground

/-- Whether the next character is shown. -/
def shows (scan : Scan) (character : Char) : Bool :=
  if scan.isOpen then isShown character
  else scan.phase.admitsSpace && isControlSpace character

/-- The state behind the next character. -/
def behind (scan : Scan) (character : Char) : Scan :=
  if scan.shows character then
    if character.toNat < 0x80 then { scan with interrupted := true } else {}
  else
    { phase := scan.phase.behind character }

/-- The characters of a text that are shown. -/
def shown : Scan → List Char → List Char
  | _, [] => []
  | scan, character :: rest =>
    let remaining := shown (scan.behind character) rest
    if scan.shows character then character :: remaining else remaining

end Scan

/-- The text without terminal control. -/
def visible (text : String) : String := String.ofList (Scan.shown {} text.toList)

end CilCoverage.Text
