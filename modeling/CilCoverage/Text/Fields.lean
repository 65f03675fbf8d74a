/-!
# Lines and fields

`splitBy` cuts a text at every character of a class, and `fields` are the non-empty pieces between
blanks. A character is blank if it has the `White_Space` property of the character database, as the
six blanks of ASCII and others do.
-/

set_option autoImplicit false

namespace CilCoverage.Text

/-- The ranges of code points with the `White_Space` property. -/
def blankRanges : List (Nat × Nat) :=
  [(0x9, 0xD), (0x20, 0x20), (0x85, 0x85), (0xA0, 0xA0), (0x1680, 0x1680), (0x2000, 0x200A),
   (0x2028, 0x2029), (0x202F, 0x202F), (0x205F, 0x205F), (0x3000, 0x3000)]

/-- Whether a character counts as white space. -/
def isBlank (character : Char) : Bool :=
  blankRanges.any fun (first, last) => first ≤ character.toNat && character.toNat ≤ last

/-- The pieces of a text between the characters of a class, empty ones included. -/
def splitBy (separates : Char → Bool) : List Char → List (List Char)
  | [] => [[]]
  | character :: rest =>
    if separates character then [] :: splitBy separates rest
    else
      match splitBy separates rest with
      | [] => [[character]]
      | piece :: pieces => (character :: piece) :: pieces

/-- The lines of a text, without their line feeds. -/
def lines (text : List Char) : List (List Char) := splitBy (· == '\n') text

/-- The longest pieces of a text that hold no blank. -/
def fields (text : List Char) : List (List Char) :=
  (splitBy isBlank text).filter fun piece => !piece.isEmpty

end CilCoverage.Text
