/-!
# Tables of plain text

Rows of cells in columns that are as wide as their longest cell or title. Two blanks separate the
columns, and no line ends with a blank.
-/

set_option autoImplicit false

namespace CilCoverage.Text

/-- `count` blanks. -/
def blanks (count : Nat) : String := String.ofList (List.replicate count ' ')

/-- The text filled up with blanks on the right to at least `width` characters. -/
def padRight (width : Nat) (text : String) : String := text ++ blanks (width - text.length)

/-- The text filled up with blanks on the left to at least `width` characters. -/
def padLeft (width : Nat) (text : String) : String := blanks (width - text.length) ++ text

/-- The text without the blanks at its end. -/
def trimRight (text : String) : String :=
  String.ofList (text.toList.reverse.dropWhile (· == ' ')).reverse

/-- The side of its column that a cell stands at. -/
inductive Alignment
  | left | right
deriving DecidableEq, Repr

/-- A column of a table: its title and the alignment of its cells. -/
structure Column where
  title : String
  alignment : Alignment

/-- A cell in a column of the given width. -/
def Column.cell (column : Column) (width : Nat) (text : String) : String :=
  match column.alignment with
  | .left => padRight width text
  | .right => padLeft width text

/-- The lines of a table behind `indent`, the titles first. -/
def tableLines (indent : String) (columns : List Column) (rows : List (List String)) :
    List String :=
  let titled := columns.map Column.title :: rows
  let widths := columns.zipIdx.map fun (_, index) =>
    (titled.map fun row => (row.getD index "").length).foldl max 0
  titled.map fun row =>
    let cells := ((columns.zip widths).zip row).map fun ((column, width), text) =>
      column.cell width text
    indent ++ trimRight (String.intercalate "  " cells)

end CilCoverage.Text
