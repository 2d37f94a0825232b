import PointsTo.Text.Template
/-!
# Styled text and columns

Text for a terminal: values written one after the other, put into a
template that switches a style on and off, and rows of cells lined up in
columns.
-/

namespace PointsTo

namespace Text

/-- A value to be written. -/
inductive Operand where
  | text (s : String)
  | int (i : Int)
  | bool (b : Bool)
  | nothing
  deriving DecidableEq, Repr, Inhabited

namespace Operand

/-- A value as text. -/
def written : Operand → String
  | text s => s
  | int i => toString i
  | bool b => if b then "true" else "false"
  | nothing => "<nil>"

/-- Whether the value is text. -/
def isText : Operand → Bool
  | text _ => true
  | _ => false

end Operand

/-- The values one after the other, with a space between two of which
neither is text. -/
def writeAll : List Operand → String
  | [] => ""
  | [a] => a.written
  | a :: b :: rest =>
    a.written ++ (if a.isText || b.isText then "" else " ") ++ writeAll (b :: rest)

/-! ## Styles -/

/-- The ways to stress a text. -/
inductive Style where
  | bold
  | faint
  | red
  | green
  | yellow
  deriving DecidableEq, Repr, Inhabited

/-- The template that switches a style on and off. -/
def Style.template : Style → String
  | .bold => "\x1b[1m%s\x1b[0m"
  | .faint => "\x1b[2m%s\x1b[0m"
  | .red => "\x1b[1;31m%s\x1b[0m"
  | .green => "\x1b[1;32m%s\x1b[0m"
  | .yellow => "\x1b[1;33m%s\x1b[0m"

/-- The values in a template, or just the values if colors are off. -/
def paintWith (colors : Bool) (template : String) (values : List Operand) : String :=
  if colors then fill template (writeAll values) else writeAll values

/-- Text in a style, or just the text if colors are off. -/
def Style.paint (s : Style) (colors : Bool) (text : String) : String :=
  paintWith colors s.template [.text text]

/-! ## Columns -/

/-- The width of each column, in bytes. -/
def columnWidths (rows : List (List String)) : List Nat :=
  rows.foldl (fun ws row =>
    (List.range (max ws.length row.length)).map fun i =>
      max (ws.getD i 0) (row.getD i "").utf8ByteSize) []

/-- A row of cells, all but the last filled up to the width of their
column and two more. -/
def columnRow (widths : List Nat) : Nat → List String → String
  | _, [] => "\n"
  | _, [c] => c ++ "\n"
  | i, c :: rest =>
    c ++ String.ofList (List.replicate (widths.getD i 0 - c.utf8ByteSize + 2) ' ') ++
      columnRow widths (i + 1) rest

/-- Rows of cells lined up in columns. -/
def columns (rows : List (List String)) : String :=
  String.join (rows.map (columnRow (columnWidths rows) 0))

end Text

end PointsTo
