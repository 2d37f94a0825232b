import PointsTo.Digraph.Basic
import PointsTo.Text.Quoted
/-!
# Graphs in the DOT language

A graph is written as its points and then its arcs, one a line, under the
labels of the points. A label that is an identifier, a numeral, a quoted
string or an HTML string of the language is written as it is; any other,
and every keyword, is quoted.
-/

namespace PointsTo

namespace Dot

/-- A letter of an identifier. -/
def isLetter (c : Char) : Bool :=
  (c.toNat < 128 && c.isAlpha) || c = '_' || (0x80 ≤ c.toNat && c.toNat ≤ 0xFF)

/-- Letters and digits that do not start with a digit. -/
def isIdentifier (s : String) : Bool :=
  match s.toList with
  | [] => false
  | c :: cs => isLetter c && cs.all fun c => isLetter c || c.isDigit

/-- A decimal numeral: digits with a point among, before or after them. -/
def isNumeral (s : String) : Bool :=
  let cs := match s.toList with
    | '-' :: cs => cs
    | cs => cs
  let whole := cs.takeWhile Char.isDigit
  match cs.drop whole.length with
  | [] => !whole.isEmpty
  | '.' :: rest => rest.all Char.isDigit && !(whole.isEmpty && rest.isEmpty)
  | _ => false

/-- Text between angle brackets. -/
def isHtml (s : String) : Bool := 2 ≤ s.utf8ByteSize && s.startsWith "<" && s.endsWith ">"

/-- Characters that differ only in case are the same. -/
def foldChar (c : Char) : Char :=
  if c = Char.ofNat 0x17F then 's' else if c = Char.ofNat 0x212A then 'k' else c.toLower

/-- The words of the language. -/
def keywords : List String := ["node", "edge", "graph", "digraph", "subgraph", "strict"]

/-- Whether the text is a word of the language, in any case. -/
def isKeyword (s : String) : Bool := keywords.contains (s.map foldChar)

/-- How a label is written. -/
def identifier (s : String) : String :=
  if !isKeyword s && (isIdentifier s || isNumeral s || Text.isQuoted s || isHtml s) then s
  else Text.quoted s

end Dot

namespace Digraph

/-- The points by identity, each as often as its key. -/
def pointsById (g : Digraph) : List Point :=
  (g.keys.map g.pointD).mergeSort fun a b => decide (a.id ≤ b.id)

/-- The arcs between points, each once. -/
def arcsById (g : Digraph) : List (Int × Int) :=
  (g.pointsById.flatMap fun p => (g.succs p.id).map fun t => (p.id, t)).eraseDups

/-- The graph in the DOT language, under a name unless that is empty. -/
def dot (g : Digraph) (name : String) : String :=
  let label (k : Int) : String := Dot.identifier (g.pointD k).label
  let points := g.pointsById.map fun p => "  " ++ Dot.identifier p.label ++ ";\n"
  let arcs := g.arcsById.map fun (a, b) => "  " ++ label a ++ " -> " ++ label b ++ ";\n"
  "strict digraph " ++ (if name.isEmpty then "" else Dot.identifier name ++ " ") ++ "\x7b\n" ++
    (if points.isEmpty then "" else "  // Node definitions.\n" ++ String.join points) ++
    (if arcs.isEmpty then "" else "\n  // Edge definitions.\n" ++ String.join arcs) ++ "\x7d"

end Digraph

end PointsTo
