import PointsTo.Disk
import PointsTo.Source.Lexeme
/-!
# Where lines come from

A comment can say that what follows it comes from a line of another file:
`//line other:12` at the beginning of a line says so of the next line, and
`/*line other:12*/` of what comes right after it. A column can follow the
line.
-/

namespace PointsTo

namespace Source

/-- A line of a file, which is known by the last part of its path. -/
structure Place where
  file : String
  line : Int
  deriving DecidableEq, Repr, Inhabited

namespace Place

/-- The line of a file that a path leads to. -/
def ofPath (path : String) (line : Int) : Place := ⟨Path.base path, line⟩

/-- A place is written as the file and the line. -/
def text (p : Place) : String := p.file ++ ":" ++ toString p.line

end Place

/-- Where the lines of a text come from: its line `start` is a line of the
file that a path leads to, and those after it follow in that file. -/
structure LineOrigin where
  path : String
  line : Int := 1
  start : Nat := 1
  deriving DecidableEq, Repr, Inhabited

namespace LineOrigin

/-- Where a line of the text comes from. -/
def placeOf (o : LineOrigin) (line : Nat) : Place := .ofPath o.path (o.line + (line - o.start : Int))

/-- A natural number of at most 64 bits, whose highest bit is that of a
sign. -/
def number? (cs : List Char) : Option Int :=
  let n := cs.foldl (fun n c => n * 10 + (c.toNat - '0'.toNat)) 0
  if cs.isEmpty || !cs.all Char.isDigit || 2 * Int64.minValue.toInt.natAbs ≤ n then none
  else if Int64.maxValue.toInt < n then some (n + 2 * Int64.minValue.toInt)
  else some n

/-- What stands before the last colon, and after it. -/
def atColon? (cs : List Char) : Option (List Char × List Char) :=
  match cs.reverse.span (· ≠ ':') with
  | (_, []) => none
  | (after, _ :: before) => some (before.reverse, after.reverse)

/-- The largest line and the largest column. -/
def largest : Int := 1 <<< 30

/-- Whether a number can be that of a line or a column. -/
def isNumber (n : Int) : Bool := n ≠ 0 && n ≤ largest

/-- The path that a comment names, seen from the directory of the file. -/
def resolve (directory path : String) : String :=
  if path.isEmpty then ""
  else if Path.isAbsolute path then Path.clean path
  else Path.join directory (Path.clean path)

/-- What a comment says about what follows it: the path, unless it stays the
same, and the line; `none` if that is malformed. A comment without a colon
says nothing. -/
def said? (directory : String) (cs : List Char) : Option (Option (Option String × Int)) :=
  match atColon? cs with
  | none => some none
  | some (before, after) => do
    let n ← number? after
    match (atColon? before).bind fun (b, a) => (number? a).map (b, ·) with
    | some (path, line) =>
      guard (isNumber n && isNumber line)
      let path := String.ofList path
      return some (if path.isEmpty then none else some (resolve directory path), line)
    | none =>
      guard (isNumber n)
      return some (some (resolve directory (String.ofList before)), n)

/-- The part of a comment that can say where what follows comes from. One up
to the end of the line has to begin the line. -/
def remark? (first : Bool) (text : String) : Option (List Char) :=
  match text.toList with
  | '/' :: '/' :: 'l' :: 'i' :: 'n' :: 'e' :: ' ' :: cs =>
    if first then some (if cs.getLast? = some '\r' then cs.dropLast else cs) else none
  | '/' :: '*' :: 'l' :: 'i' :: 'n' :: 'e' :: ' ' :: cs => some (cs.take (cs.length - 2))
  | _ => none

/-- The line on which the text after a comment begins. -/
def lineAfter (line : Nat) (text : String) : Nat :=
  if text.startsWith "//" then line + 1 else line + Lexeme.lineEnds text.toList

/-- Where what follows a comment comes from; `none` if the comment is
malformed. -/
def after? (o : LineOrigin) (directory : String) (line : Nat) (first : Bool) (text : String) :
    Option LineOrigin :=
  match remark? first text with
  | none => some o
  | some cs =>
    (said? directory cs).map fun
      | none => o
      | some (path, n) => { path := path.getD o.path, line := n, start := lineAfter line text }

/-- The comments among lexemes with the places they come from. -/
def comments? (directory : String) : LineOrigin → List Lexeme → Option (List (Place × String))
  | _, [] => some []
  | o, .comment line first text :: ls => do
    let rest ← comments? directory (← o.after? directory line first text) ls
    return (o.placeOf line, Lexeme.commentText text) :: rest
  | o, _ :: ls => comments? directory o ls

end LineOrigin

end Source

end PointsTo
