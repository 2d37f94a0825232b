import PointsTo.Assoc
import PointsTo.Source.Grammar.File
import PointsTo.Source.LineOrigin
import PointsTo.Text.Pattern
/-!
# Annotations of source files

The comments of a source file can say what an analysis is expected to
find: that the object made on a line has a name, as in `// @Alloc(a)`, and
that a value of a line points to named objects, as in `// @PointsTo(a, b)`.
-/

namespace PointsTo

namespace Source

/-- The annotations of source files. -/
structure Annotations where
  /-- The lines of the named objects. -/
  allocs : Assoc String Place := []
  /-- The names of the objects that the values of a line point to. -/
  pointsTo : Assoc Place (List String) := []
  deriving Repr, Inhabited

/-- Why there are no annotations. -/
inductive AnnotationError where
  /-- There is no such directory. -/
  | missing (cause : DiskError)
  /-- A file is no source file. -/
  | malformed (path : String)
  /-- Two objects have the same name. -/
  | twice (name : String) (first second : Place)
  deriving DecidableEq, Repr, Inhabited

namespace AnnotationError

/-- What is wrong. -/
def message : AnnotationError → String
  | missing e => e.message
  | malformed path => path ++ ": not a source file"
  | twice name first second =>
    "allocation " ++ name ++ " annotated twice, at " ++ first.text ++ " and " ++ second.text

end AnnotationError

namespace Annotations

/-! ## Reading a comment -/

/-- Whether a character is a space between names. -/
def isSpace (c : Char) : Bool := [' ', '\t', '\n', '\r', '\x0c'].contains c

/-- The text without space at its ends. -/
def trim (cs : List Char) : List Char :=
  ((cs.dropWhile isSpace).reverse.dropWhile isSpace).reverse

/-- What stands in front of the closing bracket, if that comes right after
the characters of a class. -/
def upToBracket (p : Char → Bool) (cs : List Char) : Option (List Char) :=
  if (cs.dropWhile p).head? = some ')' then some (cs.takeWhile p) else none

/-- The single name in brackets, after the opening one. -/
def name? (cs : List Char) : Option String :=
  (upToBracket (fun c => isSpace c || Pattern.isWordChar c) cs).bind fun cs =>
    let name := trim cs
    if !name.isEmpty && name.all Pattern.isWordChar then some (String.ofList name) else none

/-- The names in brackets, after the opening one. Commas separate them, and
empty ones are left out. -/
def names? (cs : List Char) : Option (List String) :=
  (upToBracket (fun c => isSpace c || Pattern.isWordChar c || c = ',') cs).map fun cs =>
    ((cs.splitOn ',').map trim |>.filter (!·.isEmpty)).map String.ofList

/-- The last annotation on the first line of a text that can be read. -/
def lastOnLine? {α : Type} (mark : String) (read : List Char → Option α) (cs : List Char) :
    Option α :=
  let line := cs.takeWhile (· ≠ '\n')
  (List.range (line.length + 1)).reverse.findSome? fun i =>
    let rest := cs.drop i
    if mark.toList.isPrefixOf rest then read (rest.drop mark.length) else none

/-- The annotation of a comment: the last one on a line after two slashes.
The first slashes with one on their line count. -/
def inComment? {α : Type} (mark : String) (read : List Char → Option α) :
    List Char → Option α
  | [] => none
  | c :: cs =>
    (match c, cs with
      | '/', '/' :: rest => lastOnLine? mark read rest
      | _, _ => none) <|> inComment? mark read cs

/-- Adds the annotations of a comment. -/
def addComment (a : Annotations) (p : Place) (text : String) : Except AnnotationError Annotations := do
  let a ← match inComment? "@Alloc(" name? text.toList with
    | none => pure a
    | some name =>
      match a.allocs.get? name with
      | some first => throw (.twice name first p)
      | none => pure { a with allocs := a.allocs.set name p }
  match inComment? "@PointsTo(" names? text.toList with
  | none => pure a
  | some names => pure { a with pointsTo := a.pointsTo.set p names }

/-! ## Reading files -/

/-- The source files in a directory, at any depth, or a single file. Those
of a directory come in the order of their names. -/
def sourceFiles (d : Disk) (dir : String) : Except AnnotationError (List (List String × String)) :=
  match d.entry dir, d.find dir with
  | .error e, _ | _, .error e => .error (.missing e)
  | .ok _, .ok place =>
    let inside := d.files.filter fun f => place.isPrefixOf f.1
    let sources := inside.filter fun f => (f.1.getLast?.getD "").endsWith ".go"
    .ok (sources.mergeSort fun a b => !(b.1 < a.1))

/-- The comments of a file with their places. -/
def comments (path text : String) : Except AnnotationError (List (Place × String)) :=
  let found := (Lexeme.ofText? text).bind fun ls =>
    if Grammar.isFile ls then LineOrigin.comments? (Path.folder path) { path } ls else none
  match found with
  | some cs => .ok cs
  | none => .error (.malformed path)

/-- The annotations of the source files in a directory. All files have to
be source files before the first comment is looked at. -/
def ofDirectory (d : Disk) (dir : String) : Except AnnotationError Annotations := do
  let files ← sourceFiles d dir
  let found ← files.mapM fun (path, text) => comments (Path.ofPlace path) text
  found.flatten.foldlM (fun a (p, text) => a.addComment p text) {}

/-- The name of the object made on a line. -/
def allocAt? (a : Annotations) (p : Place) : Option String :=
  (a.allocs.find? fun e => e.2 == p).map (·.1)

end Annotations

end Source

end PointsTo
