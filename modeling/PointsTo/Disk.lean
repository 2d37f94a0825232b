/-!
# Files and directories

The part of a file system that a command sees: files and directories by
path, as they are called from its working directory. What is not listed is
not there.
-/

namespace PointsTo

namespace Path

/-- Applies the meaning of empty, `.` and `..` segments to a path whose
segments so far are given last first. Above the root nothing is left to
drop; a relative path keeps its leading `..`. -/
def normalize (absolute : Bool) : List String → List String → List String
  | acc, [] => acc.reverse
  | acc, s :: rest =>
    if s = "" ∨ s = "." then normalize absolute acc rest
    else if s = ".." then
      match acc with
      | [] => normalize absolute (if absolute then [] else [".."]) rest
      | ".." :: _ => normalize absolute (".." :: acc) rest
      | _ :: acc => normalize absolute acc rest
    else normalize absolute (s :: acc) rest

/-- Whether the path starts at the root. -/
def isAbsolute (p : String) : Bool := p.startsWith "/"

/-- The segments of a path. -/
def segments (p : String) : List String := normalize (isAbsolute p) [] (p.splitOn "/")

/-- Where a path leads from the working directory: its segments, after a
slash if it starts at the root. -/
def place (p : String) : List String := if isAbsolute p then "/" :: segments p else segments p

/-- The path that leads to a place. -/
def ofPlace : List String → String
  | "/" :: segs => "/" ++ "/".intercalate segs
  | segs => "/".intercalate segs

/-- The shortest path with the same meaning. -/
def clean (p : String) : String :=
  let s := "/".intercalate (segments p)
  if isAbsolute p then "/" ++ s else if s.isEmpty then "." else s

/-- The directory part of a path. -/
def dir (p : String) : String :=
  clean ("/".intercalate (p.splitOn "/").dropLast ++ (if 1 < (p.splitOn "/").length then "/" else ""))

/-- A path up to its last slash, with it. -/
def folder (p : String) : String :=
  String.ofList (p.toList.reverse.dropWhile (· ≠ '/')).reverse

/-- What follows the last slash of a path that is not at its end. -/
def base (p : String) : String :=
  if p.isEmpty then "."
  else
    let cs := p.toList.reverse.dropWhile (· = '/')
    if cs.isEmpty then "/" else String.ofList (cs.takeWhile (· ≠ '/')).reverse

/-- Whether a path is relative and as short as can be. -/
def isPlain (p : String) : Bool :=
  p = "." || (p.splitOn "/").all fun s => s ≠ "" && s ≠ "." && s ≠ ".."

/-- Two paths one after the other; an empty one does not count. -/
def join (a b : String) : String :=
  if a.isEmpty ∧ b.isEmpty then "" else if a.isEmpty then clean b else clean (a ++ "/" ++ b)

end Path

/-- Why a file or directory could not be used. -/
inductive DiskError where
  | notFound
  | isDirectory
  | notDirectory
  | alreadyThere
  /-- A segment, or the whole path, is too long. -/
  | nameTooLong
  /-- The path is none: it holds the character zero. -/
  | invalidPath
  deriving DecidableEq, Repr, Inhabited

namespace DiskError

/-- What the system says. -/
def message : DiskError → String
  | notFound => "no such file or directory"
  | isDirectory => "is a directory"
  | notDirectory => "not a directory"
  | alreadyThere => "file exists"
  | nameTooLong => "file name too long"
  | invalidPath => "invalid argument"

end DiskError

/-- A failed use of a path: what was tried, on what, and why it failed. -/
structure PathError where
  action : String
  path : String
  cause : DiskError
  deriving DecidableEq, Repr, Inhabited

namespace PathError

/-- The failure in one line. -/
def message (e : PathError) : String := e.action ++ " " ++ e.path ++ ": " ++ e.cause.message

end PathError

/-- What a path leads to. -/
inductive DiskEntry where
  | file (text : String)
  | directory
  deriving DecidableEq, Repr, Inhabited

/-- The files and directories that are known, by place. -/
structure Disk where
  files : List (List String × String) := []
  directories : List (List String) := []
  deriving Repr, Inhabited

namespace Disk

/-- The disk holding the given files, beside what every disk holds: a
file that is empty, and a directory for anything. -/
def ofFiles (fs : List (String × String)) : Disk :=
  { files := (["/", "dev", "null"], "") :: fs.map fun (name, text) => (Path.place name, text)
    directories := [["/", "tmp"]] }

/-- Whether a place is a directory: the working directory or one above it,
the root, one that was made, or one above a file. -/
def isDirectory (d : Disk) (place : List String) : Bool :=
  place.all (· = "..") || place = ["/"] || d.directories.any (place.isPrefixOf ·) ||
    d.files.any fun f => place.isPrefixOf f.1 && f.1 != place

/-- Whether there is something at a place. -/
def isThere (d : Disk) (place : List String) : Bool :=
  d.isDirectory place || (d.files.lookup place).isSome

/-- The place above a place. -/
def above (place : List String) : List String :=
  if place = ["/"] then place
  else if place.all (· = "..") then place ++ [".."]
  else place.dropLast

/-- The longest name of a file, in bytes. -/
def longestName : Nat := 255

/-- Paths have to be shorter than this, in bytes. -/
def pathLimit : Nat := 4096

/-- Goes from a place, which has to be a directory, along a segment. -/
def step (d : Disk) (place : List String) (s : String) : Except DiskError (List String) :=
  if !d.isDirectory place then .error .notDirectory
  else if s = "." then .ok place
  else if s = ".." then .ok (above place)
  else if longestName < s.utf8ByteSize then .error .nameTooLong
  else if d.isThere (place ++ [s]) then .ok (place ++ [s])
  else .error .notFound

/-- The place a path starts from, and the segments to go along. -/
def route (path : String) : Except DiskError (List String × List String) :=
  if path.isEmpty then .error .notFound
  else if path.contains '\x00' then .error .invalidPath
  else if pathLimit ≤ path.utf8ByteSize then .error .nameTooLong
  else
    .ok (if Path.isAbsolute path then ["/"] else [], (path.splitOn "/").filter (· ≠ ""))

/-- Where a path leads. -/
def find (d : Disk) (path : String) : Except DiskError (List String) := do
  let (start, segs) ← route path
  segs.foldlM d.step start

/-- What a path leads to. With a slash at its end it has to be a
directory. -/
def entry (d : Disk) (path : String) : Except DiskError DiskEntry := do
  let place ← d.find path
  match d.files.lookup place with
  | some text => if path.endsWith "/" then .error .notDirectory else .ok (.file text)
  | none => .ok .directory

/-- The text of a file. -/
def read (d : Disk) (path : String) : Except PathError String :=
  match d.entry path with
  | .ok (.file text) => .ok text
  | .ok .directory => .error ⟨"read", path, .isDirectory⟩
  | .error e => .error ⟨"open", path, e⟩

/-- The directory that a path leads into and the last segment of the path;
no segment if the path is that of the root. -/
def last (d : Disk) (path : String) : Except DiskError (List String × Option String) := do
  let (start, segs) ← route path
  let dir ← segs.dropLast.foldlM d.step start
  if d.isDirectory dir then .ok (dir, segs.getLast?) else .error .notDirectory

/-- Where a file of that path is or can be put. -/
def spot (d : Disk) (path : String) : Except DiskError (List String) := do
  match ← d.last path with
  | (dir, some s) =>
    if s = "." || s = ".." || path.endsWith "/" then .error .isDirectory
    else if longestName < s.utf8ByteSize then .error .nameTooLong
    else if d.isDirectory (dir ++ [s]) then .error .isDirectory
    else .ok (dir ++ [s])
  | (_, none) => .error .isDirectory

/-- Where something new of that path can be put. -/
def room (d : Disk) (path : String) : Except DiskError (List String) := do
  match ← d.last path with
  | (dir, some s) =>
    if s = "." || s = ".." then .error .alreadyThere
    else if longestName < s.utf8ByteSize then .error .nameTooLong
    else if d.isThere (dir ++ [s]) then .error .alreadyThere
    else .ok (dir ++ [s])
  | (_, none) => .error .alreadyThere

/-- Writes a file, replacing one that is there. -/
def write (d : Disk) (path text : String) : Except PathError Disk :=
  match d.spot path with
  | .ok place => .ok { d with files := (d.files.filter (·.1 != place)) ++ [(place, text)] }
  | .error e => .error ⟨"open", path, e⟩

/-- Makes a directory. -/
def makeDirectory (d : Disk) (path : String) : Except PathError Disk :=
  match d.room path with
  | .ok place => .ok { d with directories := d.directories ++ [place] }
  | .error e => .error ⟨"mkdir", path, e⟩

/-- The first number for which a name is free, among as many as there are
entries and one more. -/
def freeName (d : Disk) (name : Nat → String) : String :=
  let tries := (List.range (d.files.length + d.directories.length + 1)).map name
  (tries.find? fun n => (d.room n).isOk).getD (name 0)

/-! ## Matching names -/

/-- A character between the brackets of a wildcard, which may be escaped,
and what follows. -/
def bracketChar? : List Char → Option (Char × List Char)
  | '\\' :: c :: cs => some (c, cs)
  | c :: cs => if c = '\\' || c = '-' || c = ']' then none else some (c, cs)
  | [] => none

/-- Whether a character is in one of the ranges between brackets, and what
follows the closing one. There has to be a range. -/
def inBrackets? (c : Char) : Nat → (seen found : Bool) → List Char → Option (Bool × List Char)
  | 0, _, _, _ => none
  | fuel + 1, seen, found, ps =>
    match ps with
    | ']' :: ps => if seen then some (found, ps) else none
    | ps => do
      let (lo, ps) ← bracketChar? ps
      let (hi, ps) ← match ps with
        | '-' :: ps => bracketChar? ps
        | ps => some (lo, ps)
      inBrackets? c fuel true (found || (lo ≤ c && c ≤ hi)) ps

/-- Whether a name matches a segment of a wildcard, which takes at most
`fuel` steps: `*` stands for any characters, `?` for one, brackets for one
of some or, after a caret, of the others, and a backslash makes any
character stand for itself. -/
def matchesSegment : Nat → List Char → List Char → Bool
  | 0, _, _ => false
  | _ + 1, [], cs => cs.isEmpty
  | fuel + 1, '*' :: ps, cs =>
    matchesSegment fuel ps cs ||
      match cs with
      | [] => false
      | _ :: cs => matchesSegment fuel ('*' :: ps) cs
  | fuel + 1, '?' :: ps, _ :: cs => matchesSegment fuel ps cs
  | fuel + 1, '[' :: ps, c :: cs =>
    let (negated, ps) :=
      match ps with
      | '^' :: ps => (true, ps)
      | ps => (false, ps)
    match inBrackets? c (ps.length + 1) false false ps with
    | some (found, ps) => found != negated && matchesSegment fuel ps cs
    | none => false
  | fuel + 1, '\\' :: p :: ps, c :: cs => p == c && matchesSegment fuel ps cs
  | fuel + 1, p :: ps, c :: cs => p ≠ '\\' && p == c && matchesSegment fuel ps cs
  | _ + 1, _ :: _, [] => false

/-- The files whose path matches a wildcard, by path. -/
def glob (d : Disk) (pattern : String) : List (String × String) :=
  let ps := pattern.splitOn "/"
  let hits := d.files.filter fun (segs, _) =>
    segs.length == ps.length &&
      (ps.zip segs).all fun (p, s) => matchesSegment (p.length + s.length + 1) p.toList s.toList
  (hits.map fun (segs, text) => (Path.ofPlace segs, text)).mergeSort fun a b => !(b.1 < a.1)

end Disk

end PointsTo
