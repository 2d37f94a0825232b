import PointsTo.Command.Run
/-!
# The command line

Reads the files that the arguments lead to, runs the command on them, and
puts down what it wrote.
-/

namespace PointsTo

namespace Main

/-- The paths that an argument can mean: itself, or the value of a flag. -/
def pathsOf (arg : String) : List String := [arg, "=".intercalate ((arg.splitOn "=").drop 1)]

/-- The paths that a configuration mentions, if the text is one. -/
def mentioned (file text : String) : List String :=
  match Config.ofText file text {} with
  | .ok (c, _) => c.reportsDir :: c.programs.map c.relative
  | .error _ => []

/-- Adds what a path leads to. -/
def look (d : Disk) (path : String) : IO Disk := do
  if path.isEmpty then return d
  try
    let text ← IO.FS.readFile path
    return { d with files := d.files ++ [(Path.place path, text)] }
  catch _ =>
    try
      let _ ← IO.FS.realPath (path ++ "/.")
      return { d with directories := d.directories ++ [Path.place path] }
    catch _ => return d

/-- The files and directories that arguments lead to: those they name,
those that a configuration among them mentions, and the directories these
are in. -/
def gather (args : List String) : IO Disk := do
  let named := (args.flatMap pathsOf).eraseDups
  let d ← named.foldlM look {}
  let more := d.files.flatMap fun (place, text) => mentioned (Path.ofPlace place) text
  let paths := (more ++ (named ++ more).map Path.dir).filter fun p =>
    !(named.contains p) && p != "."
  paths.eraseDups.foldlM look d

/-- Puts down the directories and files that are new or changed. -/
def putDown (before after : Disk) : IO Unit := do
  for place in after.directories do
    if !(before.directories.contains place) then IO.FS.createDirAll (Path.ofPlace place)
  for (place, text) in after.files do
    if before.files.lookup place ≠ some text then IO.FS.writeFile (Path.ofPlace place) text

end Main

end PointsTo

open PointsTo in
/-- Runs the command that the arguments give. -/
def main (args : List String) : IO UInt32 := do
  let out ← IO.getStdout
  let disk ← Main.gather (args.drop 1)
  let (code, c) := Command.runLine args { disk, colors := ← out.isTty }
  Main.putDown disk c.disk
  out.putStr c.out
  (← IO.getStderr).putStr c.err
  return code.toUInt32
