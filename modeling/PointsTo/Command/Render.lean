import PointsTo.Command.Console
import PointsTo.Digraph.Dot
/-!
# The render command

Prints the call graph of a program description in the DOT format.
-/

namespace PointsTo

namespace Command

namespace Render

/-- What the command does. -/
def usage : String :=
  "Render the condensed call graph of a fact file in DOT format.\n" ++
  "Usage:\n" ++
  "  argot-pta render [options] <fact file>\n" ++
  "Examples:\n" ++
  "  % argot-pta render -out zoo.dot zoo.yaml\n" ++
  "  % argot-pta render -raw zoo.yaml\n"

/-- The flags of the command. -/
def flags : List Flag :=
  commonFlags ++
    [⟨"out", "output file (standard output if not specified)", .text ""⟩,
     ⟨"raw", "render the raw call graph instead of its condensation", .truth false⟩]

/-- The call graph of a program as a digraph. -/
def digraph (p : Program) (b : BuiltProgram) (raw : Bool) : Digraph :=
  if raw then b.graph.toDigraph p.nodes.methodName
  else b.frozen.encoding.graph.toDigraph b.graph p.nodes.methodName

/-- Writes the drawing to a file. -/
def writeTo (cfg : Config) (path drawing : String) : Command Unit := do
  let c ← get
  let disk ← orThrow .path (c.disk.write path drawing)
  set { c with disk }
  say cfg .info (← styled .faint ("wrote " ++ path))

/-- Runs the command. -/
def run (args : List String) : Command Unit := do
  let fs ← readFlags "render" usage flags args
  let cfg ← loadConfig fs
  match fs.rest with
  | [file] =>
    let (p, b) ← buildProgram cfg file .program
    let drawing := (digraph p b (fs.truth "raw")).dot p.name
    if fs.text "out" = "" then print (drawing ++ "\n")
    else writeTo cfg (fs.text "out") drawing
  | files => throw (.notOneFile files.length)

end Render

end Command

end PointsTo
