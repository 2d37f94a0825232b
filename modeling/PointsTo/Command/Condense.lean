import PointsTo.CallGraph.Summary
import PointsTo.Command.Console
/-!
# The condense command

Prints the components, ranks and contexts of the call graphs of program
descriptions.
-/

namespace PointsTo

namespace Command

namespace Condense

/-- What the command does. -/
def usage : String :=
  "Print the strongly connected components, topological ranks and context encoding of the " ++
  "call graph of\n" ++
  "fact files.\n" ++
  "Usage:\n" ++
  "  argot-pta condense [options] <fact file(s)>\n" ++
  "Examples:\n" ++
  "  % argot-pta condense -cycles 10 zoo.yaml\n"

/-- How many cycles are printed if the flags do not say. -/
def standardCycles : Int := 100

/-- The flags of the command. -/
def flags : List Flag :=
  commonFlags ++
    [⟨"cycles", "maximum number of elementary cycles printed (0 to skip)",
      .number standardCycles⟩]

/-- Prints the call graph of a file. -/
def runFile (cfg : Config) (cycles : Int) (file : String) : Command Unit := do
  let (p, b) ← buildProgram cfg file (.programIn file)
  let stats ← orThrow .stopped b.stats
  print ((← styled .bold file) ++ "\n" ++ stats.text ++ "\n\n")
  print (← orThrow .stopped
    (Summary.text (← get).colors b.graph b.frozen p.nodes.methodName cycles))

/-- Runs the command. -/
def run (args : List String) : Command Unit := do
  let fs ← readFlags "condense" usage flags args
  let cfg ← loadConfig fs
  if fs.rest.isEmpty then throw .noFile
  fs.rest.forM (runFile cfg (fs.number "cycles" standardCycles))

end Condense

end Command

end PointsTo
