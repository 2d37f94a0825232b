import PointsTo.Command.Console
/-!
# The statistics command

Prints statistics of the call graph of a Go program. The options are
checked here; reading the sources of a program is not part of this library.
-/

namespace PointsTo

namespace Command

namespace Statistics

/-- What the command does. -/
def usage : String :=
  "Load a Go program, run the pointer analysis and print the statistics of the encoded " ++
  "call graph.\n" ++
  "Usage:\n" ++
  "  argot-pta gostats [options] <package path(s)>\n" ++
  "Examples:\n" ++
  "  % argot-pta gostats -analysis rta ./cmd/server\n" ++
  "  % argot-pta gostats -config config.yaml -details main.go\n"

/-- The flags of the command. -/
def flags : List Flag :=
  commonFlags ++
    [⟨"analysis", "type of call graph analysis to run, overriding the config. " ++
        "One of: pointer, cha, rta, static, vta", .text ""⟩,
     ⟨"details", "print every method, edge and cycle", .truth false⟩]

/-- Runs the command. -/
def run (args : List String) : Command Unit := do
  let fs ← readFlags "gostats" usage flags args
  let cfg ← loadConfig fs
  if fs.text "analysis" ≠ "" then
    let _ ← orThrow .option (CallgraphMode.parse (fs.text "analysis"))
  say cfg .info (← styled .faint "Reading sources")
  throw .sources

end Statistics

end Command

end PointsTo
