import PointsTo.Command.Console
import PointsTo.Program.Query
/-!
# The query command

Runs the queries of program descriptions and compares the answers with
those expected, one line per query.
-/

namespace PointsTo

namespace Command

namespace Query

/-- What the command does. -/
def usage : String :=
  "Run the context-sensitive queries of fact files and check their expected results.\n" ++
  "Usage:\n" ++
  "  argot-pta query [options] <fact file(s)>\n" ++
  "Examples:\n" ++
  "  % argot-pta query -workers 4 zoo.yaml\n"

/-- The flags of the command. -/
def flags : List Flag :=
  commonFlags ++
    [⟨"workers", "number of goroutines answering queries (default: query-workers option)",
      .number 0⟩]

/-- Prints the outcome of a query, and says whether it is the expected
one. -/
def printOutcome (p : Program) (r : QueryOutcome) : Command Bool := do
  match p.check r with
  | .error e =>
    print ("  " ++ (← styled .red "FAIL") ++ " " ++ r.query.name ++ ": " ++ e.message ++ "\n")
    pure false
  | .ok _ =>
    print ("  " ++ (← styled .green "ok") ++ " " ++ r.query.name ++ " " ++
      (← styled .faint (p.objectsText r.objects)) ++ "\n")
    pure true

/-- Runs the queries of a file, and counts those whose answer is not the
expected one. -/
def runFile (cfg : Config) (workers : Int) (file : String) : Command Nat := do
  let (p, _) ← buildProgram cfg file (.programIn file)
  let (results, p) ← orThrow .program (p.runAll workers)
  let outcomes ← results.mapM (orThrow .stopped)
  print ((← styled .bold file) ++ "\n")
  let passed ← outcomes.mapM (printOutcome p)
  pure (passed.filter (!·)).length

/-- Runs the command. -/
def run (args : List String) : Command Unit := do
  let fs ← readFlags "query" usage flags args
  let cfg ← loadConfig fs
  let asked := fs.number "workers" 0
  let workers := if asked ≤ 0 then cfg.queryWorkers else asked
  if fs.rest.isEmpty then throw .noFile
  let counts ← fs.rest.mapM (runFile cfg workers)
  let failed := counts.foldl (· + ·) 0
  if 0 < failed then throw (.queriesFailed failed)

end Query

end Command

end PointsTo
