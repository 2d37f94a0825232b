import PointsTo.Command.Condense
import PointsTo.Command.Hint
import PointsTo.Command.Query
import PointsTo.Command.Render
import PointsTo.Command.Statistics
/-!
# Command lines

The first argument names the command. A command that fails leaves an error
on standard error, with a hint if there is one.
-/

namespace PointsTo

namespace Command

/-- What the commands are. -/
def usage : String :=
  "Argot-pta: context-sensitive points-to queries\n" ++
  "Usage:\n" ++
  "  argot-pta [tool] [options] <file(s)>\n" ++
  "Tools:\n" ++
  "  - query: runs the queries of fact files and checks their expected results\n" ++
  "  - condense: prints the components, ranks and context encoding of the call graph of fact " ++
  "files\n" ++
  "  - render: renders the call graph of a fact file in DOT format\n" ++
  "  - gostats: analyzes a Go program and prints the statistics of its encoded call graph\n" ++
  "Examples:\n" ++
  "  Run the queries of a fact file: argot-pta query -workers 4 zoo.yaml\n" ++
  "  Analyze a Go program: argot-pta gostats -analysis pointer main.go"

/-- The version of the tool. -/
def version : String := "v0.1.0"

/-- The commands by name. -/
def commands : List (String × (List String → Command Unit)) :=
  [("query", Query.run), ("condense", Condense.run), ("render", Render.run),
   ("gostats", Statistics.run)]

/-- The exit code of a failure. -/
def failureCode : Nat := 2

/-- Runs a command line: the exit code, and the console afterwards. -/
def runLine (args : List String) (c : Console) : Nat × Console :=
  match args with
  | [] => (failureCode, { c with err := c.err ++ "error: expected subcommand\n" ++ usage ++ "\n" })
  | name :: args =>
    if name = "-help" ∨ name = "--help" then (0, { c with out := c.out ++ usage ++ "\n" })
    else if name = "-version" ∨ name = "--version" then
      (0, { c with out := c.out ++ version ++ "\n" })
    else
      match commands.lookup name with
      | none =>
        (failureCode, { c with
          err := c.err ++ "error: unexpected command: " ++ name ++ "\nusage:\n" ++ usage ++ "\n" })
      | some run =>
        match (run args).go c with
        | (.ok _, c) => (0, c)
        | (.error e, c) =>
          let help := hint e.message
          (failureCode, { c with
            err := c.err ++ "error: " ++ e.message ++ "\n" ++
              (if help = "" then "" else "Hint: " ++ help ++ "\n") })

end Command

end PointsTo
