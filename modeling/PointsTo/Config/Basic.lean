import PointsTo.Config.Mode
import PointsTo.Context
import PointsTo.Log
import PointsTo.Text.Pattern.Parser
import PointsTo.Text.Quoted
/-!
# Configuration

The options of an analysis, and the inputs that do not depend on the
program: the classes that are never qualified, the entry points, and the
program descriptions to query.
-/

namespace PointsTo

/-- The names of the call graph constructions. -/
def callgraphModes : List String := CallgraphMode.all.map (·.name)

/-- The options of an analysis. -/
structure Config where
  /-- Where reports are written. -/
  reportsDir : String := ""
  /-- Statistics are written to the reports directory. -/
  reportStats : Bool := false
  /-- Which packages are analyzed: a pattern if it is one, else a prefix. -/
  pkgFilter : String := ""
  /-- The depth of object sensitivity; zero turns it off. -/
  objectSensitivity : Int := 0
  /-- The largest number of contexts of a method before they are laid out
  in blocks. -/
  maxContextSpan : Int64 := 1099511627776
  callgraphMode : String := "pointer"
  /-- How many queriers answer queries. -/
  queryWorkers : Int := 1
  logLevel : Int := 3
  silenceWarn : Bool := false
  /-- The classes whose allocations are never qualified. -/
  noContextClasses : List String := []
  /-- The methods the root calls if a program does not say. -/
  entryPoints : List String := []
  /-- Program descriptions, relative to the configuration file. -/
  programs : List String := []
  /-- The file the configuration comes from. -/
  sourceFile : String := ""
  /-- The package filter as it was read, if it is a pattern. -/
  pkgPattern : Option Pattern := none
  deriving Repr, Inhabited

/-- Why an option is not accepted. -/
inductive InvalidOption where
  | objectSensitivity (n : Int)
  | maxContextSpan (n : Int64)
  | queryWorkers (n : Int)
  | callgraphMode (name : String)
  | logLevel (n : Int)
  /-- A construction was asked for by a name that none has. -/
  | unknownMode (name : String)
  deriving DecidableEq, Repr, Inhabited

namespace InvalidOption

/-- What is wrong with the option. -/
def message (e : InvalidOption) : String :=
  "invalid option: " ++
    match e with
    | objectSensitivity n => "object-sensitivity must be non-negative, got " ++ toString n
    | maxContextSpan n => "max-context-span must be positive, got " ++ toString n.toInt
    | queryWorkers n => "query-workers must be non-negative, got " ++ toString n
    | callgraphMode m =>
      "callgraph-mode must be one of " ++ ", ".intercalate callgraphModes ++ ", got " ++
        Text.quoted m
    | unknownMode m => "unsupported callgraph mode " ++ Text.quoted m
    | logLevel n => "log-level must be between 1 and 5, got " ++ toString n

end InvalidOption

/-- The construction of that name. -/
def CallgraphMode.parse (name : String) : Except InvalidOption CallgraphMode :=
  match CallgraphMode.ofName? name with
  | some m => .ok m
  | none => .error (.unknownMode name)

namespace Config

/-- The configuration of an analysis that was not configured. -/
def standard : Config := {}

/-- The span used where none is given. -/
def standardSpan : Int64 := standard.maxContextSpan

/-- Whether allocations are qualified by their receiver objects. -/
def objectSensitive (c : Config) : Bool := 0 < c.objectSensitivity

/-- Checks the ranges of the options; the first that is out of range
counts. -/
def validate (c : Config) : Except InvalidOption Unit :=
  if c.objectSensitivity < 0 then .error (.objectSensitivity c.objectSensitivity)
  else if c.maxContextSpan ≤ 0 then .error (.maxContextSpan c.maxContextSpan)
  else if c.queryWorkers < 0 then .error (.queryWorkers c.queryWorkers)
  else if c.callgraphMode ≠ "" ∧ c.callgraphMode ∉ callgraphModes then
    .error (.callgraphMode c.callgraphMode)
  else if c.logLevel < 0 ∨ 5 < c.logLevel then .error (.logLevel c.logLevel)
  else .ok ()

/-- Whether a package passes the filter. -/
def matchesPackage (c : Config) (pkg : String) : Bool :=
  match c.pkgPattern with
  | some p => p.isMatch pkg
  | none => pkg.startsWith c.pkgFilter

/-- The log the configuration asks for. -/
def log (c : Config) : Log := Log.new c.logLevel c.silenceWarn

end Config

end PointsTo
