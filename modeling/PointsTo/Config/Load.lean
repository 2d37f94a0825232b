import PointsTo.Config.Basic
import PointsTo.Disk
import PointsTo.Document.Reading
/-!
# Configuration files

A configuration file names the options that are not standard. Options that
are left at zero or empty are standard too. If statistics are to be
reported, the directory for them is made while loading.
-/

namespace PointsTo

/-- Why a configuration could not be loaded. -/
inductive ConfigError where
  | unreadable (e : PathError)
  /-- The text is no document, or not one of a configuration. -/
  | malformed (file : String)
  | invalid (file : String) (e : InvalidOption)
  /-- No directory for reports could be made beside the file. -/
  | noTemporaryDirectory (e : PathError)
  | noDirectory (dir : String)
  deriving DecidableEq, Repr, Inhabited

namespace ConfigError

/-- What is wrong. -/
def message : ConfigError → String
  | unreadable e => "could not read config file: " ++ e.message
  | malformed file => "could not unmarshal config file " ++ file ++ ": yaml: malformed document"
  | invalid file e => "in config file " ++ file ++ ": " ++ e.message
  | noTemporaryDirectory e => "could not create temp dir for reports: " ++ e.message
  | noDirectory dir => "could not create directory " ++ dir

end ConfigError

namespace Config

open Document in
/-- Reads the options into a configuration. -/
def readOptions (c : Config) : Reader Config := recordOf fun fs => do
  pure { c with
    reportsDir := ← fs.get "reports-dir" text c.reportsDir
    reportStats := ← fs.get "report-stats" truth c.reportStats
    pkgFilter := ← fs.get "pkg-filter" text c.pkgFilter
    objectSensitivity := ← fs.get "object-sensitivity" integer c.objectSensitivity
    maxContextSpan := ← fs.get "max-context-span" context c.maxContextSpan
    callgraphMode := ← fs.get "callgraph-mode" text c.callgraphMode
    queryWorkers := ← fs.get "query-workers" integer c.queryWorkers
    logLevel := ← fs.get "log-level" integer c.logLevel
    silenceWarn := ← fs.get "silence-warn" truth c.silenceWarn }

open Document in
/-- Reads a configuration over a given one. -/
def read (c : Config) : Reader Config := recordOf fun fs => do
  let c ← fs.get "options" (readOptions c) c
  pure { c with
    noContextClasses := ← fs.get "no-context-classes" (listOf text) c.noContextClasses
    entryPoints := ← fs.get "entry-points" (listOf text) c.entryPoints
    programs := ← fs.get "programs" (listOf text) c.programs }

/-- Replaces options that are zero or empty by the standard ones. -/
def fillIn (c : Config) : Config :=
  { c with
    logLevel := if c.logLevel = 0 then standard.logLevel else c.logLevel
    maxContextSpan := if c.maxContextSpan = 0 then standardSpan else c.maxContextSpan
    callgraphMode := if c.callgraphMode = "" then standard.callgraphMode else c.callgraphMode
    queryWorkers := if c.queryWorkers = 0 then standard.queryWorkers else c.queryWorkers }

/-- Makes the package filter a pattern if it is one. -/
def compileFilter (c : Config) : Config :=
  { c with pkgPattern := if c.pkgFilter = "" then none else Pattern.ofString? c.pkgFilter }

/-- Makes the directory for reports: the one that is named, unless it is
there, or else a new one beside the file. -/
def prepareReports (c : Config) (disk : Disk) : Except ConfigError (Config × Disk) :=
  if !c.reportStats then .ok (c, disk)
  else if c.reportsDir = "" then
    let dir := Path.dir c.sourceFile
    let stem := if dir.endsWith "/" then dir else dir ++ "/"
    let path := disk.freeName fun n => stem ++ toString n ++ "-report"
    match disk.makeDirectory path with
    | .ok disk => .ok ({ c with reportsDir := path }, disk)
    | .error e =>
      .error (.noTemporaryDirectory
        (if e.cause = .notFound then { e with action := "stat", path := dir } else e))
  else
    match disk.makeDirectory c.reportsDir with
    | .ok disk => .ok (c, disk)
    | .error e =>
      if e.cause = .alreadyThere then .ok (c, disk) else .error (.noDirectory c.reportsDir)

/-- The configuration a text describes. The name of its file is what
relative paths refer to. -/
def ofText (file text : String) (disk : Disk) : Except ConfigError (Config × Disk) :=
  match Document.readText? (read standard) text with
  | none => .error (.malformed file)
  | some c =>
    let c := compileFilter (fillIn { c.getD standard with sourceFile := file })
    match c.validate with
    | .error e => .error (.invalid file e)
    | .ok _ => prepareReports c disk

/-- Loads a configuration file. -/
def load (file : String) (disk : Disk) : Except ConfigError (Config × Disk) :=
  match disk.read file with
  | .error e => .error (.unreadable e)
  | .ok text => ofText file text disk

/-- A path that is relative to the configuration file. -/
def relative (c : Config) (path : String) : String :=
  if Path.isAbsolute path then path else Path.join (Path.dir c.sourceFile) path

end Config

end PointsTo
