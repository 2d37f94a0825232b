import PointsTo.Command.Flags
import PointsTo.Config.Load
import PointsTo.Program.Build
import PointsTo.Text.Style
/-!
# The console

What a command has to do with: the disk, its two outputs, and whether text
is colored. A command runs on a console and may fail; what it wrote before
stays written.
-/

namespace PointsTo

/-- The surroundings of a command. -/
structure Console where
  disk : Disk := {}
  /-- The text on standard output. -/
  out : String := ""
  /-- The text on standard error. -/
  err : String := ""
  colors : Bool := true

/-- Why a command failed. -/
inductive CommandError where
  | flags (command : String) (args : List String) (e : Command.FlagError)
  | config (path : String) (e : ConfigError)
  | noFile
  | notOneFile (given : Nat)
  | program (e : ProgramError)
  | programIn (file : String) (e : ProgramError)
  | queriesFailed (count : Nat)
  | option (e : InvalidOption)
  | path (e : PathError)
  | stopped (f : Fault)
  /-- Sources are not read by this library. -/
  | sources
  deriving Repr, Inhabited

namespace CommandError

/-- What went wrong. -/
def message : CommandError → String
  | flags command args e =>
    "failed to parse command " ++ command ++ " with args [" ++ " ".intercalate args ++ "]: " ++
      e.message
  | config file e => "failed to load config file " ++ file ++ ": " ++ e.message
  | noFile => "no fact file given"
  | notOneFile n => "expected one fact file, got " ++ toString n
  | program e => e.message
  | programIn file e => file ++ ": " ++ e.message
  | queriesFailed n => toString n ++ " queries failed"
  | option e => e.message
  | path e => e.message
  | stopped f => f.message.getD "stopped"
  | sources => "could not load program: no source reader is available"

end CommandError

/-- A command, or a part of one. -/
abbrev Command (α : Type) := ExceptT CommandError (StateM Console) α

namespace Command

/-- Runs a command on a console. -/
def go {α : Type} (c : Command α) (s : Console) : Except CommandError α × Console :=
  StateT.run (ExceptT.run c) s

/-- Writes to standard output. -/
def print (s : String) : Command Unit := modify fun c => { c with out := c.out ++ s }

/-- Writes to standard error. -/
def complain (s : String) : Command Unit := modify fun c => { c with err := c.err ++ s }

/-- Text in a style, as far as the console is colored. -/
def styled (s : Text.Style) (text : String) : Command String := do
  pure (s.paint (← get).colors text)

/-- Turns a value or an error into a command. -/
def orThrow {ε α : Type} (wrap : ε → CommandError) : Except ε α → Command α
  | .ok a => pure a
  | .error e => throw (wrap e)

/-- Reads the flags of a command. If they cannot be read the usage is
printed. Colors are switched off if the flags say so. -/
def readFlags (name usage : String) (flags : List Flag) (args : List String) : Command Flags := do
  match Flags.parseFrom flags {} args with
  | (.error e, _) =>
    complain (flagErrorText usage flags e)
    throw (.flags name args e)
  | (.ok _, fs) =>
    if fs.truth "no-color" then modify fun c => { c with colors := false }
    pure fs

/-- Loads the configuration the flags name, or the standard one. More is
logged if the flags ask for it. -/
def loadConfig (fs : Flags) : Command Config := do
  let path := fs.text "config"
  let cfg ←
    if path = "" then pure Config.standard
    else
      let c ← get
      let (cfg, disk) ← orThrow (.config path) (Config.load path c.disk)
      set { c with disk }
      pure cfg
  pure (if fs.truth "verbose" then { cfg with logLevel := Severity.debug.number } else cfg)

/-- Writes a message to the log of a configuration. -/
def say (cfg : Config) (s : Severity) (msg : String) : Command Unit :=
  complain (cfg.log.say s msg).terminal

/-- Loads a program and builds it. -/
def buildProgram (cfg : Config) (file : String) (wrap : ProgramError → CommandError) :
    Command (Program × BuiltProgram) := do
  let c ← get
  let p ← orThrow .program (Program.load file c.disk)
  let (r, w) := (Workbench.build cfg).go ⟨p, cfg.log, c.disk⟩
  set { c with disk := w.disk, err := c.err ++ w.log.terminal }
  let b ← orThrow wrap r
  pure (w.program, b)

end Command

end PointsTo
