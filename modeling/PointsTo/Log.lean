/-!
# Logging

Messages have a severity, and a log has a level: what is less severe than
the level is dropped. Each severity has its own prefix and its own place
to be written to.
-/

namespace PointsTo

/-- How much a message matters. -/
inductive Severity where
  | error
  | warn
  | info
  | debug
  | trace
  deriving DecidableEq, Repr, Inhabited

namespace Severity

/-- The level from which on messages of the severity are written. -/
def number : Severity → Int
  | error => 1
  | warn => 2
  | info => 3
  | debug => 4
  | trace => 5

/-- What a line of the severity starts with. -/
def tag : Severity → String
  | error => "[ERROR] "
  | warn => "[WARN] "
  | info => "[INFO] "
  | debug => "[DEBUG] "
  | trace => "[TRACE] "

/-- The name of a level. -/
def levelText : Int → String
  | 1 => "error"
  | 2 => "warn"
  | 3 => "info"
  | 4 => "debug"
  | 5 => "trace"
  | n => "level(" ++ toString n ++ ")"

end Severity

/-- Where lines go. -/
inductive Sink where
  /-- Standard error. -/
  | terminal
  /-- A buffer kept by the owner of the log. -/
  | buffer
  /-- Nowhere. -/
  | nowhere
  deriving DecidableEq, Repr, Inhabited

/-- A log, with what has been written so far. -/
structure Log where
  level : Int := 3
  sink : Severity → Sink := fun _ => .terminal
  /-- The text written to standard error. -/
  terminal : String := ""
  /-- The text written to the buffer. -/
  buffer : String := ""

namespace Log

/-- A log of the level, or of the info level if that is not positive.
Warnings can be silenced. -/
def new (level : Int) (silenceWarn : Bool) : Log where
  level := if 0 < level then level else 3
  sink := fun s => if silenceWarn && s == .warn then .nowhere else .terminal

/-- Sends every severity to one place. -/
def redirect (l : Log) (place : Sink) : Log := { l with sink := fun _ => place }

/-- Sends one severity to a place. -/
def redirectOne (l : Log) (s : Severity) (place : Sink) : Log :=
  { l with sink := fun t => if t = s then place else l.sink t }

/-- Whether messages of a level are written. -/
def enabled (l : Log) (level : Int) : Bool := level ≤ l.level

/-- A message as a line. -/
def line (s : Severity) (msg : String) : String :=
  s.tag ++ (if msg.endsWith "\n" then msg else msg ++ "\n")

/-- Writes a message whatever the level. -/
def write (l : Log) (s : Severity) (msg : String) : Log :=
  match l.sink s with
  | .terminal => { l with terminal := l.terminal ++ line s msg }
  | .buffer => { l with buffer := l.buffer ++ line s msg }
  | .nowhere => l

/-- Writes a message if the level asks for it. -/
def say (l : Log) (s : Severity) (msg : String) : Log :=
  if l.enabled s.number then l.write s msg else l

end Log

end PointsTo
