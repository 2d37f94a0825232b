import PointsTo.Assoc
import PointsTo.Text.Numeral
import PointsTo.Text.Quoted
/-!
# Flags

The options on a command line. A flag starts with one dash or two; its
value follows after an equals sign or as the next argument, except that a
flag that is on or off needs none. The first argument that is no flag ends
them, and so do two dashes alone.
-/

namespace PointsTo

namespace Command

/-- The value of a flag. -/
inductive FlagValue where
  | text (s : String)
  | truth (b : Bool)
  | number (n : Int)
  | words (ws : List String)
  deriving DecidableEq, Repr, Inhabited

namespace FlagValue

/-- A value as it is shown in the description of its flag. -/
def shown : FlagValue → String
  | text s => s
  | truth b => if b then "true" else "false"
  | number n => toString n
  | words _ => "<tagsFlag>"

end FlagValue

/-- A flag: its name, what it is for, and the value it has if it is not
given. -/
structure Flag where
  name : String
  usage : String
  standard : FlagValue
  deriving Repr, Inhabited

/-- Why the flags could not be read. -/
inductive FlagError where
  | badSyntax (arg : String)
  | undefined (name : String)
  | helpRequested
  | needsArgument (name : String)
  | invalidTruth (value name : String)
  | invalidValue (value name reason : String)
  deriving DecidableEq, Repr, Inhabited

namespace FlagError

/-- What is wrong. -/
def message : FlagError → String
  | badSyntax arg => "bad flag syntax: " ++ arg
  | undefined name => "flag provided but not defined: -" ++ name
  | helpRequested => "flag: help requested"
  | needsArgument name => "flag needs an argument: -" ++ name
  | invalidTruth v name =>
    "invalid boolean value " ++ Text.quoted v ++ " for -" ++ name ++ ": parse error"
  | invalidValue v name reason =>
    "invalid value " ++ Text.quoted v ++ " for flag -" ++ name ++ ": " ++ reason

end FlagError

/-! ## Values -/

/-- Reads a truth value. -/
def truth? (s : String) : Option Bool :=
  if ["1", "t", "T", "TRUE", "true", "True"].contains s then some true
  else if ["0", "f", "F", "FALSE", "false", "False"].contains s then some false
  else none

/-- A blank between words. -/
def isWordBreak (c : Char) : Bool := c = ' ' || c = '\t' || c = '\n' || c = '\r'

/-- Splits a text into words. A word that starts with a quote goes up to
the next one like it. A quote that is not closed is the error. -/
def words (fuel : Nat) (cs : List Char) : Except Char (List String) :=
  match fuel, cs.dropWhile isWordBreak with
  | 0, _ | _, [] => .ok []
  | fuel + 1, c :: cs =>
    if c = '"' ∨ c = '\'' then
      match cs.dropWhile (· ≠ c) with
      | [] => .error c
      | _ :: rest =>
        (words fuel rest).map (String.ofList (cs.takeWhile (· ≠ c)) :: ·)
    else
      let rest := (c :: cs).dropWhile (!isWordBreak ·)
      (words fuel rest).map (String.ofList ((c :: cs).takeWhile (!isWordBreak ·)) :: ·)

/-! ## Command lines -/

/-- The flags that have been read. -/
structure Flags where
  values : Assoc String FlagValue := []
  /-- The arguments after the flags. -/
  rest : List String := []
  deriving Repr, Inhabited

namespace Flags

/-- The text a flag has. -/
def text (fs : Flags) (name : String) : String :=
  match fs.values.get? name with
  | some (.text s) => s
  | _ => ""

/-- Whether a flag is on. -/
def truth (fs : Flags) (name : String) : Bool := fs.values.get? name == some (.truth true)

/-- The number a flag has, or the standard one. -/
def number (fs : Flags) (name : String) (standard : Int) : Int :=
  match fs.values.get? name with
  | some (.number n) => n
  | _ => standard

/-- The words a flag has. -/
def words (fs : Flags) (name : String) : List String :=
  match fs.values.get? name with
  | some (.words ws) => ws
  | _ => []

/-- Sets a flag. -/
def put (fs : Flags) (name : String) (v : FlagValue) : Flags :=
  { fs with values := fs.values.set name v }

/-- Sets a flag to the value some text stands for. Words that cannot be
told apart leave the flag empty. -/
def read (fs : Flags) (flag : Flag) (value : String) : Except FlagError Unit × Flags :=
  match flag.standard with
  | .text _ => (.ok (), fs.put flag.name (.text value))
  | .truth _ =>
    match truth? value with
    | some b => (.ok (), fs.put flag.name (.truth b))
    | none => (.error (.invalidTruth value flag.name), fs)
  | .number _ =>
    match Text.integer value with
    | .ok n => (.ok (), fs.put flag.name (.number n))
    | .error e => (.error (.invalidValue value flag.name e.message), fs)
  | .words _ =>
    match Command.words (value.length + 1) value.toList with
    | .ok ws => (.ok (), fs.put flag.name (.words ws))
    | .error q =>
      (.error (.invalidValue value flag.name ("unterminated " ++ q.toString ++ " string")),
        fs.put flag.name (.words []))

/-- The name in an argument without its dashes, and the value after an
equals sign; that cannot come first. -/
def splitValue (arg : String) : String × Option String :=
  let cs := arg.toList
  let name := cs.head?.toList ++ cs.tail.takeWhile (· ≠ '=')
  match cs.drop name.length with
  | [] => (arg, none)
  | _ :: value => (String.ofList name, some (String.ofList value))

/-- An argument without its dashes, if it is a flag. -/
def flagText? (arg : String) : Option String :=
  match arg.toList with
  | '-' :: '-' :: cs => some (String.ofList cs)
  | '-' :: c :: cs => some (String.ofList (c :: cs))
  | _ => none

/-- Reads the flags of a command line. When that fails, those before stay
set. -/
def parseFrom (flags : List Flag) (fs : Flags) : List String → Except FlagError Unit × Flags
  | [] => (.ok (), { fs with rest := [] })
  | arg :: args =>
    if arg = "--" then (.ok (), { fs with rest := args })
    else
      match flagText? arg with
      | none => (.ok (), { fs with rest := arg :: args })
      | some body =>
        if body.isEmpty ∨ body.startsWith "-" ∨ body.startsWith "=" then
          (.error (.badSyntax arg), fs)
        else
          let (name, value?) := splitValue body
          match flags.find? (·.name == name) with
          | none =>
            if name = "help" ∨ name = "h" then (.error .helpRequested, fs)
            else (.error (.undefined name), fs)
          | some flag =>
            let isTruth := match flag.standard with
              | .truth _ => true
              | _ => false
            match value?, isTruth, args with
            | some value, _, args =>
              match fs.read flag value with
              | (.ok _, fs) => parseFrom flags fs args
              | (.error e, fs) => (.error e, fs)
            | none, true, args => parseFrom flags (fs.put flag.name (.truth true)) args
            | none, false, [] => (.error (.needsArgument name), fs)
            | none, false, value :: args =>
              match fs.read flag value with
              | (.ok _, fs) => parseFrom flags fs args
              | (.error e, fs) => (.error e, fs)
termination_by args => args.length

/-- The names of the flags that were given, in order. -/
def given (fs : Flags) : List String := fs.values.keys.mergeSort fun a b => !(b < a)

end Flags

/-- What is printed about a command: what it does, and its flags by name. -/
def usageText (usage : String) (flags : List Flag) : String :=
  usage ++ "\nOptions:\n" ++
    String.join ((flags.mergeSort fun a b => !(b.name < a.name)).map fun f =>
      "  " ++ f.name ++ ": " ++ f.usage ++ " (default: " ++ Text.quoted f.standard.shown ++ ")\n")

/-- What is printed when the flags cannot be read: what is wrong, unless
only help was asked for, and how the command is used. -/
def flagErrorText (usage : String) (flags : List Flag) (e : FlagError) : String :=
  (if e = .helpRequested then "" else e.message ++ "\n") ++ usageText usage flags

/-- The flags every command has. -/
def commonFlags : List Flag :=
  [⟨"config", "config file path for analysis", .text ""⟩,
   ⟨"verbose", "verbose printing on standard error", .truth false⟩,
   ⟨"with-test", "load tests during analysis", .truth false⟩,
   ⟨"no-color", "disable colored output", .truth false⟩,
   ⟨"build-tags", "a list of `build tags` to consider satisfied during the build. " ++
      "For more information about build tags, see the description of build constraints " ++
      "in the documentation for the go/build package", .words []⟩]

end Command

end PointsTo
