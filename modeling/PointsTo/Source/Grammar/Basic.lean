import PointsTo.Source.Lexeme
import PointsTo.Source.Type
/-!
# Readers of lexemes

What the grammar of source files is written in. A reader takes lexemes from
the front of a list, or fails. A rule of the grammar can use other rules, and
itself, through `Rules`, which says how each `Goal` is read.
-/

namespace PointsTo

namespace Source

/-- What an expression or a type looks like, as far as it decides what can
come next. -/
inductive Shape where
  | name (text : String)
  /-- A name after a point. -/
  | selection
  /-- An element, or a type with its arguments. -/
  | element
  /-- A type of arrays, slices, maps or structures, whose values can be
  written out. -/
  | listed
  /-- A type of functions or an interface. -/
  | unlisted
  | channel (direction : Direction) (value : Shape)
  | paren (inner : Shape)
  /-- A name with a single argument. -/
  | application (argument : Shape)
  | call
  | unary (operator : String) (x : Shape)
  | binary (operator : String) (x y : Shape)
  /-- The question which type a value has. -/
  | typeQuestion
  | other
  deriving Repr, Inhabited

namespace Shape

/-- Whether this can only be a type. -/
def isType : Shape → Bool
  | listed | unlisted | channel .. => true
  | binary _ x y => x.isType || y.isType
  | unary op _ => op = "~"
  | paren x => x.isType
  | _ => false

/-- Whether the expression can be read as a name, or as a name and what it
is constrained by: the answer says whether there is a constraint. What could
be an operation on values is one, unless `force` is set. -/
def constrained? (force : Bool) : Shape → Option Bool
  | name _ => some false
  | binary op x y =>
    if op = "*" then
      match x with
      | name _ => if force || y.isType then some true else none
      | _ => none
    else if op = "|" then (constrained? (force || y.isType) x).filter id
    else none
  | application x => if force || x.isType then some true else none
  | _ => none

/-- The channel to receive from that an arrow in front of a channel type
makes of it. The arrow of a channel to send to belongs to its values. -/
def received? : Shape → Option Shape
  | channel .both v => some (channel .receive v)
  | channel .send v => (received? v).map (channel .receive)
  | _ => none

/-- The shape without brackets around it. -/
def bare : Shape → Shape
  | paren x => x.bare
  | x => x

/-- Whether brackets stand around it. -/
def isParen : Shape → Bool
  | paren _ => true
  | _ => false

end Shape

namespace Grammar

/-- A reader of lexemes. It knows whether it is in the head of a statement,
where an opening brace after a name begins the body of the statement. -/
abbrev Parser := ReaderT Bool (StateT (List Lexeme) Option)

namespace Parser

/-- The next lexeme. -/
def next? : Parser (Option Lexeme) := do return (← get).head?

/-- Whether the next lexeme is one of some marks. -/
def seesAny (ms : List String) : Parser Bool := do
  match ← next? with
  | some (.mark m) => return ms.contains m
  | _ => return false

/-- Whether the next lexeme is a mark. -/
def sees (m : String) : Parser Bool := seesAny [m]

/-- Skips a lexeme. -/
def skip : Parser Unit := modify List.tail

/-- Skips a mark if it comes next, and says whether it did. -/
def accept (m : String) : Parser Bool := do
  if ← sees m then skip; return true
  else return false

/-- Skips a mark, which has to come next. -/
def expect (m : String) : Parser Unit := do
  if !(← accept m) then failure

/-- The name that comes next, if one does. -/
def name? : Parser (Option String) := do
  match ← next? with
  | some (.name x) => skip; return some x
  | _ => return none

/-- A name. -/
def name : Parser String := do
  match ← name? with
  | some x => return x
  | none => failure

/-- The end of a statement or declaration. It can be left out in front of a
closing bracket. -/
def finish : Parser Unit := do
  if !(← seesAny [")", "\x7d"]) then expect ";"

/-- Whether a list goes on: a comma is skipped, or the closing mark comes
next. -/
def comma (close : String) : Parser Bool := do
  if ← accept "," then return true
  else if ← sees close then return false
  else failure

/-- Reads in the head of a statement. -/
def inHead {α : Type} (p : Parser α) : Parser α := withReader (fun _ => true) p

/-- Reads where an opening brace can begin the parts of a value. -/
def inBrackets {α : Type} (p : Parser α) : Parser α := withReader (fun _ => false) p

/-- Takes steps until one says that it is the last. -/
def stepping {σ : Type} (step : σ → Parser (Option σ)) : Nat → σ → Parser σ
  | 0, _ => failure
  | n + 1, x => do
    match ← step x with
    | some y => stepping step n y
    | none => return x

/-- Takes steps until one says that it is the last. Each but the last reads
a lexeme, so that there are no more steps than lexemes. -/
def steps {σ : Type} (step : σ → Parser (Option σ)) (x : σ) : Parser σ := do
  stepping step ((← get).length + 1) x

/-- Reads as often as a test says so. -/
def whileThat (test : Parser Bool) (p : Parser Unit) : Parser Unit :=
  steps (fun _ => do if ← test then p; return some () else return none) ()

/-- A list that begins with a given reader. Commas divide its parts, and one
more can stand in front of the closing mark. -/
def listFrom {α : Type} (close : String) (first part : Parser α) : Parser (List α) := do
  let x ← first
  let xs ← steps (fun xs => do
    if !(← comma close) || (← sees close) then return none
    else return some ((← part) :: xs)) [x]
  return xs.reverse

/-- A list, which can be empty, up to its closing mark. -/
def listUpTo {α : Type} (close : String) (part : Parser α) : Parser (List α) := do
  if ← sees close then return []
  else listFrom close part part

/-- A list of one part or more, with commas between them. -/
def separated {α : Type} (part : Parser α) : Parser (List α) := do
  let x ← part
  let xs ← steps (fun xs => do
    if ← accept "," then return some ((← part) :: xs)
    else return none) [x]
  return xs.reverse

end Parser

/-- What rules refer to each other for. -/
inductive Goal where
  /-- A type, if one comes next. -/
  | type
  | expression
  /-- An expression without operators between two operands. -/
  | operand
  /-- The parts of a value, in braces. -/
  | parts
  | statement
  /-- Statements in braces. -/
  | block
  deriving DecidableEq, Repr, Inhabited

/-- What is known of what was read. -/
abbrev Goal.Result : Goal → Type
  | type => Option Shape
  | expression | operand => Shape
  | parts | statement | block => Unit

/-- How each goal is read. -/
abbrev Rules := (g : Goal) → Parser g.Result

/-- A type, which has to come next. -/
def Rules.needType (r : Rules) : Parser Shape := do
  match ← r .type with
  | some t => return t
  | none => failure

end Grammar

end Source

end PointsTo
