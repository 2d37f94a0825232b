import PointsTo.Source.Grammar.Expressions
/-!
# The grammar of declarations and statements
-/

namespace PointsTo

namespace Source

namespace Grammar

open Parser

/-! ## Declarations -/

/-- The declaration of constants. -/
def constants (r : Rules) : Parser Unit := do
  let _ ← separated name
  if !(← seesAny [";", ")"]) then
    let _ ← r .type
    if ← accept "=" then let _ ← separated (r .expression)
  finish

/-- The declaration of variables, with a type, initial values or both. -/
def declaredVariables (r : Rules) : Parser Unit := do
  let _ ← separated name
  if !(← sees "=") then let _ ← r.needType
  if ← accept "=" then let _ ← separated (r .expression)
  finish

/-- What follows the name of a declared type if a square bracket and a name
do: parameters, or the size of an array. -/
def parametersOrSize (r : Rules) (x : String) : Parser Unit := do
  let x ← if ← sees "[" then pure (Shape.name x) else inBrackets (expressionFrom r x)
  let split := x.constrained? (← sees ",")
  if split = some true || split = some false && !(← sees "]") then
    typeParameters r do
      if split = some true then
        moreTerms r
        return { isNamed := true, isTyped := true }
      else parameter r true true
    let _ ← accept "="
  else expect "]"
  let _ ← r.needType

/-- The declaration of a type. -/
def declaredType (r : Rules) : Parser Unit := do
  let _ ← name
  if ← accept "[" then
    match ← name? with
    | some x => parametersOrSize r x
    | none => let _ ← arrayType r
  else
    let _ ← accept "="
    let _ ← r.needType
  finish

/-- A word and one declaration, or several in brackets. -/
def declarations (word : String) (one : Parser Unit) : Parser Unit := do
  expect word
  if ← accept "(" then
    whileThat (do return !(← sees ")")) one
    expect ")"
    finish
  else one

/-- What declares something where statements stand. -/
def declaration? (r : Rules) : Parser Bool := do
  if ← sees "const" then declarations "const" (constants r); return true
  else if ← sees "var" then declarations "var" (declaredVariables r); return true
  else if ← sees "type" then declarations "type" (declaredType r); return true
  else return false

/-! ## Simple statements -/

/-- What a simple statement is. -/
inductive Simple where
  | expression (x : Shape)
  | assignment (operator : String) (targets : Nat) (values : List Shape)
  /-- An assignment of each element of something. -/
  | range (targets : Nat)
  | labelled
  | other
  deriving Repr, Inhabited

/-- Where a simple statement stands. -/
inductive Position where
  | anywhere
  /-- Where it can have a label. -/
  | own
  /-- At the head of a loop. -/
  | loop
  deriving DecidableEq, Repr, Inhabited

/-- The operators that assign. -/
def assigning : List String :=
  [":=", "=", "+=", "-=", "*=", "/=", "%=", "&=", "|=", "^=", "<<=", ">>=", "&^="]

/-- A simple statement. -/
def simple (r : Rules) (place : Position) : Parser Simple := do
  let xs ← separated (r .expression)
  match ← next? with
  | some (.mark m) =>
    if assigning.contains m then
      skip
      if place = .loop && (m = ":=" || m = "=") && (← accept "range") then
        let _ ← r .expression
        return .range xs.length
      else return .assignment m xs.length (← separated (r .expression))
    else
      match xs with
      | [x] =>
        if m = ":" then
          match x with
          | .name _ =>
            if place = .own then skip; r .statement; return .labelled
            else failure
          | _ => failure
        else if m = "<-" then
          skip
          let _ ← r .expression
          return .other
        else if m = "++" || m = "--" then skip; return .other
        else return .expression x
      | _ => failure
  | _ =>
    match xs with
    | [x] => return .expression x
    | _ => failure

/-- A simple statement that has to be an expression. -/
def Simple.isExpression : Simple → Bool
  | expression _ => true
  | _ => false

/-- Whether a simple statement asks for the type of a value, and can give
that value a name. -/
def Simple.asksType : Simple → Bool
  | expression .typeQuestion => true
  | assignment op 1 [.typeQuestion] => op = ":="
  | _ => false

/-! ## Statements -/

/-- Statements up to a brace or the next case. -/
def statements (r : Rules) : Parser Unit :=
  whileThat (do return !(← seesAny ["case", "default", "\x7d"])) (r .statement)

/-- Statements in braces. -/
def block (r : Rules) : Parser Unit := do
  expect "\x7b"
  statements r
  expect "\x7d"

/-- The head of a conditional statement: a condition, after another simple
statement if need be. -/
def condition (r : Rules) : Parser Unit := inHead do
  let first ← if ← sees ";" then pure none else some <$> simple r .anywhere
  let last ← if ← accept ";" then some <$> simple r .anywhere else pure first
  if !last.any (·.isExpression) then failure

/-- A conditional statement. -/
def conditional (r : Rules) : Parser Unit := do
  expect "if"
  condition r
  r .block
  if ← accept "else" then
    if ← sees "if" then r .statement
    else r .block; finish
  else finish

/-- Cases in braces; `labels` reads what a case is about. -/
def cases (r : Rules) (labels : Parser Unit) : Parser Unit := do
  expect "\x7b"
  whileThat (seesAny ["case", "default"]) do
    if ← accept "case" then labels
    else expect "default"
    expect ":"
    statements r
  expect "\x7d"
  finish

/-- A statement that chooses by a value or by a type. -/
def choice (r : Rules) : Parser Unit := do
  expect "switch"
  let subject ← inHead do
    let first ← if ← seesAny [";", "\x7b"] then pure none else some <$> simple r .anywhere
    if ← accept ";" then
      if ← sees "\x7b" then pure none else some <$> simple r .anywhere
    else pure first
  if !subject.all (fun s => s.isExpression || s.asksType) then failure
  cases r (do let _ ← separated (r .expression))

/-- What a case of a statement that waits for channels is about: sending,
or receiving into one or two places. -/
def communication (r : Rules) : Parser Unit := do
  let xs ← separated (r .expression)
  if ← accept "<-" then
    if xs.length ≠ 1 then failure
    let _ ← r .expression
  else if (← accept ":=") || (← accept "=") then
    if 2 < xs.length then failure
    let _ ← r .expression
  else if xs.length ≠ 1 then failure

/-- The head of a loop: nothing, elements to go through, a condition, or a
condition between two simple statements. -/
def loopHead (r : Rules) : Parser Unit := inHead do
  if ← sees "\x7b" then return
  else if ← accept "range" then let _ ← r .expression
  else
    let first ← if ← sees ";" then pure none else some <$> simple r .loop
    match first with
    | some (.range n) => if 2 < n then failure
    | _ =>
      if ← accept ";" then
        if !(← sees ";") then
          if !(← simple r .anywhere).isExpression then failure
        expect ";"
        if !(← sees "\x7b") then let _ ← simple r .anywhere
      else if !first.any (·.isExpression) then failure

/-- A loop. -/
def loop (r : Rules) : Parser Unit := do
  expect "for"
  loopHead r
  r .block
  finish

/-- A call that is put off, or that runs on its own. -/
def startedCall (r : Rules) : Parser Unit := do
  skip
  match ← r .expression with
  | .call | .application _ => finish
  | _ => failure

/-- The marks that a simple statement can begin with. -/
def simpleMarks : List String :=
  ["func", "(", "[", "struct", "map", "chan", "interface", "+", "-", "*", "&", "^", "<-", "!"]

/-- A statement that begins with a mark, and that declares nothing. -/
def markedStatement (r : Rules) (m : String) : Parser Unit := do
  if simpleMarks.contains m then
    match ← simple r .own with
    | .labelled => return
    | _ => finish
  else if m = "go" || m = "defer" then startedCall r
  else if m = "return" then
    skip
    if !(← seesAny [";", "\x7d"]) then let _ ← separated (r .expression)
    finish
  else if m = "goto" then skip; let _ ← name; finish
  else if m = "break" || m = "continue" then skip; let _ ← name?; finish
  else if m = "fallthrough" then skip; finish
  else if m = "\x7b" then r .block; finish
  else if m = "if" then conditional r
  else if m = "switch" then choice r
  else if m = "select" then skip; cases r (communication r)
  else if m = "for" then loop r
  else if m = ";" then skip
  else if m = "\x7d" then return
  else failure

/-- A statement. -/
def statement (r : Rules) : Parser Unit := do
  if !(← declaration? r) then
    match ← next? with
    | some (.mark m) => markedStatement r m
    | some _ =>
      match ← simple r .own with
      | .labelled => return
      | _ => finish
    | none => failure

end Grammar

end Source

end PointsTo
