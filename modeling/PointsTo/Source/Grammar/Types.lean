import PointsTo.Source.Grammar.Basic
/-!
# The grammar of types

Types, the fields of structures, the elements of interfaces, and lists of
parameters.
-/

namespace PointsTo

namespace Source

namespace Grammar

open Parser

/-- The arguments of a type, in square brackets. There is at least one. -/
def typeArguments (r : Rules) : Parser Unit := do
  expect "["
  let ts ← inBrackets (listUpTo "]" r.needType)
  expect "]"
  if ts.isEmpty then failure

/-- What follows the name of a type: a point and the name proper, and
arguments. -/
def afterTypeName (r : Rules) (x : String) : Parser Shape := do
  let t ← if ← accept "." then let _ ← name; pure Shape.selection else pure (Shape.name x)
  if ← sees "[" then typeArguments r; return .element
  else return t

/-- A type of arrays or slices after its opening bracket. -/
def arrayType (r : Rules) : Parser Shape := do
  inBrackets do
    if !(← accept "...") && !(← sees "]") then let _ ← r .expression
  expect "]"
  let _ ← r.needType
  return .listed

/-- What follows a name if a square bracket does: the type of an array, or
the arguments of the type with that name. The answer says whether it was an
array. -/
def arrayOrArguments (r : Rules) : Parser Bool := do
  expect "["
  if ← accept "]" then let _ ← r.needType; return true
  else
    let _ ← inBrackets (r .expression)
    let (n, trailing) ← inBrackets (steps (fun (n, _) => do
      if !(← accept ",") then return none
      else if ← sees "]" then return some (n, true)
      else let _ ← r .expression; return some (n + 1, false)) (1, false))
    expect "]"
    if n = 1 then
      match ← r .type with
      | some _ => if trailing then failure else return true
      | none => return false
    else return false

/-! ## Interfaces -/

/-- One of the alternatives of a constraint: a type, or all types made from
one. -/
def constraintTerm (r : Rules) : Parser Unit := do
  let _ ← accept "~"
  let _ ← r.needType

/-- Further alternatives. -/
def moreTerms (r : Rules) : Parser Unit := whileThat (accept "|") (constraintTerm r)

/-- Alternatives. -/
def constraint (r : Rules) : Parser Unit := do constraintTerm r; moreTerms r

/-! ## Parameters -/

/-- What a parameter says. -/
structure Parameter where
  isNamed : Bool
  isTyped : Bool
  /-- Whether it stands for any number of arguments. -/
  isOpen : Bool := false
  deriving DecidableEq, Repr, Inhabited

namespace Parameter

/-- Whether each parameter has a name, and a type or one after it that has. -/
def areNamed : List Parameter → Bool
  | [] => true
  | p :: ps => p.isNamed && (p.isTyped || ps.any (·.isTyped)) && areNamed ps

/-- Whether parameters make a list: none has a name, or all have. Those of a
type have names. Only the last can be open, and only if that is allowed. -/
def areList (ofType allowsOpen : Bool) (ps : List Parameter) : Bool :=
  (!ofType && ps.all (fun p => !(p.isNamed && p.isTyped)) || areNamed ps) &&
    (ps.dropLast.all (!·.isOpen)) && (allowsOpen || ps.all (!·.isOpen))

end Parameter

/-- What follows the name of a parameter. -/
def afterParameterName (r : Rules) (ofType : Bool) : Parser Parameter := do
  if ← sees "[" then return { isNamed := ← arrayOrArguments r, isTyped := true }
  else if ← accept "." then
    let _ ← name
    if ← sees "[" then typeArguments r
    return { isNamed := false, isTyped := true }
  else if ← accept "..." then
    let _ ← r.needType
    return { isNamed := true, isTyped := true, isOpen := true }
  else if ofType && (← sees "~") then
    constraint r
    return { isNamed := true, isTyped := true }
  else if ofType && (← sees "|") then return { isNamed := false, isTyped := true }
  else return { isNamed := true, isTyped := (← r .type).isSome }

/-- A parameter that does not begin with a name. -/
def unnamedParameter (r : Rules) (ofType : Bool) : Parser Parameter := do
  if ← accept "..." then
    let _ ← r.needType
    return { isNamed := false, isTyped := true, isOpen := true }
  else
    if ofType then constraintTerm r else let _ ← r.needType
    return { isNamed := false, isTyped := true }

/-- A parameter; `named` says that its name has been read. -/
def parameter (r : Rules) (ofType named : Bool) : Parser Parameter := do
  let named := named || (← if named then pure none else name?).isSome
  let p ← if named then afterParameterName r ofType else unnamedParameter r ofType
  if ofType && p.isTyped && !p.isOpen then moreTerms r
  return p

/-- The parameters of a type, up to the closing bracket; `first` reads the
first of them. There is at least one. -/
def typeParameters (r : Rules) (first : Parser Parameter) : Parser Unit := do
  let ps ← listFrom "]" first (parameter r true false)
  expect "]"
  if !Parameter.areList true false ps then failure

/-- Parameters in brackets. -/
def parameters (r : Rules) (allowsOpen : Bool) : Parser Unit := do
  expect "("
  let ps ← listUpTo ")" (parameter r false false)
  expect ")"
  if !Parameter.areList false allowsOpen ps then failure

/-- The parameters and the results of a function. -/
def signature (r : Rules) : Parser Unit := do
  parameters r true
  if ← sees "(" then parameters r false
  else let _ ← r .type

/-! ## Fields and methods -/

/-- A field of a structure, or a type whose fields it takes over. -/
def field (r : Rules) : Parser Unit := do
  if ← accept "*" then let _ ← afterTypeName r (← name)
  else
    let x ← name
    if ← sees "." then let _ ← afterTypeName r x
    else
      let isAlone := match ← next? with
        | some (.literal isText) => isText
        | some (.mark m) => m = ";" || m = "\x7d"
        | _ => false
      if !isAlone then
        if ← sees "[" then let _ ← arrayOrArguments r
        else
          whileThat (accept ",") (do let _ ← name)
          let _ ← r.needType
  if (← next?) = some (.literal true) then skip
  finish

/-- A type of structures. -/
def structType (r : Rules) : Parser Shape := do
  expect "struct"
  expect "\x7b"
  whileThat (do return !(← sees "\x7d")) (field r)
  expect "\x7d"
  return .listed

/-- A method of an interface, or alternatives that begin with a name. -/
def methodOrConstraint (r : Rules) : Parser Unit := do
  let x ← name
  if ← sees "(" then signature r
  else
    if ← sees "." then let _ ← afterTypeName r x
    else if ← accept "[" then
      let _ ← inBrackets (r .expression)
      if ← comma "]" then let _ ← inBrackets (listUpTo "]" r.needType)
      expect "]"
    moreTerms r

/-- An interface. -/
def interfaceType (r : Rules) : Parser Shape := do
  expect "interface"
  expect "\x7b"
  whileThat (do return !(← sees "\x7d")) (do
    match ← next? with
    | some (.name _) => methodOrConstraint r
    | _ => constraint r
    finish)
  expect "\x7d"
  return .unlisted

/-! ## Types -/

/-- A type, if one comes next. -/
def type (r : Rules) : Parser (Option Shape) := do
  match ← next? with
  | some (.name x) => skip; return some (← afterTypeName r x)
  | some (.mark m) =>
    if m = "[" then skip; return some (← arrayType r)
    else if m = "struct" then return some (← structType r)
    else if m = "*" then skip; return some (.unary m (← r.needType))
    else if m = "func" then skip; signature r; return some .unlisted
    else if m = "interface" then return some (← interfaceType r)
    else if m = "map" then
      skip
      expect "["
      let _ ← r.needType
      expect "]"
      let _ ← r.needType
      return some .listed
    else if m = "chan" then
      skip
      let d ← if ← accept "<-" then pure Direction.send else pure Direction.both
      return some (.channel d (← r.needType))
    else if m = "<-" then
      skip
      expect "chan"
      return some (.channel .receive (← r.needType))
    else if m = "(" then
      skip
      let t ← r.needType
      expect ")"
      return some (.paren t)
    else return none
  | _ => return none

end Grammar

end Source

end PointsTo
