import PointsTo.Source.Grammar.Types
/-!
# The grammar of expressions
-/

namespace PointsTo

namespace Source

namespace Grammar

open Parser

/-- The operators between two operands, those that bind least first. -/
def operatorLevels : List (List String) :=
  [["||"], ["&&"], ["==", "!=", "<", "<=", ">", ">="], ["+", "-", "|", "^"],
    ["*", "/", "%", "<<", ">>", "&", "&^"]]

/-- The operators in front of an operand, apart from the arrow. -/
def signs : List String := ["+", "-", "!", "^", "&", "~", "*"]

/-- A function type, or a function with its body. -/
def functionOrType (r : Rules) : Parser Shape := do
  expect "func"
  signature r
  if ← sees "\x7b" then inBrackets (r .block); return .other
  else return .unlisted

/-- What an expression can begin with. -/
def atom (r : Rules) : Parser Shape := do
  match ← next? with
  | some (.name x) => skip; return .name x
  | some (.literal _) => skip; return .other
  | _ =>
    if ← accept "(" then
      let x ← inBrackets (r .expression)
      expect ")"
      return .paren x
    else if ← sees "func" then functionOrType r
    else r.needType

/-- What follows a point: a name, or a type in brackets. The type can be
asked for. -/
def afterPoint (r : Rules) : Parser Shape := do
  if (← name?).isSome then return .selection
  else
    expect "("
    let asked ← accept "type"
    if !asked then let _ ← r.needType
    expect ")"
    return if asked then .typeQuestion else .other

/-- The bounds of a slice from its first colon on. If there are three, only
the first can be left out. -/
def bounds (r : Rules) : Parser Unit := do
  let bound : Parser Bool := do
    if ← seesAny [":", "]"] then return false
    else let _ ← r .expression; return true
  expect ":"
  let second ← bound
  if ← accept ":" then
    let third ← bound
    if !(second && third) then failure

/-- What follows the opening square bracket after an expression: an index,
bounds, or types. -/
def afterSquare (r : Rules) : Parser Shape := do
  let shape ← inBrackets do
    if !(← sees ":") then let _ ← r .expression
    if ← sees ":" then bounds r; pure Shape.other
    else
      whileThat (accept ",") (do if !(← sees "]") then let _ ← r.needType)
      pure Shape.element
  expect "]"
  return shape

/-- The arguments of a call after the opening bracket. The last one can be
spread over any number of them. -/
def arguments (r : Rules) : Parser (List (Shape × Bool)) := do
  let xs ← inBrackets (listUpTo ")" do return (← r .expression, ← accept "..."))
  expect ")"
  if xs.dropLast.any (·.2) then failure
  return xs

/-- The shape of a call. -/
def callShape (callee : Shape) (xs : List (Shape × Bool)) : Shape :=
  match callee, xs with
  | .name _, [(x, false)] => .application x
  | _, _ => .call

/-- Whether an opening brace after an expression begins the parts of a
value: after what can be the name of a type, only outside of the head of a
statement. -/
def takesParts (inHead : Bool) (x : Shape) : Bool :=
  match x.bare with
  | .name _ | .selection | .element => !inHead
  | .listed => true
  | _ => false

/-- What follows what an expression begins with. -/
def afterAtom (r : Rules) : Shape → Parser Shape :=
  steps fun x => do
    if ← accept "." then return some (← afterPoint r)
    else if ← accept "[" then return some (← afterSquare r)
    else if ← accept "(" then return some (callShape x (← arguments r))
    else if (← sees "\x7b") && takesParts (← read) x then
      if x.isParen then failure
      r .parts
      return some .other
    else return none

/-- An expression without operators between two operands. -/
def operand (r : Rules) : Parser Shape := do
  match ← next? with
  | some (.mark m) =>
    if signs.contains m then skip; return .unary m (← r .operand)
    else if m = "<-" then
      skip
      match ← r .operand with
      | .channel d v =>
        match (Shape.channel d v).received? with
        | some t => return t
        | none => failure
      | x => return .unary m x
    else afterAtom r (← atom r)
  | _ => afterAtom r (← atom r)

/-- An expression with operators of some levels, which are left-associative;
`first` is the first operand if it has been read. -/
def operators (r : Rules) (first : Option Shape) : List (List String) → Parser Shape
  | [] =>
    match first with
    | some x => return x
    | none => r .operand
  | level :: tighter => do
    let x ← operators r first tighter
    steps (fun x => do
      match ← next? with
      | some (.mark m) =>
        if level.contains m then
          skip
          return some (.binary m x (← operators r none tighter))
        else return none
      | _ => return none) x

/-- An expression. -/
def expression (r : Rules) : Parser Shape := operators r none operatorLevels

/-- The expression that begins with a name. -/
def expressionFrom (r : Rules) (x : String) : Parser Shape := do
  operators r (some (← afterAtom r (.name x))) operatorLevels

/-- A part of a value, or its parts if its type goes without saying. -/
def part (r : Rules) : Parser Unit := do
  if ← sees "\x7b" then r .parts
  else let _ ← r .expression

/-- The parts of a value, in braces. Each can have a key. -/
def parts (r : Rules) : Parser Unit := do
  expect "\x7b"
  let _ ← inBrackets (listUpTo "\x7d" do
    part r
    if ← accept ":" then part r)
  expect "\x7d"

end Grammar

end Source

end PointsTo
