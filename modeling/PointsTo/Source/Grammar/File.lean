import PointsTo.Source.Grammar.Statements
/-!
# Source files

Ties the rules of the grammar together, and says which lexemes are those of
a file.
-/

namespace PointsTo

namespace Source

namespace Grammar

open Parser

/-- How a goal is read, given how the goals inside it are. -/
def rule (r : Rules) : Rules
  | .type => type r
  | .expression => expression r
  | .operand => operand r
  | .parts => parts r
  | .statement => statement r
  | .block => block r

/-- The rules, for goals that lie inside each other to a given depth. -/
def rules : (depth : Nat) → Rules
  | 0, _ => failure
  | n + 1, g => rule (rules n) g

/-- An imported package: its path, after another name for it or a point for
no name at all. -/
def importedPackage : Parser Unit := do
  if (← name?).isNone then let _ ← accept "."
  if (← next?) = some (.literal true) then skip else failure
  finish

/-- A function or a method, which can do without a body. Only a function
has parameters of its type. -/
def function (r : Rules) : Parser Unit := do
  expect "func"
  let isMethod ← sees "("
  if isMethod then parameters r false
  let _ ← name
  if !isMethod then
    if ← accept "[" then typeParameters r (parameter r true false)
  signature r
  if ← sees "\x7b" then r .block; finish
  else
    finish
    if ← sees "\x7b" then failure

/-- A file: the name of its package, what it imports, and declarations. -/
def file (r : Rules) : Parser Unit := do
  expect "package"
  let _ ← name
  finish
  whileThat (sees "import") (declarations "import" importedPackage)
  whileThat (do return (← next?).isSome) do
    if !(← declaration? r) then function r

/-- Whether a lexeme is a comment. -/
def isComment : Lexeme → Bool
  | .comment .. => true
  | _ => false

/-- Whether lexemes are those of a file. Of the goals that lie inside each
other without a lexeme between them there are fewer than eight. -/
def isFile (ls : List Lexeme) : Bool :=
  let code := ls.filter fun l => !isComment l
  (((file (rules (8 * code.length + 8))).run false).run code).isSome

end Grammar

end Source

end PointsTo
