import PointsTo.Text.Pattern.CharSet
/-!
# Patterns

Regular expressions over characters, and whether one matches somewhere in
a text. A pattern is run on the set of all positions it may start at, and
gives the set of positions it may end at.
-/

namespace PointsTo

/-- A condition on a position in a text. -/
inductive Anchor where
  | textStart
  | textEnd
  | lineStart
  | lineEnd
  | wordBoundary
  | noWordBoundary
  deriving DecidableEq, Repr, Inhabited

/-- A regular expression. -/
inductive Pattern where
  | empty
  /-- One character in some, or if negated in none, of the sets. -/
  | one (negated : Bool) (sets : List CharSet)
  | anchor (a : Anchor)
  | cat (p q : Pattern)
  | alt (p q : Pattern)
  | star (p : Pattern)
  deriving Repr, Inhabited

namespace Pattern

/-- Letters, digits and the underscore make words. -/
def isWordChar (c : Char) : Bool :=
  c.toNat < 128 && (c.isAlphanum || c = '_')

/-- Whether the condition holds at a position. -/
def holds (s : Array Char) (a : Anchor) (i : Nat) : Bool :=
  let before := if i = 0 then none else s[i - 1]?
  let after := s[i]?
  let boundary := before.any isWordChar != after.any isWordChar
  match a with
  | .textStart => i == 0
  | .textEnd => i == s.size
  | .lineStart => i == 0 || before == some '\n'
  | .lineEnd => i == s.size || after == some '\n'
  | .wordBoundary => boundary
  | .noWordBoundary => !boundary

/-- The positions reached by any number of steps: at most as many steps
find new ones as there are positions. -/
def closure (step : List Nat → List Nat) : Nat → List Nat → List Nat
  | 0, seen => seen
  | fuel + 1, seen =>
    let new := (step seen).filter (· ∉ seen)
    if new.isEmpty then seen else closure step fuel (seen ++ new.eraseDups)

/-- The positions a match may end at if it starts at one of the given. -/
def run (s : Array Char) : Pattern → List Nat → List Nat
  | empty, ps => ps
  | one negated sets, ps =>
    (ps.filter fun i => (s[i]?).any fun c => sets.any (·.contains c) != negated).map (· + 1)
  | anchor a, ps => ps.filter (holds s a)
  | cat p q, ps => run s q (run s p ps)
  | alt p q, ps => (run s p ps ++ run s q ps).eraseDups
  | star p, ps => closure (run s p) (s.size + 1) ps

/-- Whether the pattern matches somewhere in the text. -/
def isMatch (p : Pattern) (text : String) : Bool :=
  let s := text.toList.toArray
  !(p.run s (List.range (s.size + 1))).isEmpty

/-- A sequence of patterns. -/
def sequence : List Pattern → Pattern
  | [] => empty
  | [p] => p
  | p :: ps => cat p (sequence ps)

/-- `n` copies of a pattern in a row. -/
def copies (p : Pattern) : Nat → Pattern
  | 0 => empty
  | 1 => p
  | n + 1 => cat p (copies p n)

/-- A pattern or nothing. -/
def optional (p : Pattern) : Pattern := alt p empty

/-- Up to `n` copies of a pattern in a row. -/
def upTo (p : Pattern) : Nat → Pattern
  | 0 => empty
  | n + 1 => optional (cat p (upTo p n))

/-- At least `least` copies in a row, and at most `most` if that is given. -/
def repeated (p : Pattern) (least : Nat) (most : Option Nat) : Pattern :=
  match most with
  | none => cat (copies p least) (star p)
  | some most => cat (copies p least) (upTo p (most - least))

end Pattern

end PointsTo
