/-!
# Integers as text

An integer is written in decimal digits, or in another base after its mark
(`0x`, `0o`, `0b`, or a leading zero for base eight). Underscores may stand
between digits.
-/

namespace PointsTo

namespace Text

/-- The value of a hexadecimal digit. -/
def hexDigit? (c : Char) : Option Nat :=
  if '0' ≤ c ∧ c ≤ '9' then some (c.toNat - '0'.toNat)
  else if 'a' ≤ c ∧ c ≤ 'f' then some (c.toNat - 'a'.toNat + 10)
  else if 'A' ≤ c ∧ c ≤ 'F' then some (c.toNat - 'A'.toNat + 10)
  else none

/-- The number written by exactly `count` hexadecimal digits, and what
follows them. -/
def hexNumber? : Nat → Nat → List Char → Option (Nat × List Char)
  | 0, acc, cs => some (acc, cs)
  | _ + 1, _, [] => none
  | count + 1, acc, c :: cs => do
    let d ← hexDigit? c
    hexNumber? count (acc * 16 + d) cs

/-- The value of digits in a base, which is at most sixteen. -/
def digits? (base : Nat) (cs : List Char) : Option Nat :=
  if cs.isEmpty then none
  else
    cs.foldl
      (fun acc c => acc.bind fun n =>
        (hexDigit? c).bind fun d => if d < base then some (base * n + d) else none)
      (some 0)

/-- The base of a natural number and its digits. -/
def baseOf : List Char → Nat × List Char
  | '0' :: c :: cs =>
    if !cs.isEmpty && (c = 'x' || c = 'X') then (16, cs)
    else if !cs.isEmpty && (c = 'b' || c = 'B') then (2, cs)
    else if !cs.isEmpty && (c = 'o' || c = 'O') then (8, cs)
    else (8, c :: cs)
  | cs => (10, cs)

/-- The value of a natural number without underscores. -/
def natural? (cs : List Char) : Option Nat :=
  let (base, ds) := baseOf cs
  digits? base ds

/-- A sign, and what follows it. -/
def signed : List Char → Bool × List Char
  | '-' :: cs => (true, cs)
  | '+' :: cs => (false, cs)
  | cs => (false, cs)

/-- The least and the greatest integer of 64 bits. -/
def leastInt : Int := -9223372036854775808

@[inherit_doc leastInt]
def greatestInt : Int := 9223372036854775807

/-- What is wrong with an integer. -/
inductive NumeralError where
  | malformed
  | outOfRange
  deriving DecidableEq, Repr, Inhabited

/-- What is wrong. -/
def NumeralError.message : NumeralError → String
  | malformed => "parse error"
  | outOfRange => "value out of range"

/-- Whether underscores only stand between digits, the mark of a base
counting as one. -/
def wellSeparated : (afterDigit : Bool) → List Char → Bool
  | _, [] => true
  | ok, '_' :: cs => ok && !cs.isEmpty && cs.head? != some '_' && wellSeparated false cs
  | _, _ :: cs => wellSeparated true cs

/-- The value of digits, read from the left until one of them is none or
the value exceeds 64 bits. -/
def boundedDigits (base : Nat) : Nat → List Char → Except NumeralError Nat
  | n, [] => .ok n
  | n, c :: cs =>
    if c = '_' then boundedDigits base n cs
    else
      match hexDigit? c with
      | none => .error .malformed
      | some d =>
        if d ≥ base then .error .malformed
        else if base * n + d ≥ 2 ^ 64 then .error .outOfRange
        else boundedDigits base (base * n + d) cs

/-- Reads an integer of 64 bits. -/
def integer (s : String) : Except NumeralError Int :=
  let (neg, cs) := signed s.toList
  let (base, ds) := baseOf cs
  let afterMark := decide (ds.length < cs.length) || (cs.head? = some '0')
  if ds.isEmpty then .error .malformed
  else
    match boundedDigits base 0 ds with
    | .error e => .error e
    | .ok n =>
      if !wellSeparated afterMark ds then .error .malformed
      else
        let v : Int := if neg then -(n : Int) else n
        if leastInt ≤ v ∧ v ≤ greatestInt then .ok v else .error .outOfRange

end Text

end PointsTo
