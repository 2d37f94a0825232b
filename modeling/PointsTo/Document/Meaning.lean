import PointsTo.Document.Basic
import PointsTo.Text.Decimal
import PointsTo.Text.Quoted
/-!
# What scalars stand for

Quoted scalars are text. A plain one is null, a truth value, a number or a
time if it reads like one, and text otherwise. A tag may say which of these
a scalar is to be; what does not read like that is refused.
-/

namespace PointsTo

namespace Document

open Text (digits? natural? signed leastInt greatestInt)

/-! ## Numbers -/

/-- A number in digits of a base, with or without a sign, that takes 64
bits with the sign or 64 without. -/
def signedDigits? (base : Nat) (cs : List Char) : Option Int :=
  let (neg, ds) := signed cs
  (digits? base ds).bind fun n =>
    let v : Int := if neg then -(n : Int) else n
    if leastInt ≤ v ∧ v ≤ greatestInt then some v
    else if ds.length = cs.length ∧ v < 2 * greatestInt + 2 then some v
    else none

/-- An integer in the base its mark asks for. -/
def markedInteger? (cs : List Char) : Option Int :=
  let (neg, ds) := signed cs
  (natural? ds).bind fun n =>
    let v : Int := if neg then -(n : Int) else n
    if leastInt ≤ v ∧ v ≤ greatestInt then some v
    else if ds.length = cs.length ∧ v < 2 * greatestInt + 2 then some v
    else none

/-- An integer whose sign stands behind the mark of its base. -/
def innerSigned? (cs : List Char) : Option Int :=
  match cs with
  | '0' :: 'b' :: ds => signedDigits? 2 ds
  | '0' :: 'o' :: ds => signedDigits? 8 ds
  | '-' :: '0' :: 'b' :: ds => signedDigits? 2 ('-' :: ds)
  | '-' :: '0' :: 'o' :: ds => signedDigits? 8 ('-' :: ds)
  | _ => none

/-- The value of the digits of an exponent; beyond some point more digits
make no difference. -/
def exponentValue (ds : List Char) : Nat :=
  ds.foldl (fun n d => if n < 10000 then 10 * n + (d.toNat - '0'.toNat) else n) 0

/-- The exponent at the end of a decimal number. -/
def exponent? : List Char → Option Int
  | [] => some 0
  | c :: cs =>
    if c = 'e' ∨ c = 'E' then
      let (neg, ds) := signed cs
      if ds.isEmpty || !ds.all Char.isDigit then none
      else some (if neg then -(exponentValue ds : Int) else exponentValue ds)
    else none

/-- A decimal number without sign: digits, perhaps a point and more of
them, perhaps an exponent. -/
def decimal? (cs : List Char) : Option Text.Decimal :=
  let whole := cs.takeWhile Char.isDigit
  let rest := cs.dropWhile Char.isDigit
  let (frac, rest) :=
    match rest with
    | '.' :: r => (r.takeWhile Char.isDigit, r.dropWhile Char.isDigit)
    | r => ([], r)
  if whole.isEmpty && frac.isEmpty then none
  else do
    let e ← exponent? rest
    let m ← digits? 10 (whole ++ frac)
    pure ⟨m, e - frac.length⟩

/-- Whether every underscore stands between two digits. -/
def separatesDigits : (afterDigit : Bool) → List Char → Bool
  | _, [] => true
  | ok, '_' :: cs =>
    ok && (cs.head?.map Char.isDigit).getD false && separatesDigits false cs
  | _, c :: cs => separatesDigits c.isDigit cs

/-! ## Times -/

/-- A number of one or two digits, and what follows. -/
def shortNumber? : List Char → Option (Nat × List Char)
  | c :: cs =>
    if !c.isDigit then none
    else
      let n := c.toNat - '0'.toNat
      match cs with
      | d :: ds => if d.isDigit then some (10 * n + (d.toNat - '0'.toNat), ds) else some (n, cs)
      | [] => some (n, [])
  | [] => none

/-- A character, and what follows it. -/
def sign? (c : Char) : List Char → Option (List Char)
  | d :: ds => if c = d then some ds else none
  | [] => none

/-- How many days a month has. -/
def daysIn (year month : Nat) : Nat :=
  if month = 2 then
    if year % 4 = 0 ∧ (year % 100 ≠ 0 ∨ year % 400 = 0) then 29 else 28
  else if [4, 6, 9, 11].contains month then 30 else 31

/-- What follows a date at the front of a text. -/
def afterDate? (cs : List Char) : Option (List Char) := do
  let year ← digits? 10 (cs.take 4)
  if (cs.take 4).length < 4 then none
  else
    let (month, cs) ← shortNumber? (← sign? '-' (cs.drop 4))
    let (day, cs) ← shortNumber? (← sign? '-' cs)
    if 1 ≤ month ∧ month ≤ 12 ∧ 1 ≤ day ∧ day ≤ daysIn year month then some cs else none

/-- What follows a time of day at the front of a text. -/
def afterClock? (cs : List Char) : Option (List Char) := do
  let (hour, cs) ← shortNumber? cs
  let (minute, cs) ← shortNumber? (← sign? ':' cs)
  let (second, cs) ← shortNumber? (← sign? ':' cs)
  if hour < 24 ∧ minute < 60 ∧ second < 60 then
    match cs with
    | p :: d :: ds =>
      if (p = '.' ∨ p = ',') ∧ d.isDigit then some (ds.dropWhile Char.isDigit) else some cs
    | cs => some cs
  else none

/-- Whether a text is a time zone. -/
def isZone : List Char → Bool
  | ['Z'] => true
  | [s, a, b, ':', c, d] =>
    (s = '+' || s = '-') && [a, b, c, d].all Char.isDigit &&
      decide (exponentValue [a, b] ≤ 24 ∧ exponentValue [c, d] ≤ 60)
  | _ => false

/-- Whether a text is a time: a date, alone or with a time of day. -/
def isTime (cs : List Char) : Bool :=
  match afterDate? cs with
  | none => false
  | some [] => true
  | some (' ' :: cs) => afterClock? cs == some []
  | some (c :: cs) => (c = 'T' || c = 't') && ((afterClock? cs).map isZone).getD false

/-! ## Meanings -/

/-- What a scalar stands for. -/
inductive Meaning where
  | null
  | truth (b : Bool)
  | integer (v : Int)
  /-- A number that is not written as an integer: its integral part, if it
  is not above every integer. -/
  | number (whole : Option Int)
  | time
  /-- The key of entries to be taken over. -/
  | merge
  | text (s : String)
  deriving DecidableEq, Repr, Inhabited

namespace Meaning

/-- The tag for what is meant. -/
def tag : Meaning → String
  | null => "!!null"
  | truth _ => "!!bool"
  | integer _ => "!!int"
  | number _ => "!!float"
  | time => "!!timestamp"
  | merge => "!!merge"
  | text _ => "!!str"

/-- What is left of a number without its fraction. Below the least integer
there is only that, and so it is just above the greatest. -/
def wholeOf (neg : Bool) (b : Text.Binary) : Option Int :=
  let v : Int := if neg then -(b.floor : Int) else b.floor
  if v < greatestInt + 1 then some (max v leastInt)
  else if v = greatestInt + 1 then some leastInt
  else none

/-- A decimal as a number, unless it is out of range. -/
def rounded? (neg : Bool) (d : Text.Decimal) : Option Meaning :=
  d.round?.map fun b => number (wholeOf neg b)

/-- The number a decimal stands for, unless it is out of range. -/
def ofDecimal? (cs : List Char) : Option Meaning :=
  let (neg, ds) := signed cs
  (decimal? ds).bind (rounded? neg)

/-- The number a plain scalar stands for. Underscores do not count, except
in front of a point, where they have to separate digits. -/
def ofNumber? (cs : List Char) : Option Meaning :=
  let bare := cs.filter (· ≠ '_')
  match cs with
  | '.' :: _ => if separatesDigits false cs then ofDecimal? bare else none
  | c :: _ =>
    if c.isDigit || c = '+' || c = '-' then
      ((markedInteger? bare).map integer).or <|
        (ofDecimal? bare).or ((innerSigned? bare).map integer)
    else none
  | [] => none

/-- The words that do not stand for themselves. -/
def words : List (String × Meaning) :=
  [("true", truth true), ("True", truth true), ("TRUE", truth true), ("false", truth false),
   ("False", truth false), ("FALSE", truth false), ("", null), ("~", null), ("null", null),
   ("Null", null), ("NULL", null), (".nan", number none), (".NaN", number none),
   (".NAN", number none), (".inf", number none), (".Inf", number none), (".INF", number none),
   ("+.inf", number none), ("+.Inf", number none), ("+.INF", number none),
   ("-.inf", number (some leastInt)), ("-.Inf", number (some leastInt)),
   ("-.INF", number (some leastInt)), ("<<", merge)]

/-- What a plain scalar stands for. -/
def ofPlain (s : String) : Meaning :=
  match words.lookup s with
  | some m => m
  | none => if isTime s.toList then time else (ofNumber? s.toList).getD (text s)

/-- What a scalar of an integer or a number stands for. -/
def ofNumeral (s : String) : Meaning := ((words.lookup s).or (ofNumber? s.toList)).getD (text s)

end Meaning

/-! ## Text in base 64 -/

/-- The value of a digit in base 64. -/
def digit64? (c : Char) : Option Nat :=
  if c.isUpper then some (c.toNat - 'A'.toNat)
  else if c.isLower then some (c.toNat - 'a'.toNat + 26)
  else if c.isDigit then some (c.toNat - '0'.toNat + 52)
  else if c = '+' then some 62
  else if c = '/' then some 63
  else none

/-- The bytes that digits in base 64 stand for, four digits three bytes;
the last four may be filled up with one or two signs. -/
def bytes64? : List Char → Option (List UInt8)
  | [] => some []
  | [a, b, '=', '='] => do
    let n := (← digit64? a) * 64 + (← digit64? b)
    pure [(n / 16).toUInt8]
  | [a, b, c, '='] => do
    let n := ((← digit64? a) * 64 + (← digit64? b)) * 64 + (← digit64? c)
    pure [(n / 1024).toUInt8, (n / 4).toUInt8]
  | a :: b :: c :: d :: rest => do
    let n := (((← digit64? a) * 64 + (← digit64? b)) * 64 + (← digit64? c)) * 64 + (← digit64? d)
    pure ((n / 65536).toUInt8 :: (n / 256).toUInt8 :: n.toUInt8 :: (← bytes64? rest))
  | _ => none

/-- The text that digits in base 64 stand for. Bytes that are part of no
character are replaced. -/
def text64? (s : String) : Option String :=
  (bytes64? (s.toList.filter fun c => c ≠ '\n' && c ≠ '\r')).map fun bs =>
    String.ofList ((Text.pieces bs).map fun p =>
      match p with
      | .char c => c
      | .byte _ => '\ufffd')

/-! ## Scalars -/

/-- What a scalar stands for, and its text, unless its tag asks for
something else than it is. -/
def meaning? (s : String) (plain : Bool) (tag : String) : Option (Meaning × String) :=
  if tag = "!!str" || (tag = "" && !plain) then some (.text s, s)
  else if tag = "" then some (.ofPlain s, s)
  else if tag = "!!binary" then (text64? s).map fun t => (.text t, t)
  else
    let m := if tag = "!!timestamp" then .ofPlain s else Meaning.ofNumeral s
    match m with
    | .integer v =>
      if tag = "!!int" then some (m, s)
      else if tag = "!!float" ∧ v ≤ greatestInt then
        (Meaning.rounded? (v < 0) ⟨v.natAbs, 0⟩).map (·, s)
      else none
    | m => if m.tag = tag then some (m, s) else none

end Document

end PointsTo
