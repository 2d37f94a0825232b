import PointsTo.Text.Numeral
import PointsTo.Text.Category
/-!
# Quoted text

Text between double quotes. Quotes and backslashes are escaped by a
backslash, printable characters stand for themselves, and everything else
is written as an escape: by letter where there is one, in hexadecimal
otherwise. Text that is not valid UTF-8 is quoted byte by byte where it is
broken.
-/

namespace PointsTo

namespace Text

/-- The hexadecimal digits of a number, at least `width` of them. -/
def hex (width n : Nat) : String :=
  let ds := Nat.toDigits 16 n
  String.ofList (List.replicate (width - ds.length) '0' ++ ds)

/-- The escape of a character that is neither printable nor special. -/
def escapeOf (c : Char) : String :=
  match c.toNat with
  | 7 => "\\a"
  | 8 => "\\b"
  | 12 => "\\f"
  | 10 => "\\n"
  | 13 => "\\r"
  | 9 => "\\t"
  | 11 => "\\v"
  | n =>
    if n < 32 ∨ n = 127 then "\\x" ++ hex 2 n
    else if n < 0x10000 then "\\u" ++ hex 4 n
    else "\\U" ++ hex 8 n

/-- How a character is written between double quotes. -/
def quoteChar (c : Char) : String :=
  if c = '"' ∨ c = '\\' then String.ofList ['\\', c]
  else if isPrintable c then c.toString
  else escapeOf c

/-- Text without the quotes around it, special characters escaped. -/
def escaped (s : String) : String := String.join (s.toList.map quoteChar)

/-- Text between double quotes. -/
def quoted (s : String) : String := "\"" ++ escaped s ++ "\""

/-- Text between double quotes, with every character outside of ASCII
escaped. -/
def quotedAscii (s : String) : String :=
  "\"" ++ String.join (s.toList.map fun c =>
    if c.toNat < 128 then quoteChar c else escapeOf c) ++ "\""

/-- Whether text may stand between backquotes, where nothing is escaped:
it holds no backquote, no control character but tabs, and no mark of byte
order. -/
def isVerbatim (s : String) : Bool :=
  s.toList.all fun c =>
    c = '\t' || (' ' ≤ c && c ≠ '\x60' && c ≠ '\x7f' && c ≠ '\ufeff')

/-! ## Bytes -/

/-- A piece of a byte string: a character, or a byte that is part of none. -/
inductive Piece where
  | char (c : Char)
  | byte (b : UInt8)
  deriving Repr, Inhabited

/-- The value of a continuation byte. -/
def continuation? (b : UInt8) : Option Nat :=
  if 0x80 ≤ b.toNat ∧ b.toNat < 0xC0 then some (b.toNat - 0x80) else none

/-- The character whose code point has at least the least value of an
encoding of its length. -/
def charFrom? (least n : Nat) : Option Char :=
  if h : n.isValidChar then if least ≤ n then some (Char.ofNatAux n h) else none else none

/-- Reads one character from the front of a byte string. The second result
is the number of bytes it takes. -/
def readChar? : List UInt8 → Option (Char × Nat)
  | [] => none
  | a :: rest =>
    let x := a.toNat
    if x < 0x80 then (charFrom? 0 x).map (·, 1)
    else if x < 0xC0 then none
    else if x < 0xE0 then
      match rest with
      | b :: _ => do
        let b ← continuation? b
        (charFrom? 0x80 ((x - 0xC0) * 64 + b)).map (·, 2)
      | _ => none
    else if x < 0xF0 then
      match rest with
      | b :: c :: _ => do
        let b ← continuation? b
        let c ← continuation? c
        (charFrom? 0x800 ((x - 0xE0) * 4096 + b * 64 + c)).map (·, 3)
      | _ => none
    else if x < 0xF8 then
      match rest with
      | b :: c :: d :: _ => do
        let b ← continuation? b
        let c ← continuation? c
        let d ← continuation? d
        (charFrom? 0x10000 ((x - 0xF0) * 262144 + b * 4096 + c * 64 + d)).map (·, 4)
      | _ => none
    else none

/-- Cuts a byte string, `fuel` pieces long at most, into pieces. -/
def piecesWithin : Nat → List UInt8 → List Piece
  | 0, _ => []
  | _ + 1, [] => []
  | fuel + 1, b :: bs =>
    match readChar? (b :: bs) with
    | some (c, n) => .char c :: piecesWithin fuel ((b :: bs).drop n)
    | none => .byte b :: piecesWithin fuel bs

/-- Cuts a byte string into pieces. -/
def pieces (bs : List UInt8) : List Piece := piecesWithin bs.length bs

/-- A byte string without the quotes around it, special characters and
broken bytes escaped. -/
def escapedBytes (bs : List UInt8) : String :=
  String.join ((pieces bs).map fun p =>
    match p with
    | .char c => quoteChar c
    | .byte b => "\\x" ++ hex 2 b.toNat)

/-! ## Reading quoted text -/

/-- What follows an escape, if it is one that can stand between double
quotes. The backslash has been read. -/
def skipEscape? : List Char → Option (List Char)
  | [] => none
  | c :: cs =>
    if c ∈ ['a', 'b', 'f', 'n', 'r', 't', 'v', '\\', '"'] then some cs
    else if c = 'x' then (hexNumber? 2 0 cs).map (·.2)
    else if c = 'u' then
      (hexNumber? 4 0 cs).bind fun (n, r) => if n.isValidChar then some r else none
    else if c = 'U' then
      (hexNumber? 8 0 cs).bind fun (n, r) => if n.isValidChar then some r else none
    else if '0' ≤ c ∧ c ≤ '3' then
      match cs with
      | d :: e :: r =>
        if '0' ≤ d ∧ d ≤ '7' ∧ '0' ≤ e ∧ e ≤ '7' then some r else none
      | _ => none
    else none

/-- Whether the characters, `fuel` of them at most, are the inside of a
quoted text and its closing quote. -/
def closesQuote : Nat → List Char → Bool
  | 0, _ => false
  | _ + 1, [] => false
  | fuel + 1, c :: cs =>
    if c = '"' then cs.isEmpty
    else if c = '\n' then false
    else if c = '\\' then
      match skipEscape? cs with
      | some rest => closesQuote fuel rest
      | none => false
    else closesQuote fuel cs

/-- Whether a text is a quoted text. -/
def isQuoted (s : String) : Bool :=
  match s.toList with
  | c :: cs => c = '"' && closesQuote (cs.length + 1) cs
  | [] => false

end Text

end PointsTo
