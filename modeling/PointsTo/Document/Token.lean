import PointsTo.Text.Numeral
/-!
# Tokens of a document

A document is an indented text: nested lists and mappings, written either
one entry per line or between brackets. It is read as tokens. Where a line
is indented deeper than the one before, or less deep, the tokens say so
(`blockSequence`, `blockMapping`, `blockEnd`), so that whoever reads them
has no use for columns any more.

This module has the tokens, the classes of characters, and places in a
text.
-/

namespace PointsTo

namespace Document

/-- A token. -/
inductive Token where
  | streamEnd
  | documentStart
  | documentEnd
  /-- The version of the format a text says it is written in. -/
  | version (major minor : Nat)
  /-- What a handle at the front of a tag stands for. -/
  | handle (name meaning : String)
  | blockSequence
  | blockMapping
  | blockEnd
  | flowSequence
  | flowSequenceEnd
  | flowMapping
  | flowMappingEnd
  /-- The dash of a list entry. -/
  | entry
  /-- The comma between entries in brackets. -/
  | comma
  | key
  | value
  /-- A name given to what follows. -/
  | anchor (name : String)
  /-- What a name was given to. -/
  | alias (name : String)
  /-- The kind of what follows, by a handle and what comes after it. -/
  | tag (handle suffix : String)
  /-- A scalar, and whether it stands without quotes. -/
  | scalar (text : String) (plain : Bool)
  deriving DecidableEq, Repr, Inhabited

/-! ## Characters -/

/-- A line break. -/
def isBreak (c : Char) : Bool :=
  c = '\n' || c = '\r' || c = '\u0085' || c = '\u2028' || c = '\u2029'

/-- What a line break stands for in a scalar: the separators of lines and
paragraphs for themselves, every other one for a line feed. -/
def breakText (c : Char) : Char := if c = '\u2028' ∨ c = '\u2029' then c else '\n'

/-- A blank within a line. -/
def isBlank (c : Char) : Bool := c = ' ' || c = '\t'

/-- A blank, or a line break. -/
def isSpace (c : Char) : Bool := isBlank c || isBreak c

/-- Whether a blank, a line break or the end of the text comes next. -/
def spaceFollows : List Char → Bool
  | [] => true
  | c :: _ => isSpace c

/-- Whether a line ends here. -/
def lineEnds : List Char → Bool
  | [] => true
  | c :: _ => isBreak c

/-- The characters of names and handles. -/
def isWord (c : Char) : Bool := c.isAlphanum || c = '_' || c = '-'

/-- The characters a document may hold. -/
def isAllowed (c : Char) : Bool :=
  let n := c.toNat
  n = 0x9 || n = 0xA || n = 0xD || (0x20 ≤ n && n ≤ 0x7E) || n = 0x85 ||
    (0xA0 ≤ n && n ≤ 0xFFFD) || 0x10000 ≤ n

/-- Whether the text goes on with three of a character and a space: the
mark that starts or ends a document. -/
def isMark (c : Char) : List Char → Bool
  | a :: b :: d :: cs => a = c && b = c && d = c && spaceFollows cs
  | _ => false

/-- Whether the text goes on with a document mark. -/
def startsMark (cs : List Char) : Bool := isMark '-' cs || isMark '.' cs

/-! ## Places -/

/-- A place in the text: what is left of it, and where that is. -/
structure Cursor where
  rest : List Char
  index : Nat := 0
  line : Nat := 0
  column : Nat := 0
  deriving Repr, Inhabited

namespace Cursor

/-- Moves over `n` characters of a line, to where `rest` is left. -/
def skip (c : Cursor) (n : Nat) (rest : List Char) : Cursor :=
  { c with rest := rest, index := c.index + n, column := c.column + n }

/-- Moves over characters of a line. -/
def drop (c : Cursor) (n : Nat) : Cursor := c.skip n (c.rest.drop n)

/-- Moves over the characters of a class, all of which stand in a line. -/
def dropWhile (c : Cursor) (p : Char → Bool) : Cursor :=
  c.drop (c.rest.takeWhile p).length

/-- Moves over a line break, which may take two characters. -/
def newLine (c : Cursor) : Cursor :=
  match c.rest with
  | '\r' :: '\n' :: rest => { rest, index := c.index + 2, line := c.line + 1 }
  | _ :: rest => { rest, index := c.index + 1, line := c.line + 1 }
  | [] => c

/-- Moves to the end of the line. -/
def toLineEnd (c : Cursor) : Cursor := c.dropWhile (!isBreak ·)

/-- Moves over a number of characters, line breaks among them. -/
def pass : Nat → Cursor → Cursor
  | 0, c => c
  | n + 1, c =>
    match c.rest with
    | [] => c
    | d :: _ =>
      pass n (if isBreak d then
        { rest := c.rest.tail, index := c.index + 1, line := c.line + 1 } else c.drop 1)

/-- Whether the place is at a document mark. -/
def atMark (c : Cursor) : Bool := c.column = 0 && startsMark c.rest

/-- Whether that character comes next. -/
def sees (c : Cursor) (d : Char) : Bool := c.rest.head? = some d

end Cursor

end Document

end PointsTo
