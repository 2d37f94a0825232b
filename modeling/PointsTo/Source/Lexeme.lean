import PointsTo.Text.Category
import PointsTo.Text.Numeral
/-!
# Lexemes of source files

A Go source file as a list of lexemes: names, literals, marks and comments.
A line that ends with a lexeme which can end a statement does end one, as
if a semicolon stood there. What is in a string is no comment.
-/

namespace PointsTo

namespace Source

/-- A lexeme. -/
inductive Lexeme where
  | name (text : String)
  /-- A text, a character or a number. -/
  | literal (isText : Bool)
  /-- A word that is no name, an operator or a bracket. -/
  | mark (text : String)
  /-- A comment with the line it starts on, and whether it is the first
  thing on that line. -/
  | comment (line : Nat) (first : Bool) (text : String)
  deriving DecidableEq, Repr, Inhabited

namespace Lexeme

/-- The words that are no names. -/
def keywords : List String :=
  ["break", "case", "chan", "const", "continue", "default", "defer", "else", "fallthrough", "for",
    "func", "go", "goto", "if", "import", "interface", "map", "package", "range", "return",
    "select", "struct", "switch", "type", "var"]

/-- The operators of several characters, the longest first, so that none is
read as the beginning of a longer one. -/
def longOperators : List String :=
  ["&^=", "<<=", ">>=", "...", "&&", "||", "<-", "++", "--", "==", "!=", "<=", ">=", ":=", "+=",
    "-=", "*=", "/=", "%=", "&=", "|=", "^=", "<<", ">>", "&^"]

/-- The operators and brackets of one character. -/
def shortOperators : List Char := "+-*/%&|^<>=!()[]\x7b\x7d,;.:~".toList

/-- Whether a statement ends here if the line does. -/
def endsStatement : Lexeme → Bool
  | name _ | literal _ => true
  | mark s =>
    ["break", "continue", "fallthrough", "return", "++", "--", ")", "]", "\x7d"].contains s
  | comment .. => false

/-! ## Words -/

/-- Whether a character can begin a word. -/
def beginsWord (c : Char) : Bool := c.isAlpha || c = '_' || 128 ≤ c.toNat && Text.isLetter c

/-- Whether a character can be part of a word. -/
def inWord (c : Char) : Bool :=
  beginsWord c || c.isDigit || 128 ≤ c.toNat && Text.isDecimalDigit c

/-- A word is a name unless it is reserved. -/
def ofWord (w : String) : Lexeme := if keywords.contains w then .mark w else .name w

/-! ## Texts and characters -/

/-- The value of `n` digits in a base, and what follows them. -/
def code? (base n : Nat) (cs : List Char) : Option (Nat × List Char) :=
  let ds := (cs.take n).map fun c => (Text.hexDigit? c).filter (· < base)
  if ds.length = n ∧ ds.all (·.isSome) then
    some (ds.foldl (fun v d => v * base + d.getD 0) 0, cs.drop n)
  else none

/-- What follows an escape sequence after its backslash, in a literal
between the given quotes. -/
def afterEscape (quote : Char) : List Char → Option (List Char)
  | [] => none
  | c :: cs =>
    if c = quote ∨ "abfnrtv\\".toList.contains c then some cs
    else if c = 'x' then (code? 16 2 cs).map (·.2)
    else if c = 'u' ∨ c = 'U' then
      (code? 16 (if c = 'u' then 4 else 8) cs).bind fun (n, rest) =>
        if n.isValidChar then some rest else none
    else (code? 8 3 (c :: cs)).bind fun (n, rest) => if n < 256 then some rest else none

/-- The number of characters up to the closing quote, and what follows it.
A literal ends on its line. -/
def quoted (quote : Char) : Nat → List Char → Option (Nat × List Char)
  | 0, _ | _, [] => none
  | fuel + 1, c :: cs =>
    if c = quote then some (0, cs)
    else if c = '\n' then none
    else
      ((if c = '\\' then afterEscape quote cs else some cs).bind (quoted quote fuel)).map
        fun (n, rest) => (n + 1, rest)

/-! ## Numbers -/

/-- How the whole part of a number is written. -/
inductive Radix where
  | decimal
  /-- After a leading zero, which makes a whole number octal. -/
  | leadingZero
  | binary
  | octal
  | hexadecimal
  deriving DecidableEq, Repr, Inhabited

namespace Radix

/-- The radix of a number, and the number without the letters that say so. -/
def ofText : List Char → Radix × List Char
  | '0' :: c :: cs =>
    if c.toLower = 'x' then (hexadecimal, cs)
    else if c.toLower = 'o' then (octal, cs)
    else if c.toLower = 'b' then (binary, cs)
    else (leadingZero, c :: cs)
  | ['0'] => (leadingZero, [])
  | cs => (decimal, cs)

/-- Whether a character can stand among the digits. Digits that are too
large are found later. -/
def inDigits (r : Radix) (c : Char) : Bool :=
  c = '_' || c.isDigit || r = hexadecimal && (Text.hexDigit? c).isSome

/-- Whether a digit is one of a whole number. -/
def hasDigit (r : Radix) (c : Char) : Bool :=
  match r with
  | binary => c.toNat < '2'.toNat
  | leadingZero | octal => c.toNat < '8'.toNat
  | decimal | hexadecimal => true

end Radix

/-- Whether every underscore stands between two digits; the digits begin
after `before`, which is a digit or `none`. -/
def separates (isDigit : Char → Bool) : (before : Option Char) → List Char → Bool
  | before, [] => before ≠ some '_'
  | before, c :: cs =>
    (if c = '_' then before.any isDigit else before ≠ some '_' || isDigit c) &&
      separates isDigit (some c) cs

/-- What follows the exponent of a number, if it has one; `none` if that is
malformed. The letter has to be that of the radix. -/
def afterExponent? (r : Radix) : List Char → Option (Bool × List Char)
  | c :: cs =>
    if c.toLower ≠ 'e' && c.toLower ≠ 'p' then some (false, c :: cs)
    else
      let cs := match cs with
        | '+' :: cs | '-' :: cs => cs
        | cs => cs
      let (digits, rest) := cs.span fun d => d = '_' || d.isDigit
      let fits :=
        if c.toLower = 'e' then r = .decimal || r = .leadingZero else r = .hexadecimal
      if fits && digits.any Char.isDigit then some (true, rest) else none
  | [] => some (false, [])

/-- What follows a number. -/
def afterNumber? (text : List Char) : Option (List Char) := do
  let (r, cs) := Radix.ofText text
  let (whole, rest) := cs.span r.inDigits
  let (hasPoint, fraction, rest) := match rest with
    | '.' :: rest => let (ds, rest) := rest.span r.inDigits; (true, ds, rest)
    | rest => (false, [], rest)
  guard (!hasPoint || (r ≠ .octal && r ≠ .binary))
  guard (r = .leadingZero || (whole ++ fraction).any (· ≠ '_'))
  let (hasExponent, rest) ← afterExponent? r rest
  guard (!(hasPoint && r = .hexadecimal) || hasExponent)
  let (isImaginary, rest) := match rest with
    | 'i' :: rest => (true, rest)
    | rest => (false, rest)
  guard (hasPoint || hasExponent || isImaginary || whole.all fun c => c = '_' || r.hasDigit c)
  let isDigit (c : Char) : Bool :=
    c.isDigit || r = .hexadecimal && (Text.hexDigit? c).isSome
  let read := cs.take (cs.length - rest.length)
  guard (separates isDigit (if r = .decimal then none else some '0') read)
  return rest

/-! ## Reading one lexeme -/

/-- The lexeme at the beginning of a text that begins with no space and no
comment, and what follows it. -/
def read? : List Char → Option (Lexeme × List Char)
  | [] => none
  | c :: cs =>
    if beginsWord c then
      some (ofWord (String.ofList (c :: cs.takeWhile inWord)), cs.dropWhile inWord)
    else if c.isDigit || (c = '.' && (cs.head?.any Char.isDigit)) then
      (afterNumber? (c :: cs)).map fun rest => (.literal false, rest)
    else if c = '"' then
      (quoted c (cs.length + 1) cs).map fun (_, rest) => (.literal true, rest)
    else if c = '\x27' then
      (quoted c (cs.length + 1) cs).bind fun (n, rest) =>
        if n = 1 then some (.literal false, rest) else none
    else if c.toNat = 96 then
      match cs.dropWhile (·.toNat ≠ 96) with
      | [] => none
      | _ :: rest => some (.literal true, rest)
    else
      match longOperators.find? fun s => s.toList.isPrefixOf (c :: cs) with
      | some s => some (.mark s, (c :: cs).drop s.length)
      | none =>
        if shortOperators.contains c then some (.mark (String.singleton c), cs) else none

/-! ## Comments -/

/-- A block comment up to its end, and what follows it. -/
def block : List Char → Option (List Char × List Char)
  | '*' :: '/' :: rest => some (['*', '/'], rest)
  | c :: cs => (block cs).map fun (text, rest) => (c :: text, rest)
  | [] => none

/-- A comment without carriage returns. One that keeps a star and a slash
apart stays; `read` is the text so far, last character first. -/
def withoutReturns (read : List Char) : List Char → List Char
  | [] => read.reverse
  | c :: cs =>
    if c ≠ '\r' || (2 < read.length && read.head? == some '*' && cs.head? == some '/') then
      withoutReturns (c :: read) cs
    else withoutReturns read cs

/-- The text of a comment, without carriage returns. -/
def commentText (text : String) : String :=
  if text.startsWith "//" then String.ofList (text.toList.filter (· ≠ '\r'))
  else String.ofList (withoutReturns [] text.toList)

/-! ## Reading a file -/

/-- The number of lines that end in a text. -/
def lineEnds (cs : List Char) : Nat := cs.count '\n'

/-- The lexemes of a text from a line on; `first` says that nothing of the
line has been read yet, `ending` that a statement ends with the line. There
are none if part of the text is no lexeme. Every lexeme takes at least a
character, so that the length of the text is enough `fuel`. -/
def scan : (fuel line : Nat) → (first ending : Bool) → List Char → Option (List Lexeme)
  | _, _, _, ending, [] => some (if ending then [.mark ";"] else [])
  | 0, _, _, _, _ => none
  | fuel + 1, line, first, ending, c :: cs =>
    let stops (b : Bool) : List Lexeme := if ending && b then [.mark ";"] else []
    if c = '\n' then (scan fuel (line + 1) true false cs).map (stops true ++ ·)
    else if [' ', '\t', '\r'].contains c then scan fuel line false ending cs
    else
      match c, cs with
      | '/', '/' :: rest =>
        let text := rest.takeWhile (· ≠ '\n')
        (scan fuel line false ending (rest.dropWhile (· ≠ '\n'))).map
          (.comment line first (String.ofList ('/' :: '/' :: text)) :: ·)
      | '/', '*' :: rest =>
        match block rest with
        | none => none
        | some (text, rest) =>
          let lines := lineEnds text
          (scan fuel (line + lines) false (ending && lines = 0) rest).map
            (stops (0 < lines) ++
              .comment line first (String.ofList ('/' :: '*' :: text)) :: ·)
      | c, cs =>
        match read? (c :: cs) with
        | none => none
        | some (l, rest) =>
          let lines := lineEnds ((c :: cs).take (cs.length + 1 - rest.length))
          (scan fuel (line + lines) false l.endsStatement rest).map (l :: ·)

/-- The lexemes of a file. A byte order mark can only stand at the
beginning, where it is skipped, and the character zero nowhere. -/
def ofText? (text : String) : Option (List Lexeme) :=
  let (marked, cs) := match text.toList with
    | '\ufeff' :: cs => (true, cs)
    | cs => (false, cs)
  if cs.contains '\ufeff' || cs.contains '\x00' then none
  else scan cs.length 1 (!marked) false cs

end Lexeme

end Source

end PointsTo
