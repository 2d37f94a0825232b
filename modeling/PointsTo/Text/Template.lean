import PointsTo.Text.Quoted
/-!
# Templates

A template is a text with places for a value. A place starts with a
percent sign and ends with a letter that says how the value is written;
between them stand signs, the index of the value in brackets, a width and,
after a point, a precision. There is one value here, so its index is one.
What is wrong with a place is said in its stead, and a value that no place
asked for is said at the end.
-/

namespace PointsTo

namespace Text

/-- How a value is put into a template. -/
structure Directive where
  plus : Bool := false
  minus : Bool := false
  sharp : Bool := false
  space : Bool := false
  zero : Bool := false
  width : Option Nat := none
  /-- How much of the value counts. -/
  precision : Option Nat := none
  deriving DecidableEq, Repr, Inhabited

namespace Directive

/-- Fills text up to the width. -/
def pad (d : Directive) (s : String) : String :=
  let n := d.width.getD 0 - s.length
  if d.minus then s ++ String.ofList (List.replicate n ' ')
  else String.ofList (List.replicate n (if d.zero then '0' else ' ')) ++ s

/-- The characters of a value that count. -/
def cut (d : Directive) (s : String) : String :=
  (d.precision.map fun n => String.ofList (s.toList.take n)).getD s

/-- The value as it is. -/
def plain (d : Directive) (s : String) : String := d.pad (d.cut s)

/-- The value between quotes: backquotes if the sharp sign asks for them
and they will do, and else double ones. -/
def quote (d : Directive) (s : String) : String :=
  let s := d.cut s
  d.pad <|
    if d.sharp && isVerbatim s then "\x60" ++ s ++ "\x60"
    else if d.plus then quotedAscii s
    else quoted s

/-- The bytes of the value in hexadecimal, marked as such by the sharp
sign and apart from each other by the space. -/
def bytes (d : Directive) (upper : Bool) (s : String) : String :=
  let bs := s.toUTF8.toList
  let bs := (d.precision.map fun n => bs.take n).getD bs
  let raise (t : String) : String := if upper then t.map Char.toUpper else t
  let mark := if d.sharp then raise "0x" else ""
  let digits := bs.map fun b => raise (hex 2 b.toNat)
  d.pad <|
    if bs.isEmpty then ""
    else if d.space then " ".intercalate (digits.map (mark ++ ·))
    else mark ++ String.join digits

/-- The value as a letter asks for it. -/
def apply (d : Directive) (letter : Char) (s : String) : String :=
  match letter with
  | 's' => d.plain s
  | 'v' => if d.sharp then { d with sharp := false, plus := false }.quote s else d.plain s
  | 'q' => d.quote s
  | 'x' => d.bytes false s
  | 'X' => d.bytes true s
  | 'T' => d.plain "string"
  | 'w' =>
    "%!w(string=" ++
      (if d.sharp then { d with sharp := false, plus := false }.quote s else d.plain s) ++ ")"
  | c => "%!" ++ c.toString ++ "(string=" ++ d.plain s ++ ")"

end Directive

/-! ## Reading directives -/

/-- The number at the front of a text, if there is one. Numbers that are
far too large end the text. -/
def leadingNumber : Option Nat → List Char → Option Nat × List Char
  | n, [] => (n, [])
  | n, c :: cs =>
    if c.isDigit then
      if 1000000 < n.getD 0 then (none, [])
      else leadingNumber (some (10 * n.getD 0 + (c.toNat - '0'.toNat))) cs
    else (n, c :: cs)

/-- The signs at the front of a directive. -/
def leadingSigns : List Char → Directive → Directive × List Char
  | '-' :: cs, d => leadingSigns cs { d with minus := true }
  | '0' :: cs, d => leadingSigns cs { d with zero := true }
  | '+' :: cs, d => leadingSigns cs { d with plus := true }
  | '#' :: cs, d => leadingSigns cs { d with sharp := true }
  | ' ' :: cs, d => leadingSigns cs { d with space := true }
  | cs, d => (d, cs)

/-- Which value comes next. -/
structure Turn where
  /-- How many values have been used, or which one an index asks for. -/
  next : Nat := 0
  /-- Some place has an index. -/
  reordered : Bool := false
  /-- An index was just read. -/
  indexed : Bool := false
  /-- The indices of the current place are indices of values. -/
  good : Bool := true
  deriving DecidableEq, Repr, Inhabited

namespace Turn

/-- The turn passes over a value. -/
def skip (t : Turn) : Turn := { t with next := if t.next = 0 then 1 else t.next, indexed := false }

/-- Reads an index in brackets if there is one. Without a closing bracket
only the opening one is passed over. -/
def readIndex (t : Turn) (cs : List Char) : Turn × List Char :=
  match cs with
  | '[' :: rest =>
    let wrong := { t with reordered := true, indexed := false, good := false }
    let inside := rest.takeWhile (· ≠ ']')
    match rest.dropWhile (· ≠ ']') with
    | _ :: after =>
      if rest.length < 2 then (wrong, rest)
      else
        match leadingNumber none inside with
        | (some n, []) =>
          if n = 1 then ({ t with next := 0, reordered := true, indexed := true }, after)
          else ({ wrong with indexed := true }, after)
        | _ => (wrong, after)
    | [] => (wrong, rest)
  | cs => ({ t with indexed := false }, cs)

end Turn

/-- A place that is being read. -/
structure Place where
  directive : Directive := {}
  turn : Turn
  rest : List Char
  /-- What is wrong with the place so far. -/
  complaints : String := ""
  deriving Repr, Inhabited

namespace Place

/-- Reads a width. A star asks to take it from a value, which none here
can give. -/
def readWidth (p : Place) : Place :=
  match p.rest with
  | '*' :: rest =>
    { p with turn := p.turn.skip, rest, complaints := p.complaints ++ "%!(BADWIDTH)" }
  | cs =>
    let (width, rest) := leadingNumber none cs
    { p with
      directive := { p.directive with width }
      turn := { p.turn with good := p.turn.good && !(p.turn.indexed && width.isSome) }
      rest }

/-- Reads a precision. -/
def readPrecision (p : Place) : Place :=
  match p.rest with
  | '.' :: rest =>
    let (turn, rest) := { p.turn with good := p.turn.good && !p.turn.indexed }.readIndex rest
    match rest with
    | '*' :: rest =>
      { p with turn := turn.skip, rest, complaints := p.complaints ++ "%!(BADPREC)" }
    | cs =>
      let (n, rest) := leadingNumber none cs
      { p with directive := { p.directive with precision := some (n.getD 0) }, turn, rest }
  | _ => p

/-- Reads an index unless there was one just before. -/
def readLastIndex (p : Place) : Place :=
  if p.turn.indexed then p
  else
    let (turn, rest) := p.turn.readIndex p.rest
    { p with turn, rest }

/-- Reads a place up to its letter. The percent sign has been read. -/
def read (turn : Turn) (cs : List Char) : Place :=
  let (directive, cs) := leadingSigns cs {}
  let (turn, rest) := { turn with good := true }.readIndex cs
  { directive, turn, rest : Place }.readWidth.readPrecision.readLastIndex

end Place

/-! ## Filling templates -/

/-- Fills a template from a position on, `fuel` characters at most. -/
def fillWithin (value : String) : Nat → Turn → List Char → String
  | 0, _, _ => ""
  | _ + 1, t, [] =>
    if t.next = 0 && !t.reordered then "%!(EXTRA string=" ++ value ++ ")" else ""
  | fuel + 1, t, '%' :: cs =>
    let p := Place.read t cs
    p.complaints ++
      match p.rest with
      | [] => "%!(NOVERB)" ++ fillWithin value fuel p.turn []
      | c :: rest =>
        if c = '%' then "%" ++ fillWithin value fuel p.turn rest
        else if !p.turn.good then
          "%!" ++ c.toString ++ "(BADINDEX)" ++ fillWithin value fuel p.turn rest
        else if p.turn.next ≠ 0 then
          "%!" ++ c.toString ++ "(MISSING)" ++ fillWithin value fuel p.turn rest
        else p.directive.apply c value ++ fillWithin value fuel p.turn.skip rest
  | fuel + 1, t, c :: cs => c.toString ++ fillWithin value fuel t cs

/-- Puts a value into a template. -/
def fill (template value : String) : String :=
  fillWithin value (template.length + 2) {} template.toList

end Text

end PointsTo
