import PointsTo.Document.Token
/-!
# Scalars of a document

A scalar is written without quotes, between single or double quotes, or
as a block of lines below a mark. Each form says in its own way where the
scalar ends and what its line breaks stand for.
-/

namespace PointsTo

namespace Document

/-! ## Gaps between words -/

/-- The blanks and line breaks between two words of a scalar. -/
structure Gap where
  /-- The blanks before the first line break. -/
  blanks : List Char := []
  /-- A line break was passed. -/
  broken : Bool := false
  /-- The first line break, if it counts. -/
  first : Option Char := none
  /-- The line breaks after it. -/
  more : List Char := []
  deriving Repr, Inhabited

namespace Gap

/-- What a gap stands for: blanks stand for themselves, a single line feed
for a blank, and more of them for one less. -/
def text (g : Gap) : List Char :=
  if g.broken then
    match g.first with
    | some c => if c = '\n' then (if g.more.isEmpty then [' '] else g.more) else c :: g.more
    | none => g.more
  else g.blanks

/-- A gap that goes on with a line break. -/
def addBreak (g : Gap) (c : Char) : Gap :=
  if g.broken then { g with more := g.more ++ [breakText c] }
  else { broken := true, first := some (breakText c) }

/-- Reads on in a gap. A tab must not stand left of the column `least` in
a line after the first. -/
def read (least : Int) : Gap → Nat → Nat → Nat → List Char → Option (Gap × Cursor)
  | g, i, l, k, [] => some (g, ⟨[], i, l, k⟩)
  | g, i, l, _, '\r' :: '\n' :: cs => read least (g.addBreak '\n') (i + 2) (l + 1) 0 cs
  | g, i, l, k, c :: cs =>
    if isBlank c then
      if g.broken then
        if c = '\t' ∧ (k : Int) < least then none else read least g (i + 1) l (k + 1) cs
      else read least { g with blanks := g.blanks ++ [c] } (i + 1) l (k + 1) cs
    else if isBreak c then read least (g.addBreak c) (i + 1) (l + 1) 0 cs
    else some (g, ⟨c :: cs, i, l, k⟩)

/-- Reads a gap at a place. -/
def readAt (least : Int) (g : Gap) (c : Cursor) : Option (Gap × Cursor) :=
  read least g c.index c.line c.column c.rest

end Gap

/-! ## Plain scalars -/

/-- The characters that end a plain word between brackets. -/
def flowIndicators : List Char := [',', '?', '[', ']', '\x7b', '\x7d']

/-- A word of a plain scalar, and what follows it: a space, a colon before
a space, or between brackets an indicator. -/
def plainWord (flow : Bool) : List Char → List Char × List Char
  | [] => ([], [])
  | c :: cs =>
    if isSpace c || (c = ':' && spaceFollows cs) || (flow && flowIndicators.contains c) then
      ([], c :: cs)
    else
      let (w, rest) := plainWord flow cs
      (c :: w, rest)

/-- Reads on in a plain scalar: its text, the place after it, and whether
a line break was passed at its end. Every line but the first has to be
indented by at least `least`, except between brackets. -/
def plainFrom (flow : Bool) (least : Int) : Nat → List Char → Gap → Cursor →
    Option (List Char × Cursor × Bool)
  | 0, acc, g, c => some (acc, c, g.broken)
  | fuel + 1, acc, g, c =>
    if c.atMark || c.sees '#' then some (acc, c, g.broken)
    else
      let (w, rest) := plainWord flow c.rest
      let acc := if w.isEmpty then acc else acc ++ g.text ++ w
      let g := if w.isEmpty then g else {}
      let c := c.skip w.length rest
      if rest.isEmpty || !spaceFollows rest then some (acc, c, g.broken)
      else
        match Gap.readAt least g c with
        | none => none
        | some (g, c) =>
          if !flow && (c.column : Int) < least then some (acc, c, g.broken)
          else plainFrom flow least fuel acc g c

/-! ## Quoted scalars -/

/-- The character with that code, if there is one. -/
def charOfCode? (n : Nat) : Option Char :=
  if n.isValidChar then some (Char.ofNat n) else none

/-- The escapes of one letter. -/
def letterEscapes : List (Char × Char) :=
  [('0', '\x00'), ('a', '\x07'), ('b', '\x08'), ('t', '\t'), ('\t', '\t'), ('n', '\n'),
   ('v', '\x0b'), ('f', '\x0c'), ('r', '\r'), ('e', '\x1b'), (' ', ' '), ('"', '"'),
   ('\'', '\''), ('\\', '\\'), ('N', '\u0085'), ('_', '\u00a0'), ('L', '\u2028'),
   ('P', '\u2029')]

/-- How many hexadecimal digits an escape by code has. -/
def codeEscapes : List (Char × Nat) := [('x', 2), ('u', 4), ('U', 8)]

/-- Reads what follows the backslash of an escape: the character it stands
for, how long it is, and what follows it. -/
def escape? : List Char → Option (Char × Nat × List Char)
  | [] => none
  | c :: cs =>
    match letterEscapes.lookup c, codeEscapes.lookup c with
    | some d, _ => some (d, 1, cs)
    | none, some n =>
      (Text.hexNumber? n 0 cs).bind fun (code, rest) =>
        (charOfCode? code).map fun d => (d, n + 1, rest)
    | none, none => none

/-- How a word of a quoted scalar ends. -/
inductive WordEnd where
  | quote
  | gap
  /-- A backslash at the end of the line. -/
  | escapedBreak
  deriving DecidableEq, Repr, Inhabited

/-- A word of a scalar in double quotes: its characters, how many were
read, what is left, and how it ends. -/
def doubleWord : Nat → List Char → Nat → List Char →
    Option (List Char × Nat × List Char × WordEnd)
  | 0, _, _, _ => none
  | _ + 1, acc, n, [] => some (acc.reverse, n, [], .gap)
  | fuel + 1, acc, n, c :: cs =>
    if isSpace c then some (acc.reverse, n, c :: cs, .gap)
    else if c = '"' then some (acc.reverse, n, c :: cs, .quote)
    else if c = '\\' then
      if (cs.head?.map isBreak).getD false then some (acc.reverse, n + 1, cs, .escapedBreak)
      else (escape? cs).bind fun (d, k, rest) => doubleWord fuel (d :: acc) (n + 1 + k) rest
    else doubleWord fuel (c :: acc) (n + 1) cs

/-- A word of a scalar in single quotes; a quote is written twice. -/
def singleWord : List Char → Nat → List Char → List Char × Nat × List Char × WordEnd
  | acc, n, [] => (acc.reverse, n, [], .gap)
  | acc, n, '\'' :: '\'' :: cs => singleWord ('\'' :: acc) (n + 2) cs
  | acc, n, c :: cs =>
    if isSpace c then (acc.reverse, n, c :: cs, .gap)
    else if c = '\'' then (acc.reverse, n, c :: cs, .quote)
    else singleWord (c :: acc) (n + 1) cs

/-- Reads on in a quoted scalar, up to and over its closing quote. -/
def quotedFrom (single : Bool) : Nat → List Char → Cursor → Option (List Char × Cursor)
  | 0, _, _ => none
  | fuel + 1, acc, c =>
    if c.atMark || c.rest.isEmpty then none
    else
      let word :=
        if single then some (singleWord [] 0 c.rest)
        else doubleWord (fuel + 1) [] 0 c.rest
      match word with
      | none => none
      | some (w, n, rest, .quote) => some (acc ++ w, c.skip (n + 1) rest.tail)
      | some (w, n, rest, .gap) =>
        (Gap.readAt 0 {} (c.skip n rest)).bind fun (g, c) =>
          quotedFrom single fuel (acc ++ w ++ g.text) c
      | some (w, n, rest, .escapedBreak) =>
        (Gap.readAt 0 { broken := true } (c.skip n rest).newLine).bind fun (g, c) =>
          quotedFrom single fuel (acc ++ w ++ g.text) c

/-! ## Blocks of lines -/

/-- What becomes of the line breaks at the end of a block. -/
inductive Chomping where
  /-- None is kept. -/
  | strip
  /-- The first is kept. -/
  | clip
  /-- All are kept. -/
  | keep
  deriving DecidableEq, Repr, Inhabited

/-- The sign for what becomes of the line breaks at the end. -/
def chomping? : List Char → Option Chomping
  | '+' :: _ => some .keep
  | '-' :: _ => some .strip
  | _ => none

/-- The digit for how far a block is indented, which must not be zero.
`some none` says that there is no digit. -/
def indentation? : List Char → Option (Option Nat)
  | c :: _ =>
    if c = '0' then none else if c.isDigit then some (some (c.toNat - '0'.toNat)) else some none
  | [] => some none

/-- Reads the signs after the mark of a block, in either order, and the
rest of the line, in which only a comment may stand. -/
def blockHeader? (c : Cursor) : Option (Chomping × Option Nat × Cursor) := do
  let (chomping, indent, c) ←
    match chomping? c.rest with
    | some chomping => do
      let c := c.drop 1
      let indent ← indentation? c.rest
      pure (chomping, indent, if indent.isSome then c.drop 1 else c)
    | none => do
      let indent ← indentation? c.rest
      let c := if indent.isSome then c.drop 1 else c
      match indent, chomping? c.rest with
      | some _, some chomping => pure (chomping, indent, c.drop 1)
      | _, _ => pure (Chomping.clip, indent, c)
  let c := c.dropWhile isBlank
  let c := if c.sees '#' then c.toLineEnd else c
  if lineEnds c.rest then some (chomping, indent, c.newLine) else none

/-- Reads the indentation and the empty lines before a line of a block: how
deep the deepest was, and the line breaks. A block whose indentation is
not yet known has the indentation zero. Tabs do not indent. -/
def blockGap (indent : Nat) : Nat → List Char → Nat → Nat → Nat → List Char →
    Option (Nat × List Char × Cursor)
  | deepest, breaks, i, l, k, [] => some (max deepest k, breaks, ⟨[], i, l, k⟩)
  | deepest, breaks, i, l, k, '\r' :: '\n' :: cs =>
    blockGap indent (max deepest k) (breaks ++ ['\n']) (i + 2) (l + 1) 0 cs
  | deepest, breaks, i, l, k, c :: cs =>
    let indents := indent = 0 || k < indent
    if c = ' ' && indents then blockGap indent deepest breaks (i + 1) l (k + 1) cs
    else if c = '\t' && indents then none
    else if isBreak c then
      blockGap indent (max deepest k) (breaks ++ [breakText c]) (i + 1) (l + 1) 0 cs
    else some (max deepest k, breaks, ⟨c :: cs, i, l, k⟩)

/-- Reads such a gap at a place. -/
def blockGapAt (indent : Nat) (c : Cursor) : Option (Nat × List Char × Cursor) :=
  blockGap indent 0 [] c.index c.line c.column c.rest

/-- Reads on in the lines of a block: its text, the line break before the
place reached, the ones after that, and the place. The lines are joined by
blanks unless the block is literal; lines that start with a blank are
not. -/
def blockLines (literal : Bool) (indent : Nat) : Nat → (text : List Char) →
    (lastBreak moreBreaks : List Char) → (afterBlank : Bool) → Cursor →
    Option (List Char × List Char × List Char × Cursor)
  | 0, _, _, _, _, _ => none
  | fuel + 1, text, lastBreak, moreBreaks, afterBlank, c =>
    if c.column ≠ indent || c.rest.isEmpty then some (text, lastBreak, moreBreaks, c)
    else
      let blank := (c.rest.head?.map isBlank).getD false
      let joined :=
        if !literal && !afterBlank && !blank && lastBreak = ['\n'] then
          if moreBreaks.isEmpty then [' '] else []
        else lastBreak
      let line := c.rest.takeWhile (!isBreak ·)
      let c := c.drop line.length
      let lastBreak := (c.rest.head?.map breakText).toList
      match blockGapAt indent c.newLine with
      | none => none
      | some (_, breaks, c) =>
        blockLines literal indent fuel (text ++ joined ++ moreBreaks ++ line) lastBreak breaks
          blank c

/-- Reads a block of lines within a block at the column `outer`. The mark
has been read. -/
def blockScalar? (literal : Bool) (outer : Int) (fuel : Nat) (c : Cursor) :
    Option (List Char × Cursor) := do
  let (chomping, step, c) ← blockHeader? c
  let given := (step.map fun n => (max outer 0).toNat + n).getD 0
  let (deepest, breaks, c) ← blockGapAt given c
  let indent := if given = 0 then max (max deepest (outer + 1).toNat) 1 else given
  let (text, lastBreak, moreBreaks, c) ← blockLines literal indent fuel [] [] breaks false c
  match chomping with
  | .strip => pure (text, c)
  | .clip => pure (text ++ lastBreak, c)
  | .keep => pure (text ++ lastBreak ++ moreBreaks, c)

/-! ## Tags -/

/-- The characters of a tag beside those of words. -/
def tagSigns : List Char :=
  [';', '/', '?', ':', '@', '&', '=', '+', '$', ',', '.', '!', '~', '*', '\'', '(', ')', '[',
   ']', '%']

/-- The bytes written by `count` escapes in hexadecimal. -/
def escapedBytes? : Nat → List Char → Option (List UInt8 × List Char)
  | 0, cs => some ([], cs)
  | count + 1, '%' :: cs => do
    let (b, cs) ← Text.hexNumber? 2 0 cs
    let (bs, cs) ← escapedBytes? count cs
    pure (b.toUInt8 :: bs, cs)
  | _ + 1, _ => none

/-- Reads a character given by the escapes of its bytes. -/
def escapedChar? (cs : List Char) : Option (Char × Nat × List Char) := do
  let (first, _) ← escapedBytes? 1 cs
  let b := (first.headD 0).toNat
  let width ←
    if b < 0x80 then some 1
    else if b < 0xC0 then none
    else if b < 0xE0 then some 2
    else if b < 0xF0 then some 3
    else if b < 0xF8 then some 4
    else none
  let (bytes, rest) ← escapedBytes? width cs
  let s ← String.fromUTF8? (ByteArray.mk bytes.toArray)
  let c ← s.toList.head?
  pure (c, 3 * width, rest)

/-- The characters of a tag, how many were read, and what follows. -/
def tagChars? : Nat → List Char → Option (List Char × Nat × List Char)
  | 0, _ => none
  | _ + 1, [] => some ([], 0, [])
  | fuel + 1, c :: cs =>
    if c = '%' then do
      let (d, n, rest) ← escapedChar? (c :: cs)
      let (ds, m, rest) ← tagChars? fuel rest
      pure (d :: ds, n + m, rest)
    else if isWord c || tagSigns.contains c then do
      let (ds, m, rest) ← tagChars? fuel cs
      pure (c :: ds, m + 1, rest)
    else some ([], 0, c :: cs)

/-- Reads the characters of a tag at a place. -/
def tagText? (c : Cursor) : Option (List Char × Cursor) :=
  (tagChars? (c.rest.length + 1) c.rest).map fun (cs, n, rest) => (cs, c.skip n rest)

/-- Reads what may be the handle of a tag: an exclamation mark, and a word
with another one after it. -/
def tagHandle? (c : Cursor) : Option (List Char × Cursor) :=
  match c.rest with
  | '!' :: rest =>
    let word := rest.takeWhile isWord
    let closed := (rest.drop word.length).head? = some '!'
    let handle := '!' :: word ++ (if closed then ['!'] else [])
    some (handle, c.drop handle.length)
  | _ => none

/-- Whether a handle is one of more than an exclamation mark. -/
def isLongHandle (h : List Char) : Bool := 1 < h.length && h.getLast? = some '!'

/-- Reads a tag: its handle, what comes after that, and the place behind
it. A tag between angle brackets has no handle. -/
def tag? (c : Cursor) : Option (Token × Cursor) := do
  let (handle, suffix, c) ←
    match c.rest with
    | '!' :: '<' :: _ => do
      let (text, c) ← tagText? (c.drop 2)
      if text.isEmpty || !c.sees '>' then none else pure ([], text, c.drop 1)
    | _ => do
      let (handle, c) ← tagHandle? c
      let (text, c) ← tagText? c
      if isLongHandle handle then
        if text.isEmpty then none else pure (handle, text, c)
      else
        let suffix := handle.tail ++ text
        pure (if suffix.isEmpty then [] else ['!'], if suffix.isEmpty then handle else suffix, c)
  if spaceFollows c.rest then
    pure (.tag (String.ofList handle) (String.ofList suffix), c)
  else none

/-! ## Names -/

/-- The characters that may follow a name beside spaces. -/
def nameEnds : List Char := ['?', ':', ',', ']', '\x7d', '%', '@', '\x60']

/-- Reads the name of an anchor or alias. The mark before it has been
read. -/
def name? (c : Cursor) : Option (String × Cursor) :=
  let name := c.rest.takeWhile isWord
  let c := c.drop name.length
  if name.isEmpty || !(spaceFollows c.rest || (c.rest.head?.map nameEnds.contains).getD false) then
    none
  else some (String.ofList name, c)

/-! ## Directives -/

/-- A number of at most two digits. -/
def versionNumber? (c : Cursor) : Option (Nat × Cursor) :=
  let ds := c.rest.takeWhile Char.isDigit
  if ds.isEmpty || 2 < ds.length then none
  else some (ds.foldl (fun n d => 10 * n + (d.toNat - '0'.toNat)) 0, c.drop ds.length)

/-- Reads a directive up to and over the end of its line: the version of
the format, or the meaning of a handle. The percent sign has been read. -/
def directive? (c : Cursor) : Option (Token × Cursor) := do
  let name := c.rest.takeWhile isWord
  let c := c.drop name.length
  if name.isEmpty || !spaceFollows c.rest then none
  else
    let c := c.dropWhile isBlank
    let (token, c) ←
      if String.ofList name = "YAML" then do
        let (major, c) ← versionNumber? c
        if !c.sees '.' then none
        else
          let (minor, c) ← versionNumber? (c.drop 1)
          pure (Token.version major minor, c)
      else if String.ofList name = "TAG" then do
        let (handle, c) ← tagHandle? c
        if handle ≠ ['!'] && !isLongHandle handle then none
        else if !(c.rest.head?.map isBlank).getD false then none
        else
          let (text, c) ← tagText? (c.dropWhile isBlank)
          if text.isEmpty || !spaceFollows c.rest then none
          else pure (Token.handle (String.ofList handle) (String.ofList text), c)
      else none
    let c := c.dropWhile isBlank
    let c := if c.sees '#' then c.toLineEnd else c
    if lineEnds c.rest then some (token, c.newLine) else none

end Document

end PointsTo
