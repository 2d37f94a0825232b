import PointsTo.Document.Scalar
/-!
# Scanning a document

The scanner cuts a text into tokens, one at a time. A mapping key is only
known to be one when the colon after it is seen. The scanner therefore
remembers, per nesting level of brackets, where a key may have started, and
puts the `key` token there afterwards.

Whoever reads the tokens does so through a `Stream`, which scans no further
than it has to: three tokens ahead, and past whatever may yet turn out to
be a key. What is wrong with a text behind its first document is seen only
if it is that close.
-/

namespace PointsTo

namespace Document

/-- A place where a mapping key may have started. -/
structure Candidate where
  /-- How many tokens stand before it. -/
  token : Nat
  index : Nat
  line : Nat
  column : Nat
  /-- Something has to be a key here, because of its indentation. -/
  required : Bool
  deriving Repr, Inhabited

/-- The state of the scanner. -/
structure Scanner where
  cursor : Cursor
  /-- The column of the current block, and of those around it. -/
  indent : Int := -1
  indents : List Int := []
  /-- A key may start here. -/
  keyAllowed : Bool := true
  /-- The candidate outside of brackets, or in the innermost ones. -/
  candidate : Option Candidate := none
  /-- The candidates at the brackets around, innermost first. -/
  outer : List (Option Candidate) := []
  tokens : Array Token := #[]
  deriving Repr, Inhabited

namespace Scanner

/-- How deep blocks, and brackets, may be nested. -/
def mostNested : Nat := 10000

/-- Whether the place is between brackets. -/
def inFlow (s : Scanner) : Bool := !s.outer.isEmpty

/-- Adds a token. -/
def push (s : Scanner) (t : Token) : Scanner := { s with tokens := s.tokens.push t }

/-! ## Comments -/

/-- Comments are looked for no further than this many characters ahead. -/
def commentReach : Nat := 512

/-- Skips a comment, and the comments on the lines below it. They may be
indented as they like. -/
def skipComments : Nat → Cursor → Cursor
  | 0, c => c
  | fuel + 1, c =>
    let c := c.toLineEnd
    match c.rest with
    | b :: more =>
      let gap := more.takeWhile fun d => isBlank d || d = '\n' || d = '\r'
      if (b = '\n' || b = '\r') && gap.length + 1 < commentReach &&
          (more.drop gap.length).head? = some '#' then
        skipComments fuel (c.pass (gap.length + 1))
      else c
    | [] => c

/-- Skips a comment that follows a token on its line. -/
def skipLineComment (c : Cursor) : Cursor :=
  let blanks := c.rest.takeWhile isBlank
  if blanks.length < commentReach && (c.rest.drop blanks.length).head? = some '#' then c.toLineEnd
  else c

/-- Skips blanks, comments and line breaks. A tab may not stand where a key
may start; outside of brackets one may after a line break. Answers the
place reached and whether a key may start there. -/
def skipSpace (flow : Bool) : Nat → (keyAllowed : Bool) → Cursor → Cursor × Bool
  | 0, ok, c => (c, ok)
  | fuel + 1, ok, c =>
    let c := if c.column = 0 && c.sees '\ufeff' then c.drop 1 else c
    let c := c.dropWhile fun d => d = ' ' || (d = '\t' && (flow || !ok))
    let c := if c.sees '#' then skipComments fuel c else c
    if !c.rest.isEmpty && lineEnds c.rest then skipSpace flow fuel (ok || !flow) c.newLine
    else (c, ok)

/-- Moves to where the next token starts. -/
def toNext (fuel : Nat) (s : Scanner) : Scanner :=
  let (c, ok) := skipSpace s.inFlow fuel s.keyAllowed s.cursor
  { s with cursor := c, keyAllowed := ok }

/-! ## Blocks -/

/-- Closes the blocks that are indented deeper than a column. -/
def unindent (column : Int) : List Int → Scanner → Scanner
  | [], s => s
  | i :: is, s =>
    if s.indent > column then
      unindent column is { (s.push .blockEnd) with indent := i, indents := is }
    else s

/-- Closes the blocks that end before a column. Between brackets columns
have no meaning. -/
def closeBlocks (s : Scanner) (column : Int) : Scanner :=
  if s.inFlow then s else unindent column s.indents s

/-- Opens a block at a column if it is deeper than the current one. The
token goes before the given number of tokens. -/
def openBlock (s : Scanner) (column : Int) (place : Nat) (t : Token) : Option Scanner :=
  if s.inFlow || s.indent ≥ column then some s
  else if mostNested ≤ s.indents.length then none
  else
    some { s with
      indent := column, indents := s.indent :: s.indents
      tokens := s.tokens.insertIdxIfInBounds place t }

/-! ## Candidates -/

/-- Whether a candidate can no longer be a key: it is on an earlier line,
or too far back. -/
def isStale (s : Scanner) (k : Candidate) : Bool :=
  k.line < s.cursor.line || k.index + 1024 < s.cursor.index

/-- Gives up the candidate; not possible if a key is required there. -/
def dropCandidate (s : Scanner) : Option Scanner :=
  match s.candidate with
  | some k => if k.required then none else some { s with candidate := none }
  | none => some s

/-- Remembers the place as a candidate if a key may start there. -/
def saveCandidate (s : Scanner) : Option Scanner :=
  if s.keyAllowed then
    (dropCandidate s).map fun s =>
      { s with
        candidate := some
          { token := s.tokens.size, index := s.cursor.index, line := s.cursor.line
            column := s.cursor.column
            required := !s.inFlow && s.indent = s.cursor.column } }
  else some s

/-- The candidate if it can still be a key. A required one that no longer
can be is an error. -/
def liveCandidate (s : Scanner) : Option (Option Candidate) :=
  match s.candidate with
  | none => some none
  | some k =>
    if s.isStale k then if k.required then none else some none
    else some (some k)

/-- Whether the token after so many may yet have a `key` put before it. -/
def mayBeKey (s : Scanner) (place : Nat) : Option Bool :=
  match ((s.candidate :: s.outer).filterMap id).find? (·.token = place) with
  | none => some false
  | some k => if s.isStale k then if k.required then none else some false else some true

/-! ## Tokens -/

/-- Moves over `n` characters, adding a token for them. -/
def take (s : Scanner) (n : Nat) (t : Token) : Scanner :=
  { s with cursor := s.cursor.drop n, tokens := s.tokens.push t }

/-- Skips a comment behind the last token. Behind the dash of a list entry
and behind marks a comment is none of theirs. -/
def takeComment (s : Scanner) : Scanner := { s with cursor := skipLineComment s.cursor }

/-- Reads an opening bracket. -/
def openFlow (s : Scanner) (t : Token) : Option Scanner :=
  if mostNested ≤ s.outer.length then none
  else
    (saveCandidate s).map fun s =>
      { (s.take 1 t) with
        outer := s.candidate :: s.outer, candidate := none, keyAllowed := true }

/-- Reads a closing bracket. -/
def closeFlow (s : Scanner) (t : Token) : Option Scanner :=
  (dropCandidate s).map fun s =>
    let s := { (s.take 1 t) with keyAllowed := false }
    match s.outer with
    | [] => s
    | k :: ks => { s with candidate := k, outer := ks }

/-- Reads the dash of a list entry. -/
def blockEntry (s : Scanner) : Option Scanner :=
  if !s.inFlow && !s.keyAllowed then none
  else do
    let s ← dropCandidate (← s.openBlock s.cursor.column s.tokens.size .blockSequence)
    pure { (s.take 1 .entry) with keyAllowed := true }

/-- Reads the mark of an explicit key. -/
def explicitKey (s : Scanner) : Option Scanner :=
  if !s.inFlow && !s.keyAllowed then none
  else do
    let s ← dropCandidate (← s.openBlock s.cursor.column s.tokens.size .blockMapping)
    pure { (s.take 1 .key) with keyAllowed := !s.inFlow }

/-- Reads the colon before a value. What the candidate marks was a key. -/
def mappingValue (s : Scanner) : Option Scanner := do
  match ← liveCandidate s with
  | some k =>
    let s := { s with
      candidate := none, keyAllowed := false
      tokens := s.tokens.insertIdxIfInBounds k.token .key }
    pure ((← s.openBlock k.column k.token .blockMapping).take 1 .value)
  | none =>
    let s := { s with candidate := none }
    if s.inFlow then pure { (s.take 1 .value) with keyAllowed := false }
    else if !s.keyAllowed then none
    else
      let s ← s.openBlock s.cursor.column s.tokens.size .blockMapping
      pure { (s.take 1 .value) with keyAllowed := true }

/-- Reads the name of an anchor or alias, whose mark comes next. -/
def named (s : Scanner) (make : String → Token) : Option Scanner := do
  let s ← saveCandidate s
  let (name, c) ← name? (s.cursor.drop 1)
  pure { (s.push (make name)) with cursor := c, keyAllowed := false }

/-- Reads a tag. -/
def tagged (s : Scanner) : Option Scanner := do
  let s ← saveCandidate s
  let (t, c) ← tag? s.cursor
  pure { (s.push t) with cursor := c, keyAllowed := false }

/-- Reads a block of lines, whose mark comes next. -/
def block (fuel : Nat) (s : Scanner) (literal : Bool) : Option Scanner := do
  let s ← dropCandidate s
  let (text, c) ← blockScalar? literal s.indent fuel (s.cursor.drop 1)
  pure { (s.push (.scalar (String.ofList text) false)) with cursor := c, keyAllowed := true }

/-- Reads a quoted scalar. -/
def quoted (fuel : Nat) (s : Scanner) (single : Bool) : Option Scanner := do
  let s ← saveCandidate s
  let (text, c) ← quotedFrom single fuel [] (s.cursor.drop 1)
  pure { (s.push (.scalar (String.ofList text) false)) with cursor := c, keyAllowed := false }

/-- Reads a plain scalar, and the comment behind it unless a line break
stands between them. -/
def plain (fuel : Nat) (s : Scanner) : Option Scanner := do
  let s ← saveCandidate s
  let (text, c, broken) ← plainFrom s.inFlow (s.indent + 1) fuel [] {} s.cursor
  let c := if broken then c else skipLineComment c
  pure { (s.push (.scalar (String.ofList text) true)) with cursor := c, keyAllowed := broken }

/-- The characters no plain scalar starts with, unless a rule says
otherwise. -/
def indicators : List Char :=
  ['-', '?', ':', ',', '[', ']', '\x7b', '\x7d', '#', '&', '*', '!', '|', '>', '\'', '"', '%',
   '@', '\x60']

/-- Whether a plain scalar may start with `c`, before `rest`. -/
def startsPlain (s : Scanner) (c : Char) (rest : List Char) : Bool :=
  (!isSpace c && !indicators.contains c) ||
    (c = '-' && !(rest.head?.map isBlank).getD false) ||
    (!s.inFlow && (c = '?' || c = ':') && !spaceFollows rest)

/-- Ends the text, or a document in it: all blocks are closed. -/
def finish (s : Scanner) (n : Nat) (t : Token) : Option Scanner :=
  (dropCandidate (s.closeBlocks (-1))).map fun s => { (s.take n t) with keyAllowed := false }

/-- Ends the text, which ends its last line. -/
def finishText (s : Scanner) : Option Scanner :=
  let c := s.cursor
  finish { s with cursor := if c.column = 0 then c else { c with column := 0, line := c.line + 1 } }
    0 .streamEnd

/-- Reads a directive, whose percent sign comes next. -/
def directive (s : Scanner) : Option Scanner := do
  let s ← dropCandidate (s.closeBlocks (-1))
  let (t, c) ← directive? (s.cursor.drop 1)
  pure { (s.push t) with cursor := c, keyAllowed := false }

/-- Reads the next token. The fuel is more than the characters left, which
bounds every scalar. At the end of the text there is a token for that, as
often as it is asked for. -/
def step (fuel : Nat) (s : Scanner) : Option Scanner :=
  let s := s.toNext fuel
  let s := s.closeBlocks s.cursor.column
  match s.cursor.rest with
  | [] => finishText s
  | c :: cs =>
    if s.cursor.column = 0 && c = '%' then directive s
    else if s.cursor.column = 0 && isMark '-' (c :: cs) then finish s 3 .documentStart
    else if s.cursor.column = 0 && isMark '.' (c :: cs) then finish s 3 .documentEnd
    else if c = '[' then (openFlow s .flowSequence).map takeComment
    else if c = '\x7b' then (openFlow s .flowMapping).map takeComment
    else if c = ']' then (closeFlow s .flowSequenceEnd).map takeComment
    else if c = '\x7d' then (closeFlow s .flowMappingEnd).map takeComment
    else if c = ',' then
      (dropCandidate s).map fun s => takeComment { (s.take 1 .comma) with keyAllowed := true }
    else if c = '-' && spaceFollows cs then blockEntry s
    else if c = '?' && (s.inFlow || spaceFollows cs) then (explicitKey s).map takeComment
    else if c = ':' && (s.inFlow || spaceFollows cs) then (mappingValue s).map takeComment
    else if c = '*' then (named s .alias).map takeComment
    else if c = '&' then (named s .anchor).map takeComment
    else if c = '!' then (tagged s).map takeComment
    else if c = '|' && !s.inFlow then block fuel s true
    else if c = '>' && !s.inFlow then block fuel s false
    else if c = '\'' then (quoted fuel s true).map takeComment
    else if c = '"' then (quoted fuel s false).map takeComment
    else if s.startsPlain c cs then plain fuel s
    else none

end Scanner

/-! ## Streams -/

/-- The tokens of a text, of which only so many are scanned as were looked
at. -/
structure Stream where
  scanner : Scanner
  /-- How many tokens have been read. -/
  next : Nat := 0
  /-- More than the characters of the text. -/
  limit : Nat
  deriving Repr, Inhabited

namespace Stream

/-- Whether the next token is certain: two more stand behind it, and no key
can be put before it any more. -/
def isSettled (s : Stream) : Option Bool :=
  if s.scanner.tokens.size < s.next + 3 then some false
  else (s.scanner.mayBeKey s.next).map (!·)

/-- Scans until the next token is certain. -/
def settle : Nat → Stream → Option Stream
  | 0, _ => none
  | fuel + 1, s =>
    match s.isSettled with
    | none => none
    | some true => some s
    | some false =>
      let { scanner, next, limit } := s
      (scanner.step limit).bind fun scanner => settle fuel { scanner, next, limit }

/-- Looks at the next token. -/
def peek? (s : Stream) : Option (Token × Stream) := do
  let s ← settle s.limit s
  let t ← s.scanner.tokens[s.next]?
  pure (t, s)

/-- Passes over the next token. -/
def skip (s : Stream) : Stream := { s with next := s.next + 1 }

/-- The tokens of a text. A mark of byte order at its front is no part of
it. -/
def ofString? (text : String) : Option Stream :=
  let cs := text.toList
  let cs := if cs.head? = some '\ufeff' then cs.tail else cs
  if cs.all isAllowed then
    some { scanner := { cursor := { rest := cs } }, limit := cs.length + 8 }
  else none

end Stream

end Document

end PointsTo
