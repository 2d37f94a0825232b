import PointsTo.Text.Pattern
/-!
# The notation of patterns

Literals, `.`, anchors, classes, groups, alternatives, repetitions with
`*`, `+`, `?` and counts, escapes, properties of characters, and the flags
`i`, `m`, `s` and `U`. A text that is no pattern — an open group or class,
a repetition of nothing or of a repetition, a lone backslash, an unknown
property — is refused, and so is one that is too large or nested too deep.
-/

namespace PointsTo

namespace Pattern

/-- The flags in force. -/
structure Flags where
  foldCase : Bool := false
  multiLine : Bool := false
  dotAll : Bool := false
  deriving DecidableEq, Repr, Inhabited

/-! ## Escapes -/

/-- The value of a digit in a base up to sixteen. -/
def digit? (base : Nat) (c : Char) : Option Nat :=
  let v := if c.isDigit then some (c.toNat - 48)
    else if 'a' ≤ c ∧ c ≤ 'f' then some (c.toNat - 87)
    else if 'A' ≤ c ∧ c ≤ 'F' then some (c.toNat - 55)
    else none
  v.filter (· < base)

/-- The number written by the digits at the front of a text. -/
def number (base : Nat) (cs : List Char) : Nat :=
  cs.foldl (fun n c => n * base + (digit? base c).getD 0) 0

/-- A character given by its code point, escaped. The backslash has been
read. -/
def escape? : List Char → Option (Nat × List Char)
  | [] => none
  | c :: cs =>
    if c = 'x' then
      match cs with
      | '\x7b' :: rest =>
        let ds := rest.takeWhile fun c => (digit? 16 c).isSome
        match rest.drop ds.length with
        | '\x7d' :: rest =>
          if ds.isEmpty ∨ CharSet.lastCode < number 16 ds then none else some (number 16 ds, rest)
        | _ => none
      | a :: b :: rest => do
        let a ← digit? 16 a
        let b ← digit? 16 b
        pure (a * 16 + b, rest)
      | _ => none
    else if '1' ≤ c ∧ c ≤ '7' ∧ !(cs.head?.any fun d => (digit? 8 d).isSome) then none
    else if (digit? 8 c).isSome then
      let ds := c :: (cs.take 2).takeWhile fun d => (digit? 8 d).isSome
      some (number 8 ds, cs.drop (ds.length - 1))
    else
      match c with
      | 'a' => some (7, cs)
      | 'f' => some (12, cs)
      | 'n' => some (10, cs)
      | 'r' => some (13, cs)
      | 't' => some (9, cs)
      | 'v' => some (11, cs)
      | _ => if c.toNat < 128 ∧ !c.isAlphanum then some (c.toNat, cs) else none

/-! ## Brackets -/

/-- A character between brackets. -/
def bracketChar? : List Char → Option (Nat × List Char)
  | [] => none
  | '\\' :: cs => escape? cs
  | c :: cs => some (c.toNat, cs)

/-- The name at the front of a text that ends in a colon and a bracket. -/
def bracketName? : Nat → List Char → List Char → Option (String × List Char)
  | 0, _, _ => none
  | fuel + 1, cs, acc =>
    match cs with
    | [] => none
    | ':' :: ']' :: rest => some (String.ofList acc.reverse, rest)
    | c :: rest => bracketName? fuel rest (c :: acc)

/-- A range under the flags. -/
def range (f : Flags) (lo hi : Nat) : CharSet := { ranges := [(lo, hi)], foldCase := f.foldCase }

/-- The set of a property, named by a letter or between braces, and what
follows. A caret before the name negates the set. -/
def property? (f : Flags) (negated : Bool) : List Char → Option (CharSet × List Char)
  | [] => none
  | c :: cs =>
    let (name, rest) :=
      if c = '\x7b' then (cs.takeWhile (· ≠ '\x7d'), cs.dropWhile (· ≠ '\x7d'))
      else ([c], '\x7d' :: cs)
    let (flipped, name) :=
      match name with
      | '^' :: name => (true, name)
      | name => (false, name)
    match rest with
    | [] => none
    | _ :: rest =>
      (CharSet.ofProperty? (String.ofList name)).map fun ranges =>
        ({ ranges, negated := negated != flipped, foldCase := f.foldCase }, rest)

/-- The set that an escape stands for, if it is one of a set: `some none`
if it is one of an unknown property. The backslash has been read. -/
def escapedSet? (f : Flags) : List Char → Option (Option (CharSet × List Char))
  | [] => none
  | c :: cs =>
    if c = 'p' ∨ c = 'P' then some (property? f (c = 'P') cs)
    else
      (CharSet.ofLetter? c).map fun (ranges, negated) =>
        some ({ ranges, negated, foldCase := f.foldCase }, cs)

/-- The inside of brackets up to the closing one. A closing bracket at the
front stands for itself. -/
def brackets? (f : Flags) : Nat → Bool → List Char → List CharSet →
    Option (List CharSet × List Char)
  | 0, _, _, _ => none
  | fuel + 1, first, cs, acc =>
    let single : Option (List CharSet × List Char) := do
      let (lo, rest) ← bracketChar? cs
      match rest with
      | '-' :: d :: after =>
        if d = ']' then brackets? f fuel false rest (range f lo lo :: acc)
        else do
          let (hi, rest) ← bracketChar? (d :: after)
          if hi < lo then none else brackets? f fuel false rest (range f lo hi :: acc)
      | _ => brackets? f fuel false rest (range f lo lo :: acc)
    match cs with
    | [] => none
    | ']' :: rest => if first then single else some (acc, rest)
    | '[' :: ':' :: rest =>
      match bracketName? (rest.length + 1) rest [] with
      | none => single
      | some (name, after) =>
        let (negated, name) :=
          if name.startsWith "^" then (true, (name.drop 1).toString) else (false, name)
        match CharSet.ofName? name with
        | none => none
        | some ranges =>
          brackets? f fuel false after ({ ranges, negated, foldCase := f.foldCase } :: acc)
    | '\\' :: rest =>
      match escapedSet? f rest with
      | some (some (set, rest)) => brackets? f fuel false rest (set :: acc)
      | some none => none
      | none => single
    | _ => single

/-! ## Repetitions -/

/-- The counts of a repetition. The opening brace has been read. -/
def counts? (cs : List Char) : Option (Nat × Option Nat × List Char) :=
  let ds := cs.takeWhile Char.isDigit
  if ds.isEmpty ∨ (1 < ds.length ∧ ds.head? = some '0') then none
  else
    let least := number 10 ds
    match cs.drop ds.length with
    | '\x7d' :: rest => some (least, some least, rest)
    | ',' :: '\x7d' :: rest => some (least, none, rest)
    | ',' :: rest =>
      let es := rest.takeWhile Char.isDigit
      if es.isEmpty ∨ (1 < es.length ∧ es.head? = some '0') then none
      else
        match rest.drop es.length with
        | '\x7d' :: rest => some (least, some (number 10 es), rest)
        | _ => none
    | _ => none

/-- No count may be larger, and no product of nested counts. -/
def mostCopies : Nat := 1000

/-- No pattern may be nested deeper. -/
def mostHeight : Nat := 1000

/-- No pattern may be larger, once its counts are multiplied out. -/
def mostSize : Nat := 3355443

/-- What a part of a pattern is made of. -/
inductive Shape where
  /-- Characters in a row, of which case is ignored or not. -/
  | literal (length : Nat) (foldCase : Bool)
  /-- One character out of sets. -/
  | set
  | sequence
  | choice
  | other
  deriving DecidableEq, Repr, Inhabited

/-- A part of a pattern, and its measures. -/
structure Part where
  pattern : Pattern
  shape : Shape := .other
  /-- The least bound that the counts nested in it keep to. -/
  copies : Nat := 0
  /-- How deep it is nested. -/
  height : Nat := 1
  /-- How large it is with its counts multiplied out. -/
  size : Nat := 1
  /-- The largest size of anything in it. -/
  largest : Nat := 1
  /-- How many parts it has, itself included. -/
  parts : Nat := 1
  deriving Repr, Inhabited

namespace Part

/-- A part that holds others: `own` is what it adds to their sizes. A
sequence within a sequence, and a choice within a choice, is no deeper. -/
def around (pattern : Pattern) (shape : Shape) (own : Nat) (ps : List Part) : Part :=
  let flat (p : Part) : Nat :=
    if p.shape = shape && shape ≠ .other then p.height - 1 else p.height
  let size := max 1 (ps.foldl (fun n p => n + p.size) own)
  { pattern, shape, size
    copies := ps.foldl (fun n p => max n p.copies) 0
    height := 1 + ps.foldl (fun n p => max n (flat p)) 0
    largest := ps.foldl (fun n p => max n p.largest) size
    parts := ps.foldl (fun n p => n + p.parts) 1 }

/-- One character. -/
def ofLiteral (p : Pattern) (foldCase : Bool) : Part := { pattern := p, shape := .literal 1 foldCase }

/-- One character of some sets. -/
def ofSets (negated : Bool) (sets : List CharSet) : Part :=
  { pattern := one negated sets, shape := .set }

/-- A group that is remembered. -/
def captured (p : Part) : Part := around p.pattern .other 2 [p]

/-- Parts in a row, where characters in a row are one part. -/
def joinLiterals : List Part → List Part
  | [] => []
  | p :: ps =>
    match p.shape, joinLiterals ps with
    | .literal n f, q :: qs =>
      match q.shape with
      | .literal m g =>
        if f = g then
          { p with
            pattern := cat p.pattern q.pattern, shape := .literal (n + m) f
            size := n + m, largest := n + m } :: qs
        else p :: q :: qs
      | _ => p :: q :: qs
    | _, qs => p :: qs

/-- Parts in a row as one. -/
def ofSequence (ps : List Part) : Part :=
  match joinLiterals ps with
  | [] => { pattern := empty }
  | [p] => p
  | ps => around (sequence (ps.map (·.pattern))) .sequence 0 ps

/-- Whether a part stands for one character. -/
def isOneChar (p : Part) : Bool :=
  match p.shape with
  | .literal n _ => n == 1
  | .set => true
  | _ => false

/-- Alternatives as one. The first is the last in the list. -/
def ofChoice : List Part → Part
  | [] => { pattern := empty }
  | [p] => p
  | p :: ps =>
    let pattern := ps.foldl (fun acc q => alt q.pattern acc) p.pattern
    if (p :: ps).all (·.isOneChar) then { pattern, shape := .set }
    else around pattern .choice ps.length (p :: ps)

/-- A part repeated by a mark. -/
def marked (p : Part) (least : Nat) (most : Option Nat) : Part :=
  around (repeated p.pattern least most) .other (if least = 0 ∧ most = none then 2 else 1) [p]

/-- A part repeated by counts. -/
def counted (p : Part) (least : Nat) (most : Option Nat) : Part :=
  let q := around (repeated p.pattern least most) .other 0 [p]
  let size :=
    match most with
    | none => if least = 0 then 2 + p.size else 1 + least * p.size
    | some most => max 1 (most * p.size + (most - least))
  let copies :=
    if most = some 0 then 0
    else
      let m := most.getD least
      if m = 0 then p.copies else max m (m * p.copies)
  { q with copies, size, largest := max q.largest size }

end Part

/-- What is being read. -/
structure Reading where
  rest : List Char
  flags : Flags
  /-- The alternatives of the group that are complete, last first. -/
  done : List Part := []
  /-- The parts of the current alternative, last first. -/
  parts : List Part := []
  /-- The last thing read was a repetition. -/
  afterRepeat : Bool := false
  /-- The product of the counts read. -/
  counts : Nat := 1

/-- The alternatives of a group as one. -/
def joinGroup (r : Reading) : Part := Part.ofChoice (Part.ofSequence r.parts.reverse :: r.done)

/-- Repeats the last part. A question mark after a repetition asks for the
shortest match, which does not change whether there is one. -/
def repeatLast (r : Reading) (rest : List Char) (least : Nat) (most : Option Nat)
    (counted : Bool) : Option Reading :=
  let rest := match rest with
    | '?' :: rest => rest
    | _ => rest
  match r.afterRepeat, r.parts with
  | false, p :: ps =>
    let q := if counted then p.counted least most else p.marked least most
    if counted ∧ (2 ≤ least ∨ 2 ≤ most.getD 0) ∧ mostCopies < q.copies then none
    else
      let counts := if counted then min mostSize (r.counts * max 1 (most.getD least)) else r.counts
      some { r with rest, parts := q :: ps, afterRepeat := true, counts }
  | _, _ => none

/-- The flags at the front of a group, and whether a group follows them. -/
def groupFlags? : List Char → Flags → Bool → Bool → Option (Flags × Bool × List Char)
  | [], _, _, _ => none
  | c :: cs, f, off, seen =>
    match c with
    | 'i' => groupFlags? cs { f with foldCase := !off } off true
    | 'm' => groupFlags? cs { f with multiLine := !off } off true
    | 's' => groupFlags? cs { f with dotAll := !off } off true
    | 'U' => groupFlags? cs f off true
    | '-' => if off then none else groupFlags? cs f true false
    | ':' => if off ∧ !seen then none else some (f, true, cs)
    | ')' => if off ∧ !seen then none else some (f, false, cs)
    | _ => none

/-- What follows the name of a group, up to the closing angle bracket. -/
def groupName? (cs : List Char) : Option (List Char) :=
  let name := cs.takeWhile isWordChar
  match cs.drop name.length with
  | '>' :: rest => if name.isEmpty then none else some rest
  | _ => none

/-- Adds a part to the sequence. -/
def Reading.push (r : Reading) (rest : List Char) (p : Part) : Reading :=
  { r with rest, parts := p :: r.parts, afterRepeat := false }

/-- Adds a condition to the sequence. -/
def Reading.pushAnchor (r : Reading) (rest : List Char) (a : Anchor) : Reading :=
  r.push rest { pattern := anchor a }

/-- A literal character under the flags. -/
def literal (f : Flags) (c : Nat) : Part :=
  Part.ofLiteral (one false [range f c c]) f.foldCase

/-- The characters up to the end of a quotation, and what follows. -/
def quotation : List Char → List Char × List Char
  | [] => ([], [])
  | '\\' :: 'E' :: rest => ([], rest)
  | c :: cs =>
    let (q, rest) := quotation cs
    (c :: q, rest)

/-- Reads the rest of a group, `fuel` items at most. At the outermost level
`nested` is false and the group ends with the text. With the group come
what follows it and the product of all counts read. -/
def group? : Nat → Bool → Reading → Option (Part × List Char × Nat)
  | 0, _, _ => none
  | fuel + 1, nested, r =>
    let f := r.flags
    let inner (flags : Flags) (captures : Bool) (rest : List Char) :
        Option (Part × List Char × Nat) := do
      let (p, rest, counts) ← group? fuel true { rest, flags, counts := r.counts }
      let p := if captures then p.captured else p
      group? fuel nested { r with rest, parts := p :: r.parts, afterRepeat := false, counts }
    match r.rest with
    | [] => if nested then none else some (joinGroup r, [], r.counts)
    | ')' :: rest => if nested then some (joinGroup r, rest, r.counts) else none
    | '|' :: rest =>
      group? fuel nested
        { r with
          rest, done := Part.ofSequence r.parts.reverse :: r.done, parts := []
          afterRepeat := false }
    | '(' :: '?' :: rest =>
      let named := match rest with
        | 'P' :: '<' :: cs => some (groupName? cs)
        | '<' :: cs => some (groupName? cs)
        | _ => none
      match named with
      | some none => none
      | some (some rest) => inner f true rest
      | none => do
        let (g, opens, rest) ← groupFlags? rest f false false
        if opens then inner g false rest
        else group? fuel nested { r with rest, flags := g, afterRepeat := false }
    | '(' :: rest => inner f true rest
    | '[' :: rest => do
      let (negated, rest) := match rest with
        | '^' :: rest => (true, rest)
        | _ => (false, rest)
      let (sets, rest) ← brackets? f (rest.length + 1) true rest []
      group? fuel nested (r.push rest (Part.ofSets negated sets))
    | '.' :: rest =>
      let sets := if f.dotAll then [] else [{ ranges := [(10, 10)] }]
      group? fuel nested (r.push rest { pattern := one true sets })
    | '^' :: rest =>
      group? fuel nested (r.pushAnchor rest (if f.multiLine then .lineStart else .textStart))
    | '$' :: rest =>
      group? fuel nested (r.pushAnchor rest (if f.multiLine then .lineEnd else .textEnd))
    | '*' :: rest => do group? fuel nested (← repeatLast r rest 0 none false)
    | '+' :: rest => do group? fuel nested (← repeatLast r rest 1 none false)
    | '?' :: rest => do group? fuel nested (← repeatLast r rest 0 (some 1) false)
    | '\x7b' :: rest =>
      match counts? rest with
      | none => group? fuel nested (r.push rest (literal f '\x7b'.toNat))
      | some (least, most, rest) =>
        if mostCopies < least ∨ mostCopies < most.getD 0 ∨ most.any (· < least) then none
        else do group? fuel nested (← repeatLast r rest least most true)
    | '\\' :: 'A' :: rest => group? fuel nested (r.pushAnchor rest .textStart)
    | '\\' :: 'z' :: rest => group? fuel nested (r.pushAnchor rest .textEnd)
    | '\\' :: 'b' :: rest => group? fuel nested (r.pushAnchor rest .wordBoundary)
    | '\\' :: 'B' :: rest => group? fuel nested (r.pushAnchor rest .noWordBoundary)
    | '\\' :: 'Q' :: rest =>
      let (q, rest) := quotation rest
      group? fuel nested
        { r with
          rest
          parts := (q.map fun c => literal f c.toNat).reverse ++ r.parts
          afterRepeat := false }
    | '\\' :: rest =>
      match escapedSet? f rest with
      | some (some (set, rest)) => group? fuel nested (r.push rest (Part.ofSets false [set]))
      | some none => none
      | none => do
        let (c, rest) ← escape? rest
        group? fuel nested (r.push rest (literal f c))
    | c :: rest => group? fuel nested (r.push rest (literal f c.toNat))

/-- The pattern a text writes down, if it does. One that is nested too deep
or too large is none; size is looked at only if there are so many parts and
counts that it could be too large. -/
def ofString? (s : String) : Option Pattern :=
  (group? (s.length + 2) false { rest := s.toList, flags := {} }).bind fun (p, _, counts) =>
    if mostHeight < p.height then none
    else if mostSize < p.largest ∧ mostSize / counts ≤ p.parts then none
    else some p.pattern

end Pattern

end PointsTo
