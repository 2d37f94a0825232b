import PointsTo.Document.Scanner
/-!
# Documents

The tree a text describes: scalars, lists and mappings. A mapping keeps
its entries in order, with whatever keys they have. A part of the tree may
be given a name, and stand again wherever the name is used. A text may
hold several documents one after the other; the first is the one that
counts.
-/

namespace PointsTo

/-- A document, or a part of one. -/
inductive Document where
  /-- A scalar, whether it stands without quotes, and the kind it is said
  to be of, if any. -/
  | scalar (text : String) (plain : Bool) (tag : String)
  | sequence (items : List Document)
  | mapping (entries : List (Document × Document))
  /-- What goes by a name; nothing if the name is used inside of it. -/
  | alias (name : String) (target : Option Document)
  deriving Repr, Inhabited

namespace Document

/-- What stands where nothing is written. -/
def empty : Document := .scalar "" true ""

/-! ## Reading tokens -/

/-- What is known while a document is read. -/
structure Source where
  stream : Stream
  /-- The parts that go by names, the latest first; nothing yet for those
  that are being read. -/
  names : List (String × Option Document) := []
  /-- What the handles of tags stand for. -/
  handles : List (String × String) := []
  deriving Inhabited

/-- A step of reading a document. -/
abbrev Parse := StateT Source Option

namespace Parse

/-- Looks at the next token. -/
def peek : Parse Token := fun s =>
  s.stream.peek?.map fun (t, stream) => (t, { s with stream })

/-- Passes over the next token. -/
def skip : Parse Unit := modify fun s => { s with stream := s.stream.skip }

/-- Looks at the token after the next one, passing over that. -/
def skipThenPeek : Parse Token := do
  skip
  peek

end Parse

open Parse

/-- The kind a tag stands for; an exclamation mark alone stands for none. -/
def tagText (handle suffix : String) : Parse String := do
  let tag ←
    if handle = "" then pure suffix
    else
      match (← get).handles.lookup handle with
      | some meaning => pure (meaning ++ suffix)
      | none => failure
  if tag = "" then failure
  else if tag = "!" then pure ""
  else
    let long := "tag:yaml.org,2002:"
    if tag.startsWith long then pure ("!!" ++ (tag.drop long.length).toString) else pure tag

/-- What may stand before a part of a document: a name for it and a tag, in
either order. -/
structure Properties where
  name : Option String := none
  tag : Option String := none
  deriving Repr, Inhabited

/-- Reads the properties of a part, and looks at the token behind them. -/
def properties : Parse (Properties × Token) := do
  match ← peek with
  | .anchor name =>
    match ← skipThenPeek with
    | .tag handle suffix =>
      let t ← skipThenPeek
      pure ({ name := some name, tag := some (← tagText handle suffix) }, t)
    | t => pure ({ name := some name }, t)
  | .tag handle suffix =>
    match ← skipThenPeek with
    | .anchor name =>
      let t ← skipThenPeek
      pure ({ name := some name, tag := some (← tagText handle suffix) }, t)
    | t => pure ({ tag := some (← tagText handle suffix) }, t)
  | t => pure ({}, t)

/-- Says that what is being read goes by a name. -/
def startNamed (name : Option String) : Parse Unit :=
  match name with
  | some name => modify fun s => { s with names := (name, none) :: s.names }
  | none => pure ()

/-- Says what goes by a name, unless the name was given to something else
in the meantime. -/
def finishNamed (name : Option String) (d : Document) : Parse Document := do
  match name with
  | some name =>
    modify fun s =>
      match s.names.lookup name with
      | some none => { s with names := (name, some d) :: s.names }
      | _ => s
  | none => pure ()
  pure d

mutual

/-- Reads a part of a document. Block lists and mappings may start in a
block only, and a list at the indentation of its key only after a key or
colon. -/
def node (block undented : Bool) : Nat → Parse Document
  | 0 => failure
  | fuel + 1 => do
    match ← peek with
    | .alias name =>
      skip
      match (← get).names.lookup name with
      | some target => pure (.alias name target)
      | none => failure
    | _ =>
      let (p, t) ← properties
      startNamed p.name
      let d ←
        match t with
        | .scalar text plain => do
          skip
          pure (Document.scalar text plain (p.tag.getD ""))
        | .flowSequence => do
          skip
          pure (Document.sequence (← flowItems true fuel))
        | .flowMapping => do
          skip
          pure (Document.mapping (← flowEntries true fuel))
        | .blockSequence =>
          if block then do
            skip
            pure (Document.sequence (← blockItems fuel))
          else failure
        | .blockMapping =>
          if block then do
            skip
            pure (Document.mapping (← blockEntries fuel))
          else failure
        | .entry =>
          if undented then do pure (Document.sequence (← undentedItems fuel))
          else if p.name.isSome || p.tag.isSome then
            pure (Document.scalar "" true (p.tag.getD ""))
          else failure
        | _ =>
          if p.name.isSome || p.tag.isSome then
            pure (Document.scalar "" true (p.tag.getD ""))
          else failure
      finishNamed p.name d

/-- Reads a part of a document unless one of the tokens `stops` comes
first. -/
def nodeUnless (block undented : Bool) (stops : List Token) : Nat → Parse Document
  | 0 => failure
  | fuel + 1 => do
    if stops.contains (← peek) then pure empty else node block undented fuel

/-- The entries of a block list, up to and over its end. -/
def blockItems : Nat → Parse (List Document)
  | 0 => failure
  | fuel + 1 => do
    match ← peek with
    | .entry =>
      skip
      let x ← nodeUnless true false [.entry, .blockEnd] fuel
      pure (x :: (← blockItems fuel))
    | .blockEnd =>
      skip
      pure []
    | _ => failure

/-- The entries of a list at the indentation of its key, up to what is no
entry. -/
def undentedItems : Nat → Parse (List Document)
  | 0 => failure
  | fuel + 1 => do
    match ← peek with
    | .entry =>
      skip
      let x ← nodeUnless true false [.entry, .key, .value, .blockEnd] fuel
      pure (x :: (← undentedItems fuel))
    | _ => pure []

/-- The entries of a block mapping, up to and over its end. -/
def blockEntries : Nat → Parse (List (Document × Document))
  | 0 => failure
  | fuel + 1 => do
    match ← peek with
    | .key =>
      skip
      let k ← nodeUnless true true [.key, .value, .blockEnd] fuel
      let v ← blockValue fuel
      pure ((k, v) :: (← blockEntries fuel))
    | .blockEnd =>
      skip
      pure []
    | _ => failure

/-- The value of an entry of a block mapping. -/
def blockValue : Nat → Parse Document
  | 0 => failure
  | fuel + 1 => do
    match ← peek with
    | .value =>
      skip
      nodeUnless true true [.key, .value, .blockEnd] fuel
    | _ => pure empty

/-- The entries of a list in brackets, up to and over the closing one. A
comma may follow the last entry. -/
def flowItems (first : Bool) : Nat → Parse (List Document)
  | 0 => failure
  | fuel + 1 => do
    let t ← peek
    if t = .flowSequenceEnd then
      skip
      pure []
    else
      let t ← if first then pure t else if t = .comma then skipThenPeek else failure
      match t with
      | .flowSequenceEnd =>
        skip
        pure []
      | .key =>
        skip
        let x ← flowPair fuel
        pure (x :: (← flowItems false fuel))
      | _ =>
        let x ← node false false fuel
        pure (x :: (← flowItems false fuel))

/-- A mapping of one entry within a list in brackets. An explicit key that
is empty takes the token behind it along. -/
def flowPair : Nat → Parse Document
  | 0 => failure
  | fuel + 1 => do
    let stops := [Token.value, .comma, .flowSequenceEnd]
    let k ←
      if stops.contains (← peek) then
        skip
        pure empty
      else node false false fuel
    let v ← flowValue .flowSequenceEnd fuel
    pure (.mapping [(k, v)])

/-- The value of an entry in brackets that end with `close`. -/
def flowValue (close : Token) : Nat → Parse Document
  | 0 => failure
  | fuel + 1 => do
    match ← peek with
    | .value =>
      skip
      nodeUnless false false [.comma, close] fuel
    | _ => pure empty

/-- The entries of a mapping in brackets, up to and over the closing one. -/
def flowEntries (first : Bool) : Nat → Parse (List (Document × Document))
  | 0 => failure
  | fuel + 1 => do
    let t ← peek
    if t = .flowMappingEnd then
      skip
      pure []
    else
      let t ← if first then pure t else if t = .comma then skipThenPeek else failure
      match t with
      | .flowMappingEnd =>
        skip
        pure []
      | .key =>
        skip
        let k ← nodeUnless false false [.value, .comma, .flowMappingEnd] fuel
        let v ← flowValue .flowMappingEnd fuel
        pure ((k, v) :: (← flowEntries false fuel))
      | _ =>
        let k ← node false false fuel
        pure ((k, empty) :: (← flowEntries false fuel))

end

/-! ## Whole documents -/

/-- The handles that stand for something without being told. -/
def standardHandles : List (String × String) := [("!", "!"), ("!!", "tag:yaml.org,2002:")]

/-- Reads the directives before a document: at most one version, which has
to be 1.1, and handles, each given one meaning. -/
def directives : Nat → (versioned : Bool) → Parse Unit
  | 0, _ => failure
  | fuel + 1, versioned => do
    match ← peek with
    | .version major minor =>
      if versioned || major ≠ 1 || minor ≠ 1 then failure
      else
        skip
        directives fuel true
    | .handle name meaning =>
      if ((← get).handles.lookup name).isSome then failure
      else
        modify fun s => { s with handles := (name, meaning) :: s.handles }
        skip
        directives fuel versioned
    | _ => modify fun s => { s with handles := s.handles ++ standardHandles }

/-- Whether a document with these tokens in front holds nothing. -/
def endsDocument : Token → Bool
  | .version _ _ | .handle _ _ | .documentStart | .documentEnd | .streamEnd => true
  | _ => false

/-- Reads the first document. A text without one holds the empty
document. -/
def first (fuel : Nat) : Parse Document := do
  match ← peek with
  | .streamEnd => pure empty
  | .version _ _ | .handle _ _ | .documentStart =>
    directives fuel false
    if (← peek) ≠ .documentStart then failure
    else
      let t ← skipThenPeek
      let d ← if endsDocument t then pure empty else node true false fuel
      let _ ← peek
      pure d
  | _ =>
    directives fuel false
    let d ← node true false fuel
    let _ ← peek
    pure d

/-- The document a text describes. -/
def ofString? (text : String) : Option Document := do
  let stream ← Stream.ofString? text
  let (d, _) ← (first (8 * stream.limit)).run { stream }
  pure d

end Document

end PointsTo
