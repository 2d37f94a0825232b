import PointsTo.Document.Meaning
/-!
# Reading values from documents

A reader takes a document for a value of some kind. It has three outcomes:
the document is of another kind and is refused, it is null and says
nothing (`none`), or it is a value (`some a`). What says nothing leaves a
field as it was and is not an entry of a list.

Readers count the parts they visit. A document whose parts are nearly all
visited through names is refused, so that a short text cannot keep a
reader busy forever.
-/

namespace PointsTo

namespace Document

/-! ## Attempts -/

/-- How many parts were visited, how many of them through names, and how
many names stand around the part that is being read. -/
structure Effort where
  visits : Nat := 1
  named : Nat := 0
  depth : Nat := 0
  deriving DecidableEq, Repr, Inhabited

namespace Effort

/-- Whether too large a part of the visits went through names: more than
ninety-nine percent, and from four hundred thousand visits on less and
less, down to ten percent. -/
def isExcessive (e : Effort) : Bool :=
  let low := 400000
  let span := 3600000
  let most := if e.visits ≤ low then 99 * span
    else if low + span ≤ e.visits then 10 * span
    else 99 * span - 89 * (e.visits - low)
  100 < e.named && 1000 < e.visits && most * e.visits < 100 * span * e.named

end Effort

/-- A reading that may be refused. -/
abbrev Attempt := StateT Effort Option

/-- Visits a part. -/
def visit : Attempt Unit := fun e =>
  let e := { e with
    visits := e.visits + 1, named := if e.depth = 0 then e.named else e.named + 1 }
  if e.isExcessive then none else some ((), e)

/-- A way to take documents for values. -/
abbrev Reader (α : Type) := Document → Attempt (Option α)

/-- Reads a part, or what a name stands for. -/
def reading {α : Type} (read : Reader α) : Reader α
  | .alias _ (some d) => do
    visit
    modify fun e => { e with depth := e.depth + 1 }
    visit
    let a ← read d
    modify fun e => { e with depth := e.depth - 1 }
    pure a
  | .alias _ none => failure
  | d => do
    visit
    read d

/-- Takes the document a text describes for a value. -/
def readText? {α : Type} (read : Reader α) (text : String) : Option (Option α) := do
  let d ← ofString? text
  let (a, _) ← (read d).run {}
  pure a

/-! ## Scalars -/

/-- Whether nothing is said. -/
def isNull : Document → Bool
  | .scalar s plain tag => ((meaning? s plain tag).map (·.1)) == some .null
  | .alias _ (some (.scalar s plain tag)) => ((meaning? s plain tag).map (·.1)) == some .null
  | _ => false

/-- Reads a scalar, given what to make of its meaning and its text. -/
def scalarOf {α : Type} (f : Meaning → (text : String) → Option α) : Reader α :=
  reading fun d =>
    match d with
    | .scalar s plain tag =>
      match meaning? s plain tag with
      | some (.null, _) => pure none
      | some (m, s) =>
        match f m s with
        | some a => pure (some a)
        | none => failure
      | none => failure
    | _ => failure

/-- Reads text: whatever a scalar means, it stands for its own characters. -/
def text : Reader String := scalarOf fun _ s => some s

/-- Reads an integer. A number that is not one loses its fraction. -/
def integer : Reader Int :=
  scalarOf fun m _ =>
    match m with
    | .integer v => if v ≤ Text.greatestInt then some v else none
    | .number whole => whole
    | _ => none

/-- Reads an integer of 64 bits. -/
def context : Reader Int64 := fun d => do pure ((← integer d).map Int64.ofInt)

/-- Reads a truth value. Some words for yes and no are truth values where
one is wanted. -/
def truth : Reader Bool :=
  scalarOf fun m _ =>
    match m with
    | .truth b => some b
    | .text s =>
      if ["y", "Y", "yes", "on"].contains s then some true
      else if ["n", "N", "no", "off"].contains s then some false
      else none
    | _ => none

/-! ## Lists -/

/-- Reads a list. Null is the empty list, and entries that are null are
none. -/
def listOf {α : Type} (read : Reader α) : Reader (List α) :=
  reading fun d =>
    match d with
    | .sequence items => do
      let xs ← items.mapM read
      pure (some (xs.filterMap id))
    | d => if isNull d then pure (some []) else failure

/-- Reads something that may be missing: null says that it is. -/
def optional {α : Type} (read : Reader α) : Reader (Option α) := fun d =>
  if isNull d then do
    visit
    pure (some none)
  else do pure ((← read d).map some)

/-! ## Mappings -/

/-- The entries of a mapping with fields, by name: its own, and those it
takes over from other mappings. -/
structure Fields where
  own : List (String × Document)
  merged : List (String × Document) := []
  deriving Inhabited

/-- What tells keys apart: their kind, and the characters of a scalar or
the name that stands for one. -/
def keyOf : Document → Nat × String
  | .scalar text _ _ => (0, text)
  | .sequence _ => (1, "")
  | .mapping _ => (2, "")
  | .alias name _ => (3, name)

/-- Whether a key asks to take over the entries of other mappings. -/
def isMergeKey : Document → Bool
  | .scalar s plain tag => s = "<<" && ((tag = "" && plain) || tag = "!!merge")
  | _ => false

/-- Reads the entries of a mapping that are its own. Keys have to be
distinct scalars; one that is null names nothing. -/
def ownFields (entries : List (Document × Document)) : Attempt (List (String × Document)) := do
  if (entries.map fun e => keyOf e.1).Nodup then
    let fs ← (entries.filter fun e => !isMergeKey e.1).mapM fun e => do
      pure ((← text e.1).map fun name => (name, e.2))
    pure (fs.filterMap id)
  else failure

mutual

/-- Reads the entries that a mapping takes over: what stands under the key
for that. -/
def mergedFields : List (Document × Document) → Attempt (List (String × Document))
  | [] => pure []
  | (k, v) :: rest => if isMergeKey k then mergedFrom v else mergedFields rest

/-- Reads the entries of a mapping or of a list of them, the first of which
counts. -/
def mergedFrom : Document → Attempt (List (String × Document))
  | .mapping entries => do
    visit
    pure ((← ownFields entries) ++ (← mergedFields entries))
  | .alias _ (some (.mapping entries)) => do
    visit
    pure ((← ownFields entries) ++ (← mergedFields entries))
  | .sequence items => mergedFromAll items
  | _ => failure

/-- Reads the entries of mappings. -/
def mergedFromAll : List Document → Attempt (List (String × Document))
  | [] => pure []
  | .mapping entries :: rest => do
    visit
    let fs ← ownFields entries
    let gs ← mergedFields entries
    pure (fs ++ gs ++ (← mergedFromAll rest))
  | .alias _ (some (.mapping entries)) :: rest => do
    visit
    let fs ← ownFields entries
    let gs ← mergedFields entries
    pure (fs ++ gs ++ (← mergedFromAll rest))
  | _ :: _ => failure

end

/-- Reads the field of that name, which is `default` if it is missing or
null. A mapping must not have the field twice; a field of its own counts
before one that it takes over. -/
def Fields.get {α : Type} (fs : Fields) (name : String) (read : Reader α) (default : α) :
    Attempt α := do
  match fs.own.filter (·.1 = name) with
  | [f] => pure ((← read f.2).getD default)
  | [] =>
    match fs.merged.lookup name with
    | some d => pure ((← read d).getD default)
    | none => pure default
  | _ => failure

/-- Reads a record from its fields. -/
def recordOf {α : Type} (make : Fields → Attempt α) : Reader α :=
  reading fun d =>
    match d with
    | .mapping entries => do
      let own ← ownFields entries
      let merged ← mergedFields entries
      pure (some (← make { own, merged }))
    | d => if isNull d then pure none else failure

end Document

end PointsTo
