import PointsTo.Assoc
import PointsTo.Hierarchy
/-!
# Object-sensitive allocations

An allocation site qualified by the chain of the allocation sites of its
enclosing receiver objects. A table of depth `k` keeps the `k - 1` closest
sites of the chain and makes one node per site and chain. The allocations
of some types are never qualified.

A depth may be any number, but chains and their keys are slices, and the
length of a slice is limited. A table that is too deep stops on the first
allocation to be qualified.
-/

namespace PointsTo

/-- A qualified allocation of a table. -/
structure ContextRecord where
  node : NodeId
  /-- The context-free allocation site. -/
  site : NodeId
  /-- The enclosing allocation sites, closest first; empty slots are zero. -/
  context : List NodeId
  deriving DecidableEq, Repr, Inhabited

/-- The qualified allocations made since the last reset, with two indexes of
them. -/
structure HeapTable where
  /-- The depth: one more than the length of the chains. -/
  depth : Nat := 1
  /-- The types whose allocations are never qualified. -/
  optedOut : List TypeId := []
  /-- The qualified allocations, in the order they were made. -/
  records : List ContextRecord := []
  /-- The places of the records, by their keys. -/
  byKey : Assoc (List UInt8) Nat := []
  /-- The places of the records, by their nodes. -/
  byNode : Assoc NodeId Nat := []
  deriving Repr, Inhabited

namespace HeapTable

/-- The table of depth one. -/
def empty : HeapTable := {}

/-- A table of depth `k`, or one if that is not positive. The given types
and their subtypes are never qualified. -/
def reset (h : Option Hierarchy) (k : Int) (types : List TypeId) : HeapTable where
  depth := (max k 1).toNat
  optedOut := types.foldl (fun out t =>
    (match h with
      | some h => h.subtypes t
      | none => []).foldl (fun out s => out.insert s) (out.insert t)) []

/-- Whether allocations of the type are never qualified. -/
def optsOut (t : HeapTable) (type : TypeId) : Bool := t.optedOut.contains type

/-- Cuts a chain to the length of the table, or fills it with empty slots. There
has to be room for so many (`qualify`). -/
def fit (t : HeapTable) (chain : List NodeId) : List NodeId :=
  chain.take (t.depth - 1) ++ List.replicate (t.depth - 1 - chain.length) noNode

/-- The chain of an allocation made by a method of the receiver. -/
def chainOf (t : HeapTable) (enclosing : Node) : List NodeId :=
  match enclosing.allocKind with
  | .objectSensitive => t.fit (enclosing.site :: enclosing.context)
  | .insensitive | .classConstant => t.fit [enclosing.site]

/-! ## Keys -/

/-- A number in groups of seven bits, lowest first. The top bit of a group
says that there is another one, and there are `more` others at most. -/
def groups : Nat → Nat → List UInt8
  | 0, n => [n.toUInt8]
  | more + 1, n =>
    if n < 128 then [n.toUInt8] else (n % 128 + 128).toUInt8 :: groups more (n / 128)

/-- A word in groups of seven bits: there are ten of them at most. -/
def groupsOf (x : UInt64) : List UInt8 := groups 9 x.toNat

/-- The key of a site and a chain: the groups of their numbers, one number
after the other. -/
def recordKey (site : NodeId) (chain : List NodeId) : List UInt8 :=
  (site :: chain).flatMap fun n => groupsOf (Int64.ofInt n).toUInt64

/-! ## Interning -/

/-- A step that makes nodes and notes them in a table. What it changed before it
stopped would stay changed. -/
abbrev Step (α : Type) := Attempt (HeapTable × Universe) α

/-- The bytes that have an address, which is 48 bits wide. A slice has no more of them;
that there is less memory than addresses is no matter here. -/
def addressable : Nat := 0x1000000000000

/-- A slice of so many entries can be made, of so many bytes each. -/
def room (entries width : Nat) : Step Unit :=
  if entries * width ≤ addressable then pure () else throw .sliceTooLong

/-- The allocation of that number. -/
def allocation (n : NodeId) : Step Node := do
  let (_, u) ← get
  match u.node? n with
  | some r => if r.isAlloc then pure r else throw (.notAllocation n)
  | none => throw (.notAllocation n)

/-- The table with one record more. -/
def note (t : HeapTable) (key : List UInt8) (r : ContextRecord) : HeapTable :=
  { t with
    records := t.records ++ [r]
    byKey := t.byKey.set key t.records.length
    byNode := t.byNode.set r.node t.records.length }

/-- The node of an allocation site and a chain, made on its first use. The key is
written to a slice of ten bytes for each of its numbers. -/
def internChain (base : Node) (chain : List NodeId) : Step NodeId := do
  room (chain.length + 1) 10
  let (t, u) ← get
  let key := recordKey base.site chain
  match t.byKey.get? key with
  | some i =>
    match t.records[i]? with
    | some r => pure r.node
    | none => throw .outOfRange
  | none =>
    let (n, u) ← (u.addObjectSensitive base.id chain : Except Fault (NodeId × Universe))
    set (t.note key ⟨n, base.site, chain⟩, u)
    pure n

/-- The allocation of the site of `base` made by a method whose receiver is
the allocation `enclosing`. The chain is made first, of eight bytes a slot, and
filled afterwards. -/
def qualify (base enclosing : NodeId) : Step NodeId := do
  let b ← allocation base
  let (t, u) ← get
  room (t.depth - 1) 8
  if t.optsOut b.type then internChain b (t.fit [])
  else
    match u.node? enclosing with
    | some e =>
      if e.isAlloc then internChain b (t.chainOf e) else throw (.notEnclosing enclosing b.text)
    | none => throw (.notEnclosing enclosing b.text)

/-- The allocation of the site of `base` with an empty chain. -/
def qualifyContextless (base : NodeId) : Step NodeId := do
  let b ← allocation base
  let (t, _) ← get
  room (t.depth - 1) 8
  internChain b (t.fit [])

/-- The outcome of a step with the table and the universe it leaves. A step that
stops leaves both as they were. -/
def run (s : Step NodeId) (t : HeapTable) (u : Universe) :
    Except Fault (NodeId × HeapTable × Universe) :=
  match s.go (t, u) with
  | (.ok n, t, u) => .ok (n, t, u)
  | (.error f, _) => .error f

/-- Qualifies an allocation by a receiver. -/
def intern (t : HeapTable) (u : Universe) (base enclosing : NodeId) :
    Except Fault (NodeId × HeapTable × Universe) :=
  run (qualify base enclosing) t u

/-- Qualifies an allocation made by a method without receiver. -/
def internContextless (t : HeapTable) (u : Universe) (base : NodeId) :
    Except Fault (NodeId × HeapTable × Universe) :=
  run (qualifyContextless base) t u

/-- The record of a qualified allocation. -/
def record? (t : HeapTable) (n : NodeId) : Option ContextRecord :=
  (t.byNode.get? n).bind fun i => t.records[i]?

/-- The `i`-th enclosing site of a qualified allocation, counted from one. -/
def context (t : HeapTable) (n : NodeId) (i : Int) : Except Fault NodeId :=
  if 1 ≤ i ∧ i < t.depth then
    .ok (((t.record? n).bind fun r => r.context[(i - 1).toNat]?).getD noNode)
  else .error (.contextIndex i (t.depth - 1))

/-- Whether the site is in the chain of a qualified allocation. -/
def containsSite (t : HeapTable) (n site : NodeId) : Bool :=
  site != noNode && (t.record? n).any fun r => r.context.contains site

/-- The table as text, one allocation a line. -/
def text (t : HeapTable) (u : Universe) : String :=
  "object-sensitive allocations (k=" ++ toString t.depth ++ "): " ++
    toString t.records.length ++ "\n" ++
    String.join (t.records.map fun r => "  " ++ ((u.node? r.node).getD {}).text ++ "\n")

end HeapTable

end PointsTo
