import PointsTo.Assoc
import PointsTo.Ids
/-!
# Points-to facts

A fact says that a node points to an object under the context numbers of
an interval. A store keeps the facts of every node on the node that
represents it: nodes can be merged into others, and killed.
-/

namespace PointsTo

/-- The object is pointed to under every context in `[lo, hi)`. -/
structure Fact where
  obj : NodeId
  lo : Int64
  hi : Int64
  deriving DecidableEq, Repr, Inhabited

namespace Fact

/-- A fact is written as its object and its half-open interval. -/
def text (f : Fact) : String :=
  toString f.obj ++ "@[" ++ toString f.lo.toInt ++ "," ++ toString f.hi.toInt ++ ")"

/-- Facts are ordered by object, then by interval. -/
def le (a b : Fact) : Bool :=
  if a.obj ≠ b.obj then a.obj < b.obj
  else if a.lo ≠ b.lo then a.lo < b.lo
  else a.hi ≤ b.hi

/-- The part of the fact that holds under the contexts of `[l, r)`. -/
def clip (l r : Int64) (f : Fact) : Option Fact :=
  let lo := if f.lo < l then l else f.lo
  let hi := if r < f.hi then r else f.hi
  if lo < hi then some ⟨f.obj, lo, hi⟩ else none

/-- The facts in increasing order. -/
def sorted (fs : List Fact) : List Fact := fs.mergeSort le

/-- The distinct objects, in increasing order. -/
def objects (fs : List Fact) : List NodeId :=
  ((fs.map (·.obj)).eraseDups).mergeSort fun a b => decide (a ≤ b)

end Fact

/-- Facts by representative, the merges so far, and the killed nodes. -/
structure FactStore where
  parent : Assoc NodeId NodeId := []
  facts : Assoc NodeId (List Fact) := []
  dead : List NodeId := []
  deriving Repr, Inhabited

namespace FactStore

/-- The store without facts. -/
def empty : FactStore := {}

/-- Follows at most `fuel` merges. -/
def climb (parent : Assoc NodeId NodeId) : Nat → NodeId → NodeId
  | 0, n => n
  | fuel + 1, n =>
    match parent.get? n with
    | some p => climb parent fuel p
    | none => n

/-- The node the merges of `n` end in. There are no more steps than
merges. -/
def root (s : FactStore) (n : NodeId) : NodeId := climb s.parent s.parent.length n

/-- Makes `root` the parent of the nodes met in at most `fuel` steps. -/
def compress (root : NodeId) : Nat → NodeId → Assoc NodeId NodeId → Assoc NodeId NodeId
  | 0, _, parent => parent
  | fuel + 1, n, parent =>
    if n = root then parent
    else
      match parent.get? n with
      | some p => compress root fuel p (parent.set n root)
      | none => parent

/-- The root of a node, with the path to it shortened. -/
def find (s : FactStore) (n : NodeId) : NodeId × FactStore :=
  let r := s.root n
  (r, { s with parent := compress r s.parent.length n s.parent })

/-- The facts kept on a node. -/
def factsOf (s : FactStore) (n : NodeId) : List Fact := s.facts.getD n []

/-- Keeps the fact on `n` unless it is there. -/
def put (s : FactStore) (n : NodeId) (f : Fact) : FactStore :=
  if f ∈ s.factsOf n then s else { s with facts := s.facts.set n (s.factsOf n ++ [f]) }

/-- Records that `n` points to `obj` under the contexts `[l, r)`. An empty
interval says nothing, and a fact is recorded once. -/
def add (s : FactStore) (n obj : NodeId) (l r : Int64) : FactStore :=
  if r ≤ l then s
  else
    let (rep, s) := s.find n
    s.put rep ⟨obj, l, r⟩

/-- Merges `n` into `into`, whose representative takes over the facts. -/
def merge (s : FactStore) (n into : NodeId) : FactStore :=
  let (rn, s) := s.find n
  let (ri, s) := s.find into
  if rn = ri then s
  else
    let moved := s.factsOf rn
    let s := { s with parent := s.parent.set rn ri }
    let s := moved.foldl (fun s f => s.add ri f.obj f.lo f.hi) s
    { s with facts := s.facts.erase rn }

/-- Removes a node, and with it the nodes merged into it. -/
def kill (s : FactStore) (n : NodeId) : FactStore :=
  let (r, s) := s.find n
  { s with dead := s.dead.insert r }

/-- The node holding the facts of `n`, unless it has been removed. -/
def representative (s : FactStore) (n : NodeId) : Option NodeId :=
  if n = noNode then none
  else
    let r := s.root n
    if r ∈ s.dead then none else some r

/-- What a representative points to under the contexts `[l, r)`. -/
def contextObjects (s : FactStore) (n : NodeId) (l r : Int64) : List Fact :=
  (s.factsOf n).filterMap (Fact.clip l r)

/-- The number of facts. -/
def numFacts (s : FactStore) : Nat := (s.facts.flatMap (·.2)).length

end FactStore

end PointsTo
