import PointsTo.CallGraph.Condensation
import PointsTo.Context
/-!
# The encoding of calling contexts

The contexts of a method are the numbers from one to its block size times
its number of blocks. An edge maps a context of its caller to one of its
callee: the contexts of the callee are split in consecutive ranges, one
per incoming edge, each as long as one block of the caller. Where the
total would exceed the largest span, the contexts are laid out in blocks
of that span and contexts of different blocks of a caller are merged. The
methods of a component share one numbering.
-/

namespace PointsTo

/-- How the contexts of a method are laid out. -/
structure Block where
  size : Int64 := 1
  num : Int64 := 1
  deriving DecidableEq, Repr, Inhabited

namespace Block

/-- The number of contexts. -/
def span (b : Block) : Int64 := Context.satMul b.size b.num

end Block

/-- The layout of the contexts of every method of a condensation. -/
structure Encoding where
  graph : Condensation
  blocks : Array Block
  deriving Repr, Inhabited

namespace Encoding

/-- Every method has exactly one context. -/
def trivial (c : Condensation) : Encoding := ⟨c, Array.replicate c.size {}⟩

/-- The layout of a method. -/
def block (enc : Encoding) (m : MethodId) : Except Fault Block :=
  match slot? enc.blocks m with
  | some b => .ok b
  | none => .error .outOfRange

/-- The layout of a method, or a single context. -/
def blockD (enc : Encoding) (m : MethodId) : Block := (slot? enc.blocks m).getD {}

/-- Sets the layout of a method. -/
def setBlock (enc : Encoding) (m : MethodId) (b : Block) : Except Fault Encoding := do
  let _ ← enc.block m
  .ok { enc with blocks := enc.blocks.modify m.toNat fun _ => b }

/-- The place of a context in its block, counted from zero. -/
def inBlock (b : Block) (x : Int64) : Except Fault Int64 :=
  if b.size = 0 then .error .emptyBlock else .ok ((x - 1) % b.size)

/-- The context of the callee that an edge leads to from a context of the
caller. -/
def mapThrough (enc : Encoding) (e : Edge) (x : Int64) : Except Fault Int64 := do
  let place ← inBlock (← enc.block e.caller) x
  .ok (e.offset + place)

/-- The context a chain of edges leads to from a context of the first
caller. Edges come from the farthest caller to the closest; one that is
unknown or unmapped leads nowhere. -/
def follow (enc : Encoding) : List (Option Edge) → Int64 → Except Fault (Option Int64)
  | [], x => .ok (some x)
  | none :: _, _ => .ok none
  | some e :: es, x =>
    if e.mapped then do enc.follow es (← enc.mapThrough e x) else .ok none

/-- The context a chain leads to from the first context. The empty chain
leads nowhere. -/
def compose (enc : Encoding) (chain : List (Option Edge)) : Except Fault (Option Int64) :=
  if chain.isEmpty then .ok none else enc.follow chain 1

/-! ## Computing the encoding -/

/-- The contexts handed out so far. Tables are by representative. -/
structure Filling where
  edges : Array Edge
  blocks : Array Block
  /-- The blocks that are full. -/
  full : Array Int64
  /-- The contexts used in the current block. -/
  used : Array Int64
  deriving Repr

namespace Filling

/-- The layout of a component once all its callers are done. The root has
one context. -/
def layout (f : Filling) (maxSpan : Int64) (r : MethodId) : Block :=
  if r = rootMethod then {}
  else
    let full := (slot? f.full r).getD 0
    let used := (slot? f.used r).getD 0
    if full = 0 then ⟨if 1 < used then used else 1, 1⟩ else ⟨maxSpan, Context.satAdd full 1⟩

/-- Gives the edge at a position the next `size` contexts of its callee,
starting a new block where they would not fit. -/
def place (c : Condensation) (maxSpan size : Int64) (f : Filling) (i : Nat) : Filling :=
  match f.edges[i]? with
  | none => f
  | some e =>
    let t := c.repD e.callee
    let full := (slot? f.full t).getD 0
    let used := (slot? f.used t).getD 0
    let (full, used) := if 0 < used ∧ maxSpan - size < used then (full + 1, 0) else (full, used)
    let offset := Context.satAdd (Context.satMul full maxSpan) (Context.satAdd used 1)
    { f with
      edges := f.edges.modify i ({ · with offset })
      full := f.full.modify t.toNat fun _ => full
      used := f.used.modify t.toNat fun _ => used + size }

/-- Lays out a component and hands out contexts to the edges leaving it. -/
def component (c : Condensation) (maxSpan : Int64) (f : Filling) (r : MethodId) : Filling :=
  let b := f.layout maxSpan r
  let blocks := (c.membersOf r).foldl (fun bs m => bs.modify m.toNat fun _ => b) f.blocks
  (c.outOf r).foldl (place c maxSpan b.size) { f with blocks }

end Filling

/-- The largest block size that is meant by a limit: none if the limit is
not positive. -/
def effectiveSpan (maxSpan : Int64) : Int64 := if maxSpan ≤ 0 then Context.largest else maxSpan

/-- The offset of an edge once all contexts are handed out: none if the
caller is unreachable, and the first context inside a component. -/
def settle (c : Condensation) (e : Edge) : Edge :=
  if !c.isReachable e.caller then { e with offset := 0 }
  else if e.inComponent then { e with offset := 1 }
  else e

end Encoding

namespace CallGraph

/-- Computes the encoding of a condensation of the graph, and the offsets
of the edges. -/
def encode (g : CallGraph) (c : Condensation) (maxSpan : Int64) : CallGraph × Encoding :=
  let start : Encoding.Filling :=
    { edges := g.edges
      blocks := Array.replicate c.size {}
      full := Array.replicate c.size 0
      used := Array.replicate c.size 0 }
  let filled := c.order.foldl (Encoding.Filling.component c (Encoding.effectiveSpan maxSpan)) start
  ({ g with edges := filled.edges.map (Encoding.settle c) }, ⟨c, filled.blocks⟩)

end CallGraph

end PointsTo
