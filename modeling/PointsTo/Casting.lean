import PointsTo.Assoc
import PointsTo.Facts
import PointsTo.Hierarchy
/-!
# Casts and type masks

A cast never fails when every value of the source type can be stored in a
location of the target type. The mask of a type is the set of allocations
whose type casts to it. `castNeverFails` and `admits` decide both from
scratch; the operations on `Casting` remember what they decided, and they
go on remembering it when they stop with a fault.
-/

namespace PointsTo

/-- Whether a cast between two distinct known types never fails. A type
standing for any subtype is no target. -/
def decideCast (u : Universe) (h : Hierarchy) (src dst : TypeId) : Except Fault Bool :=
  let s := u.typeD src
  let d := u.typeD dst
  if s.kind = .null ∨ s.kind = .anySubtype then .ok true
  else if d.kind = .null then .ok false
  else if d.kind = .anySubtype then .error (.anySubtypeTarget s.name d.name)
  else .ok (h.canStore src dst)

/-- Whether a cast never fails. Without a hierarchy every cast is safe. -/
def castNeverFails (u : Universe) (h : Option Hierarchy) (src dst : TypeId) :
    Except Fault Bool :=
  match h with
  | none => .ok true
  | some h =>
    if dst = noType ∨ dst = src then .ok true
    else if src = noType then .ok false
    else decideCast u h src dst

/-- Whether the type, or the element type of an array, is a reference type
whose hierarchy is not available. -/
def isUnresolved (u : Universe) (t : TypeId) : Bool :=
  match u.type? t with
  | none => false
  | some r =>
    let r := if r.kind = .array then u.type? r.elem else some r
    match r with
    | none => false
    | some r => r.kind == .ref && r.unresolved

/-- What is known of the mask of a type. -/
structure Mask where
  /-- The allocations whose type casts to the type. -/
  inside : List NodeId := []
  /-- The allocations whose type does not. -/
  outside : List NodeId := []
  /-- How many allocations, in the order they were made, are decided. -/
  folded : Nat := 0
  deriving Repr, Inhabited

/-- The casts and masks decided so far. -/
structure Casting where
  casts : Assoc (TypeId × TypeId) Bool := []
  masks : Assoc TypeId Mask := []
  deriving Repr, Inhabited

namespace Casting

/-- Nothing is decided yet. -/
def empty : Casting := {}

/-- Forgets the masks and keeps the casts. -/
def clearMasks (c : Casting) : Casting := { c with masks := [] }

variable (u : Universe) (h : Option Hierarchy)

/-- Whether a cast never fails, remembering the answer. -/
def cast (src dst : TypeId) : Attempt Casting Bool := do
  match h with
  | none => pure true
  | some h =>
    if dst = noType ∨ dst = src then pure true
    else if src = noType then pure false
    else
      match (← get).casts.get? (src, dst) with
      | some b => pure b
      | none =>
        let b ← (decideCast u h src dst : Except Fault Bool)
        modify fun c => { c with casts := c.casts.set (src, dst) b }
        pure b

/-- The mask of a type as far as it is known. -/
def mask (c : Casting) (t : TypeId) : Mask := c.masks.getD t {}

/-- Changes what is known of the mask of a type. -/
def updateMask (c : Casting) (t : TypeId) (f : Mask → Mask) : Casting :=
  { c with masks := c.masks.set t (f (c.mask t)) }

/-- Whether the allocation is in the mask of the type, remembering the
answer. -/
def admits (t : TypeId) (n : NodeId) : Attempt Casting Bool := do
  let m := (← get).mask t
  if n ∈ m.inside then pure true
  else if n ∈ m.outside then pure false
  else
    let b ← cast u h (u.typeOf n) t
    if b then modify (updateMask · t fun m => { m with inside := n :: m.inside })
    else modify (updateMask · t fun m => { m with outside := n :: m.outside })
    pure b

/-- Decides a list of allocations one after the other. -/
def decideAll (t : TypeId) : List NodeId → Attempt Casting Unit
  | [] => pure ()
  | n :: ns => do
    let _ ← admits u h t n
    decideAll t ns

/-- The known mask of a type, in increasing order. -/
def known (c : Casting) (t : TypeId) : List NodeId :=
  (c.mask t).inside.mergeSort fun a b => decide (a ≤ b)

/-- The mask of a type over all allocations. Those made since the last
time are decided now. -/
def typeMask (t : TypeId) : Attempt Casting (List NodeId) := do
  let fresh := u.allocs.drop ((← get).mask t).folded
  decideAll u h t fresh
  modify (updateMask · t fun m => { m with folded := m.folded + fresh.length })
  pure ((← get).known t)

/-- The masks of types one after the other. A fault does not keep the
masks after it from being decided. -/
def typeMasks (ts : List TypeId) (c : Casting) : List (Except Fault (List NodeId)) × Casting :=
  ts.foldl (fun (rs, c) t =>
    let (r, c) := (typeMask u h t).go c
    (rs ++ [r], c)) ([], c)

/-- The mask of a type, deciding only the allocations among the
candidates. It may hold others that were decided before. -/
def typeMaskOf (t : TypeId) (candidates : List NodeId) : Attempt Casting (List NodeId) := do
  let sorted := candidates.eraseDups.mergeSort fun a b => decide (a ≤ b)
  decideAll u h t (sorted.filter fun n => (u.node? n).any (·.isAlloc))
  pure ((← get).known t)

/-- Lets a fact through if its object is in the mask of the type. -/
def filter (t : TypeId) (f : Fact) : Attempt Casting (Option Fact) := do
  let b ← admits u h t f.obj
  pure (if b then some f else none)

end Casting

end PointsTo
