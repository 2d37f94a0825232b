import PointsTo.Casting
/-!
# Masks of a whole hierarchy

The masks of all classes and interfaces, computed by walking the hierarchy
down from its root instead of deciding every pair of an allocation and a
type: a class admits its own allocations and those of its subclasses, an
interface those of its implementers. What has no subclass or implementer
admits the allocations of unknown class.
-/

namespace PointsTo

namespace Casting

/-- The allocations of a universe by the shape of their type. -/
structure Allocations where
  byClass : TypeId → List NodeId
  ofUnknownClass : List NodeId
  arrays : List NodeId

/-- Sorts the allocations of a universe by the shape of their type. -/
def allocations (u : Universe) : Allocations :=
  let kindOf (n : NodeId) : Option TypeKind := (u.type? (u.typeOf n)).map (·.kind)
  { byClass := fun t => u.allocs.filter fun n => u.typeOf n == t && kindOf n == some .ref
    ofUnknownClass := u.allocs.filter fun n => kindOf n == some .anySubtype
    arrays := u.allocs.filter fun n => kindOf n == some .array }

/-- Adds allocations to the mask of a type. -/
def grow (done : Assoc TypeId (List NodeId)) (t : TypeId) (ns : List NodeId) :
    Assoc TypeId (List NodeId) :=
  let old := done.getD t []
  done.set t (old ++ ns.filter (· ∉ old))

/-- Computes the mask of a class and of the classes below it. A class is
entered into the result before the walk goes below it, so that a cycle of
declarations ends there. -/
def classMask (h : Hierarchy) (a : Allocations) :
    Nat → TypeId → Assoc TypeId (List NodeId) → Assoc TypeId (List NodeId)
  | fuel, t, done =>
    if done.has t then done
    else
      let done := done.set t (if h.isConcrete t then a.byClass t else [])
      match h.directSubclasses t with
      | [] => grow done t a.ofUnknownClass
      | subs =>
        match fuel with
        | 0 => done
        | fuel + 1 =>
          subs.foldl (fun done sub =>
            let done := classMask h a fuel sub done
            grow done t (done.getD sub [])) done

/-- Computes the mask of an interface, and of the classes implementing it. -/
def interfaceMask (h : Hierarchy) (a : Allocations) (t : TypeId)
    (done : Assoc TypeId (List NodeId)) : Assoc TypeId (List NodeId) :=
  if done.has t then done
  else
    let done := done.set t []
    match h.implementers t with
    | [] => grow done t a.ofUnknownClass
    | impls =>
      impls.foldl (fun done impl =>
        let done := classMask h a h.height impl done
        grow done t (done.getD impl [])) done

/-- The masks of the classes below `root` and of all interfaces. The root
admits every array. -/
def hierarchyMasks (u : Universe) (h : Hierarchy) (root : TypeId) :
    Assoc TypeId (List NodeId) :=
  let a := allocations u
  let done := classMask h a h.height root []
  let done := grow done root a.arrays
  (u.typeIds.filter h.isInterface).foldl (fun done t => interfaceMask h a t done) done

/-- Replaces what is known of the masks by those of the whole hierarchy,
complete for the allocations made so far. -/
def classMasks (u : Universe) (h : Option Hierarchy) (root : TypeId) (c : Casting) : Casting :=
  match h with
  | none => c
  | some h =>
    let all := u.allocs
    (hierarchyMasks u h root).foldl (fun c (t, inside) =>
      { c with
        masks := c.masks.set t
          { inside, outside := all.filter (· ∉ inside), folded := all.length } }) c

end Casting

end PointsTo
