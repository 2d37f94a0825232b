import PointsTo.Assoc
import PointsTo.Fault
import PointsTo.Hierarchy
import PointsTo.Source.Type
/-!
# The hierarchy of source types

Source types get their numbers in a universe when they are first met, and
types that are the same get the same number. There are no subclasses: a
type is a subtype of another when its values can be stored there.
-/

namespace PointsTo

namespace Source

/-! ## Types that cannot be looked up -/

/-- The fault of looking up a type of a parameter or result of a method. Only
the type itself counts, not what it is made of. -/
def Ty.faultInMethod? : Ty → Option Fault
  | .anyType => some (.aliasName true "any")
  | _ => none

mutual

/-- The fault of looking up a type, if there is one: the empty interface has
to be written out. What is behind a name does not count. -/
def Ty.fault? : Ty → Option Fault
  | .anyType => some (.aliasName false "any")
  | .basic _ | .untypedNil | .errorType | .named _ => none
  | .pointer t | .slice t | .array _ t | .channel _ t => t.fault?
  | .map k t => k.fault? <|> t.fault?
  | .interface ms =>
    ms.findSome? fun (_, ps, rs) =>
      ps.findSome? Ty.faultInMethod? <|> rs.findSome? Ty.faultInMethod?
  | .struct ts => Ty.faultOfAny? ts
  | .function ps rs => Ty.faultOfAny? ps <|> Ty.faultOfAny? rs

/-- The first fault of looking up one of several types. -/
def Ty.faultOfAny? : List Ty → Option Fault
  | [] => none
  | t :: ts => t.fault? <|> Ty.faultOfAny? ts

end

/-! ## Numbers of types -/

/-- The types that have been met, by number. -/
structure TypeTable where
  declarations : Declarations
  known : Assoc TypeId Ty := []
  deriving Repr, Inhabited

namespace TypeTable

/-- The type with that number. -/
def type? (t : TypeTable) (id : TypeId) : Option Ty := t.known.get? id

/-- A name for a type that no other has: its text, or that and a number. -/
def freshName (u : Universe) (text : String) : String :=
  let tries := text :: (List.range (u.numTypes + 1)).map fun i => text ++ "#" ++ toString (i + 1)
  (tries.find? fun n => (u.lookupType n).isNone).getD text

/-- The number of a type, which is given one if it is new. The type of nil
is the null type; types that cannot point are primitive. -/
def number (t : TypeTable) (u : Universe) (ty : Ty) : TypeId × TypeTable × Universe :=
  match t.known.find? fun e => e.2.identical ty with
  | some (id, _) => (id, t, u)
  | none =>
    let (id, u) :=
      match ty with
      | .untypedNil => (nullType, u)
      | _ =>
        u.addType (freshName u (t.declarations.text ty))
          (if t.declarations.canPoint ty then .ref else .primitive)
    (id, { t with known := t.known.set id ty }, u)

/-- The numbers of types, one after the other; no type has the number of
no type. The first type that cannot be looked up stops this. -/
def numberAll (t : TypeTable) (u : Universe) :
    List (Option Ty) → Except Fault (List TypeId × TypeTable × Universe)
  | [] => .ok ([], t, u)
  | none :: tys => do
    let (ids, t, u) ← numberAll t u tys
    return (noType :: ids, t, u)
  | some ty :: tys =>
    match ty.fault? with
    | some f => .error f
    | none => do
      let (id, t, u) := number t u ty
      let (ids, t, u) ← numberAll t u tys
      return (id :: ids, t, u)

/-- The types that allocations can have, in increasing order. -/
def references (t : TypeTable) (u : Universe) : List TypeId :=
  (t.known.keys.filter fun id => id ≠ nullType ∧ (u.typeD id).kind = .ref).mergeSort
    fun a b => decide (a ≤ b)

/-- Whether a value of one type can be stored in a location of another. -/
def canStore (t : TypeTable) (src dst : TypeId) : Bool :=
  src = dst ||
    match t.type? src, t.type? dst with
    | some s, some d => t.declarations.assignable s d
    | _, _ => false

/-- Whether the number is one of an interface. -/
def isInterface (t : TypeTable) (id : TypeId) : Bool :=
  (t.type? id).any t.declarations.isInterface

/-- Whether the number is one of a type that is no interface. -/
def isConcrete (t : TypeTable) (id : TypeId) : Bool :=
  (t.type? id).any fun ty => !t.declarations.isInterface ty

/-- The hierarchy of the types met so far. -/
def hierarchy (t : TypeTable) (u : Universe) : Hierarchy where
  canStore := t.canStore
  directSubclasses := fun _ => []
  subtypes := fun id =>
    id :: (t.references u).filter fun other => other ≠ id && t.canStore other id
  implementers := fun iface =>
    (t.references u).filter fun other =>
      other ≠ iface && !t.isInterface other && t.canStore other iface
  isInterface := t.isInterface
  isConcrete := t.isConcrete
  height := 1

end TypeTable

end Source

end PointsTo
