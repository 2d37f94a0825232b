import PointsTo.Universe.Basic
import PointsTo.Digraph.Explore
/-!
# Class hierarchies

What the analysis asks of a hierarchy is `Hierarchy`: which types can be
stored where, and which classes lie below a type. `ClassHierarchy` is the
one that is declared: single inheritance with interfaces, over the types
of a universe.
-/

namespace PointsTo

/-- The questions a class hierarchy answers. -/
structure Hierarchy where
  /-- Whether a value of the first type can be stored in a location of the
  second. -/
  canStore : TypeId → TypeId → Bool
  /-- The classes that directly extend a class. -/
  directSubclasses : TypeId → List TypeId
  /-- A type and all its subtypes. -/
  subtypes : TypeId → List TypeId
  /-- The top-most classes implementing an interface. -/
  implementers : TypeId → List TypeId
  /-- Whether the type is an interface. -/
  isInterface : TypeId → Bool
  /-- Whether the type is a class that can be instantiated. -/
  isConcrete : TypeId → Bool
  /-- No chain of distinct direct subclasses is longer. -/
  height : Nat

/-- A declared hierarchy. Declarations are kept in the order they were
made. -/
structure ClassHierarchy where
  /-- The class every reference type is below; zero if there is none. -/
  root : TypeId := noType
  /-- The declared pairs of a class and its superclass. -/
  extensions : List (TypeId × TypeId) := []
  /-- The declared lists of interfaces a type implements or extends. -/
  interfaceLists : List (TypeId × List TypeId) := []
  /-- The types declared as interfaces. -/
  interfaces : List TypeId := []
  /-- The classes declared abstract. -/
  abstracts : List TypeId := []
  deriving Repr, Inhabited

namespace ClassHierarchy

/-- The hierarchy without declarations. -/
def empty : ClassHierarchy := {}

/-- Makes `t` the class every reference type is below. -/
def setRoot (h : ClassHierarchy) (t : TypeId) : ClassHierarchy := { h with root := t }

/-- Declares a class, its superclass unless that is zero, and the
interfaces it implements. -/
def addClass (h : ClassHierarchy) (t super : TypeId) (interfaces : List TypeId) :
    ClassHierarchy :=
  { h with
    extensions := if super = noType then h.extensions else h.extensions ++ [(t, super)]
    interfaceLists := h.interfaceLists ++ [(t, interfaces)] }

/-- Declares an interface and the interfaces it extends. -/
def addInterface (h : ClassHierarchy) (t : TypeId) (extended : List TypeId) : ClassHierarchy :=
  { h with
    interfaces := h.interfaces.insert t
    interfaceLists := h.interfaceLists ++ [(t, extended)] }

/-- Declares a class abstract. -/
def setAbstract (h : ClassHierarchy) (t : TypeId) : ClassHierarchy :=
  { h with abstracts := h.abstracts.insert t }

/-- The superclass of a class: the last one declared counts. -/
def superclass? (h : ClassHierarchy) (t : TypeId) : Option TypeId :=
  ((h.extensions.filter (·.1 == t)).getLast?).map (·.2)

/-- The declared superclass and interfaces of a type. -/
def supertypes (h : ClassHierarchy) (t : TypeId) : List TypeId :=
  (h.superclass? t).toList ++ (h.interfaceLists.filter (·.1 == t)).flatMap (·.2)

/-- The classes declared to extend a class, in the order of declaration. -/
def directSubclasses (h : ClassHierarchy) (t : TypeId) : List TypeId :=
  (h.extensions.filter (·.2 == t)).map (·.1)

/-- Whether the type was declared as an interface. -/
def isInterface (h : ClassHierarchy) (t : TypeId) : Bool := h.interfaces.contains t

/-- Whether the type can be instantiated. -/
def isConcrete (h : ClassHierarchy) (t : TypeId) : Bool :=
  !h.interfaces.contains t && !h.abstracts.contains t

/-- The number of declared supertypes of all types together. -/
def arcs (h : ClassHierarchy) : Nat :=
  h.extensions.length + (h.interfaceLists.flatMap (·.2)).length

/-- A type and everything it is declared to be below. -/
def ancestors (h : ClassHierarchy) (t : TypeId) : List TypeId :=
  explore h.supertypes h.arcs [t]

/-- Whether `src` is below `dst` by the declarations, or because `dst` is
the root class. -/
def isSubtype (h : ClassHierarchy) (src dst : TypeId) : Bool :=
  (h.ancestors src).contains dst || (dst == h.root && h.root != noType)

/-- Whether a value of type `src` can be stored in a location of type
`dst`, looking at most `fuel` element types deep. -/
def canStoreWithin (h : ClassHierarchy) (u : Universe) : Nat → TypeId → TypeId → Bool
  | fuel, src, dst =>
    if src = dst then true
    else
      match u.type? src, u.type? dst with
      | some s, some d =>
        match s.kind with
        | .array =>
          if d.kind ≠ .array then dst == h.root
          else if (u.typeD s.elem).kind = .primitive ∨ (u.typeD d.elem).kind = .primitive then
            s.elem == d.elem
          else
            match fuel with
            | 0 => false
            | fuel + 1 => h.canStoreWithin u fuel s.elem d.elem
        | .ref => d.kind == .ref && h.isSubtype src dst
        | _ => false
      | _, _ => false

/-- Whether a value of type `src` can be stored in a location of type
`dst`: element types come before their arrays, so an array is at most as
deep as there are types. -/
def canStore (h : ClassHierarchy) (u : Universe) (src dst : TypeId) : Bool :=
  h.canStoreWithin u u.numTypes src dst

/-- A type and the other reference types below it, in increasing order. -/
def subtypes (h : ClassHierarchy) (u : Universe) (t : TypeId) : List TypeId :=
  t :: u.typeIds.filter fun o => o != t && (u.typeD o).kind == .ref && h.isSubtype o t

/-- The classes below an interface whose superclass is not. -/
def implementers (h : ClassHierarchy) (u : Universe) (iface : TypeId) : List TypeId :=
  (h.subtypes u iface).filter fun t =>
    t != iface && !h.isInterface t &&
      !((h.superclass? t).any fun s => h.isSubtype s iface)

/-- The declared classes and interfaces, in increasing order. -/
def classes (h : ClassHierarchy) : List TypeId :=
  ((h.interfaceLists.map (·.1) ++ h.extensions.map (·.1)).eraseDups).mergeSort
    fun a b => decide (a ≤ b)

/-- The hierarchy over the types of a universe. -/
def view (h : ClassHierarchy) (u : Universe) : Hierarchy where
  canStore := h.canStore u
  directSubclasses := h.directSubclasses
  subtypes := h.subtypes u
  implementers := h.implementers u
  isInterface := h.isInterface
  isConcrete := h.isConcrete
  height := h.extensions.length + 1

end ClassHierarchy

end PointsTo
