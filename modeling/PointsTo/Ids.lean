/-!
# Numbers of nodes, types, methods, fields and call sites

Everything the analysis speaks of is numbered densely from a small start.
A number that names nothing is legal wherever a number is: it is looked
up and not found.
-/

namespace PointsTo

/-- The number of a pointer node. Zero is no node. -/
abbrev NodeId := Int

/-- The number of a method. Zero is the root, which calls the entry points. -/
abbrev MethodId := Int

/-- The number of a static type. Zero is no type. -/
abbrev TypeId := Int

/-- The number of a field signature. -/
abbrev FieldId := Int

/-- The number of a call instruction. -/
abbrev SiteId := Int

/-- No node has this number. -/
def noNode : NodeId := 0

/-- No type has this number. -/
def noType : TypeId := 0

/-- The synthetic method that calls every entry point. -/
def rootMethod : MethodId := 0

/-- The enclosing method of a node that has none. -/
def noMethod : MethodId := -1

/-- The call site of the edges from the root to the entry points. -/
def entrySite : SiteId := -1

/-- The entry of an array at an integer index, if there is one. -/
def slot? {α : Type} (xs : Array α) (i : Int) : Option α :=
  if 0 ≤ i then xs[i.toNat]? else none

/-- The identity of a call edge: caller, callee and call instruction. -/
structure CallSite where
  caller : MethodId
  callee : MethodId
  site : SiteId
  deriving DecidableEq, Repr, Inhabited

namespace CallSite

/-- The call of an entry point by the root. -/
def entry (m : MethodId) : CallSite := ⟨rootMethod, m, entrySite⟩

/-- A call site is written as an arrow labelled by the instruction. -/
def text (cs : CallSite) : String :=
  toString cs.caller ++ " -[" ++ toString cs.site ++ "]-> " ++ toString cs.callee

end CallSite

end PointsTo
