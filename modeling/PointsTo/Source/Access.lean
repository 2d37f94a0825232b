import PointsTo.Digraph.Explore
import PointsTo.Source.Program
/-!
# What can be found without being named

A method can be called by who has a value of its struct and does not know
the struct: through an interface value, or from another package. The structs
that are open to that are those of interface values and of names that are
for others to use, and all structs that can be found from these by going
through fields and the signatures of methods.
-/

namespace PointsTo

namespace Source

namespace Code

/-- The named type at the end of pointers. -/
def named? : Ty → Option Nat
  | .pointer t => named? t
  | .named i => some i
  | _ => none

/-- The named types in the fields and method signatures of a named type;
`exported` leaves out the methods that are not for others to use. -/
def mentions (c : Code) (exported : Bool) (i : Nat) : List Nat :=
  let counts (m : String) : Bool := !exported || isExported m
  match c.declarations.named[i]? with
  | none => []
  | some d =>
    let under := match d.under with
      | .struct fields => fields
      | .interface ms => (ms.filter (counts ·.1)).flatMap fun (_, ps, rs) => ps ++ rs
      | _ => []
    (under ++ (d.methods.filter (counts ·.name)).flatMap fun m => m.params ++ m.results).filterMap
      named?

/-- The structs that can be found from the given named types. -/
def foundStructs (c : Code) (exported : Bool) (start : List Nat) : List Nat :=
  let arcs := ((List.range c.declarations.named.size).flatMap (c.mentions exported)).length
  (explore (c.mentions exported) arcs start).filter (· < c.fieldNames.size)

/-- The interface values that a function makes of a struct, by register. -/
def boxes (c : Code) (f : Nat) : List (Nat × Nat) :=
  (c.functionD f).instructions.filterMap fun i =>
    match i with
    | .box register _ struct => some (register, struct)
    | _ => none

/-- The structs that a function makes interface values of. -/
def boxedStructs (c : Code) (f : Nat) : List Nat := (c.boxes f).map (·.2)

/-- The methods of a struct. -/
def methodsOf (c : Code) (struct : Nat) : List Nat :=
  c.positions.filter fun i => (c.functionD i).method.any (·.1 == struct)

/-- The methods that can be called by who does not know their struct. -/
def openMethods (c : Code) : List Nat :=
  (c.foundStructs false (c.offered.filterMap named? ++ c.positions.flatMap c.boxedStructs)).flatMap
    c.methodsOf

/-- The functions that a function calls by name. -/
def staticCallees (c : Code) (f : Nat) : List Nat :=
  (c.functionD f).calls.filterMap fun (_, callee, _) =>
    match callee with
    | .static g => some g
    | .dynamic .. => none

/-- The functions that are in use: all that are no methods, the open
methods, and what these call by name. -/
def inUse (c : Code) : List Nat :=
  let plain := c.positions.filter fun i => (c.functionD i).method.isNone
  explore c.staticCallees (c.positions.flatMap c.staticCallees).length (plain ++ c.openMethods)

end Code

end Source

end PointsTo
