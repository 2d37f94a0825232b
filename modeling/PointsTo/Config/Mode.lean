/-!
# Call graph constructions

The ways to construct the call graph of a program, from the most precise
to the plainest, by the names they have in configurations.
-/

namespace PointsTo

/-- A way to construct a call graph. -/
inductive CallgraphMode where
  /-- By a points-to analysis of the whole program. -/
  | pointer
  /-- By the calls that name their callee. -/
  | static
  /-- By all implementations of a called method. -/
  | cha
  /-- By the implementations on types that reachable code makes. -/
  | rta
  /-- By the implementations on types that flow to the call. -/
  | vta
  deriving DecidableEq, Repr, Inhabited

namespace CallgraphMode

/-- All constructions, in the order of their numbers. -/
def all : List CallgraphMode := [pointer, static, cha, rta, vta]

/-- The name of a construction. -/
def name : CallgraphMode → String
  | pointer => "pointer"
  | static => "static"
  | cha => "cha"
  | rta => "rta"
  | vta => "vta"

/-- The number of a construction. -/
def number : CallgraphMode → Nat
  | pointer => 0
  | static => 1
  | cha => 2
  | rta => 3
  | vta => 4

/-- The construction of that name. -/
def ofName? (s : String) : Option CallgraphMode := all.find? (·.name == s)

/-- The construction of that number. -/
def ofNumber? (n : Nat) : Option CallgraphMode := all.find? (·.number == n)

/-- The name of the construction of that number, if there is one. -/
def numberText (n : Nat) : String :=
  ((ofNumber? n).map name).getD ("mode(" ++ toString n ++ ")")

end CallgraphMode

end PointsTo
