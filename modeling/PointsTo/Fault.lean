import PointsTo.Ids
/-!
# Faults

A fault is why an operation stopped half-way. It ends the operation it
happens in and nothing else: what the operation changed before stays
changed, which is why stateful operations run in `Attempt`.
-/

namespace PointsTo

/-- Why an operation stopped half-way. -/
inductive Fault where
  /-- A number was used as an index of a table that has no such entry. -/
  | outOfRange
  /-- A context was reduced modulo a block without contexts. -/
  | emptyBlock
  /-- A part that has not been made yet was used. -/
  | absent
  /-- A search entered the same components over and over. -/
  | endlessSearch
  /-- A slice of more bytes than there are addresses was asked for. -/
  | sliceTooLong
  /-- A cast to a type standing for any subtype of another. -/
  | anySubtypeTarget (source target : String)
  /-- A slot outside of the context chain was asked for. -/
  | contextIndex (index last : Int)
  /-- The node to qualify is not an allocation. -/
  | notAllocation (node : NodeId)
  /-- The node that should qualify an allocation is not one itself. -/
  | notEnclosing (node : NodeId) (base : String)
  /-- A context chain was put on a node that is not an allocation. -/
  | chainOnNonAllocation (node : NodeId)
  /-- A representative that does not represent itself. -/
  | notRepresentative (rep method : MethodId)
  /-- A type was looked up that is only another name for one, or that has
  such a name in it, perhaps in the signature of a method. -/
  | aliasName (inMethod : Bool) (name : String)
  deriving DecidableEq, Repr, Inhabited

namespace Fault

/-- What the fault says, if it says anything. -/
def message : Fault → Option String
  | outOfRange | emptyBlock | absent | endlessSearch | sliceTooLong => none
  | anySubtypeTarget s t =>
    some ("any-subtype type used as cast destination: src=" ++ s ++ " dst=" ++ t)
  | contextIndex i k =>
    some ("invalid context index for object-sensitive allocation: " ++ toString i ++
      " not in [1, " ++ toString k ++ "]")
  | notAllocation n =>
    some ("unsupported context on allocation: " ++ toString n ++ " is not an allocation")
  | notEnclosing n b =>
    some ("unsupported context on allocation: " ++ toString n ++ " qualifying " ++ b)
  | chainOnNonAllocation n =>
    some ("object-sensitive allocation on non-allocation node " ++ toString n)
  | notRepresentative r m =>
    some ("representative " ++ toString r ++ " of method " ++ toString m ++
      " is not its own representative")
  | aliasName inMethod name =>
    some ((if inMethod then "shallowHash: " else "") ++ "*types.Alias: " ++ name)

end Fault

/-- A stateful operation that may stop with a fault, keeping the state it
had reached. -/
abbrev Attempt (σ α : Type) := ExceptT Fault (StateM σ) α

namespace Attempt

/-- Runs the attempt from a state: its outcome, and the state it left. -/
def go {σ α : Type} (a : Attempt σ α) (s : σ) : Except Fault α × σ := StateT.run (ExceptT.run a) s

end Attempt

end PointsTo
