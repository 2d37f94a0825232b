import PointsTo.CallGraph.Encoding
/-!
# The search for the contexts behind a call edge

From the callee of an edge, entered with a context, all paths of edges
between components are followed to the component of a target method. At
its end a path requests an interval of contexts of the target. The search
marks the components it has been to: one it could not reach the target
from is not entered again, and a component of larger rank than the
target's is not entered at all.

A search is a list of events, so that it can be cut short after any of
them: what it marked up to then stays marked.
-/

namespace PointsTo

/-- What a search does, step by step. -/
inductive SearchEvent where
  /-- Marks a component. -/
  | mark (rep : MethodId) (label : Nat)
  /-- Asks for the facts of the target under the contexts `[lo, hi)`. -/
  | request (lo hi : Int64)
  deriving DecidableEq, Repr, Inhabited

/-- What a search looks for, and the labels it marks components with. -/
structure SearchGoal where
  target : MethodId
  /-- The length of the requested intervals. -/
  length : Int64
  /-- Marks a component the target has not been reached from. -/
  failed : Nat
  /-- Marks a component the target has been reached from. -/
  success : Nat
  deriving Repr, Inhabited

/-- How far a search has come. -/
structure SearchState where
  /-- The label of each component. -/
  marks : Array Nat
  /-- The events so far, in order. -/
  events : List SearchEvent := []
  /-- Whether the target was reached, or why the search stopped. -/
  outcome : Except Fault Bool := .ok false
  deriving Inhabited

namespace SearchState

/-- Marks a component. -/
def mark (s : SearchState) (r : MethodId) (label : Nat) : SearchState :=
  { s with
    marks := s.marks.modify r.toNat fun _ => label
    events := s.events ++ [.mark r label] }

/-- The label of a component. -/
def label (s : SearchState) (r : MethodId) : Nat := (slot? s.marks r).getD 0

/-- Stops the search. -/
def stop (s : SearchState) (f : Fault) : SearchState := { s with outcome := .error f }

/-- Requests intervals, which means that the target was reached. -/
def request (s : SearchState) (intervals : List (Int64 × Int64)) : SearchState :=
  { s with
    events := s.events ++ intervals.map fun (l, r) => .request l r
    outcome := .ok true }

end SearchState

namespace Encoding

/-- The interval of a target entered directly. -/
def directInterval (goal : SearchGoal) (l : Int64) : Int64 × Int64 := (l, l + goal.length)

/-- The intervals of a target in the component that was entered: the depth
of the call inside the component is unknown, so every block of the target
counts. -/
def blockIntervals (goal : SearchGoal) (size num place : Int64) : List (Int64 × Int64) :=
  (List.range num.toNatClampNeg).map fun i =>
    let l := 1 + place + Int64.ofNat i * size
    (l, l + goal.length)

/-- Enters the method `m` with the context `l` and follows the paths to the
target, through `fuel` components at most. -/
def search (enc : Encoding) (g : CallGraph) (goal : SearchGoal) :
    Nat → MethodId → Int64 → SearchState → SearchState
  | fuel, m, l, s =>
    match enc.graph.rep? m, enc.graph.rep? goal.target with
    | some r, some t =>
      if m = goal.target then s.request [directInterval goal l]
      else if r = t then
        match inBlock (enc.blockD m) l with
        | .error f => s.stop f
        | .ok place =>
          s.request (blockIntervals goal (enc.blockD m).size (enc.blockD goal.target).num place)
      else
        let s := s.mark r goal.failed
        match inBlock (enc.blockD r) l with
        | .error f => s.stop f
        | .ok place =>
          match fuel with
          | 0 => s.stop .endlessSearch
          | fuel + 1 =>
            let s := (enc.graph.outOf r).foldl (fun s i =>
              match s.outcome, g.edges[i]? with
              | .error _, _ | _, none => s
              | .ok hit, some e =>
                let rt := enc.graph.repD e.callee
                if e.callee = r ∨ s.label rt = goal.failed then s
                else if s.label rt = goal.success ∨ enc.graph.rankOf rt ≤ enc.graph.rankOf t then
                  let s := enc.search g goal fuel e.callee (e.offset + place) s
                  match s.outcome with
                  | .error _ => s
                  | .ok true => { s.mark r goal.success with outcome := .ok true }
                  | .ok false => { s with outcome := .ok hit }
                else s) { s with outcome := .ok false }
            match s.outcome with
            | .error _ => s
            | .ok _ => { s with outcome := .ok (s.label r = goal.success) }
    | _, _ => s.stop .outOfRange

/-- No search of a condensation passes through more components one after
the other. -/
def searchDepth (enc : Encoding) : Nat := (enc.graph.size + 1) * (enc.graph.size + 2)

end Encoding

end PointsTo
