import PointsTo.Builder
import PointsTo.Digraph.Cycles
import PointsTo.Text.Style
/-!
# Call graphs in tables

A frozen call graph for the eye: the reachable methods with their
component, rank and contexts, the edges with their offsets, and the
elementary cycles.
-/

namespace PointsTo

namespace Summary

open Text

/-- The rows of the methods, under their headings. -/
def methodRows (enc : Encoding) (reachable : List MethodId) (name : MethodId → String) :
    List (List String) :=
  ["method", "component", "rank", "block", "blocks", "contexts"] ::
    reachable.map fun m =>
      let r := enc.graph.repD m
      let b := enc.blockD m
      [name m, name r, toString (enc.graph.rankOf r), toString b.size.toInt,
        toString b.num.toInt, toString b.span.toInt]

/-- What is special about an edge. -/
def edgeKind (colors : Bool) (e : Edge) : String :=
  if e.inComponent then Style.yellow.paint colors "scc"
  else if !e.mapped then Style.red.paint colors "unmapped"
  else ""

/-- The rows of the edges. -/
def edgeRows (colors : Bool) (g : CallGraph) (name : MethodId → String) : List (List String) :=
  g.edges.toList.map fun e =>
    [name e.caller ++ " -[" ++ toString e.site ++ "]-> " ++ name e.callee,
      toString e.offset.toInt, edgeKind colors e]

/-- How many arcs a graph has, how many of them are loops, and how many
keys have no arc out of them. -/
def arcCounts (g : Digraph) : Nat × Nat × Nat :=
  ((g.keys.flatMap g.succs).length, (g.keys.filter fun k => g.hasArc k k).length,
    (g.keys.filter fun k => (g.succs k).isEmpty).length)

/-- The elementary cycles, at most `limit` of them. -/
def cycles (colors : Bool) (g : Digraph) (name : MethodId → String) (limit : Int) :
    Except Fault String := do
  if limit ≤ 0 then pure ""
  else
    let found ← g.elementaryCycles limit
    pure (Style.faint.paint colors (toString found.length ++ " elementary cycles") ++ "\n" ++
      String.join (found.map fun c => "  " ++ " -> ".intercalate (c.map name) ++ "\n"))

/-- The summary of a frozen call graph. Escape sequences in the names of
methods are quoted. -/
def text (colors : Bool) (g : CallGraph) (f : Frozen) (methodName : MethodId → String)
    (limit : Int) : Except Fault String := do
  let name (m : MethodId) : String := escaped (methodName m)
  let raw := g.toDigraph name
  let (size, loops, isolated) := arcCounts raw
  let cyclesText ← cycles colors raw name limit
  pure (columns (methodRows f.encoding f.reachable name) ++
    "\n" ++ Style.faint.paint colors "edges" ++ "\n" ++
    columns (edgeRows colors g name) ++
    "\n" ++ toString size ++ " edges, " ++ toString loops ++ " self loops, " ++
    toString (g.edges.size - size) ++ " parallel edges merged, " ++ toString isolated ++
    " isolated methods\n" ++ cyclesText)

end Summary

end PointsTo
