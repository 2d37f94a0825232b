import Mathlib.Data.List.Nodup
import PointsTo.Proofs.Attempts
import PointsTo.Proofs.Reachability
import PointsTo.Proofs.Tables
/-!
# Call graphs as they are built

A graph starts with some methods and no edge, and then methods and edges
are added to it. `WellFormed` is what this keeps true; condensing a graph
and handing out contexts keep it true as well, which is shown where those
are.
-/

namespace PointsTo

namespace CallGraph

/-- `b` can be reached from `a` along calls. -/
abbrev Reaches (g : CallGraph) : MethodId → MethodId → Prop := PointsTo.Reaches g.successors

/-- What holds of every graph that edges are added to one by one, and whose
marks come from condensing it: edges start at methods, each call site has
one edge, and an edge that is marked stays inside a component. -/
structure WellFormed (g : CallGraph) : Prop where
  caller : ∀ e ∈ g.edges, g.hasMethod e.caller
  distinct : (g.edges.toList.map (·.toCallSite)).Nodup
  flagged : ∀ e ∈ g.edges, e.inComponent → g.Reaches e.callee e.caller

variable {g : CallGraph}

/-- A call is a step of reachability. -/
theorem Reaches.of_edge {e : Edge} (he : e ∈ g.edges) : g.Reaches e.caller e.callee :=
  .single (mem_successors.2 ⟨e, he, rfl, rfl⟩)

/-- More edges reach more. -/
theorem Reaches.mono {g' : CallGraph} (hsub : ∀ e ∈ g.edges, e ∈ g'.edges) {a b : MethodId}
    (h : g.Reaches a b) : g'.Reaches a b := by
  refine Relation.ReflTransGen.mono ?_ a b h
  intro x y hxy
  obtain ⟨e, he, hx, hy⟩ := mem_successors.1 hxy
  exact mem_successors.2 ⟨e, hsub e he, hx, hy⟩

/-- Whatever reaches something else is a method. -/
theorem WellFormed.hasMethod_of_reaches (hw : g.WellFormed) {a b : MethodId}
    (h : g.Reaches a b) (hne : b ≠ a) : g.hasMethod a := by
  rcases Reaches.iff_eq_or_head.1 h with rfl | ⟨x, hx, -⟩
  · exact absurd rfl hne
  · obtain ⟨e, he, rfl, -⟩ := mem_successors.1 hx
    exact hw.caller e he

/-- The edge found for a call site is an edge of it. -/
theorem edge?_eq_some {cs : CallSite} {e : Edge} (h : g.edge? cs = some e) :
    e ∈ g.edges ∧ e.toCallSite = cs := by
  obtain ⟨i, hi, he⟩ := Option.bind_eq_some_iff.1 h
  obtain ⟨hlt, hcs, -⟩ := List.findIdx?_eq_some_iff_getElem.1 hi
  refine ⟨Array.mem_of_getElem? he, ?_⟩
  have heq : g.edges.toList[i] = e := by
    obtain ⟨_, heq⟩ := Array.getElem?_eq_some_iff.1 he
    simpa using heq
  simpa [heq] using hcs

/-- Edges of the same call site are one edge. -/
theorem WellFormed.eq_of_toCallSite (hw : g.WellFormed) {e e' : Edge} (he : e ∈ g.edges)
    (he' : e' ∈ g.edges) (h : e.toCallSite = e'.toCallSite) : e = e' :=
  List.inj_on_of_nodup_map hw.distinct (Array.mem_toList_iff.2 he) (Array.mem_toList_iff.2 he') h

/-- An edge is found by its call site. -/
theorem WellFormed.edge?_eq (hw : g.WellFormed) {e : Edge} (he : e ∈ g.edges) :
    g.edge? e.toCallSite = some e := by
  have hsome : (g.edge? e.toCallSite).isSome := by
    obtain ⟨i, hi⟩ : ∃ i, g.position? e.toCallSite = some i := by
      rw [← Option.isSome_iff_exists, position?, List.findIdx?_isSome]
      exact List.any_eq_true.2 ⟨e, Array.mem_toList_iff.2 he, by simp⟩
    have hlt := (List.findIdx?_eq_some_iff_getElem.1 hi).1
    rw [edge?, hi, Option.bind_some, isSome_getElem?]
    simpa using hlt
  obtain ⟨e', he'⟩ := Option.isSome_iff_exists.1 hsome
  obtain ⟨hmem, hcall⟩ := edge?_eq_some he'
  rw [he', hw.eq_of_toCallSite hmem he hcall]

/-! ## Growing a graph -/

theorem wellFormed_ofSize (n : Int) : (ofSize n).WellFormed where
  caller e he := by simp [ofSize, ensure] at he
  distinct := by simp [ofSize, ensure]
  flagged e he := by simp [ofSize, ensure] at he

theorem hasMethod_ensure {m x : Int} :
    (g.ensure m).hasMethod x ↔ g.hasMethod x ∨ 0 ≤ x ∧ x ≤ m := by
  simp only [hasMethod_iff, ensure]
  omega

theorem WellFormed.ensure (hw : g.WellFormed) (m : MethodId) : (g.ensure m).WellFormed where
  caller e he := hasMethod_ensure.2 (.inl (hw.caller e he))
  distinct := hw.distinct
  flagged := hw.flagged

/-- **Adding an edge keeps a graph well formed**, whether it is there
already, is added, or cannot be. -/
theorem WellFormed.addEdge (hw : g.WellFormed) (cs : CallSite) :
    ((addEdge cs).go g).2.WellFormed := by
  rw [CallGraph.addEdge, Attempt.go_bind, Attempt.go_get]
  match hp : g.position? cs with
  | some i => simpa [hp] using hw
  | none =>
    have hw' : ((g.ensure cs.caller).ensure cs.callee).WellFormed :=
      (hw.ensure _).ensure _
    simp only [hp, Attempt.go_bind, Attempt.go_modify]
    by_cases hneg : cs.caller < 0
    · simpa [hneg, Attempt.go_bind] using hw'
    · have hnew : ∀ e ∈ g.edges, e.toCallSite ≠ cs := by
        simpa [position?] using hp
      simp only [hneg, if_false, Attempt.go_pure, Attempt.go_bind, Attempt.go_modify]
      refine { caller := ?_, distinct := ?_, flagged := ?_ }
      · intro e he
        rcases Array.mem_push.1 he with he | rfl
        · exact hw'.caller e he
        · have h0 : 0 ≤ cs.caller := Int.not_lt.1 hneg
          exact hasMethod_ensure.2 (.inl (hasMethod_ensure.2 (.inr ⟨h0, Int.le_refl _⟩)))
      · rw [Array.toList_push, List.map_append, List.nodup_append]
        refine ⟨hw.distinct, by simp, ?_⟩
        rintro a ha b hb rfl
        obtain ⟨e, he, rfl⟩ := List.mem_map.1 ha
        exact hnew e (Array.mem_toList_iff.1 he) (by simpa using hb)
      · intro e he hin
        rcases Array.mem_push.1 he with he | rfl
        · exact (hw.flagged e he hin).mono fun e he => Array.mem_push.2 (.inl he)
        · exact absurd hin Bool.false_ne_true

end CallGraph

end PointsTo
