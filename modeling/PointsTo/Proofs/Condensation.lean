import Mathlib
import PointsTo.Proofs.Components
import PointsTo.Proofs.Graphs
import PointsTo.Proofs.Traversal
/-!
# What a condensation is

`Condensed g c` collects what later proofs read of a condensation of `g`:
methods share a representative iff they reach each other, the edges kept
at a representative are those that leave its component, and the order and
the ranks follow the edges. `condensed_of_condense` establishes it for the
representatives that the graph itself computes. None of it mentions
offsets, so it holds of every graph with the same calls (`condensed_of_unmapped`).
-/

namespace PointsTo

/-! ## The condensation of a graph -/

/-- `c` groups the methods of `g` by mutual reachability, and knows which of
them the root reaches. -/
structure Grouped (g : CallGraph) (c : Condensation) : Prop where
  wellFormed : g.WellFormed
  size : c.size = g.size
  /-- A method is represented by the least method of its class. -/
  rep : ∀ m : Int, g.hasMethod m → ∃ r : Int, c.rep? m = some r ∧ g.Reaches m r ∧ g.Reaches r m ∧
    ∀ x : Int, g.Reaches m x → g.Reaches x m → r ≤ x
  reachable : ∀ m, c.isReachable m ↔ 0 < g.size ∧ g.Reaches rootMethod m
  hasMethod : ∀ m, c.isReachable m → g.hasMethod m

/-- `c` is the condensation of `g`: it keeps at each representative the
edges that leave its group, and orders and ranks the groups along them. -/
structure Condensed (g : CallGraph) (c : Condensation) : Prop extends Grouped g c where
  /-- An edge of a method the root reaches is marked inside components. -/
  flag : ∀ e ∈ g.edges, c.isReachable e.caller →
    (e.inComponent ↔ c.repD e.caller = c.repD e.callee)
  mem_out : ∀ r i, i ∈ c.outOf r ↔ ∃ e, g.edges[i]? = some e ∧ c.isReachable e.caller ∧
    c.repD e.caller = r ∧ c.repD e.callee ≠ r
  out_nodup : ∀ r, (c.outOf r).Nodup
  mem_members : ∀ r m, m ∈ c.membersOf r ↔ g.hasMethod m ∧ c.repD m = r
  order_nodup : c.order.Nodup
  mem_order : ∀ r, r ∈ c.order ↔ c.isReachable r ∧ c.repD r = r
  /-- Callers are finalized before their callees. -/
  sorted : ∀ e ∈ g.edges, c.isReachable e.caller → c.repD e.caller ≠ c.repD e.callee →
    c.order.idxOf (c.repD e.caller) < c.order.idxOf (c.repD e.callee)
  rank_lt : ∀ e ∈ g.edges, c.isReachable e.caller → c.repD e.caller ≠ c.repD e.callee →
    c.rankOf e.caller < c.rankOf e.callee

namespace Grouped

variable {g : CallGraph} {c : Condensation} (h : Grouped g c)

include h

/-- A method that is there has a representative. -/
theorem rep?_eq {m : MethodId} (hm : g.hasMethod m) : c.rep? m = some (c.repD m) := by
  obtain ⟨r, hr, -⟩ := h.rep m hm
  rw [Condensation.repD, hr, Option.getD_some]

theorem rep?_isSome {m : MethodId} : (c.rep? m).isSome ↔ g.hasMethod m := by
  have hsize : c.rep.size = g.size := h.size
  rw [Condensation.rep?, slot?_isSome, CallGraph.hasMethod_iff, hsize]

/-- **A method and its representative reach each other.** -/
theorem reaches_repD {m : MethodId} (hm : g.hasMethod m) :
    g.Reaches m (c.repD m) ∧ g.Reaches (c.repD m) m := by
  obtain ⟨r, hr, hto, hback, -⟩ := h.rep m hm
  rw [Condensation.repD, hr, Option.getD_some]
  exact ⟨hto, hback⟩

/-- No method of the class is below it. -/
theorem repD_le {m x : Int} (hm : g.hasMethod m) (hto : g.Reaches m x) (hback : g.Reaches x m) :
    (c.repD m : Int) ≤ x := by
  obtain ⟨r, hr, -, -, hle⟩ := h.rep m hm
  rw [Condensation.repD, hr, Option.getD_some]
  exact hle x hto hback

theorem hasMethod_repD {m : MethodId} (hm : g.hasMethod m) : g.hasMethod (c.repD m) := by
  by_cases hne : c.repD m = m
  · rw [hne]; exact hm
  · exact h.wellFormed.hasMethod_of_reaches (h.reaches_repD hm).2 (Ne.symm hne)

/-- **Methods share a representative iff they reach each other.** -/
theorem repD_eq_iff {a b : MethodId} (ha : g.hasMethod a) (hb : g.hasMethod b) :
    c.repD a = c.repD b ↔ g.Reaches a b ∧ g.Reaches b a := by
  obtain ⟨hato, haback⟩ := h.reaches_repD ha
  obtain ⟨hbto, hbback⟩ := h.reaches_repD hb
  constructor
  · intro heq
    rw [← heq] at hbto hbback
    exact ⟨hato.trans hbback, hbto.trans haback⟩
  · rintro ⟨hab, hba⟩
    have hle₁ := h.repD_le ha (hab.trans hbto) (hbback.trans hba)
    have hle₂ := h.repD_le hb (hba.trans hato) (haback.trans hab)
    exact Int.le_antisymm hle₁ hle₂

/-- A representative represents itself. -/
theorem repD_repD {m : MethodId} (hm : g.hasMethod m) : c.repD (c.repD m) = c.repD m :=
  (h.repD_eq_iff (h.hasMethod_repD hm) hm).2 (h.reaches_repD hm).symm

/-- Ranks belong to components. -/
theorem rankOf_repD {m : MethodId} (hm : g.hasMethod m) : c.rankOf (c.repD m) = c.rankOf m := by
  rw [Condensation.rankOf, h.repD_repD hm, Condensation.rankOf]

/-- The root represents itself: no method is less. -/
theorem repD_root (hsize : 0 < g.size) : c.repD rootMethod = rootMethod := by
  have hroot : g.hasMethod rootMethod := by
    rw [CallGraph.hasMethod_iff]
    exact ⟨Int.le_refl 0, by simpa [rootMethod] using hsize⟩
  have hle := h.repD_le (x := rootMethod) hroot .refl .refl
  have hge := (CallGraph.hasMethod_iff.1 (h.hasMethod_repD hroot)).1
  exact Int.le_antisymm hle hge

/-- **What a reachable method reaches is reachable.** -/
theorem isReachable_of_reaches {a b : MethodId} (ha : c.isReachable a) (hab : g.Reaches a b) :
    c.isReachable b := by
  obtain ⟨hsize, hra⟩ := (h.reachable a).1 ha
  exact (h.reachable b).2 ⟨hsize, hra.trans hab⟩

theorem isReachable_callee {e : Edge} (he : e ∈ g.edges) (hr : c.isReachable e.caller) :
    c.isReachable e.callee :=
  h.isReachable_of_reaches hr (.of_edge he)

/-- All of a component is reachable, or none. -/
theorem isReachable_repD {m : MethodId} (hm : g.hasMethod m) :
    c.isReachable (c.repD m) ↔ c.isReachable m :=
  ⟨fun hr => h.isReachable_of_reaches hr (h.reaches_repD hm).2,
    fun hr => h.isReachable_of_reaches hr (h.reaches_repD hm).1⟩

/-- The way from the root to another component enters it along an edge. -/
theorem exists_entering {t : MethodId} (ht : c.isReachable t) (hroot : c.repD t ≠ rootMethod) :
    ∃ e ∈ g.edges, c.isReachable e.caller ∧ c.repD e.callee = c.repD t ∧
      c.repD e.caller ≠ c.repD t := by
  obtain ⟨hsize, hreach⟩ := (h.reachable t).1 ht
  induction hreach with
  | refl => exact absurd (h.repD_root hsize) hroot
  | @tail x y hx hxy ih =>
    have hxr : c.isReachable x := (h.reachable x).2 ⟨hsize, hx⟩
    obtain ⟨e, he, rfl, rfl⟩ := CallGraph.mem_successors.1 hxy
    by_cases hsame : c.repD e.caller = c.repD e.callee
    · rw [← hsame] at hroot ⊢
      exact ih hxr hroot
    · exact ⟨e, he, hxr, rfl, hsame⟩

end Grouped

namespace CallGraph

variable {g : CallGraph}

section Representatives

/-- The table has the representatives in the order of the methods. -/
theorem slot?_repTable {reps : List MethodId} {m : Int} (hm : g.hasMethod m) :
    slot? (g.repTable reps) m = some (reps.getD m.toNat m) := by
  obtain ⟨h0, hlt⟩ := hasMethod_iff.1 hm
  have hn : m.toNat < g.size := by omega
  have hcast : Int.ofNat m.toNat = m := Int.toNat_of_nonneg h0
  rw [slot?_eq_some]
  refine ⟨h0, ?_⟩
  simp only [repTable, List.getElem?_toArray, List.getElem?_map, List.getElem?_range hn,
    Option.map_some, hcast]

/-- The table of the graph's own representatives. -/
theorem slot?_repTable_representatives {m : Int} (hm : g.hasMethod m) :
    ∃ r : Int, slot? (g.repTable g.representatives) m = some r ∧ g.Reaches m r ∧ g.Reaches r m ∧
      ∀ x : Int, g.Reaches m x → g.Reaches x m → r ≤ x := by
  obtain ⟨r, hr, hto, hback, hle⟩ := representatives_spec hm
  refine ⟨r, ?_, hto, hback, hle⟩
  rw [slot?_repTable hm, List.getD_eq_getElem?_getD, hr, Option.getD_some]

theorem size_repTable (g : CallGraph) (reps : List MethodId) : (g.repTable reps).size = g.size := by
  simp [repTable]

end Representatives

/-! ## Condensing does not fail -/

/-- A loop over checks is fine if every check is. -/
theorem forM_eq_ok_iff {l : List Nat} {f : Nat → Except Fault Unit} :
    l.forM f = .ok () ↔ ∀ i ∈ l, f i = .ok () := by
  induction l with
  | nil => exact iff_of_true rfl (by simp)
  | cons i l ih =>
    rw [List.forM_eq_forM] at ih ⊢
    rw [List.forM_cons, List.forall_mem_cons, ← ih]
    cases f i with
    | ok u => exact (and_iff_right rfl).symm
    | error e => exact iff_of_false (fun h => by cases h) fun h => by cases h.1

/-- Representatives are accepted if each is in the table and represents itself. -/
theorem checkReps_eq_ok_iff {rep : Array MethodId} :
    checkReps rep = .ok () ↔ ∀ m r : Int, slot? rep m = some r → slot? rep r = some r := by
  rw [checkReps, forM_eq_ok_iff]
  constructor
  · intro h m r hr
    obtain ⟨-, hget⟩ := slot?_eq_some.1 hr
    obtain ⟨hlt, -⟩ := Array.getElem?_eq_some_iff.1 hget
    have hcheck := h _ (List.mem_range.2 hlt)
    simp only [hget] at hcheck
    by_contra hself
    rw [if_neg hself] at hcheck
    cases hcheck
  · intro h i hi
    have hlt : i < rep.size := List.mem_range.1 hi
    have hget : rep[i]? = some rep[i] := Array.getElem?_eq_getElem hlt
    simp only [hget]
    exact if_pos (h i _ (slot?_eq_some.2 ⟨by omega, hget⟩))

/-- The graph's own representatives represent themselves. -/
theorem checkReps_representatives (hw : g.WellFormed) :
    checkReps (g.repTable g.representatives) = .ok () := by
  refine checkReps_eq_ok_iff.2 fun m r hr => ?_
  have hm : g.hasMethod m := by
    rw [hasMethod_iff, ← size_repTable g g.representatives, ← slot?_isSome, hr]
    rfl
  obtain ⟨r₀, hr₀, hto, hback, hle⟩ := slot?_repTable_representatives hm
  obtain rfl : r₀ = r := Option.some.inj (hr₀.symm.trans hr)
  have hmr : g.hasMethod r₀ := by
    by_cases hne : m = r₀
    · exact hne ▸ hm
    · exact hw.hasMethod_of_reaches hback hne
  obtain ⟨r', hr', hto', hback', hle'⟩ := slot?_repTable_representatives hmr
  -- both are the least of the same methods
  have heq : r' = r₀ := Int.le_antisymm (hle' r₀ .refl .refl)
    (hle r' (hto.trans hto') (hback'.trans hback))
  exact heq ▸ hr'

/-- What the root reaches can be listed if edges lead to methods. -/
theorem exists_reachable (hids : ∀ e ∈ g.edges, g.hasMethod e.callee) :
    ∃ reachable, g.reachable = .ok reachable := by
  unfold CallGraph.reachable
  by_cases hsize : g.size = 0
  · exact ⟨#[], if_pos hsize⟩
  · have hroot : g.hasMethod rootMethod := by
      rw [hasMethod_iff, rootMethod]
      omega
    have hall : (explore g.successors g.edges.size [rootMethod]).all g.hasMethod := by
      rw [List.all_eq_true]
      intro m hm
      refine (mem_explore_successors.1 hm).mem_of_closed (S := fun x => g.hasMethod x) ?_ hroot
      intro x y _ hy
      obtain ⟨e, he, -, rfl⟩ := mem_successors.1 hy
      exact hids e he
    rw [if_neg hsize]
    exact ⟨_, if_pos hall⟩

/-- **A graph whose edges lead to methods can be condensed.** -/
theorem exists_condense (hw : g.WellFormed) (hids : ∀ e ∈ g.edges, g.hasMethod e.callee) :
    ∃ g' c, g.condense g.representatives = .ok (g', c) := by
  obtain ⟨reachable, hreach⟩ := exists_reachable hids
  simp only [condense, checkReps_representatives hw, hreach]
  exact ⟨_, _, rfl⟩

/-! ## Inverting `condense` -/

/-- The components called from the component of a representative. -/
def calleesOf (g : CallGraph) (rep : Array MethodId) (out : Array (List Nat)) (m : MethodId) :
    List MethodId :=
  ((slot? out m).getD []).filterMap fun i => (g.edges[i]?).bind fun e => slot? rep e.callee

/-- The traversal of the components of a graph. -/
def traverse (g : CallGraph) (rep : Array MethodId) (out : Array (List Nat)) :
    Condensation.Traversal :=
  Condensation.Traversal.run (g.calleesOf rep out) (g.size + 1)
    { queue := if g.size = 0 then [] else [rootMethod]
      rank := Array.replicate g.size 0
      waiting := (g.methods.map fun m =>
        ((g.methods.flatMap (g.calleesOf rep out)).count m : Int)).toArray }

/-- **What a condensation is made of.** -/
theorem condense_eq_ok {reps : List MethodId} {g' : CallGraph} {c : Condensation}
    (h : g.condense reps = .ok (g', c)) :
    ∃ reachable, g.reachable = .ok reachable ∧
      g' = g.markComponents (g.repTable reps) reachable ∧ c.rep = g.repTable reps ∧
      c.reachable = reachable ∧
      c.out = (g'.methods.map (g'.leaving (g.repTable reps) reachable)).toArray ∧
      c.members = (g'.methods.map fun r =>
        g'.methods.filter fun m => slot? (g.repTable reps) m == some r).toArray ∧
      c.rank = (g'.traverse c.rep c.out).rank ∧ c.order = (g'.traverse c.rep c.out).order := by
  unfold condense at h
  cases hcheck : checkReps (g.repTable reps) with
  | error f => simp [hcheck, bind, Except.bind] at h
  | ok u =>
    cases hreach : g.reachable with
    | error f => simp [hcheck, hreach, bind, Except.bind] at h
    | ok reachable =>
      simp only [hcheck, hreach, bind, Except.bind, Except.ok.injEq, Prod.mk.injEq] at h
      obtain ⟨rfl, rfl⟩ := h
      exact ⟨reachable, rfl, rfl, rfl, rfl, rfl, rfl, rfl, rfl⟩

/-- The table of reachable methods, if all of them are methods. -/
theorem reachable_eq_ok {reachable : Array Bool} (h : g.reachable = .ok reachable) (m : MethodId) :
    ((slot? reachable m).getD false ↔ 0 < g.size ∧ g.Reaches rootMethod m) ∧
      (0 < g.size → g.Reaches rootMethod m → g.hasMethod m) := by
  unfold CallGraph.reachable at h
  by_cases hsize : g.size = 0
  · rw [if_pos hsize, Except.ok.injEq] at h
    subst h
    simp [hsize, slot?]
  · rw [if_neg hsize] at h
    simp only at h
    split at h
    · rename_i hall
      rw [Except.ok.injEq] at h
      have hmem : ∀ x, x ∈ explore g.successors g.edges.size [rootMethod] ↔
          g.Reaches rootMethod x := fun x => mem_explore_successors
      have hmethod : g.Reaches rootMethod m → g.hasMethod m := fun hm =>
        List.all_eq_true.1 hall m ((hmem m).2 hm)
      refine ⟨?_, fun _ => hmethod⟩
      rw [← h, slot?_methods]
      constructor
      · intro hm
        split at hm
        · simp only [Option.getD_some, List.contains_eq_mem, decide_eq_true_eq, hmem] at hm
          exact ⟨by omega, hm⟩
        · simp at hm
      · rintro ⟨-, hm⟩
        simp [hmethod hm, hmem, hm]
    · cases h

section Marked

variable {rep : Array MethodId} {reachable : Array Bool}

/-- Marks do not change what is called. -/
theorem successors_markComponents : (g.markComponents rep reachable).successors = g.successors := by
  funext m
  simp only [successors, out, markComponents, Array.toList_map, List.filter_map, List.map_map]
  have hcall : ∀ e : Edge, (if (slot? reachable e.caller).getD false &&
      slot? rep e.caller == slot? rep e.callee then { e with inComponent := true } else e
      : Edge).toCallSite = e.toCallSite := by
    intro e
    split <;> rfl
  have hp : ((fun e : Edge => e.caller == m) ∘ fun e => if (slot? reachable e.caller).getD false &&
      slot? rep e.caller == slot? rep e.callee then { e with inComponent := true } else e) =
      fun e : Edge => e.caller == m := by
    funext e
    simp only [Function.comp_apply, hcall]
  rw [hp]
  refine List.map_congr_left fun e _ => ?_
  simp only [Function.comp_apply, hcall]

/-- The marked edges are the edges, with a mark inside components. -/
theorem mem_markComponents {e : Edge} (he : e ∈ (g.markComponents rep reachable).edges) :
    ∃ e₀ ∈ g.edges, e.toCallSite = e₀.toCallSite ∧ (e.inComponent ↔ e₀.inComponent ∨
      ((slot? reachable e.caller).getD false ∧ slot? rep e.caller = slot? rep e.callee)) := by
  obtain ⟨e₀, he₀, rfl⟩ := Array.mem_map.1 he
  refine ⟨e₀, he₀, ?_, ?_⟩
  · split <;> rfl
  · by_cases hmark : (slot? reachable e₀.caller).getD false &&
        slot? rep e₀.caller == slot? rep e₀.callee
    · rw [if_pos hmark]
      simp_all
    · rw [if_neg hmark]
      simp_all

theorem callSites_markComponents :
    (g.markComponents rep reachable).edges.toList.map (·.toCallSite) =
      g.edges.toList.map (·.toCallSite) := by
  simp only [markComponents, Array.toList_map, List.map_map]
  refine List.map_congr_left fun e _ => ?_
  simp only [Function.comp_apply]
  split <;> rfl

/-- The edges kept at a representative, by position. -/
theorem mem_leaving {r : MethodId} {i : Nat} :
    i ∈ g.leaving rep reachable r ↔ ∃ e, g.edges[i]? = some e ∧ g.hasMethod e.caller ∧
      slot? rep e.caller = some r ∧ (slot? reachable e.caller).getD false ∧ ¬ e.inComponent := by
  simp only [leaving, List.mem_flatMap, List.mem_filter, mem_methods, outPositions, List.mem_range,
    Bool.and_eq_true, beq_iff_eq, Option.any_eq_true, Bool.not_eq_true']
  constructor
  · rintro ⟨m, ⟨hm, hrep, hreach⟩, ⟨-, e, he, rfl⟩, e', he', hin⟩
    obtain rfl : e = e' := Option.some.inj (he.symm.trans he')
    exact ⟨e, he, hm, hrep, hreach, by simp [hin]⟩
  · rintro ⟨e, he, hm, hrep, hreach, hin⟩
    obtain ⟨hlt, -⟩ := Array.getElem?_eq_some_iff.1 he
    exact ⟨e.caller, ⟨hm, hrep, hreach⟩, ⟨hlt, e, he, rfl⟩, e, he, by simpa using hin⟩

/-- No edge leaves a component twice. -/
theorem nodup_leaving {r : MethodId} : (g.leaving rep reachable r).Nodup := by
  refine List.nodup_flatMap.2 ⟨fun m _ => (List.nodup_range.filter _).filter _, ?_⟩
  refine (nodup_methods.filter _).imp fun {a b} hab => ?_
  -- a position belongs to one caller
  refine List.disjoint_left.2 fun i hi hi' => hab ?_
  simp only [outPositions, List.mem_filter, Option.any_eq_true, beq_iff_eq] at hi hi'
  obtain ⟨⟨-, e, he, rfl⟩, -⟩ := hi
  obtain ⟨⟨-, e', he', rfl⟩, -⟩ := hi'
  rw [Option.some.inj (he.symm.trans he')]

end Marked

/-- **A graph that was marked is well-formed.** -/
theorem WellFormed.markComponents (hw : g.WellFormed) {reachable : Array Bool} :
    (g.markComponents (g.repTable g.representatives) reachable).WellFormed where
  caller e he := by
    obtain ⟨e₀, he₀, hcall, -⟩ := mem_markComponents he
    rw [hcall]
    exact hw.caller e₀ he₀
  distinct := by
    rw [callSites_markComponents]
    exact hw.distinct
  flagged e he hin := by
    obtain ⟨e₀, he₀, hcall, hiff⟩ := mem_markComponents he
    rw [CallGraph.Reaches, successors_markComponents]
    rcases hiff.1 hin with hin | ⟨-, hsame⟩
    · rw [hcall]
      exact hw.flagged e₀ he₀ hin
    · -- the representative of both ends leads from one to the other
      rw [hcall] at hsame ⊢
      have hm : g.hasMethod e₀.caller := hw.caller e₀ he₀
      obtain ⟨r, hr, -, hrm, -⟩ := slot?_repTable_representatives hm
      rw [hr] at hsame
      have hcallee : g.hasMethod e₀.callee := by
        rw [hasMethod_iff, ← size_repTable g g.representatives, ← slot?_isSome, ← hsame]
        rfl
      obtain ⟨r', hr', hmr', -⟩ := slot?_repTable_representatives hcallee
      rw [hr', Option.some.injEq] at hsame
      exact hmr'.trans (hsame ▸ hrm)

/-- Condensing a graph keeps its methods and its calls. -/
theorem mem_of_condense {reps : List MethodId} {g' : CallGraph} {c : Condensation}
    (h : g.condense reps = .ok (g', c)) {e : Edge} (he : e ∈ g'.edges) :
    ∃ e₀ ∈ g.edges, e.toCallSite = e₀.toCallSite := by
  obtain ⟨reachable, -, rfl, -⟩ := condense_eq_ok h
  obtain ⟨e₀, he₀, hcall, -⟩ := mem_markComponents he
  exact ⟨e₀, he₀, hcall⟩

/-- A condensed graph has the same calls. -/
theorem callSites_of_condense {reps : List MethodId} {g' : CallGraph} {c : Condensation}
    (h : g.condense reps = .ok (g', c)) :
    g'.edges.toList.map (·.toCallSite) = g.edges.toList.map (·.toCallSite) := by
  obtain ⟨reachable, -, rfl, -⟩ := condense_eq_ok h
  exact callSites_markComponents

theorem size_of_condense {reps : List MethodId} {g' : CallGraph} {c : Condensation}
    (h : g.condense reps = .ok (g', c)) : g'.size = g.size := by
  obtain ⟨reachable, -, rfl, -⟩ := condense_eq_ok h
  rfl

theorem edges_size_of_condense {reps : List MethodId} {g' : CallGraph} {c : Condensation}
    (h : g.condense reps = .ok (g', c)) : g'.edges.size = g.edges.size := by
  obtain ⟨reachable, -, rfl, -⟩ := condense_eq_ok h
  simp [CallGraph.markComponents]

theorem successors_of_condense {reps : List MethodId} {g' : CallGraph} {c : Condensation}
    (h : g.condense reps = .ok (g', c)) : g'.successors = g.successors := by
  obtain ⟨reachable, -, rfl, -⟩ := condense_eq_ok h
  exact successors_markComponents

/-- Condensing groups the methods by their own representatives. -/
theorem grouped_of_condense (hw : g.WellFormed) {g' : CallGraph} {c : Condensation}
    (h : g.condense g.representatives = .ok (g', c)) : Grouped g' c := by
  obtain ⟨reachable, hreach, rfl, hrep, hr, -⟩ := condense_eq_ok h
  have hreaches : (g.markComponents (g.repTable g.representatives) reachable).Reaches =
      g.Reaches := by
    rw [CallGraph.Reaches, successors_markComponents]
  have hspec : ∀ m, c.isReachable m ↔ 0 < g.size ∧ g.Reaches rootMethod m := fun m => by
    rw [Condensation.isReachable, hr]
    exact (reachable_eq_ok hreach m).1
  refine
    { wellFormed := hw.markComponents, size := ?_, rep := ?_, reachable := ?_, hasMethod := ?_ }
  · rw [Condensation.size, hrep, size_repTable]
    rfl
  · intro m hm
    rw [hreaches, Condensation.rep?, hrep]
    exact slot?_repTable_representatives hm
  · intro m
    rw [hreaches]
    exact hspec m
  · intro m hm
    obtain ⟨hsize, hreach'⟩ := (hspec m).1 hm
    exact (reachable_eq_ok hreach m).2 hsize hreach'

section Condense

variable {g' : CallGraph} {c : Condensation} (hw : g.WellFormed)
  (h : g.condense g.representatives = .ok (g', c))

include hw h

/-- An edge of a method the root reaches is marked iff it stays inside. -/
theorem flag_of_condense {e : Edge} (he : e ∈ g'.edges) (hreach : c.isReachable e.caller) :
    e.inComponent ↔ c.repD e.caller = c.repD e.callee := by
  have hg := grouped_of_condense hw h
  have hcaller := hg.hasMethod _ hreach
  have hcallee := hg.hasMethod _ (hg.isReachable_callee he hreach)
  constructor
  · intro hin
    exact (hg.repD_eq_iff hcaller hcallee).2 ⟨.of_edge he, hg.wellFormed.flagged e he hin⟩
  · intro hsame
    obtain ⟨reachable, -, rfl, hrep, hr, -⟩ := condense_eq_ok h
    obtain ⟨e₀, he₀, hcall, hiff⟩ := mem_markComponents he
    refine hiff.2 (.inr ⟨by rw [← hr]; exact hreach, ?_⟩)
    rw [← hrep]
    change c.rep? e.caller = c.rep? e.callee
    rw [hg.rep?_eq hcaller, hg.rep?_eq hcallee, hsame]

/-- **The edges out of a component** are those of its reachable methods that end
elsewhere. -/
theorem mem_out_of_condense (r : MethodId) (i : Nat) :
    i ∈ c.outOf r ↔ ∃ e, g'.edges[i]? = some e ∧ c.isReachable e.caller ∧
      c.repD e.caller = r ∧ c.repD e.callee ≠ r := by
  have hg := grouped_of_condense hw h
  obtain ⟨reachable, -, hg', hrep, hr, hout, -⟩ := condense_eq_ok h
  have hmem : i ∈ c.outOf r ↔ g'.hasMethod r ∧ i ∈ g'.leaving c.rep c.reachable r := by
    rw [Condensation.outOf, hout, slot?_methods, hrep, hr]
    split <;> simp_all
  rw [hmem, mem_leaving]
  constructor
  · rintro ⟨-, e, he, hm, hrepr, hreach, hin⟩
    have hrepr : c.repD e.caller = r := by
      rw [Condensation.repD, Condensation.rep?, hrepr, Option.getD_some]
    have hemem : e ∈ g'.edges := Array.mem_of_getElem? he
    refine ⟨e, he, hreach, hrepr, fun hsame => hin ?_⟩
    exact (flag_of_condense hw h hemem hreach).2 (hrepr.trans hsame.symm)
  · rintro ⟨e, he, hreach, hrepr, hne⟩
    have hm := hg.hasMethod _ hreach
    have hemem : e ∈ g'.edges := Array.mem_of_getElem? he
    refine ⟨hrepr ▸ hg.hasMethod_repD hm, e, he, hm, ?_, hreach, fun hin => hne ?_⟩
    · rw [← hrepr]
      exact hg.rep?_eq hm
    · rw [← hrepr]
      exact ((flag_of_condense hw h hemem hreach).1 hin).symm

/-- The calls between components. -/
theorem mem_calleesOf {u t : MethodId} :
    t ∈ g'.calleesOf c.rep c.out u ↔ ∃ e ∈ g'.edges, c.isReachable e.caller ∧
      c.repD e.caller = u ∧ c.repD e.callee = t ∧ t ≠ u := by
  have hg := grouped_of_condense hw h
  have hcallee : ∀ e ∈ g'.edges, c.isReachable e.caller →
      slot? c.rep e.callee = some (c.repD e.callee) := fun e he hreach =>
    hg.rep?_eq (hg.hasMethod _ (hg.isReachable_callee he hreach))
  have hout : ∀ i, i ∈ (slot? c.out u).getD [] ↔ _ := mem_out_of_condense hw h u
  simp only [calleesOf, List.mem_filterMap, Option.bind_eq_some_iff, hout]
  constructor
  · rintro ⟨i, ⟨e, he, hreach, rfl, hne⟩, e', he', ht⟩
    obtain rfl : e = e' := Option.some.inj (he.symm.trans he')
    have hemem : e ∈ g'.edges := Array.mem_of_getElem? he
    rw [hcallee e hemem hreach, Option.some.injEq] at ht
    subst ht
    exact ⟨e, hemem, hreach, rfl, rfl, hne⟩
  · rintro ⟨e, hemem, hreach, rfl, rfl, hne⟩
    obtain ⟨i, hi⟩ := Array.mem_iff_getElem?.1 hemem
    exact ⟨i, ⟨e, hi, hreach, rfl, hne⟩, e, hi, hcallee e hemem hreach⟩

/-- Along a call between components more and more methods lie above. -/
theorem exists_depth_of_condense : ∃ depth : MethodId → Nat, ∀ e ∈ g'.edges,
    c.isReachable e.caller → c.repD e.callee ≠ c.repD e.caller →
      depth (c.repD e.caller) < depth (c.repD e.callee) := by
  classical
  have hg := grouped_of_condense hw h
  refine ⟨fun t => (g'.methods.filter fun m => decide (g'.Reaches m t)).length, ?_⟩
  intro e he hreach hne
  have hm := hg.hasMethod _ hreach
  have hm' := hg.hasMethod _ (hg.isReachable_callee he hreach)
  have hfwd : g'.Reaches (c.repD e.caller) (c.repD e.callee) :=
    (hg.reaches_repD hm).2.trans ((Reaches.of_edge he).trans (hg.reaches_repD hm').1)
  have hnot : ¬ g'.Reaches (c.repD e.callee) (c.repD e.caller) := fun hback => hne <| by
    rw [← hg.repD_repD hm, ← hg.repD_repD hm']
    exact (hg.repD_eq_iff (hg.hasMethod_repD hm') (hg.hasMethod_repD hm)).2 ⟨hback, hfwd⟩
  -- what is above the caller is above the callee, and the callee is above itself
  have hsub : g'.methods.filter (fun m => decide (g'.Reaches m (c.repD e.caller))) =
      (g'.methods.filter fun m => decide (g'.Reaches m (c.repD e.callee))).filter
        fun m => decide (g'.Reaches m (c.repD e.caller)) := by
    rw [List.filter_filter]
    refine List.filter_congr fun m _ => ?_
    by_cases hmu : g'.Reaches m (c.repD e.caller)
    · simp [hmu, hmu.trans hfwd]
    · simp [hmu]
  beta_reduce
  rw [hsub, List.length_filter_lt_length_iff_exists]
  exact ⟨c.repD e.callee, by simp [hg.hasMethod_repD hm', Relation.ReflTransGen.refl],
    by simpa using hnot⟩

/-- **The components of a graph are layered.** -/
theorem layered_of_condense (hsize : 0 < g'.size) :
    Condensation.Layered g'.methods (g'.calleesOf c.rep c.out)
      fun r => c.isReachable r ∧ c.repD r = r := by
  have hg := grouped_of_condense hw h
  have hrootM : c.isReachable rootMethod := (hg.reachable _).2 ⟨hsize, .refl⟩
  have hroot : c.repD rootMethod = rootMethod := hg.repD_root hsize
  have hcallee : ∀ e ∈ g'.edges, c.isReachable e.caller →
      c.isReachable (c.repD e.callee) ∧ c.repD (c.repD e.callee) = c.repD e.callee := by
    intro e he hreach
    have hr := hg.isReachable_callee he hreach
    exact ⟨(hg.isReachable_repD (hg.hasMethod _ hr)).2 hr, hg.repD_repD (hg.hasMethod _ hr)⟩
  refine
    { nodup := nodup_methods, nonneg := fun m hm => (hasMethod_iff.1 (mem_methods.1 hm)).1
      live_mem := fun m hm => mem_methods.2 (hg.hasMethod m hm.1), root := ⟨hrootM, hroot⟩
      caller_live := ?_, callee_live := ?_, called := ?_, root_first := ?_, acyclic := ?_ }
  · intro u _ t ht
    obtain ⟨e, -, hreach, rfl, -⟩ := (mem_calleesOf hw h).1 ht
    have hm := hg.hasMethod _ hreach
    exact ⟨(hg.isReachable_repD hm).2 hreach, hg.repD_repD hm⟩
  · intro u _ t ht
    obtain ⟨e, he, hreach, -, rfl, -⟩ := (mem_calleesOf hw h).1 ht
    exact hcallee e he hreach
  · rintro t ⟨htr, htt⟩ hne
    obtain ⟨e, he, hreach, hto, hfrom⟩ := hg.exists_entering htr (by rwa [htt])
    rw [htt] at hto hfrom
    have hm := hg.hasMethod _ hreach
    exact ⟨c.repD e.caller, ⟨(hg.isReachable_repD hm).2 hreach, hg.repD_repD hm⟩,
      (mem_calleesOf hw h).2 ⟨e, he, hreach, rfl, hto, Ne.symm hfrom⟩⟩
  · intro u _ hu
    obtain ⟨e, he, hreach, rfl, hto, hne⟩ := (mem_calleesOf hw h).1 hu
    -- the root reaches the caller, and the caller the root
    have hm := hg.hasMethod _ hreach
    have hm' := hg.hasMethod _ (hg.isReachable_callee he hreach)
    have hback : g'.Reaches e.caller rootMethod :=
      (Reaches.of_edge he).trans (hto ▸ (hg.reaches_repD hm').1)
    have := (hg.repD_eq_iff (hg.hasMethod _ hrootM) hm).2 ⟨((hg.reachable _).1 hreach).2, hback⟩
    rw [hroot] at this
    exact hne this
  · obtain ⟨depth, hdepth⟩ := exists_depth_of_condense hw h
    refine ⟨depth, fun u t _ ht => ?_⟩
    obtain ⟨e, he, hreach, rfl, rfl, hne⟩ := (mem_calleesOf hw h).1 ht
    exact hdepth e he hreach hne

/-- **The traversal of a condensed graph finishes.** -/
theorem finished_of_condense (hsize : 0 < g'.size) :
    Condensation.Traversal.Finished g'.methods (g'.calleesOf c.rep c.out)
      (fun r => c.isReachable r ∧ c.repD r = r) (g'.traverse c.rep c.out) := by
  have hl := layered_of_condense hw h hsize
  have hcount : ∀ t, Condensation.Traversal.into t
      (g'.methods.flatMap (Condensation.Traversal.arcs (g'.calleesOf c.rep c.out))) =
      (g'.methods.flatMap (g'.calleesOf c.rep c.out)).count t := by
    intro t
    have hmap : g'.methods.flatMap (g'.calleesOf c.rep c.out) = (g'.methods.flatMap
        (Condensation.Traversal.arcs (g'.calleesOf c.rep c.out))).map (·.2) := by
      simp [List.map_flatMap, Condensation.Traversal.arcs, Function.comp_def]
    rw [hmap, List.count_eq_countP, List.countP_map]
    rfl
  have hwait : ∀ t ∈ g'.methods, slot? (g'.methods.map fun m =>
      ((g'.methods.flatMap (g'.calleesOf c.rep c.out)).count m : Int)).toArray t =
      some (Condensation.Traversal.into t
        (g'.methods.flatMap (Condensation.Traversal.arcs (g'.calleesOf c.rep c.out))) : Int) := by
    intro t ht
    rw [slot?_methods, if_pos (mem_methods.1 ht), hcount]
  obtain ⟨s, hs, hqueue, hrun⟩ := Condensation.Traversal.run_running hl (g'.size + 1)
    { queue := [rootMethod]
      rank := Array.replicate g'.size 0
      waiting := (g'.methods.map fun m =>
        ((g'.methods.flatMap (g'.calleesOf c.rep c.out)).count m : Int)).toArray }
    (Condensation.Traversal.running_start hl
      (fun m hm => (hasMethod_iff.1 (mem_methods.1 hm)).2) hwait)
    (by simp [length_methods])
  rw [traverse, if_neg (by omega), hs]
  exact hrun.finished hl hqueue

/-- The members of a component are the methods with its representative. -/
theorem mem_members_of_condense (r m : MethodId) :
    m ∈ c.membersOf r ↔ g'.hasMethod m ∧ c.repD m = r := by
  have hg := grouped_of_condense hw h
  obtain ⟨-, -, -, hrep, -, -, hmembers, -, -⟩ := condense_eq_ok h
  have hslot : ∀ m, g'.hasMethod m → slot? (g.repTable g.representatives) m =
      some (c.repD m) := fun m hm => by rw [← hrep]; exact hg.rep?_eq hm
  rw [Condensation.membersOf, hmembers, slot?_methods]
  constructor
  · intro hm
    split at hm
    · simp only [Option.getD_some, List.mem_filter, mem_methods, beq_iff_eq] at hm
      rw [hslot m hm.1, Option.some.injEq] at hm
      exact hm
    · simp at hm
  · rintro ⟨hm, rfl⟩
    rw [if_pos (hg.hasMethod_repD hm)]
    simp [hm, hslot m hm]

/-- **Condensing a graph by its own representatives condenses it.** -/
theorem condensed_of_condense : Condensed g' c := by
  have hg := grouped_of_condense hw h
  obtain ⟨reachable, -, -, -, -, hout, -, hrank, horder⟩ := condense_eq_ok h
  have houtNodup : ∀ r, (c.outOf r).Nodup := by
    intro r
    rw [Condensation.outOf, hout, slot?_methods]
    split
    · exact nodup_leaving
    · exact List.nodup_nil
  have hpos : ∀ m, c.isReachable m → 0 < g'.size := fun m hm => ((hg.reachable m).1 hm).1
  have hcall : ∀ e ∈ g'.edges, c.isReachable e.caller → c.repD e.caller ≠ c.repD e.callee →
      c.repD e.callee ∈ g'.calleesOf c.rep c.out (c.repD e.caller) := fun e he hreach hne =>
    (mem_calleesOf hw h).2 ⟨e, he, hreach, rfl, rfl, Ne.symm hne⟩
  have hrankOf : ∀ m, g'.hasMethod m →
      c.rankOf m = (g'.traverse c.rep c.out).rankAt (c.repD m) := fun m _ => by
    rw [Condensation.rankOf, hrank]
    rfl
  refine
    { hg with
      flag := fun e he hreach => flag_of_condense hw h he hreach
      mem_out := mem_out_of_condense hw h
      out_nodup := houtNodup
      mem_members := mem_members_of_condense hw h
      order_nodup := ?_, mem_order := ?_, sorted := ?_, rank_lt := ?_ }
  · rw [horder]
    -- without methods there is no root to start from
    by_cases hsize : g'.size = 0
    · simp [traverse, hsize, Condensation.Traversal.run]
    · exact (finished_of_condense hw h (by omega)).nodup
  · intro r
    rw [horder]
    by_cases hsize : g'.size = 0
    · have : ¬ c.isReachable r := fun hr => by have := hpos r hr; omega
      simp [traverse, hsize, Condensation.Traversal.run, this]
    · exact (finished_of_condense hw h (by omega)).mem_order r
  · intro e he hreach hne
    have hf := finished_of_condense hw h (hpos _ hreach)
    have hm := hg.hasMethod _ hreach
    have hr' := hg.isReachable_callee he hreach
    rw [horder]
    refine hf.sorted _ ((hf.mem_order _).2 ?_) _ (mem_methods.2 (hg.hasMethod_repD hm))
      (hcall e he hreach hne)
    exact ⟨(hg.isReachable_repD (hg.hasMethod _ hr')).2 hr', hg.repD_repD (hg.hasMethod _ hr')⟩
  · intro e he hreach hne
    have hf := finished_of_condense hw h (hpos _ hreach)
    have hm := hg.hasMethod _ hreach
    have hm' := hg.hasMethod _ (hg.isReachable_callee he hreach)
    rw [hrankOf _ hm, hrankOf _ hm']
    exact hf.rank_ge _ ⟨(hg.isReachable_repD hm).2 hreach, hg.repD_repD hm⟩ _
      (hcall e he hreach hne)

end Condense

/-! ## A small graph -/

/-- The root calls a method at two sites. The method calls itself, and another
one at two sites. -/
def twoEntries : CallGraph where
  size := 3
  edges := #[⟨⟨0, 1, 1⟩, false, 0⟩, ⟨⟨0, 1, 2⟩, false, 0⟩, ⟨⟨1, 1, 3⟩, false, 0⟩,
    ⟨⟨1, 2, 4⟩, false, 0⟩, ⟨⟨1, 2, 5⟩, false, 0⟩]

/-- `twoEntries` with the call inside a component marked. -/
def twoEntriesMarked : CallGraph :=
  { twoEntries with edges := twoEntries.edges.modify 2 ({ · with inComponent := true }) }

/-- Every method of `twoEntries` is a component of its own. -/
def twoEntriesCondensed : Condensation where
  rep := #[0, 1, 2]
  rank := #[0, 1, 2]
  out := #[[0, 1], [3, 4], []]
  members := #[[0], [1], [2]]
  reachable := #[true, true, true]
  order := [0, 1, 2]

theorem wellFormed_twoEntries : twoEntries.WellFormed :=
  ⟨by decide, by decide, by simp [twoEntries]⟩

theorem condense_twoEntries : twoEntries.condense twoEntries.representatives =
    .ok (twoEntriesMarked, twoEntriesCondensed) := by
  cbv

/-! ## Graphs with the same calls -/

/-- The graph before contexts are given to its edges. -/
def unmapped (g : CallGraph) : CallGraph :=
  { g with edges := g.edges.map fun e => { e with offset := 0 } }

section Unmapped

variable {g' : CallGraph} (h : g'.unmapped = g.unmapped)

include h

theorem size_of_unmapped : g'.size = g.size := by
  change g'.unmapped.size = g.unmapped.size
  rw [h]

/-- Edges at the same position are the same call. -/
theorem getElem?_of_unmapped {i : Nat} {e' : Edge} (he : g'.edges[i]? = some e') :
    ∃ e, g.edges[i]? = some e ∧ e.toCallSite = e'.toCallSite ∧ e.inComponent = e'.inComponent := by
  have hi := congrArg (fun g => g.edges[i]?) h
  simp only [unmapped, Array.getElem?_map, he, Option.map_some] at hi
  obtain ⟨e, hg, heq⟩ := Option.map_eq_some_iff.1 hi.symm
  simp only [Edge.mk.injEq] at heq
  exact ⟨e, hg, heq.1, heq.2.1⟩

/-- An edge keeps its call and its mark, whatever its offset is. -/
theorem mem_of_unmapped {e' : Edge} (he : e' ∈ g'.edges) :
    ∃ e ∈ g.edges, e.toCallSite = e'.toCallSite ∧ e.inComponent = e'.inComponent := by
  obtain ⟨i, hi⟩ := Array.mem_iff_getElem?.1 he
  obtain ⟨e, hg, hcall⟩ := getElem?_of_unmapped h hi
  exact ⟨e, Array.mem_of_getElem? hg, hcall⟩

theorem successors_of_unmapped : g'.successors = g.successors := by
  have hbare : ∀ g : CallGraph, g.unmapped.successors = g.successors := by
    intro g
    funext m
    simp [successors, out, unmapped, List.filter_map, Function.comp_def]
  rw [← hbare g', h, hbare g]

/-- The calls are the same in the same order. -/
theorem callSites_of_unmapped :
    g'.edges.toList.map (·.toCallSite) = g.edges.toList.map (·.toCallSite) := by
  have hbare : ∀ g : CallGraph,
      g.unmapped.edges.toList.map (·.toCallSite) = g.edges.toList.map (·.toCallSite) := by
    intro g
    simp [unmapped, Function.comp_def]
  rw [← hbare g', h, hbare g]

/-- Offsets are no matter of being well-formed. -/
theorem WellFormed.of_unmapped (hw : g.WellFormed) : g'.WellFormed where
  caller e' he' := by
    obtain ⟨e, he, hcall, -⟩ := mem_of_unmapped h he'
    rw [← hcall, hasMethod, size_of_unmapped h]
    exact hw.caller e he
  distinct := by rw [callSites_of_unmapped h]; exact hw.distinct
  flagged e' he' hin := by
    obtain ⟨e, he, hcall, hflag⟩ := mem_of_unmapped h he'
    rw [Reaches, successors_of_unmapped h, ← hcall]
    exact hw.flagged e he (hflag ▸ hin)

/-- **A condensation is one of every graph with the same calls.** -/
theorem condensed_of_unmapped {c : Condensation} (hc : Condensed g c) : Condensed g' c := by
  have hsize := size_of_unmapped h
  have hreaches : g'.Reaches = g.Reaches := by rw [Reaches, successors_of_unmapped h]
  have hmethod : g'.hasMethod = g.hasMethod := by
    funext m
    rw [hasMethod, hasMethod, hsize]
  refine
    { wellFormed := hc.wellFormed.of_unmapped h, size := hc.size.trans hsize.symm, rep := ?_
      reachable := ?_, hasMethod := ?_, flag := ?_, mem_out := ?_, out_nodup := hc.out_nodup
      mem_members := ?_, order_nodup := hc.order_nodup, mem_order := hc.mem_order
      sorted := ?_, rank_lt := ?_ }
  · rw [hmethod, hreaches]; exact hc.rep
  · rw [hsize, hreaches]; exact hc.reachable
  · rw [hmethod]; exact hc.hasMethod
  · intro e' he'
    obtain ⟨e, he, hcall, hflag⟩ := mem_of_unmapped h he'
    rw [← hcall, ← hflag]
    exact hc.flag e he
  · intro r i
    rw [hc.mem_out r i]
    constructor
    · rintro ⟨e, he, hrest⟩
      obtain ⟨e', he', hcall, -⟩ := getElem?_of_unmapped h.symm he
      exact ⟨e', he', by rw [hcall]; exact hrest⟩
    · rintro ⟨e', he', hrest⟩
      obtain ⟨e, he, hcall, -⟩ := getElem?_of_unmapped h he'
      exact ⟨e, he, by rw [hcall]; exact hrest⟩
  · rw [hmethod]; exact hc.mem_members
  · intro e' he'
    obtain ⟨e, he, hcall, -⟩ := mem_of_unmapped h he'
    rw [← hcall]
    exact hc.sorted e he
  · intro e' he'
    obtain ⟨e, he, hcall, -⟩ := mem_of_unmapped h he'
    rw [← hcall]
    exact hc.rank_lt e he

end Unmapped

end CallGraph

end PointsTo
