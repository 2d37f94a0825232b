import Mathlib.Order.Bounds.Basic
import PointsTo.Proofs.Condensation
/-!
# Ranks are longest ways

The traversal that orders the components also ranks them: a component is
one above the highest of its callers. So no way along the calls crosses
more components than the rank of the method it leads to, and some way
crosses as many. `condense_ranks` says this together with what is in the
order and in which place, and when there is a condensation at all.
-/

namespace PointsTo

/-- A way along calls from one method to another. -/
inductive CallGraph.Way (g : CallGraph) (a : MethodId) : MethodId → List Edge → Prop
  | nil : Way g a a []
  | snoc {p : List Edge} {e : Edge} (hp : Way g a e.caller p) (he : e ∈ g.edges) :
      Way g a e.callee (p ++ [e])

/-- How many calls of a way lead from one component to another. -/
def Condensation.crossings (c : Condensation) (p : List Edge) : Nat :=
  p.countP fun e => c.repD e.caller != c.repD e.callee

theorem Condensation.crossings_append (c : Condensation) (p q : List Edge) :
    c.crossings (p ++ q) = c.crossings p + c.crossings q := List.countP_append

theorem Condensation.crossings_singleton (c : Condensation) (e : Edge) :
    c.crossings [e] = if c.repD e.caller = c.repD e.callee then 0 else 1 := by
  by_cases h : c.repD e.caller = c.repD e.callee <;> simp [crossings, h]

namespace CallGraph

variable {g : CallGraph} {a b m : MethodId} {p : List Edge}

namespace Way

theorem reaches (h : g.Way a b p) : g.Reaches a b := by
  induction h with
  | nil => exact .refl
  | snoc _ he ih => exact ih.trans (Reaches.of_edge he)

/-- A way goes on along every further call. -/
theorem exists_append (h : g.Way a b p) (hb : g.Reaches b m) : ∃ q, g.Way a m (p ++ q) := by
  induction hb with
  | refl => exact ⟨[], by simpa using h⟩
  | tail _ hstep ih =>
    obtain ⟨q, hq⟩ := ih
    obtain ⟨e, he, rfl, rfl⟩ := mem_successors.1 hstep
    exact ⟨q ++ [e], by simpa using hq.snoc he⟩

end Way

/-- Methods that the root reaches are methods of the graph iff it can be
condensed: nothing else can go wrong. -/
theorem exists_condense_iff (hw : g.WellFormed) (hroot : g.hasMethod rootMethod) :
    (∃ g' c, g.condense g.representatives = .ok (g', c)) ↔
      ∀ m, g.Reaches rootMethod m → g.hasMethod m := by
  have hsize : 0 < g.size := by
    obtain ⟨h0, hlt⟩ := hasMethod_iff.1 hroot
    omega
  constructor
  · rintro ⟨g', c, h⟩ m hm
    obtain ⟨reachable, hreach, -⟩ := condense_eq_ok h
    exact (reachable_eq_ok hreach m).2 hsize hm
  · intro hall
    have hreach : ∃ reachable, g.reachable = .ok reachable := by
      have hmem : (explore g.successors g.edges.size [rootMethod]).all g.hasMethod :=
        List.all_eq_true.2 fun m hm => hall m (mem_explore_successors.1 hm)
      rw [CallGraph.reachable, if_neg (by omega)]
      exact ⟨_, if_pos hmem⟩
    obtain ⟨reachable, hreach⟩ := hreach
    simp only [condense, checkReps_representatives hw, hreach]
    exact ⟨_, _, rfl⟩

section Condense

variable {g' : CallGraph} {c : Condensation} (hw : g.WellFormed)
  (h : g.condense g.representatives = .ok (g', c))

include hw h

/-- **A rank is zero or one more than that of a caller** in another component,
and only what the root reaches has a caller. -/
theorem rank_hit_of_condense (hm : g'.hasMethod m) : c.rankOf m = 0 ∨
    ∃ e ∈ g'.edges, c.isReachable e.caller ∧ c.repD e.callee = c.repD m ∧
      c.repD e.caller ≠ c.repD m ∧ c.rankOf m = c.rankOf e.caller + 1 := by
  have hg := grouped_of_condense hw h
  obtain ⟨reachable, -, -, -, -, -, -, hrank, -⟩ := condense_eq_ok h
  have hrankOf : ∀ m, c.rankOf m = (g'.traverse c.rep c.out).rankAt (c.repD m) := fun m => by
    rw [Condensation.rankOf, hrank]
    rfl
  have hsize : 0 < g'.size := by
    obtain ⟨h0, hlt⟩ := hasMethod_iff.1 hm
    omega
  rw [hrankOf m]
  refine ((finished_of_condense hw h hsize).rank_hit (c.repD m)).imp id ?_
  rintro ⟨u, -, ht, hhit⟩
  obtain ⟨e, he, hreach, rfl, hto, hne⟩ := (mem_calleesOf hw h).1 ht
  exact ⟨e, he, hreach, hto, Ne.symm hne, by rw [hhit, hrankOf e.caller]⟩

end Condense

end CallGraph

namespace Condensed

open CallGraph (Way)

variable {g : CallGraph} {c : Condensation} (h : Condensed g c) {m : MethodId} {p : List Edge}

include h

/-- **No way from the root crosses more components than the rank.** -/
theorem crossings_le_rank (hsize : 0 < g.size) (hp : g.Way rootMethod m p) :
    c.crossings p ≤ c.rankOf m := by
  induction hp with
  | nil => exact Nat.zero_le _
  | @snoc p e hp he ih =>
    have hreach : c.isReachable e.caller := (h.reachable _).2 ⟨hsize, hp.reaches⟩
    rw [c.crossings_append, c.crossings_singleton]
    by_cases hsame : c.repD e.caller = c.repD e.callee
    · have hrank : c.rankOf e.caller = c.rankOf e.callee := by
        rw [Condensation.rankOf, hsame, Condensation.rankOf]
      rw [if_pos hsame]
      omega
    · have hlt := h.rank_lt e he hreach hsame
      rw [if_neg hsame]
      omega

end Condensed

namespace CallGraph

variable {g g' : CallGraph} {c : Condensation} {m : MethodId}

/-- **Some way from the root crosses as many components as the rank**: a way to the
caller that the rank comes from, the call, and on inside the component. -/
theorem exists_way_of_condense (hw : g.WellFormed)
    (h : g.condense g.representatives = .ok (g', c)) (hm : c.isReachable m) :
    ∃ p, g'.Way rootMethod m p ∧ c.crossings p = c.rankOf m := by
  have hc := condensed_of_condense hw h
  induction hn : c.rankOf m using Nat.strongRecOn generalizing m with
  | ind n ih =>
    obtain ⟨hsize, hreach⟩ := (hc.reachable m).1 hm
    rcases rank_hit_of_condense hw h (hc.hasMethod m hm) with h0 | ⟨e, he, hcaller, hto, hne, hhit⟩
    · obtain ⟨p, hp⟩ := Way.nil.exists_append hreach
      have hle := hc.crossings_le_rank hsize hp
      exact ⟨_, hp, by omega⟩
    · obtain ⟨p, hp, hcross⟩ := ih _ (by omega) hcaller rfl
      have hcallee : g'.hasMethod e.callee := hc.hasMethod _ (hc.isReachable_callee he hcaller)
      have hback := ((hc.repD_eq_iff hcallee (hc.hasMethod m hm)).1 hto).1
      obtain ⟨q, hq⟩ := (hp.snoc he).exists_append hback
      have hle := hc.crossings_le_rank hsize hq
      -- the call crosses once more, and no way crosses more often than the rank
      have hcall : c.crossings [e] = 1 := by
        rw [c.crossings_singleton, if_neg fun hsame => hne (hsame.trans hto)]
      refine ⟨_, hq, ?_⟩
      rw [c.crossings_append, c.crossings_append] at hle ⊢
      omega

/-- **The order is complete and topological, and ranks are longest ways.** A graph with
the root can be condensed iff the root reaches methods only. The order of its
components then holds the representative of each method that the root reaches once,
and nothing else, with callers before callees. The rank of such a method is the
largest number of components that a way from the root to it crosses, and other
methods have rank zero. -/
theorem condense_ranks (hw : g.WellFormed) (hroot : g.hasMethod rootMethod) :
    ((∃ g' c, g.condense g.representatives = .ok (g', c)) ↔
      ∀ m, g.Reaches rootMethod m → g.hasMethod m) ∧
    ∀ g' c, g.condense g.representatives = .ok (g', c) →
      (∀ a b, g.hasMethod a → g.hasMethod b →
        (c.repD a = c.repD b ↔ g.Reaches a b ∧ g.Reaches b a)) ∧
      c.order.Nodup ∧
      (∀ r, r ∈ c.order ↔ ∃ m, g.Reaches rootMethod m ∧ c.repD m = r) ∧
      (∀ e ∈ g'.edges, g.Reaches rootMethod e.caller → c.repD e.caller ≠ c.repD e.callee →
        c.order.idxOf (c.repD e.caller) < c.order.idxOf (c.repD e.callee)) ∧
      (∀ m, g.Reaches rootMethod m →
        IsGreatest (c.crossings '' {p | g'.Way rootMethod m p}) (c.rankOf m)) ∧
      (∀ m, g.Reaches rootMethod m → g.Reaches m rootMethod → c.rankOf m = 0) ∧
      ∀ m, g.hasMethod m → ¬ g.Reaches rootMethod m → c.rankOf m = 0 := by
  refine ⟨exists_condense_iff hw hroot, fun g' c h => ?_⟩
  have hc := condensed_of_condense hw h
  have hreaches : g'.Reaches = g.Reaches := by rw [Reaches, successors_of_condense h]
  have hmethod : ∀ m, g'.hasMethod m ↔ g.hasMethod m := fun m => by
    rw [hasMethod, hasMethod, size_of_condense h]
  have hsize : 0 < g'.size := by
    obtain ⟨h0, hlt⟩ := hasMethod_iff.1 ((hmethod rootMethod).2 hroot)
    omega
  have hlive : ∀ m, c.isReachable m ↔ g.Reaches rootMethod m := fun m => by
    rw [hc.reachable m, hreaches]
    exact and_iff_right hsize
  have hrank : ∀ m, g.Reaches rootMethod m →
      IsGreatest (c.crossings '' {p | g'.Way rootMethod m p}) (c.rankOf m) := by
    intro m hm
    obtain ⟨p, hp, hcross⟩ := exists_way_of_condense hw h ((hlive m).2 hm)
    refine ⟨⟨p, hp, hcross⟩, ?_⟩
    rintro _ ⟨q, hq, rfl⟩
    exact hc.crossings_le_rank hsize hq
  refine ⟨?_, hc.order_nodup, ?_, ?_, hrank, ?_, ?_⟩
  · intro a b ha hb
    rw [hc.repD_eq_iff ((hmethod a).2 ha) ((hmethod b).2 hb), hreaches]
  · intro r
    rw [hc.mem_order]
    constructor
    · rintro ⟨hr, hself⟩
      exact ⟨r, (hlive r).1 hr, hself⟩
    · rintro ⟨m, hm, rfl⟩
      have hm' := hc.hasMethod m ((hlive m).2 hm)
      exact ⟨(hc.isReachable_repD hm').2 ((hlive m).2 hm), hc.repD_repD hm'⟩
  · intro e he hm hne
    exact hc.sorted e he ((hlive _).2 hm) hne
  · intro m hm hback
    have hm' := hc.hasMethod m ((hlive m).2 hm)
    rcases rank_hit_of_condense hw h hm' with h0 | ⟨e, he, hcaller, hto, hne, -⟩
    · exact h0
    · -- a caller of the root's component is reached by the root, and so is in it
      have hcaller' := hc.hasMethod _ hcaller
      have hcallee' := hc.hasMethod _ (hc.isReachable_callee he hcaller)
      have hdown := (Reaches.of_edge he).trans ((hc.repD_eq_iff hcallee' hm').1 hto).1
      have hup : g'.Reaches m e.caller := hreaches ▸ hback.trans ((hlive _).1 hcaller)
      exact absurd ((hc.repD_eq_iff hcaller' hm').2 ⟨hdown, hup⟩) hne
  · intro m hm hnot
    rcases rank_hit_of_condense hw h ((hmethod m).2 hm) with h0 | ⟨e, he, hcaller, hto, -⟩
    · exact h0
    · -- a method with a caller that the root reaches is reached
      have hcallee := hc.isReachable_callee he hcaller
      have hback := ((hc.repD_eq_iff (hc.hasMethod _ hcallee) ((hmethod m).2 hm)).1 hto).1
      exact absurd ((hlive m).1 (hc.isReachable_of_reaches hcallee hback)) hnot

/-- Two calls between components lead to the method called last, past the call
inside a component. -/
theorem condense_ranks_twoEntries :
    IsGreatest (twoEntriesCondensed.crossings '' {p | twoEntriesMarked.Way rootMethod 2 p}) 2 ∧
      twoEntriesCondensed.order = [0, 1, 2] := by
  have hreach : twoEntries.Reaches rootMethod 2 :=
    (Relation.ReflTransGen.single
      (show (1 : Int) ∈ twoEntries.successors rootMethod by decide)).tail
      (show (2 : Int) ∈ twoEntries.successors 1 by decide)
  obtain ⟨-, hspec⟩ := condense_ranks wellFormed_twoEntries (by decide)
  obtain ⟨-, -, -, -, hrank, -⟩ := hspec _ _ condense_twoEntries
  exact ⟨hrank 2 hreach, rfl⟩

end CallGraph

end PointsTo
