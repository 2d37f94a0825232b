import Mathlib.Data.List.Flatten
import Mathlib.Data.List.Perm.Subperm
import PointsTo.CallGraph.Condensation
import PointsTo.Proofs.Tables
/-!
# The traversal of the components

A traversal that finalizes a component once all its callers are finalized.
`Layered` is what it asks of the components; `Running` is its invariant,
relative to the arcs it has relaxed: a component is put in the queue at
the moment its last incoming arc is relaxed, and its rank does not change
from then on. `run_finished` reads off the end of the run: every live
component is finalized once, after its callers, and its rank is one more
than the largest rank of a caller.
-/

namespace PointsTo

namespace Condensation

/-- The components the root is above of, without cycles. A component is
live if the root reaches it; others have no arcs. -/
structure Layered (nodes : List MethodId) (callees : MethodId → List MethodId)
    (live : MethodId → Prop) : Prop where
  nodup : nodes.Nodup
  nonneg : ∀ m : Int, m ∈ nodes → 0 ≤ m
  live_mem : ∀ m, live m → m ∈ nodes
  root : live rootMethod
  caller_live : ∀ u ∈ nodes, ∀ t ∈ callees u, live u
  callee_live : ∀ u, live u → ∀ t ∈ callees u, live t
  called : ∀ t, live t → t ≠ rootMethod → ∃ u, live u ∧ t ∈ callees u
  root_first : ∀ u, live u → rootMethod ∉ callees u
  acyclic : ∃ depth : MethodId → Nat, ∀ u t, live u → t ∈ callees u → depth u < depth t

namespace Traversal

/-- The arcs out of a component. -/
def arcs (callees : MethodId → List MethodId) (m : MethodId) : List (MethodId × MethodId) :=
  (callees m).map (m, ·)

/-- How many arcs of a list lead to a component. -/
def into (t : MethodId) (l : List (MethodId × MethodId)) : Nat := l.countP (·.2 == t)

variable {callees : MethodId → List MethodId} {nodes : List MethodId} {live : MethodId → Prop}

theorem mem_arcs {m u t : MethodId} : (u, t) ∈ arcs callees m ↔ u = m ∧ t ∈ callees m := by
  simp [arcs, eq_comm, and_comm]

theorem into_append {t : MethodId} {l₁ l₂ : List (MethodId × MethodId)} :
    into t (l₁ ++ l₂) = into t l₁ + into t l₂ := List.countP_append

theorem into_pos {t : MethodId} {l : List (MethodId × MethodId)} :
    0 < into t l ↔ ∃ u, (u, t) ∈ l := by
  simp [into, List.countP_pos_iff]

/-- The arcs of some of the components are among all arcs; what is missing
are those of the other components. -/
theorem into_split (callees : MethodId → List MethodId) (t : MethodId) {xs : List MethodId}
    (hnodes : nodes.Nodup) (hxs : xs.Nodup) (hsub : ∀ m ∈ xs, m ∈ nodes) :
    into t (nodes.flatMap (arcs callees)) = into t (xs.flatMap (arcs callees)) +
      into t ((nodes.filter (· ∉ xs)).flatMap (arcs callees)) := by
  have hperm : (nodes.filter (· ∈ xs)).Perm xs := by
    refine (List.perm_ext_iff_of_nodup (hnodes.filter _) hxs).2 fun m => ?_
    simp only [List.mem_filter, decide_eq_true_eq]
    exact ⟨fun h => h.2, fun h => ⟨hsub m h, h⟩⟩
  have hall : (xs ++ nodes.filter (· ∉ xs)).Perm nodes := by
    refine (List.Perm.append_right _ hperm.symm).trans ?_
    have := List.filter_append_perm (fun m => decide (m ∈ xs)) nodes
    simpa using this
  have hcount := (hall.flatMap_right (arcs callees)).countP_eq (fun a => a.2 == t)
  rw [List.flatMap_append, List.countP_append] at hcount
  exact hcount.symm

/-- A component not among them still counts. -/
theorem into_lt {t u : MethodId} {xs : List MethodId} (hnodes : nodes.Nodup) (hxs : xs.Nodup)
    (hsub : ∀ m ∈ xs, m ∈ nodes) (hu : u ∈ nodes) (hux : u ∉ xs) (ht : t ∈ callees u) :
    into t (xs.flatMap (arcs callees)) < into t (nodes.flatMap (arcs callees)) := by
  rw [into_split callees t hnodes hxs hsub]
  have : 0 < into t ((nodes.filter (· ∉ xs)).flatMap (arcs callees)) := by
    refine into_pos.2 ⟨u, List.mem_flatMap.2 ⟨u, ?_, mem_arcs.2 ⟨rfl, ht⟩⟩⟩
    simp [hu, hux]
  omega

/-- Nothing comes from components without an arc to `t`. -/
theorem into_eq_zero {t : MethodId} {xs : List MethodId} (h : ∀ u ∈ xs, t ∉ callees u) :
    into t (xs.flatMap (arcs callees)) = 0 := by
  refine Nat.eq_zero_of_not_pos fun hpos => ?_
  obtain ⟨u, hu⟩ := into_pos.1 hpos
  obtain ⟨m, hm, hum⟩ := List.mem_flatMap.1 hu
  obtain ⟨rfl, ht⟩ := mem_arcs.1 hum
  exact h u hm ht

/-- Components without an arc to `t` do not count. -/
theorem into_eq {t : MethodId} {xs : List MethodId} (hnodes : nodes.Nodup) (hxs : xs.Nodup)
    (hsub : ∀ m ∈ xs, m ∈ nodes) (h : ∀ u ∈ nodes, t ∈ callees u → u ∈ xs) :
    into t (xs.flatMap (arcs callees)) = into t (nodes.flatMap (arcs callees)) := by
  rw [into_split callees t hnodes hxs hsub]
  have : into t ((nodes.filter (· ∉ xs)).flatMap (arcs callees)) = 0 := by
    refine into_eq_zero fun u hu ht => ?_
    simp only [List.mem_filter, decide_eq_true_eq] at hu
    exact hu.2 (h u hu.1 ht)
  omega

/-! ## The invariant -/

/-- The rank the traversal has given to a component. -/
def rankAt (s : Traversal) (m : MethodId) : Nat := (slot? s.rank m).getD 0

/-- A component is queued when the last call it waits for lets it know. -/
theorem queue_relax_of_waiting {s : Traversal} {t : MethodId} {w : Int}
    (hw : slot? s.waiting t = some w) (rank : Nat) :
    (relax rank s t).queue = if w = 1 then s.queue ++ [t] else s.queue := by
  obtain ⟨-, hget⟩ := slot?_eq_some.1 hw
  have hleft : (s.waiting.modify t.toNat (· - 1))[t.toNat]? = some (w - 1) := by
    rw [Array.getElem?_modify, if_pos rfl, hget, Option.map_some]
  rw [relax, hleft]
  refine if_congr ?_ rfl rfl
  rw [Option.some.injEq]
  omega

/-- What holds of the traversal once the arcs `relaxed` have been relaxed. -/
structure Running (nodes : List MethodId) (callees : MethodId → List MethodId)
    (live : MethodId → Prop) (relaxed : List (MethodId × MethodId)) (s : Traversal) : Prop where
  nodup : (s.order ++ s.queue).Nodup
  live : ∀ t ∈ s.order ++ s.queue, live t
  /-- The arcs relaxed so far are arcs of finalized components. -/
  finalized : ∀ a ∈ relaxed, a.1 ∈ s.order ∧ a.2 ∈ callees a.1
  partly : ∀ t, into t relaxed ≤ into t (s.order.flatMap (arcs callees))
  waiting : ∀ t ∈ nodes, slot? s.waiting t =
    some ((into t (nodes.flatMap (arcs callees)) : Int) - into t relaxed)
  /-- A component is queued when its last incoming arc is relaxed. -/
  queued : ∀ t ∈ nodes, t ∈ s.order ++ s.queue ↔
    t = rootMethod ∨ (0 < into t (nodes.flatMap (arcs callees)) ∧
      into t relaxed = into t (nodes.flatMap (arcs callees)))
  ready : ∀ t ∈ s.queue, ∀ u ∈ nodes, t ∈ callees u → u ∈ s.order
  sorted : ∀ t ∈ s.order, ∀ u ∈ nodes, t ∈ callees u → s.order.idxOf u < s.order.idxOf t
  rank_some : ∀ t ∈ nodes, (slot? s.rank t).isSome
  rank_ge : ∀ a ∈ relaxed, s.rankAt a.1 + 1 ≤ s.rankAt a.2
  rank_hit : ∀ t, s.rankAt t = 0 ∨ ∃ a ∈ relaxed, a.2 = t ∧ s.rankAt t = s.rankAt a.1 + 1

namespace Running

variable {relaxed : List (MethodId × MethodId)} {s : Traversal}

theorem order_nodup (h : Running nodes callees live relaxed s) : s.order.Nodup :=
  (List.nodup_append.1 h.nodup).1

theorem order_mem (h : Running nodes callees live relaxed s) (hl : Layered nodes callees live) :
    ∀ m ∈ s.order, m ∈ nodes :=
  fun m hm => hl.live_mem m (h.live m (List.mem_append_left _ hm))

section Relax

variable {m t : MethodId}

theorem into_singleton (m t u : MethodId) : into u [(m, t)] = if t = u then 1 else 0 := by
  by_cases hu : t = u <;> simp [into, hu]

section Arc

variable (h : Running nodes callees live relaxed s) (hl : Layered nodes callees live)
  (hm : m ∈ s.order) (ht : t ∈ callees m)

include h hl hm ht

/-- The ends of an arc are live. -/
theorem live_of_arc : live m ∧ live t :=
  have hlive := h.live m (List.mem_append_left _ hm)
  ⟨hlive, hl.callee_live m hlive t ht⟩

/-- A component with an arc that has not been relaxed is not in the queue. -/
theorem not_queued
    (hpart : into t (relaxed ++ [(m, t)]) ≤ into t (s.order.flatMap (arcs callees))) :
    t ∉ s.order ++ s.queue := by
  obtain ⟨hlive, htlive⟩ := h.live_of_arc hl hm ht
  have hall := into_split callees t hl.nodup h.order_nodup (h.order_mem hl)
  rw [into_append, into_singleton, if_pos rfl] at hpart
  intro hmem
  -- in the queue it would be the root, or have all its arcs relaxed
  rcases (h.queued t (hl.live_mem t htlive)).1 hmem with rfl | ⟨-, heq⟩
  · exact hl.root_first m hlive ht
  · omega

/-- Relaxing an arc leaves one arc less to wait for. -/
theorem waiting_relax {u : MethodId} (hu : u ∈ nodes) :
    slot? (relax (s.rankAt m) s t).waiting u =
      some ((into u (nodes.flatMap (arcs callees)) : Int) - into u (relaxed ++ [(m, t)])) := by
  obtain ⟨-, htlive⟩ := h.live_of_arc hl hm ht
  change slot? (s.waiting.modify t.toNat (· - 1)) u = _
  rw [slot?_modify (hl.nonneg t (hl.live_mem t htlive)), h.waiting u hu, into_append,
    into_singleton]
  by_cases hut : u = t
  · rw [if_pos hut, if_pos hut.symm]
    simp only [Option.map_some, Option.some.injEq]
    omega
  · rw [if_neg hut, if_neg (Ne.symm hut), Nat.add_zero]

/-- The component is queued if this was its last arc. -/
theorem queue_relax : (relax (s.rankAt m) s t).queue =
    if into t (relaxed ++ [(m, t)]) = into t (nodes.flatMap (arcs callees))
      then s.queue ++ [t] else s.queue := by
  obtain ⟨-, htlive⟩ := h.live_of_arc hl hm ht
  rw [queue_relax_of_waiting (h.waiting t (hl.live_mem t htlive)), into_append, into_singleton,
    if_pos rfl]
  exact if_congr (by omega) rfl rfl

theorem mem_queue_relax {u : MethodId} : u ∈ (relax (s.rankAt m) s t).queue ↔ u ∈ s.queue ∨
    (u = t ∧ into t (relaxed ++ [(m, t)]) = into t (nodes.flatMap (arcs callees))) := by
  rw [h.queue_relax hl hm ht]
  split <;> simp_all

/-- Relaxing an arc changes the rank of the component it leads to. -/
theorem rankAt_relax :
    (relax (s.rankAt m) s t).rankAt t = max (s.rankAt t) (s.rankAt m + 1) ∧
      ∀ u, u ≠ t → (relax (s.rankAt m) s t).rankAt u = s.rankAt u := by
  have htn : t ∈ nodes := hl.live_mem t (h.live_of_arc hl hm ht).2
  have ht0 := hl.nonneg t htn
  obtain ⟨k, hk⟩ := Option.isSome_iff_exists.1 (h.rank_some t htn)
  refine ⟨?_, fun u hu => ?_⟩
  · simp [rankAt, relax, slot?_modify ht0, hk]
  · simp [rankAt, relax, slot?_modify ht0, hu]

/-- Ranks still grow along the arcs: those of finalized components stay. -/
theorem rank_ge_relax (hnot : t ∉ s.order ++ s.queue) : ∀ a ∈ relaxed ++ [(m, t)],
    (relax (s.rankAt m) s t).rankAt a.1 + 1 ≤ (relax (s.rankAt m) s t).rankAt a.2 := by
  obtain ⟨hself, hother⟩ := h.rankAt_relax hl hm ht
  have hdone : ∀ u ∈ s.order, u ≠ t := fun u hu hut =>
    hnot (hut ▸ List.mem_append_left _ hu)
  intro a ha
  rcases List.mem_append.1 ha with ha | ha
  · have hge := h.rank_ge a ha
    rw [hother a.1 (hdone _ (h.finalized a ha).1)]
    by_cases hat : a.2 = t
    · rw [hat] at hge ⊢
      rw [hself]
      omega
    · rw [hother a.2 hat]
      exact hge
  · rw [List.mem_singleton.1 ha]
    change (relax (s.rankAt m) s t).rankAt m + 1 ≤ (relax (s.rankAt m) s t).rankAt t
    rw [hother m (hdone m hm), hself]
    omega

/-- Ranks are still reached: the new one by the arc itself. -/
theorem rank_hit_relax (hnot : t ∉ s.order ++ s.queue) (u : MethodId) :
    (relax (s.rankAt m) s t).rankAt u = 0 ∨ ∃ a ∈ relaxed ++ [(m, t)], a.2 = u ∧
      (relax (s.rankAt m) s t).rankAt u = (relax (s.rankAt m) s t).rankAt a.1 + 1 := by
  obtain ⟨hself, hother⟩ := h.rankAt_relax hl hm ht
  have hdone : ∀ u ∈ s.order, u ≠ t := fun u hu hut =>
    hnot (hut ▸ List.mem_append_left _ hu)
  by_cases hut : u = t
  · subst hut
    rw [hself]
    -- the larger of the two ranks is reached, by the new arc or by an old one
    rcases Nat.le_total (s.rankAt u) (s.rankAt m + 1) with hle | hle
    · refine .inr ⟨(m, u), by simp, rfl, ?_⟩
      change _ = (relax (s.rankAt m) s u).rankAt m + 1
      rw [hother m (hdone m hm)]
      omega
    · rcases h.rank_hit u with h0 | ⟨a, ha, hau, hr⟩
      · omega
      · refine .inr ⟨a, List.mem_append_left _ ha, hau, ?_⟩
        rw [hother a.1 (hdone _ (h.finalized a ha).1)]
        omega
  · rw [hother u hut]
    rcases h.rank_hit u with h0 | ⟨a, ha, hau, hr⟩
    · exact .inl h0
    · refine .inr ⟨a, List.mem_append_left _ ha, hau, ?_⟩
      rw [hother a.1 (hdone _ (h.finalized a ha).1)]
      exact hr

/-- **Relaxing one more arc of a finalized component keeps the invariant.** -/
theorem relax_arc
    (hpart : ∀ u, into u (relaxed ++ [(m, t)]) ≤ into u (s.order.flatMap (arcs callees))) :
    Running nodes callees live (relaxed ++ [(m, t)]) (relax (s.rankAt m) s t) := by
  obtain ⟨hlive, htlive⟩ := h.live_of_arc hl hm ht
  have hnot := h.not_queued hl hm ht (hpart t)
  have hqueue := h.queue_relax hl hm ht
  have hpos : 0 < into t (nodes.flatMap (arcs callees)) :=
    into_pos.2 ⟨m, List.mem_flatMap.2 ⟨m, hl.live_mem m hlive, mem_arcs.2 ⟨rfl, ht⟩⟩⟩
  refine
    { nodup := ?_, live := ?_, finalized := ?_, partly := hpart
      waiting := fun u hu => h.waiting_relax hl hm ht hu, queued := ?_, ready := ?_
      sorted := h.sorted, rank_some := ?_, rank_ge := h.rank_ge_relax hl hm ht hnot
      rank_hit := h.rank_hit_relax hl hm ht hnot }
  · change (s.order ++ (relax (s.rankAt m) s t).queue).Nodup
    rw [hqueue]
    split
    · rw [← List.append_assoc]
      exact List.nodup_append.2 ⟨h.nodup, by simp, by rintro a ha b hb rfl; simp_all⟩
    · exact h.nodup
  · intro u hu
    rcases List.mem_append.1 hu with hu | hu
    · exact h.live u (List.mem_append_left _ hu)
    · rcases (h.mem_queue_relax hl hm ht).1 hu with hu | ⟨rfl, -⟩
      · exact h.live u (List.mem_append_right _ hu)
      · exact htlive
  · intro a ha
    rcases List.mem_append.1 ha with ha | ha
    · exact h.finalized a ha
    · rw [List.mem_singleton.1 ha]
      exact ⟨hm, ht⟩
  · intro u hu
    change u ∈ s.order ++ (relax (s.rankAt m) s t).queue ↔ _
    rw [List.mem_append, h.mem_queue_relax hl hm ht]
    by_cases hut : u = t
    · subst hut
      have hroot : u ≠ rootMethod := fun hu => hl.root_first m hlive (hu ▸ ht)
      rw [List.mem_append, not_or] at hnot
      simp [hnot.1, hnot.2, hroot, hpos]
    · simp only [hut, false_and, or_false]
      rw [← List.mem_append, h.queued u hu, into_append, into_singleton, if_neg (Ne.symm hut),
        Nat.add_zero]
  · intro u hu w hw huw
    rcases (h.mem_queue_relax hl hm ht).1 hu with hu | ⟨rfl, heq⟩
    · exact h.ready u hu w hw huw
    · -- every arc into it has been relaxed, so every caller is finalized
      by_contra hwo
      have hlt := into_lt hl.nodup h.order_nodup (h.order_mem hl) hw hwo huw
      have hle := hpart u
      omega
  · intro u hu
    change (slot? (s.rank.modify t.toNat _) u).isSome
    rw [slot?_modify (hl.nonneg t (hl.live_mem t htlive))]
    have hsome := h.rank_some u hu
    split <;> simpa using hsome

end Arc

end Relax

/-- **Finalizing the first component of the queue** puts it behind its
callers; its arcs are still to be relaxed. -/
theorem finalize (h : Running nodes callees live (s.order.flatMap (arcs callees)) s)
    {m : MethodId} {queue : List MethodId} (hq : s.queue = m :: queue) :
    Running nodes callees live (s.order.flatMap (arcs callees))
      { s with queue, order := s.order ++ [m] } := by
  have hnodup := h.nodup
  rw [hq] at hnodup
  have hmo : m ∉ s.order := fun hm => (List.nodup_append.1 hnodup).2.2 m hm m (by simp) rfl
  have hsame : ∀ t, t ∈ (s.order ++ [m]) ++ queue ↔ t ∈ s.order ++ s.queue := by
    intro t
    rw [hq]; simp
  refine
    { nodup := by simpa using hnodup
      live := fun t ht => h.live t ((hsame t).1 ht)
      finalized := fun a ha => ⟨List.mem_append_left _ (h.finalized a ha).1, (h.finalized a ha).2⟩
      partly := fun t => by rw [List.flatMap_append, into_append]; omega
      waiting := h.waiting
      queued := fun t ht => (hsame t).trans (h.queued t ht)
      ready := ?_, sorted := ?_, rank_some := h.rank_some, rank_ge := h.rank_ge
      rank_hit := h.rank_hit }
  · intro t ht u hu htu
    exact List.mem_append_left _ (h.ready t (by rw [hq]; exact List.mem_cons_of_mem _ ht) u hu htu)
  · intro t ht u hu htu
    change (s.order ++ [m]).idxOf u < (s.order ++ [m]).idxOf t
    rcases List.mem_append.1 ht with ht | ht
    · have hlt := h.sorted t ht u hu htu
      have hto := List.idxOf_lt_length_iff.2 ht
      have huo : u ∈ s.order := List.idxOf_lt_length_iff.1 (by omega)
      rw [List.idxOf_append_of_mem huo, List.idxOf_append_of_mem ht]
      exact hlt
    · rw [List.mem_singleton.1 ht] at htu ⊢
      have huo : u ∈ s.order := h.ready m (by rw [hq]; simp) u hu htu
      rw [List.idxOf_append_of_mem huo, List.idxOf_append_of_notMem hmo]
      have := List.idxOf_lt_length_iff.2 huo
      omega

/-- **A round keeps the invariant**: the first component of the queue is
finalized, and all its arcs are relaxed. -/
theorem round (h : Running nodes callees live (s.order.flatMap (arcs callees)) s)
    (hl : Layered nodes callees live) {m : MethodId} {queue : List MethodId}
    (hq : s.queue = m :: queue) :
    ∃ s', (callees m).foldl (relax (s.rankAt m)) { s with queue, order := s.order ++ [m] } = s' ∧
      s'.order = s.order ++ [m] ∧
      Running nodes callees live (s'.order.flatMap (arcs callees)) s' := by
  have hloop := foldl_run (l := callees m) (f := relax (s.rankAt m))
    (b := { s with queue, order := s.order ++ [m] })
    (fun done (r : Traversal) => r.order = s.order ++ [m] ∧ r.rankAt m = s.rankAt m ∧
      Running nodes callees live (s.order.flatMap (arcs callees) ++ done.map (m, ·)) r)
    ⟨rfl, rfl, by simpa using h.finalize hq⟩ ?_
  · obtain ⟨horder, -, hrun⟩ := hloop
    refine ⟨_, rfl, horder, ?_⟩
    rw [horder, List.flatMap_append, List.flatMap_singleton]
    exact hrun
  · rintro done t r ⟨rest, hrest⟩ ⟨horder, hrank, hrun⟩
    have ht : t ∈ callees m := by rw [hrest]; simp
    have hm : m ∈ r.order := by rw [horder]; simp
    have hsplit : s.order.flatMap (arcs callees) ++ (done ++ [t]).map (m, ·) =
        s.order.flatMap (arcs callees) ++ done.map (m, ·) ++ [(m, t)] := by simp
    have hpart : ∀ u, into u (s.order.flatMap (arcs callees) ++ done.map (m, ·) ++ [(m, t)]) ≤
        into u (r.order.flatMap (arcs callees)) := by
      intro u
      rw [horder, List.flatMap_append, List.flatMap_singleton, arcs, hrest, ← hsplit]
      simp only [into_append, List.map_append, List.map_cons]
      simp only [into, List.map_nil, List.countP_cons, List.countP_nil]
      omega
    have hnot := hrun.not_queued hl hm ht (hpart t)
    have hmt : m ≠ t := fun h => hnot (h ▸ List.mem_append_left _ hm)
    rw [hsplit, ← hrank]
    exact ⟨horder, (hrun.rankAt_relax hl hm ht).2 m hmt, hrun.relax_arc hl hm ht hpart⟩

end Running

/-! ## The run -/

/-- The traversal starts with the root in the queue. -/
theorem running_start (hl : Layered nodes callees live) {n : Nat}
    (hn : ∀ m : Int, m ∈ nodes → m < n) {waiting : Array Int}
    (hwait : ∀ t ∈ nodes, slot? waiting t =
      some (into t (nodes.flatMap (arcs callees)) : Int)) :
    Running nodes callees live []
      { queue := [rootMethod], rank := Array.replicate n 0, waiting } := by
  have hzero : ∀ t, (({ queue := [rootMethod], rank := Array.replicate n 0, waiting } :
      Traversal)).rankAt t = 0 := by
    intro t
    simp only [rankAt, slot?_replicate]
    split <;> rfl
  have hrootin : into rootMethod (nodes.flatMap (arcs callees)) = 0 :=
    into_eq_zero fun u hu ht => hl.root_first u (hl.caller_live u hu _ ht) ht
  refine
    { nodup := by simp, live := by simpa using hl.root, finalized := by simp
      partly := by simp [into], waiting := by simpa [into] using hwait, queued := ?_
      ready := ?_, sorted := by simp, rank_some := ?_, rank_ge := by simp
      rank_hit := fun t => .inl (hzero t) }
  · intro t _
    simp only [into, List.nil_append, List.mem_singleton, List.countP_nil]
    constructor
    · exact .inl
    · rintro (h | ⟨hpos, heq⟩)
      · exact h
      · omega
  · intro t ht u hu htu
    rw [List.mem_singleton.1 ht] at htu
    exact absurd htu (hl.root_first u (hl.caller_live u hu _ htu))
  · intro t ht
    rw [slot?_isSome]
    exact ⟨hl.nonneg t ht, by simpa using hn t ht⟩

/-- **The traversal ends**: the fuel covers every component once. -/
theorem run_running (hl : Layered nodes callees live) : ∀ (fuel : Nat) (s : Traversal),
    Running nodes callees live (s.order.flatMap (arcs callees)) s →
    nodes.length + 1 ≤ s.order.length + fuel →
    ∃ s', run callees fuel s = s' ∧ s'.queue = [] ∧
      Running nodes callees live (s'.order.flatMap (arcs callees)) s' := by
  intro fuel
  induction fuel with
  | zero =>
    intro s h hfuel
    have hsub : s.order.length ≤ nodes.length :=
      (h.order_nodup.subperm fun m hm => h.order_mem hl m hm).length_le
    omega
  | succ fuel ih =>
    intro s h hfuel
    match hq : s.queue with
    | [] => exact ⟨s, by rw [run, hq], hq, h⟩
    | m :: queue =>
      obtain ⟨s', hs', horder, hrun⟩ := h.round hl hq
      rw [run, hq]
      simp only
      change ∃ r, run callees fuel ((callees m).foldl (relax (s.rankAt m)) _) = r ∧ _
      rw [hs']
      exact ih s' hrun (by rw [horder, List.length_append, List.length_singleton]; omega)

/-- What the traversal has found out once it is over. -/
structure Finished (nodes : List MethodId) (callees : MethodId → List MethodId)
    (live : MethodId → Prop) (s : Traversal) : Prop where
  nodup : s.order.Nodup
  mem_order : ∀ t, t ∈ s.order ↔ live t
  sorted : ∀ t ∈ s.order, ∀ u ∈ nodes, t ∈ callees u → s.order.idxOf u < s.order.idxOf t
  rank_ge : ∀ u, live u → ∀ t ∈ callees u, s.rankAt u + 1 ≤ s.rankAt t
  rank_hit : ∀ t, s.rankAt t = 0 ∨ ∃ u, live u ∧ t ∈ callees u ∧ s.rankAt t = s.rankAt u + 1

/-- **Once the queue is empty, every live component is finalized**: one that
is not would have a caller that is not, and so on up to the root. -/
theorem Running.finished (hl : Layered nodes callees live) {s : Traversal}
    (h : Running nodes callees live (s.order.flatMap (arcs callees)) s) (hq : s.queue = []) :
    Finished nodes callees live s := by
  obtain ⟨depth, hdepth⟩ := hl.acyclic
  have hqueued := h.queued
  have hlive := h.live
  simp only [hq, List.append_nil] at hqueued hlive
  have hall : ∀ t, live t → t ∈ s.order := by
    intro t
    induction hn : depth t using Nat.strongRecOn generalizing t with
    | ind n ih =>
      intro ht
      rw [hqueued t (hl.live_mem t ht), or_iff_not_imp_left]
      intro hroot
      obtain ⟨u, hu, hut⟩ := hl.called t ht hroot
      refine ⟨into_pos.2 ⟨u, List.mem_flatMap.2 ⟨u, hl.live_mem u hu, mem_arcs.2 ⟨rfl, hut⟩⟩⟩, ?_⟩
      refine into_eq hl.nodup h.order_nodup (h.order_mem hl) fun w hw hwt => ?_
      have hwlive := hl.caller_live w hw t hwt
      exact ih _ (hn ▸ hdepth w t hwlive hwt) w rfl hwlive
  refine
    { nodup := h.order_nodup, mem_order := fun t => ⟨hlive t, hall t⟩
      sorted := h.sorted, rank_ge := ?_, rank_hit := ?_ }
  · intro u hu t ht
    exact h.rank_ge (u, t) (List.mem_flatMap.2 ⟨u, hall u hu, mem_arcs.2 ⟨rfl, ht⟩⟩)
  · intro t
    rcases h.rank_hit t with h0 | ⟨a, ha, rfl, hr⟩
    · exact .inl h0
    · exact .inr ⟨a.1, hlive a.1 (h.finalized a ha).1, (h.finalized a ha).2, hr⟩

end Traversal

end Condensation

end PointsTo
