import Mathlib.Data.Set.Card
import PointsTo.Proofs.Components
/-!
# Components in order, and their least points

What the traversal of `Components` finds from any starting points in any
graph, as long as only finitely many points can be reached. The bound on
the depth is no matter then (`components_eq`): a traversal that is deep
enough never runs into it. `components_classes` collects the result: the
components are the classes of mutual reachability, each after those it
leads to, and the table of representatives gives every point the least one
of its class.
-/

namespace PointsTo

namespace Components

open Progress

variable {α : Type} [DecidableEq α] {next : α → List α} {U points : List α}

/-! ## The bound on the depth -/

/-- A visit forgets no point. -/
theorem entered_visit : ∀ (fuel : Nat) (v : α) (p : Progress α) (x : α), p.Entered x →
    (visit next fuel v p).2.Entered x := by
  intro fuel
  induction fuel with
  | zero => exact fun v p x hx => hx
  | succ fuel ih =>
    intro v p x hx
    have hscan : ((next v).foldl (look next fuel) (p.entered.length, p.enter v)).2.Entered x := by
      refine foldl_run (fun _ (s : Nat × Progress α) => s.2.Entered x)
        (entered_enter.2 (.inr hx)) ?_
      intro done w s _ hs
      rw [look]
      split
      · exact ih w s.2 x hs
      · exact hs
    rw [visit_succ]
    dsimp only
    split
    · exact hscan
    · exact hscan

/-- **A visit that is deep enough does not depend on how deep it may go.** Every
level enters a point of a list closed under successors. -/
theorem visit_eq (hU : ∀ a ∈ U, ∀ b ∈ next a, b ∈ U) :
    ∀ (n k : Nat) (v : α) (p : Progress α), ¬ p.Entered v → v ∈ U →
      left U p ≤ n → left U p ≤ k → visit next n v p = visit next k v p := by
  intro n
  induction n with
  | zero =>
    intro k v p hnew hv hn _
    have := left_enter_lt hv hnew
    omega
  | succ n ih =>
    intro k v p hnew hv hn hk
    have henter := left_enter_lt hv hnew
    cases k with
    | zero => omega
    | succ k =>
      -- the loops go through the same states, all of which have entered `v`
      have hscan : ((next v).foldl (look next n) (p.entered.length, p.enter v) =
          (next v).foldl (look next k) (p.entered.length, p.enter v)) ∧
          ∀ x, (p.enter v).Entered x →
            ((next v).foldl (look next n) (p.entered.length, p.enter v)).2.Entered x := by
        refine foldl_run (fun done (s : Nat × Progress α) =>
          s = done.foldl (look next k) (p.entered.length, p.enter v) ∧
            ∀ x, (p.enter v).Entered x → s.2.Entered x) ⟨rfl, fun _ hx => hx⟩ ?_
        rintro done w s ⟨rest, hrest⟩ ⟨hs, hentered⟩
        have hw : w ∈ next v := by rw [hrest]; simp
        rw [List.foldl_append, List.foldl_cons, List.foldl_nil, ← hs, look, look]
        split
        · next hget =>
          have hwnew : ¬ s.2.Entered w := by simp [Entered, Assoc.has, hget]
          have hleft := left_mono (U := U) hentered
          rw [← ih k w s.2 hwnew (hU v hv w hw) (by omega) (by omega)]
          exact ⟨rfl, fun x hx => entered_visit n w s.2 x (hentered x hx)⟩
        · exact ⟨rfl, hentered⟩
      rw [visit_succ, visit_succ, hscan.1]

theorem visitAll_snoc (bound : Nat) (done : List α) (v : α) :
    visitAll next bound (done ++ [v]) = if (visitAll next bound done).entered.has v
      then visitAll next bound done else (visit next bound v (visitAll next bound done)).2 := by
  rw [visitAll, List.foldl_append]
  rfl

/-- The same holds of the whole traversal. -/
theorem visitAll_eq (hU : ∀ a ∈ U, ∀ b ∈ next a, b ∈ U) (hpoints : ∀ v ∈ points, v ∈ U)
    {n k : Nat} (hn : U.length ≤ n) (hk : U.length ≤ k) :
    visitAll next n points = visitAll next k points := by
  refine foldl_run (fun done (p : Progress α) => p = visitAll next k done) rfl ?_
  rintro done v p ⟨rest, hrest⟩ rfl
  have hv : v ∈ U := hpoints v (by rw [hrest]; simp)
  have hleft : left U (visitAll next k done) ≤ U.length := List.length_filter_le ..
  rw [visitAll_snoc]
  split
  · rfl
  · next hnew =>
    exact congrArg Prod.snd (visit_eq hU n k v _ hnew hv (hleft.trans hn) (hleft.trans hk))

end Components

/-! ## What can be reached -/

section Reached

variable {α : Type} {next : α → List α} {points : List α}

/-- What the starting points reach. -/
def reachedFrom (next : α → List α) (points : List α) : Set α :=
  {w | ∃ v ∈ points, Reaches next v w}

theorem reachedFrom_closed {a b : α} (ha : a ∈ reachedFrom next points) (hb : b ∈ next a) :
    b ∈ reachedFrom next points := by
  obtain ⟨v, hv, hr⟩ := ha
  exact ⟨v, hv, hr.tail hb⟩

/-- A list that is closed under successors bounds what can be reached. -/
theorem reachedFrom_subset {U : List α} (hU : ∀ a ∈ U, ∀ b ∈ next a, b ∈ U)
    (hpoints : ∀ v ∈ points, v ∈ U) : reachedFrom next points ⊆ {w | w ∈ U} := by
  rintro w ⟨v, hv, hr⟩
  exact hr.mem_of_closed (S := (· ∈ U)) (fun a b ha hb => hU a ha b hb) (hpoints v hv)

theorem reachedFrom_finite {U : List α} (hU : ∀ a ∈ U, ∀ b ∈ next a, b ∈ U)
    (hpoints : ∀ v ∈ points, v ∈ U) :
    (reachedFrom next points).Finite ∧ (reachedFrom next points).ncard ≤ U.length := by
  classical
  have hsub : reachedFrom next points ⊆ U.toFinset := fun w hw => by
    simpa using reachedFrom_subset hU hpoints hw
  refine ⟨U.toFinset.finite_toSet.subset hsub, ?_⟩
  refine (Set.ncard_le_ncard hsub U.toFinset.finite_toSet).trans ?_
  rw [Set.ncard_coe_finset]
  exact U.toFinset_card_le

end Reached

/-! ## Representatives -/

section Representatives

variable {α : Type} [LinearOrder α] {next : α → List α} {U points : List α} {bound : Nat}

/-- The point is the least of its class of mutual reachability. -/
def IsLeastOfClass (next : α → List α) (v r : α) : Prop :=
  IsLeast {w | Reaches next v w ∧ Reaches next w v} r

theorem IsLeastOfClass.congr {v w r : α} (hvw : Reaches next v w) (hwv : Reaches next w v)
    (h : IsLeastOfClass next v r) : IsLeastOfClass next w r :=
  ⟨⟨hwv.trans h.1.1, h.1.2.trans hvw⟩, fun _ hx => h.2 ⟨hvw.trans hx.1, hx.2.trans hwv⟩⟩

/-- Every point that can be reached gets the least one of its class. -/
theorem exists_representative (hU : ∀ a ∈ U, ∀ b ∈ next a, b ∈ U)
    (hpoints : ∀ v ∈ points, v ∈ U) (hbound : U.length ≤ bound) {v : α}
    (hv : v ∈ reachedFrom next points) : ∃ r, IsLeastOfClass next v r ∧
      (componentRepresentatives (fun a b => decide (a < b))
        (components next bound points)).get? v = some r := by
  obtain ⟨hnodup, hmem⟩ := mem_components hU hpoints hbound
  obtain ⟨c, hc, hvc⟩ := List.mem_flatten.1 ((hmem v).2 hv)
  obtain ⟨x, xs, rfl, hget⟩ := get?_componentRepresentatives _ hnodup hc hvc
  obtain ⟨hleast, hle⟩ := leastOf_spec x xs
  have hclass : ∀ w, w ∈ x :: xs ↔ Reaches next v w ∧ Reaches next w v := fun w =>
    mem_component_iff hU hpoints hbound hc hvc
  exact ⟨_, ⟨(hclass _).1 hleast, fun w hw => hle w ((hclass w).2 hw)⟩, hget⟩

/-- **The representative of a point is the least one of its class**, and points that
cannot be reached have none. -/
theorem get?_representatives_iff (hU : ∀ a ∈ U, ∀ b ∈ next a, b ∈ U)
    (hpoints : ∀ v ∈ points, v ∈ U) (hbound : U.length ≤ bound) {v r : α} :
    (componentRepresentatives (fun a b => decide (a < b)) (components next bound points)).get? v =
      some r ↔ v ∈ reachedFrom next points ∧ IsLeastOfClass next v r := by
  constructor
  · intro h
    have hv : v ∈ reachedFrom next points := by
      by_contra hv
      have hmem := (mem_components hU hpoints hbound).2 v
      rw [get?_componentRepresentatives_eq_none _ fun hin => hv (hmem.1 hin)] at h
      cases h
    obtain ⟨r', hr', hget⟩ := exists_representative hU hpoints hbound hv
    rw [hget, Option.some.injEq] at h
    exact ⟨hv, h ▸ hr'⟩
  · rintro ⟨hv, hr⟩
    obtain ⟨r', hr', hget⟩ := exists_representative hU hpoints hbound hv
    rw [hget, hr.unique hr']

/-- **The components of what can be reached.** Where the starting points reach finitely
many points, the components found do not depend on how deep the traversal may go, as
long as it may go as deep as there are points. They hold what can be reached, each point
once, and none is empty; two points share a component iff each reaches the other, and no
component leads to a later one. The representatives are the least points of the classes,
so that points have the same one iff they reach each other. -/
theorem components_classes (hfin : (reachedFrom next points).Finite)
    (hbound : (reachedFrom next points).ncard ≤ bound) :
    let reached := reachedFrom next points
    let cs := components next bound points
    let reps := componentRepresentatives (fun a b => decide (a < b)) cs
    cs = components next reached.ncard points ∧
    (cs.flatten.Nodup ∧ [] ∉ cs ∧ ∀ w, w ∈ cs.flatten ↔ w ∈ reached) ∧
    (∀ v ∈ reached, ∀ w ∈ reached,
      (∃ c ∈ cs, v ∈ c ∧ w ∈ c) ↔ Reaches next v w ∧ Reaches next w v) ∧
    cs.Pairwise (fun c d => ∀ v ∈ c, ∀ w ∈ d, ¬ Reaches next v w) ∧
    (∀ v r, reps.get? v = some r ↔ v ∈ reached ∧ IsLeastOfClass next v r) ∧
    ∀ v ∈ reached, (reps.get? v).isSome ∧ ∀ w ∈ reached,
      (reps.get? v = reps.get? w ↔ Reaches next v w ∧ Reaches next w v) := by
  intro reached cs reps
  obtain ⟨U, hmemU, hlen⟩ : ∃ U : List α, (∀ w, w ∈ U ↔ w ∈ reached) ∧ U.length = reached.ncard :=
    ⟨hfin.toFinset.toList, by simp [reached], by
      rw [Finset.length_toList, Set.ncard_eq_toFinset_card _ hfin]⟩
  have hU : ∀ a ∈ U, ∀ b ∈ next a, b ∈ U := fun a ha b hb =>
    (hmemU b).2 (reachedFrom_closed ((hmemU a).1 ha) hb)
  have hpoints : ∀ v ∈ points, v ∈ U := fun v hv => (hmemU v).2 ⟨v, hv, .refl⟩
  have hbound' : U.length ≤ bound := hlen.trans_le hbound
  obtain ⟨hnodup, hmem⟩ := mem_components hU hpoints hbound'
  have hinv := (Components.visitAll_found hU hpoints hbound').inv
  have hreps : ∀ v r, reps.get? v = some r ↔ v ∈ reached ∧ IsLeastOfClass next v r :=
    fun v r => get?_representatives_iff hU hpoints hbound'
  have hclass : ∀ c ∈ cs, ∀ v ∈ c, ∀ w, w ∈ c ↔ Reaches next v w ∧ Reaches next w v := hinv.exact
  refine ⟨?_, ⟨hnodup, fun hnil => hinv.nonempty _ hnil rfl, hmem⟩, ?_, hinv.ordered, hreps, ?_⟩
  · rw [← hlen]
    exact congrArg Components.Progress.complete (Components.visitAll_eq hU hpoints hbound' le_rfl)
  · intro v hv w _
    constructor
    · rintro ⟨c, hc, hvc, hwc⟩
      exact (hclass c hc v hvc w).1 hwc
    · intro hmutual
      obtain ⟨c, hc, hvc⟩ := List.mem_flatten.1 ((hmem v).2 hv)
      exact ⟨c, hc, hvc, (hclass c hc v hvc w).2 hmutual⟩
  · intro v hv
    obtain ⟨r, hleast, hr⟩ := exists_representative hU hpoints hbound' hv
    refine ⟨Option.isSome_of_eq_some hr, fun w hw => ⟨fun heq => ?_, fun hmutual => ?_⟩⟩
    · have hleast' := ((hreps w r).1 (heq ▸ hr)).2
      exact ⟨hleast.1.1.trans hleast'.1.2, hleast'.1.1.trans hleast.1.2⟩
    · rw [hr, (hreps w r).2 ⟨hw, hleast.congr hmutual.1 hmutual.2⟩]

/-- Two points lead to each other, and one of them leads to a third, twice. That one
leads to itself. -/
def twoLoops (k : Int) : List Int :=
  if k = 1 then [2] else if k = 2 then [3, 1, 3] else if k = 3 then [3] else []

/-- The starting points are a point of the first loop, given twice, and one that leads
nowhere. -/
theorem components_classes_twoLoops :
    let cs := components twoLoops 4 [2, 2, 7]
    let reps := componentRepresentatives (fun a b => decide (a < b)) cs
    (∃ c ∈ cs, 2 ∈ c ∧ 1 ∈ c) ∧ reps.get? 2 = reps.get? 1 ∧ reps.get? 2 ≠ reps.get? 3 := by
  have hclosed : ∀ a ∈ [1, 2, 3, 7], ∀ b ∈ twoLoops a, b ∈ [1, 2, 3, 7] := by decide
  have hstart : ∀ v ∈ [(2 : Int), 2, 7], v ∈ [1, 2, 3, 7] := by decide
  obtain ⟨hfin, hcard⟩ := reachedFrom_finite hclosed hstart
  have h21 : Reaches twoLoops 2 1 := .single (by decide)
  have h12 : Reaches twoLoops 1 2 := .single (by decide)
  have h23 : Reaches twoLoops 2 3 := .single (by decide)
  have h32 : ¬ Reaches twoLoops 3 2 := fun h => by
    have := h.mem_of_closed (S := (· = 3)) (by rintro x y rfl hy; simpa [twoLoops] using hy) rfl
    omega
  have hmem : ∀ w, Reaches twoLoops 2 w → w ∈ reachedFrom twoLoops [2, 2, 7] := fun w hw =>
    ⟨2, by simp, hw⟩
  obtain ⟨-, -, hshare, -, -, hreps⟩ := components_classes hfin hcard
  obtain ⟨-, hsame⟩ := hreps 2 (hmem 2 .refl)
  refine ⟨(hshare 2 (hmem 2 .refl) 1 (hmem 1 h21)).2 ⟨h21, h12⟩,
    (hsame 1 (hmem 1 h21)).2 ⟨h21, h12⟩, fun heq => h32 ((hsame 3 (hmem 3 h23)).1 heq).2⟩

end Representatives

end PointsTo
