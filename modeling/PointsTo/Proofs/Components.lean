import Mathlib.Data.Int.Order.Basic
import Mathlib.Data.List.Perm.Subperm
import Mathlib.Order.Lattice
import Mathlib.Tactic.Tauto
import PointsTo.Proofs.Reachability
import PointsTo.Proofs.Tables
/-!
# The components of a graph are its classes of mutual reachability

The traversal of `Components.visit` keeps an invariant, `Inv`, relative to
the points it is inside of: the points on the stack are ordered by
reachability, each of them gets back to a point the traversal is inside
of, and the complete components are closed under successors and are whole
classes. `Visited` is what one visit establishes and `Scanned` what holds
between two successors of it; `visit_visited` is the induction that joins
them. What is left at the end is read off by `Inv` with nothing to be
inside of.
-/

namespace PointsTo

namespace Components

variable {α : Type} [DecidableEq α]

namespace Progress

/-- The point has been entered. -/
def Entered (p : Progress α) (v : α) : Prop := p.entered.has v

/-- The number of a point that has been entered. -/
def num (p : Progress α) (v : α) : Nat := p.entered.getD v 0

variable {p : Progress α} {v w : α}

theorem get?_enter : (p.enter v).entered.get? w =
    if w = v then some p.entered.length else p.entered.get? w := by
  by_cases h : w = v
  · simp [enter, Assoc.get?, h]
  · have hb : (w == v) = false := by simpa using h
    simp [enter, Assoc.get?, List.lookup_cons, hb, h]

theorem entered_enter : (p.enter v).Entered w ↔ w = v ∨ p.Entered w := by
  by_cases h : w = v <;> simp [Entered, Assoc.has, get?_enter, h]

theorem num_enter_self : (p.enter v).num v = p.entered.length := by
  simp [num, Assoc.getD, get?_enter]

theorem num_enter_of_ne (h : w ≠ v) : (p.enter v).num w = p.num w := by
  simp [num, Assoc.getD, get?_enter, h]

/-- How many of the points in a list have not been entered. -/
def left (U : List α) (p : Progress α) : Nat := (U.filter (!p.entered.has ·)).length

theorem left_mono {U : List α} {q : Progress α} (h : ∀ v, p.Entered v → q.Entered v) :
    left U q ≤ left U p := by
  refine (List.monotone_filter_right U fun v hv => ?_).length_le
  have := h v
  simp only [Entered] at this
  cases hp : p.entered.has v <;> simp_all

/-- Entering a point leaves one less. -/
theorem left_enter_lt {U : List α} (hv : v ∈ U) (hnew : ¬ p.Entered v) :
    left U (p.enter v) < left U p := by
  have hsub : U.filter (!(p.enter v).entered.has ·) =
      (U.filter (!p.entered.has ·)).filter (· ≠ v) := by
    rw [List.filter_filter]
    refine List.filter_congr fun w _ => ?_
    have := entered_enter (p := p) (v := v) (w := w)
    simp only [Entered] at this
    cases hp : p.entered.has w <;> by_cases hw : w = v <;> simp_all
  rw [left, left, hsub, List.length_filter_lt_length_iff_exists]
  exact ⟨v, List.mem_filter.2 ⟨hv, by simpa [Entered] using hnew⟩, by simp⟩

/-- Later stages keep the numbers, the stack and the complete components. -/
structure Extends (p q : Progress α) : Prop where
  entered : ∀ v, p.Entered v → q.Entered v
  num : ∀ v, p.Entered v → q.num v = p.num v
  length : p.entered.length ≤ q.entered.length
  stack : ∃ top, q.stack = top ++ p.stack

namespace Extends

theorem refl (p : Progress α) : Extends p p :=
  ⟨fun _ => id, fun _ _ => rfl, Nat.le_refl _, [], rfl⟩

theorem trans {q r : Progress α} (h₁ : Extends p q) (h₂ : Extends q r) : Extends p r where
  entered v hv := h₂.entered v (h₁.entered v hv)
  num v hv := (h₂.num v (h₁.entered v hv)).trans (h₁.num v hv)
  length := Nat.le_trans h₁.length h₂.length
  stack := by
    obtain ⟨s, hs⟩ := h₁.stack
    obtain ⟨t, ht⟩ := h₂.stack
    exact ⟨t ++ s, by rw [ht, hs, List.append_assoc]⟩

theorem mem_stack {q : Progress α} (h : Extends p q) (hv : v ∈ p.stack) : v ∈ q.stack := by
  obtain ⟨s, hs⟩ := h.stack
  rw [hs]
  exact List.mem_append_right _ hv

end Extends

theorem extends_enter (hnew : ¬ p.Entered v) : Extends p (p.enter v) where
  entered _ hw := entered_enter.2 (.inr hw)
  num _ hw := num_enter_of_ne fun h => hnew (h ▸ hw)
  length := by simp [enter]
  stack := ⟨[v], rfl⟩

end Progress

open Progress

/-! ## The invariant -/

/-- What holds of the traversal while it is inside of the points `path`. -/
structure Inv (next : α → List α) (path : List α) (p : Progress α) : Prop where
  /-- Numbers are given out in order. -/
  num_lt : ∀ v, p.Entered v → p.num v < p.entered.length
  /-- A point that has been entered is on the stack or in a component. -/
  entered_iff : ∀ v, p.Entered v ↔ v ∈ p.stack ∨ v ∈ p.complete.flatten
  /-- No point is in two places. -/
  nodup : (p.stack ++ p.complete.flatten).Nodup
  /-- The last point entered is on top. -/
  sorted : p.stack.Pairwise fun a b => p.num b < p.num a
  path_subset : ∀ v ∈ path, v ∈ p.stack
  /-- A point the traversal has left has no new successor. -/
  scanned : ∀ v ∈ p.stack, v ∉ path → ∀ w ∈ next v, p.Entered w
  /-- Earlier points of the stack reach later ones. -/
  forth : ∀ a ∈ p.stack, ∀ b ∈ p.stack, p.num a ≤ p.num b → Reaches next a b
  /-- Every point of the stack gets back to one the traversal is inside of. -/
  back : ∀ a ∈ p.stack, ∃ b ∈ path, p.num b ≤ p.num a ∧ Reaches next a b
  /-- Complete components lead to complete components. -/
  closed : ∀ v ∈ p.complete.flatten, ∀ w ∈ next v, w ∈ p.complete.flatten
  /-- A complete component is a class of mutual reachability. -/
  exact : ∀ c ∈ p.complete, ∀ v ∈ c, ∀ w, w ∈ c ↔ Reaches next v w ∧ Reaches next w v
  /-- A component leads to no component completed later. -/
  ordered : p.complete.Pairwise fun c d => ∀ v ∈ c, ∀ w ∈ d, ¬ Reaches next v w
  nonempty : ∀ c ∈ p.complete, c ≠ []

namespace Inv

variable {next : α → List α} {path : List α} {p : Progress α}

/-- What a complete component reaches is complete. -/
theorem mem_complete_of_reaches (h : Inv next path p) {v w : α} (hv : v ∈ p.complete.flatten)
    (hr : Reaches next v w) : w ∈ p.complete.flatten :=
  hr.mem_of_closed (fun x y hx hy => h.closed x hx y hy) hv

theorem not_mem_complete (h : Inv next path p) {v : α} (hv : v ∈ p.stack) :
    v ∉ p.complete.flatten :=
  fun hc => (List.nodup_append.1 h.nodup).2.2 v hv v hc rfl

/-- **Entering a new point keeps the invariant**, if every point the
traversal is inside of reaches the new one. -/
theorem enter (h : Inv next path p) {v : α} (hnew : ¬ p.Entered v)
    (hpath : ∀ b ∈ path, Reaches next b v) : Inv next (v :: path) (p.enter v) := by
  have hvs : v ∉ p.stack := fun hv => hnew ((h.entered_iff v).2 (.inl hv))
  have hvc : v ∉ p.complete.flatten := fun hv => hnew ((h.entered_iff v).2 (.inr hv))
  have hne : ∀ w ∈ p.stack, w ≠ v := fun w hw hwv => hvs (hwv ▸ hw)
  have hnum : ∀ w ∈ p.stack, (p.enter v).num w = p.num w := fun w hw =>
    num_enter_of_ne (hne w hw)
  have hlt : ∀ w ∈ p.stack, p.num w < p.entered.length := fun w hw =>
    h.num_lt w ((h.entered_iff w).2 (.inl hw))
  -- a point of the stack gets back inside, and from there to the new point
  have hreach : ∀ a ∈ p.stack, Reaches next a v := by
    intro a ha
    obtain ⟨b, hb, -, hab⟩ := h.back a ha
    exact hab.trans (hpath b hb)
  refine
    { num_lt := ?_, entered_iff := ?_, nodup := ?_, sorted := ?_, path_subset := ?_
      scanned := ?_, forth := ?_, back := ?_, closed := h.closed, exact := h.exact
      ordered := h.ordered, nonempty := h.nonempty }
  · intro w hw
    rw [show (p.enter v).entered.length = p.entered.length + 1 by simp [Progress.enter]]
    by_cases hwv : w = v
    · rw [hwv, num_enter_self]; omega
    · rw [num_enter_of_ne hwv]
      have := h.num_lt w ((entered_enter.1 hw).resolve_left hwv)
      omega
  · intro w
    rw [entered_enter, h.entered_iff]
    simp [Progress.enter, or_assoc]
  · simpa [Progress.enter] using ⟨⟨hvs, by simpa using hvc⟩, h.nodup⟩
  · refine List.pairwise_cons.2 ⟨fun w hw => ?_, ?_⟩
    · rw [hnum w hw, num_enter_self]; exact hlt w hw
    · refine h.sorted.imp_of_mem fun {a b} ha hb hab => ?_
      rw [hnum a ha, hnum b hb]; exact hab
  · intro w hw
    rcases List.mem_cons.1 hw with rfl | hw
    · exact List.mem_cons_self
    · exact List.mem_cons_of_mem _ (h.path_subset w hw)
  · intro w hw hwpath x hx
    rw [List.mem_cons, not_or] at hwpath
    have hws : w ∈ p.stack := (List.mem_cons.1 hw).resolve_left hwpath.1
    exact entered_enter.2 (.inr (h.scanned w hws hwpath.2 x hx))
  · intro a ha b hb hab
    rcases List.mem_cons.1 ha with rfl | ha'
    · rcases List.mem_cons.1 hb with rfl | hb'
      · exact .refl
      · rw [num_enter_self, hnum b hb'] at hab
        have := hlt b hb'
        omega
    · rcases List.mem_cons.1 hb with rfl | hb'
      · exact hreach a ha'
      · rw [hnum a ha', hnum b hb'] at hab
        exact h.forth a ha' b hb' hab
  · intro a ha
    rcases List.mem_cons.1 ha with rfl | ha
    · exact ⟨a, List.mem_cons_self, Nat.le_refl _, .refl⟩
    · obtain ⟨b, hb, hba, hab⟩ := h.back a ha
      refine ⟨b, List.mem_cons_of_mem _ hb, ?_, hab⟩
      rw [hnum a ha, hnum b (h.path_subset b hb)]
      exact hba

end Inv

/-! ## One visit -/

/-- What a visit of `v` that started at `p` has established at `q`: `low` is
at most the number of `v`, is the number of a point on the stack that `v`
gets back to, and bounds every step back to the stack of `p`. -/
structure Visited (next : α → List α) (path : List α) (p : Progress α) (v : α) (low : Nat)
    (q : Progress α) : Prop where
  inv : Inv next path q
  grows : Extends p q
  entered : q.Entered v
  low_le : low ≤ p.entered.length
  low_back : low = p.entered.length ∨ ∃ y ∈ q.stack, q.num y = low ∧ Reaches next v y
  crossing : ∀ x ∈ q.stack, x ∉ p.stack → ∀ y ∈ next x, y ∈ p.stack → low ≤ p.num y
  within : ∀ w, q.Entered w → p.Entered w ∨ Reaches next v w

/-- What holds inside a visit of `v` that started at `p`, once the
successors `done` have been looked at. -/
structure Scanned (next : α → List α) (path : List α) (p : Progress α) (v : α) (done : List α)
    (low : Nat) (q : Progress α) : Prop where
  inv : Inv next (v :: path) q
  grows : Extends (p.enter v) q
  low_le : low ≤ p.entered.length
  low_back : ∃ y ∈ q.stack, q.num y = low ∧ Reaches next v y
  crossing : ∀ x ∈ q.stack, x ≠ v → x ∉ p.stack → ∀ y ∈ next x, y ∈ p.stack → low ≤ p.num y
  done_entered : ∀ w ∈ done, q.Entered w
  done_low : ∀ w ∈ done, w ∈ p.stack → low ≤ p.num w
  within : ∀ w, q.Entered w → p.Entered w ∨ Reaches next v w

namespace Scanned

variable {next : α → List α} {path : List α} {p q : Progress α} {v : α} {done : List α}
  {low : Nat}

/-- Right after entering. -/
theorem start (h : Inv next path p) (hnew : ¬ p.Entered v)
    (hpath : ∀ b ∈ path, Reaches next b v) :
    Scanned next path p v [] p.entered.length (p.enter v) where
  inv := h.enter hnew hpath
  grows := .refl _
  low_le := Nat.le_refl _
  low_back := ⟨v, List.mem_cons_self, num_enter_self, .refl⟩
  crossing x hx hxv hxp := absurd ((List.mem_cons.1 hx).resolve_left hxv) hxp
  done_entered := by simp
  done_low := by simp
  within w hw := by
    rcases entered_enter.1 hw with rfl | hw
    · exact .inr .refl
    · exact .inl hw

/-- The stack is what it was before, `v`, and what came after. -/
theorem stack_eq (h : Scanned next path p v done low q) :
    ∃ top, q.stack = top ++ v :: p.stack :=
  h.grows.stack

theorem num_self (h : Scanned next path p v done low q) : q.num v = p.entered.length := by
  rw [h.grows.num v (entered_enter.2 (.inl rfl)), num_enter_self]

/-- The points that were on the stack keep their numbers. -/
theorem num_eq (h : Scanned next path p v done low q) (hnew : ¬ p.Entered v) {w : α}
    (hw : p.Entered w) : q.num w = p.num w := by
  have hwv : w ≠ v := fun hv => hnew (hv ▸ hw)
  rw [h.grows.num w (entered_enter.2 (.inr hw)), num_enter_of_ne hwv]

/-- **A successor that has been entered before** lowers the bound if it is
on the stack, and changes nothing otherwise. -/
theorem old (h : Scanned next path p v done low q) (hp : Inv next path p)
    (hnew : ¬ p.Entered v) {w : α} {j : Nat} (hw : w ∈ next v) (hj : q.entered.get? w = some j) :
    Scanned next path p v (done ++ [w]) (if w ∈ q.stack then min low j else low) q := by
  have hent : q.Entered w := by simp [Entered, Assoc.has, hj]
  have hnum : q.num w = j := by simp [Progress.num, Assoc.getD, hj]
  have hle : (if w ∈ q.stack then min low j else low) ≤ low := by split <;> omega
  refine
    { inv := h.inv, grows := h.grows, low_le := Nat.le_trans hle h.low_le, low_back := ?_
      crossing := fun x hx hxv hxp y hy hyp => Nat.le_trans hle (h.crossing x hx hxv hxp y hy hyp)
      done_entered := ?_, done_low := ?_, within := h.within }
  · split
    · rcases Nat.le_total low j with hlj | hlj
      · rw [Nat.min_eq_left hlj]; exact h.low_back
      · rw [Nat.min_eq_right hlj]
        exact ⟨w, ‹_›, hnum, .single hw⟩
    · exact h.low_back
  · intro x hx
    rcases List.mem_append.1 hx with hx | hx
    · exact h.done_entered x hx
    · exact List.mem_singleton.1 hx ▸ hent
  · intro x hx hxp
    rcases List.mem_append.1 hx with hx | hx
    · exact Nat.le_trans hle (h.done_low x hx hxp)
    · rw [List.mem_singleton.1 hx] at hxp ⊢
      obtain ⟨top, htop⟩ := h.stack_eq
      have hws : w ∈ q.stack := by rw [htop]; simp [hxp]
      have hwp : p.Entered w := (hp.entered_iff w).2 (.inl hxp)
      rw [if_pos hws, ← h.num_eq hnew hwp, hnum]
      omega

/-- **A new successor** is visited, and what its visit can get back to
counts. -/
theorem new (h : Scanned next path p v done low q) (hp : Inv next path p)
    (hnew : ¬ p.Entered v) {w : α} (hw : w ∈ next v) (hwnew : ¬ q.Entered w) {l : Nat}
    {r : Progress α} (hv : Visited next (v :: path) q w l r) :
    Scanned next path p v (done ++ [w]) (min low l) r := by
  have hvq : p.entered.length < q.entered.length := by
    have := h.grows.length
    simp only [Progress.enter, List.length_cons] at this
    omega
  have hmem : ∀ x ∈ p.stack, x ∈ q.stack := fun x hx => by
    obtain ⟨top, htop⟩ := h.stack_eq
    rw [htop]; simp [hx]
  have hpe : ∀ x ∈ p.stack, p.Entered x := fun x hx => (hp.entered_iff x).2 (.inl hx)
  refine
    { inv := hv.inv, grows := h.grows.trans hv.grows
      low_le := Nat.le_trans (Nat.min_le_left ..) h.low_le, low_back := ?_, crossing := ?_
      done_entered := ?_, done_low := ?_, within := ?_ }
  · obtain ⟨y, hy, hylow, hvy⟩ := h.low_back
    have hy' : r.num y = low := by
      rw [hv.grows.num y ((h.inv.entered_iff y).2 (.inl hy)), hylow]
    rcases Nat.le_total low l with hll | hll
    · rw [Nat.min_eq_left hll]
      exact ⟨y, hv.grows.mem_stack hy, hy', hvy⟩
    · rw [Nat.min_eq_right hll]
      rcases hv.low_back with hl | ⟨z, hz, hzl, hwz⟩
      · -- the successor got nowhere, and its number is larger than that of `v`
        have := h.low_le
        omega
      · exact ⟨z, hz, hzl, .head hw hwz⟩
  · intro x hx hxv hxp y hy hyp
    by_cases hxq : x ∈ q.stack
    · exact Nat.le_trans (Nat.min_le_left ..) (h.crossing x hxq hxv hxp y hy hyp)
    · have := hv.crossing x hx hxq y hy (hmem y hyp)
      rw [h.num_eq hnew (hpe y hyp)] at this
      exact Nat.le_trans (Nat.min_le_right ..) this
  · intro x hx
    rcases List.mem_append.1 hx with hx | hx
    · exact hv.grows.entered x (h.done_entered x hx)
    · exact List.mem_singleton.1 hx ▸ hv.entered
  · intro x hx hxp
    rcases List.mem_append.1 hx with hx | hx
    · exact Nat.le_trans (Nat.min_le_left ..) (h.done_low x hx hxp)
    · -- a point of the old stack is not new
      rw [List.mem_singleton.1 hx] at hxp
      exact absurd ((h.inv.entered_iff w).2 (.inl (hmem w hxp))) hwnew
  · intro x hx
    rcases hv.within x hx with hx | hx
    · exact h.within x hx
    · exact .inr (.head hw hx)

/-- Where the points of the stack come from, once every successor of `v` has
been looked at: all of them lead to points that have been entered. -/
theorem scanned_all (h : Scanned next path p v (next v) low q) {x : α} (hx : x ∈ q.stack)
    (hpath : x ∉ path) : ∀ w ∈ next x, q.Entered w := by
  by_cases hxv : x = v
  · rw [hxv]; exact h.done_entered
  · exact h.inv.scanned x hx (by simp [hxv, hpath])

/-- **Leaving a point that gets back further** keeps it on the stack. -/
theorem leave (h : Scanned next path p v (next v) low q)
    (hnew : ¬ p.Entered v) (hlow : low ≠ p.entered.length) :
    Visited next path p v low q := by
  have hlt : low < q.num v := by
    have := h.low_le
    rw [h.num_self]; omega
  have hinv : Inv next path q := by
    refine { h.inv with path_subset := ?_, scanned := ?_, back := ?_ }
    · exact fun w hw => h.inv.path_subset w (List.mem_cons_of_mem _ hw)
    · exact fun x hx hpath => h.scanned_all hx hpath
    · intro a ha
      obtain ⟨b, hb, hba, hab⟩ := h.inv.back a ha
      rcases List.mem_cons.1 hb with rfl | hb
      · -- `v` gets back to a smaller number, and from there to the path
        obtain ⟨y, hy, hylow, hvy⟩ := h.low_back
        obtain ⟨b', hb', hby, hyb⟩ := h.inv.back y hy
        rcases List.mem_cons.1 hb' with rfl | hb'
        · omega
        · exact ⟨b', hb', by omega, hab.trans (hvy.trans hyb)⟩
      · exact ⟨b, hb, hba, hab⟩
  refine
    { inv := hinv, grows := (extends_enter hnew).trans h.grows
      entered := h.grows.entered v (entered_enter.2 (.inl rfl)), low_le := h.low_le
      low_back := .inr h.low_back, crossing := ?_, within := h.within }
  intro x hx hxp y hy hyp
  by_cases hxv : x = v
  · exact h.done_low y (hxv ▸ hy) hyp
  · exact h.crossing x hx hxv hxp y hy hyp

end Scanned

/-- Closing takes the points from `v` on off the stack. -/
theorem Progress.close_eq {q : Progress α} {v : α} {top rest : List α}
    (hstack : q.stack = top ++ [v] ++ rest) (hv : v ∉ top) :
    q.close v = { q with stack := rest, complete := q.complete ++ [top ++ [v]] } := by
  have hne : ∀ a ∈ top, (fun x => decide (x ≠ v)) a = true := by
    intro a ha
    simp only [decide_eq_true_eq]
    exact fun h => hv (h ▸ ha)
  rw [Progress.close, hstack, List.append_assoc, List.takeWhile_append_of_pos hne,
    List.dropWhile_append_of_pos hne]
  simp

namespace Scanned

variable {next : α → List α} {path : List α} {p q : Progress α} {v : α} {top : List α}

section Close

variable (h : Scanned next path p v (next v) p.entered.length q) (hp : Inv next path p)
  (hstack : q.stack = top ++ [v] ++ p.stack)

include h hstack

theorem not_mem_old {x : α} (hx : x ∈ top ++ [v]) : x ∉ p.stack := by
  have hnodup := (List.nodup_append.1 h.inv.nodup).1
  rw [hstack, List.nodup_append] at hnodup
  exact fun hxp => hnodup.2.2 x hx x hxp rfl

include hp

/-- The points from `v` on lead to one another and to complete components
only, since none of them gets back further than `v`. -/
theorem top_closed : ∀ x y, x ∈ top ++ [v] ∨ x ∈ q.complete.flatten → y ∈ next x →
    y ∈ top ++ [v] ∨ y ∈ q.complete.flatten := by
  rintro x y (hx | hx) hy
  · have hxq : x ∈ q.stack := hstack ▸ List.mem_append_left _ hx
    have hxp := h.not_mem_old hstack hx
    have hpath : x ∉ path := fun hx => hxp (hp.path_subset x hx)
    rcases (h.inv.entered_iff y).1 (h.scanned_all hxq hpath y hy) with hyq | hyc
    · left
      rw [hstack] at hyq
      rcases List.mem_append.1 hyq with hyt | hyp
      · exact hyt
      · -- a step back to the old stack would be below the number of `v`
        have hlt := hp.num_lt y ((hp.entered_iff y).2 (.inl hyp))
        have hle : p.entered.length ≤ p.num y := by
          by_cases hxv : x = v
          · exact h.done_low y (hxv ▸ hy) hyp
          · exact h.crossing x hxq hxv hxp y hy hyp
        omega
    · exact .inr hyc
  · exact .inr (h.inv.closed x hx y hy)

/-- The points from `v` on are one class of mutual reachability. -/
theorem top_exact {a w : α} (ha : a ∈ top ++ [v]) :
    w ∈ top ++ [v] ↔ Reaches next a w ∧ Reaches next w a := by
  have hmem : ∀ x ∈ top ++ [v], x ∈ q.stack := fun x hx => hstack ▸ List.mem_append_left _ hx
  have hout : ∀ {x y : α}, x ∈ top ++ [v] → Reaches next x y →
      y ∈ top ++ [v] ∨ y ∈ q.complete.flatten := fun hx hr =>
    hr.mem_of_closed (S := fun z => z ∈ top ++ [v] ∨ z ∈ q.complete.flatten)
      (h.top_closed hp hstack) (.inl hx)
  -- `v` reaches all of them, and the only way back inside is through `v`
  have hfrom : ∀ x ∈ top ++ [v], Reaches next v x := by
    intro x hx
    refine h.inv.forth v (hmem v (by simp)) x (hmem x hx) ?_
    have hsorted := h.inv.sorted
    rw [hstack, List.pairwise_append, List.pairwise_append] at hsorted
    rcases List.mem_append.1 hx with hxt | hxv
    · exact Nat.le_of_lt (hsorted.1.2.2 x hxt v (by simp))
    · exact Nat.le_of_eq (by rw [List.mem_singleton.1 hxv])
  have hto : ∀ x ∈ top ++ [v], Reaches next x v := by
    intro x hx
    obtain ⟨b, hb, -, hxb⟩ := h.inv.back x (hmem x hx)
    rcases List.mem_cons.1 hb with rfl | hb
    · exact hxb
    · have hbp := hp.path_subset b hb
      have hbq : b ∈ q.stack := by rw [hstack]; exact List.mem_append_right _ hbp
      rcases hout hx hxb with hbt | hbc
      · exact absurd hbp (h.not_mem_old hstack hbt)
      · exact absurd hbc (h.inv.not_mem_complete hbq)
  constructor
  · intro hw
    exact ⟨(hto a ha).trans (hfrom w hw), (hto w hw).trans (hfrom a ha)⟩
  · rintro ⟨haw, hwa⟩
    rcases hout ha haw with hw | hw
    · exact hw
    · exact absurd (h.inv.mem_complete_of_reaches hw hwa)
        (h.inv.not_mem_complete (hmem a ha))

/-- The invariant holds once the points from `v` on are a component. -/
theorem close_inv (hnew : ¬ p.Entered v) : Inv next path
    { q with stack := p.stack, complete := q.complete ++ [top ++ [v]] } := by
  have hpe : ∀ x ∈ p.stack, p.Entered x := fun x hx => (hp.entered_iff x).2 (.inl hx)
  have hnum : ∀ x ∈ p.stack, q.num x = p.num x := fun x hx => h.num_eq hnew (hpe x hx)
  have hpq : ∀ x ∈ p.stack, x ∈ q.stack := fun x hx => by
    rw [hstack]; exact List.mem_append_right _ hx
  have hflat : (q.complete ++ [top ++ [v]]).flatten = q.complete.flatten ++ (top ++ [v]) := by
    simp
  refine
    { num_lt := h.inv.num_lt, entered_iff := ?_, nodup := ?_, sorted := ?_
      path_subset := hp.path_subset, scanned := ?_, forth := ?_, back := ?_, closed := ?_
      exact := ?_, ordered := ?_, nonempty := ?_ }
  · intro w
    refine (h.inv.entered_iff w).trans ?_
    rw [hstack, hflat]
    simp only [List.mem_append]
    tauto
  · have hnodup := h.inv.nodup
    rw [hstack] at hnodup
    rw [hflat]
    refine (List.Perm.nodup_iff ?_).1 hnodup
    rw [List.append_assoc]
    exact List.perm_append_comm.trans (by rw [List.append_assoc])
  · have hsorted := h.inv.sorted
    rw [hstack, List.pairwise_append] at hsorted
    exact hsorted.2.1
  · intro x hx hpath w hw
    exact h.grows.entered w (entered_enter.2 (.inr (hp.scanned x hx hpath w hw)))
  · intro a ha b hb hab
    exact h.inv.forth a (hpq a ha) b (hpq b hb) hab
  · intro a ha
    obtain ⟨b, hb, hba, hab⟩ := hp.back a ha
    refine ⟨b, hb, ?_, hab⟩
    change q.num b ≤ q.num a
    rw [hnum a ha, hnum b (hp.path_subset b hb)]
    exact hba
  · intro x hx w hw
    rw [hflat, List.mem_append, or_comm] at hx ⊢
    exact h.top_closed hp hstack x w hx hw
  · intro c hc x hx w
    rcases List.mem_append.1 hc with hc | hc
    · exact h.inv.exact c hc x hx w
    · rw [List.mem_singleton.1 hc] at hx ⊢
      exact h.top_exact hp hstack hx
  · refine List.pairwise_append.2 ⟨h.inv.ordered, List.pairwise_singleton _ _, ?_⟩
    intro c hc d hd x hx w hw hxw
    rw [List.mem_singleton.1 hd] at hw
    have hxc : x ∈ q.complete.flatten := List.mem_flatten.2 ⟨c, hc, hx⟩
    exact h.inv.not_mem_complete (hstack ▸ List.mem_append_left _ hw)
      (h.inv.mem_complete_of_reaches hxc hxw)
  · intro c hc
    rcases List.mem_append.1 hc with hc | hc
    · exact h.inv.nonempty c hc
    · rw [List.mem_singleton.1 hc]; simp

end Close

/-- **Leaving a point that gets back no further than itself** completes its
component. -/
theorem close (h : Scanned next path p v (next v) p.entered.length q) (hp : Inv next path p)
    (hnew : ¬ p.Entered v) : Visited next path p v p.entered.length (q.close v) := by
  obtain ⟨top, htop⟩ := h.stack_eq
  have hstack : q.stack = top ++ [v] ++ p.stack := by rw [htop]; simp
  have hv : v ∉ top := by
    have hnodup := (List.nodup_append.1 h.inv.nodup).1
    rw [htop, List.nodup_append] at hnodup
    exact fun hv => hnodup.2.2 v hv v (by simp) rfl
  rw [Progress.close_eq hstack hv]
  have hgrows := (extends_enter hnew).trans h.grows
  exact
    { inv := h.close_inv hp hstack hnew
      grows := ⟨hgrows.entered, hgrows.num, hgrows.length, [], rfl⟩
      entered := h.grows.entered v (entered_enter.2 (.inl rfl))
      low_le := Nat.le_refl _
      low_back := .inl rfl
      crossing := fun x hx hxp => absurd hx hxp
      within := h.within }

end Scanned

/-! ## The traversal -/

/-- Looks at one successor. -/
def look (next : α → List α) (fuel : Nat) (s : Nat × Progress α) (w : α) : Nat × Progress α :=
  match s.2.entered.get? w with
  | none => (min s.1 (visit next fuel w s.2).1, (visit next fuel w s.2).2)
  | some j => (if w ∈ s.2.stack then min s.1 j else s.1, s.2)

/-- A visit looks at one successor after the other. -/
theorem visit_succ (next : α → List α) (fuel : Nat) (v : α) (p : Progress α) :
    visit next (fuel + 1) v p =
      let s := (next v).foldl (look next fuel) (p.entered.length, p.enter v)
      if s.1 = p.entered.length then (s.1, s.2.close v) else s := by
  have hbody : (fun (s : Nat × Progress α) w =>
      match s.2.entered.get? w with
      | none => (min s.1 (visit next fuel w s.2).1, (visit next fuel w s.2).2)
      | some j => if w ∈ s.2.stack then (min s.1 j, s.2) else s) = look next fuel := by
    funext s w
    unfold look
    cases s.2.entered.get? w with
    | none => rfl
    | some j =>
      simp only
      split <;> rfl
  rw [← hbody]
  rfl

section Traversal

variable {next : α → List α} {U : List α}

/-- **Looking at one successor more**, where the visits of new ones do what they should. -/
theorem Scanned.look (hU : ∀ a ∈ U, ∀ b ∈ next a, b ∈ U) {fuel : Nat}
    (hvisit : ∀ (w : α) (path : List α) (q : Progress α), Inv next path q → ¬ q.Entered w →
      (∀ b ∈ path, Reaches next b w) → w ∈ U → left U q ≤ fuel →
      Visited next path q w (visit next fuel w q).1 (visit next fuel w q).2)
    {path : List α} {p : Progress α} {v w : α} {done : List α} {s : Nat × Progress α}
    (h : Scanned next path p v done s.1 s.2) (hp : Inv next path p) (hnew : ¬ p.Entered v)
    (hpath : ∀ b ∈ path, Reaches next b v) (hv : v ∈ U) (hleft : left U p ≤ fuel + 1)
    (hw : w ∈ next v) :
    Scanned next path p v (done ++ [w]) (look next fuel s w).1 (look next fuel s w).2 := by
  cases hget : s.2.entered.get? w with
  | none =>
    have hwnew : ¬ s.2.Entered w := by simp [Entered, Assoc.has, hget]
    have hwpath : ∀ b ∈ v :: path, Reaches next b w := by
      intro b hb
      rcases List.mem_cons.1 hb with rfl | hb
      · exact .single hw
      · exact (hpath b hb).tail hw
    have hleft' : left U s.2 ≤ fuel := by
      have := left_mono (U := U) h.grows.entered
      have := left_enter_lt hv hnew
      omega
    rw [Components.look, hget]
    exact h.new hp hnew hw hwnew
      (hvisit w (v :: path) s.2 h.inv hwnew hwpath (hU v hv w hw) hleft')
  | some j =>
    rw [Components.look, hget]
    exact h.old hp hnew hw hget

/-- **A visit does what it should**, if the fuel covers the points that are
left of a list closed under successors. -/
theorem visit_visited (hU : ∀ a ∈ U, ∀ b ∈ next a, b ∈ U) :
    ∀ (fuel : Nat) (v : α) (path : List α) (p : Progress α), Inv next path p → ¬ p.Entered v →
      (∀ b ∈ path, Reaches next b v) → v ∈ U → left U p ≤ fuel →
      Visited next path p v (visit next fuel v p).1 (visit next fuel v p).2 := by
  intro fuel
  induction fuel with
  | zero =>
    intro v path p _ hnew _ hv hleft
    have := left_enter_lt hv hnew
    omega
  | succ fuel ih =>
    intro v path p hp hnew hpath hv hleft
    -- one successor after the other: `Scanned` is the invariant of the loop
    have h : Scanned next path p v (next v)
        ((next v).foldl (look next fuel) (p.entered.length, p.enter v)).1
        ((next v).foldl (look next fuel) (p.entered.length, p.enter v)).2 := by
      refine foldl_run (fun done (s : Nat × Progress α) => Scanned next path p v done s.1 s.2)
        (Scanned.start hp hnew hpath) ?_
      rintro done w s ⟨rest, hrest⟩ hs
      exact hs.look hU ih hp hnew hpath hv hleft (by rw [hrest]; simp)
    rw [visit_succ]
    by_cases hlow : ((next v).foldl (look next fuel) (p.entered.length, p.enter v)).1 =
        p.entered.length
    · simp only [hlow, if_true]
      rw [hlow] at h
      exact h.close hp hnew
    · simp only [hlow, if_false]
      exact h.leave hnew hlow

/-- The traversal starts with nothing. -/
theorem inv_start : Inv next [] ({} : Progress α) := by
  constructor <;> simp [Entered, Assoc.has, Assoc.get?]

/-- What the traversal has found after some of the starting points. -/
structure Found (next : α → List α) (points : List α) (p : Progress α) : Prop where
  inv : Inv next [] p
  entered : ∀ v ∈ points, p.Entered v
  within : ∀ w, p.Entered w → ∃ v ∈ points, Reaches next v w

/-- **The traversal enters exactly what the starting points reach.** -/
theorem visitAll_found {points : List α} {bound : Nat} (hU : ∀ a ∈ U, ∀ b ∈ next a, b ∈ U)
    (hpoints : ∀ v ∈ points, v ∈ U) (hbound : U.length ≤ bound) :
    Found next points (visitAll next bound points) := by
  have hleft : ∀ p : Progress α, left U p ≤ bound := fun p =>
    Nat.le_trans (List.length_filter_le ..) hbound
  refine foldl_run (Found next) ⟨inv_start, by simp, by simp [Entered, Assoc.has, Assoc.get?]⟩ ?_
  rintro done v p ⟨rest, hrest⟩ hp
  have hvU : v ∈ U := hpoints v (by rw [hrest]; simp)
  by_cases hv : p.entered.has v
  · simp only [hv, if_true]
    refine ⟨hp.inv, fun w hw => ?_, fun w hw => ?_⟩
    · rcases List.mem_append.1 hw with hw | hw
      · exact hp.entered w hw
      · exact List.mem_singleton.1 hw ▸ hv
    · obtain ⟨u, hu, hr⟩ := hp.within w hw
      exact ⟨u, List.mem_append_left _ hu, hr⟩
  · simp only [hv]
    have h := visit_visited hU bound v [] p hp.inv hv (by simp) hvU (hleft p)
    refine ⟨h.inv, fun w hw => ?_, fun w hw => ?_⟩
    · rcases List.mem_append.1 hw with hw | hw
      · exact h.grows.entered w (hp.entered w hw)
      · exact List.mem_singleton.1 hw ▸ h.entered
    · rcases h.within w hw with hw | hr
      · obtain ⟨u, hu, hr⟩ := hp.within w hw
        exact ⟨u, List.mem_append_left _ hu, hr⟩
      · exact ⟨v, by simp, hr⟩

/-- At the end nothing is left on the stack. -/
theorem Found.stack_eq_nil {points : List α} {p : Progress α} (h : Found next points p) :
    p.stack = [] := by
  refine List.eq_nil_iff_forall_not_mem.2 fun a ha => ?_
  obtain ⟨b, hb, -⟩ := h.inv.back a ha
  exact absurd hb List.not_mem_nil

end Traversal

end Components

/-! ## Components and their representatives -/

section Representatives

variable {α : Type} [DecidableEq α] {next : α → List α} {U points : List α} {bound : Nat}

/-- **The components hold what the starting points reach**, each point once. -/
theorem mem_components (hU : ∀ a ∈ U, ∀ b ∈ next a, b ∈ U) (hpoints : ∀ v ∈ points, v ∈ U)
    (hbound : U.length ≤ bound) :
    (components next bound points).flatten.Nodup ∧
      ∀ w, w ∈ (components next bound points).flatten ↔ ∃ v ∈ points, Reaches next v w := by
  have h := Components.visitAll_found hU hpoints hbound
  have hnodup := h.inv.nodup
  have hentered := h.inv.entered_iff
  rw [h.stack_eq_nil] at hnodup hentered
  refine ⟨by simpa [components] using hnodup, fun w => ?_⟩
  simp only [List.not_mem_nil, false_or] at hentered
  rw [components, ← hentered]
  constructor
  · exact h.within w
  · -- the complete components are closed under successors
    rintro ⟨v, hv, hr⟩
    exact (hentered w).2 (h.inv.mem_complete_of_reaches ((hentered v).1 (h.entered v hv)) hr)

/-- **A component is a class of mutual reachability.** -/
theorem mem_component_iff (hU : ∀ a ∈ U, ∀ b ∈ next a, b ∈ U) (hpoints : ∀ v ∈ points, v ∈ U)
    (hbound : U.length ≤ bound) {c : List α} (hc : c ∈ components next bound points) {v w : α}
    (hv : v ∈ c) : w ∈ c ↔ Reaches next v w ∧ Reaches next w v :=
  (Components.visitAll_found hU hpoints hbound).inv.exact c hc v hv w

/-- What is read from a table after it has been set at some keys. -/
theorem get?_foldl_set {κ ν : Type} [DecidableEq κ] (c : List κ) (f : κ → ν) (m : Assoc κ ν)
    (y : κ) : (c.foldl (fun m z => m.set z (f z)) m).get? y =
      if y ∈ c then some (f y) else m.get? y := by
  induction c generalizing m with
  | nil => simp
  | cons z c ih =>
    rw [List.foldl_cons, ih]
    by_cases hy : y = z
    · simp [hy]
    · rw [Assoc.get?_set_ne _ _ hy]
      simp [hy]

/-- In distinct components every point gets the least point of its own. -/
theorem get?_componentRepresentatives (lt : α → α → Bool) {cs : List (List α)}
    (hnodup : cs.flatten.Nodup) {c : List α} (hc : c ∈ cs) {y : α} (hy : y ∈ c) :
    ∃ x xs, c = x :: xs ∧
      (componentRepresentatives lt cs).get? y = some (leastOf lt x xs) := by
  have key : ∀ d ∈ cs, ∀ z ∈ d, ∃ x xs, d = x :: xs ∧
      (componentRepresentatives lt cs).get? z = some (leastOf lt x xs) := by
    refine foldl_run (fun done (reps : Assoc α α) => ∀ d ∈ done, ∀ z ∈ d, ∃ x xs, d = x :: xs ∧
      reps.get? z = some (leastOf lt x xs)) (by simp) ?_
    rintro done d reps ⟨rest, hrest⟩ hdone e he z hz
    rw [hrest, List.flatten_append, List.nodup_append] at hnodup
    rcases List.mem_append.1 he with he | he
    · obtain ⟨x, xs, rfl, hget⟩ := hdone e he z hz
      -- the round is about another component
      have hzd : z ∉ d := fun hzd =>
        hnodup.2.2 z (List.mem_flatten.2 ⟨_, he, hz⟩) z (by simp [hzd]) rfl
      refine ⟨x, xs, rfl, ?_⟩
      cases d with
      | nil => exact hget
      | cons a as => rw [get?_foldl_set, if_neg hzd, hget]
    · rw [List.mem_singleton.1 he] at hz ⊢
      cases d with
      | nil => exact absurd hz List.not_mem_nil
      | cons a as => exact ⟨a, as, rfl, by rw [get?_foldl_set, if_pos hz]⟩
  exact key c hc y hy

/-- A point of no component gets none. -/
theorem get?_componentRepresentatives_eq_none (lt : α → α → Bool) {cs : List (List α)} {y : α}
    (hy : y ∉ cs.flatten) : (componentRepresentatives lt cs).get? y = none := by
  refine foldl_run (fun _ (reps : Assoc α α) => reps.get? y = none) rfl ?_
  rintro done c reps ⟨rest, hrest⟩ hnone
  have hyc : y ∉ c := fun hyc => hy (List.mem_flatten.2 ⟨c, by rw [hrest]; simp, hyc⟩)
  cases c with
  | nil => exact hnone
  | cons x xs => rw [get?_foldl_set, if_neg hyc, hnone]

end Representatives

/-- The least element is one of the list, and no other is below it. -/
theorem leastOf_spec {α : Type} [LinearOrder α] (x : α) (xs : List α) :
    leastOf (fun a b => decide (a < b)) x xs ∈ x :: xs ∧
      ∀ y ∈ x :: xs, leastOf (fun a b => decide (a < b)) x xs ≤ y := by
  induction xs generalizing x with
  | nil => simp [leastOf]
  | cons z xs ih =>
    obtain ⟨hmem, hle⟩ := ih (if z < x then z else x)
    have hstep : leastOf (fun a b => decide (a < b)) x (z :: xs) =
        leastOf (fun a b => decide (a < b)) (if z < x then z else x) xs := by
      simp [leastOf]
    rw [hstep]
    have hhead := hle _ List.mem_cons_self
    have hmin : (if z < x then z else x) ≤ x ∧ (if z < x then z else x) ≤ z := by
      split
      · next h => exact ⟨le_of_lt h, le_refl z⟩
      · next h => exact ⟨le_refl x, not_lt.1 h⟩
    refine ⟨?_, fun y hy => ?_⟩
    · rcases List.mem_cons.1 hmem with h | h
      · rw [h]; split <;> simp
      · exact List.mem_cons_of_mem _ (List.mem_cons_of_mem _ h)
    · rcases List.mem_cons.1 hy with rfl | hy
      · exact le_trans hhead hmin.1
      · rcases List.mem_cons.1 hy with rfl | hy
        · exact le_trans hhead hmin.2
        · exact hle y (List.mem_cons_of_mem _ hy)

namespace CallGraph

variable {g : CallGraph}

/-- **The representative of a method is the least method of its class.** -/
theorem representatives_spec {m : Int} (hm : g.hasMethod m) :
    ∃ r : Int, g.representatives[m.toNat]? = some r ∧ Reaches g.successors m r ∧
      Reaches g.successors r m ∧
      ∀ x : Int, Reaches g.successors m x → Reaches g.successors x m → r ≤ x := by
  have hU : ∀ a ∈ g.methods ++ g.edges.toList.map (·.callee), ∀ b ∈ g.successors a,
      b ∈ g.methods ++ g.edges.toList.map (·.callee) := by
    intro a _ b hb
    obtain ⟨e, he, -, rfl⟩ := mem_successors.1 hb
    exact List.mem_append_right _ (List.mem_map.2 ⟨e, by simpa using he, rfl⟩)
  have hpoints : ∀ v ∈ g.methods, v ∈ g.methods ++ g.edges.toList.map (·.callee) :=
    fun v hv => List.mem_append_left _ hv
  have hbound : (g.methods ++ g.edges.toList.map (·.callee)).length ≤ g.size + g.edges.size := by
    simp [length_methods]
  obtain ⟨hnodup, hmem⟩ := mem_components hU hpoints hbound
  obtain ⟨c, hc, hmc⟩ := List.mem_flatten.1 ((hmem m).2 ⟨m, mem_methods.2 hm, .refl⟩)
  obtain ⟨x, xs, rfl, hget⟩ :=
    get?_componentRepresentatives (fun a b => decide (a < b)) hnodup hc hmc
  obtain ⟨hleast, hle⟩ := leastOf_spec x xs
  have hclass : ∀ w, w ∈ x :: xs ↔ Reaches g.successors m w ∧ Reaches g.successors w m :=
    fun w => mem_component_iff hU hpoints hbound hc hmc
  obtain ⟨hto, hback⟩ := (hclass _).1 hleast
  refine ⟨_, ?_, hto, hback, fun y hy hy' => hle y ((hclass y).2 ⟨hy, hy'⟩)⟩
  obtain ⟨h0, hlt⟩ := hasMethod_iff.1 hm
  have hn : m.toNat < g.size := by omega
  have hcast : Int.ofNat m.toNat = m := Int.toNat_of_nonneg h0
  simp only [representatives, methods, List.map_map, List.getElem?_map, List.getElem?_range hn,
    Option.map_some, Function.comp_apply, hcast]
  simp only [methods] at hget
  rw [Assoc.getD, hget, Option.getD_some]

end CallGraph

end PointsTo
