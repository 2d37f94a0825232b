import Mathlib.Data.List.Chain
import PointsTo.Proofs.Digraphs
/-!
# The cycles through one point

The search of `CycleSearch.circuit` extends a path and closes it to the
start. `Closing` says which ways there are to close a path without meeting
a point twice, and `circuit_searched` that the search finds each of them
once. It enters no blocked point and loses nothing by it: `Inv` says that a
blocked point off the path leads to blocked points only, and waits for all
of them. A search that has found something unblocks its point and what
waits for it; what was blocked before stays so, as it waits for none of the
points entered since (`Freed`). `circuit_cut` is about the limit: a search
that may find only so many cycles finds the first of them.
-/

namespace PointsTo

namespace Digraph

/-! ## Closing a path -/

/-- `t` leads from the last point of a path (listed last first) back to the
start, along points that are not on the path and are met once. -/
inductive Closing (g : Digraph) (start : Int) : List Int → List Int → Prop
  | close {v : Int} {path : List Int} (harc : start ∈ g.succs v) :
      Closing g start (v :: path) [start]
  | step {v w : Int} {path t : List Int} (harc : w ∈ g.succs v) (hnew : w ∉ v :: path)
      (hrest : Closing g start (w :: v :: path) t) : Closing g start (v :: path) (w :: t)

namespace CycleSearch

variable {g : Digraph} {start u v w y z : Int} {s s' s'' : CycleSearch}

/-- The points that wait for a point. -/
def waits (s : CycleSearch) (u : Int) : List Int := s.waiting.getD u []

/-! ## Unblocking -/

theorem waits_erase (s : CycleSearch) (u y : Int) (blocked : List Int) :
    ({ s with blocked, waiting := s.waiting.erase u } : CycleSearch).waits y =
      if y = u then [] else s.waits y := by
  by_cases h : y = u
  · simp [waits, Assoc.getD, h]
  · simp [waits, Assoc.getD, Assoc.get?_erase_ne _ h, h]

theorem mem_waits_of_erase {blocked : List Int}
    (h : z ∈ ({ s with blocked, waiting := s.waiting.erase u } : CycleSearch).waits y) :
    z ∈ s.waits y := by
  rw [waits_erase] at h
  split at h
  · cases h
  · exact h

/-- Unblocking leaves the path and the cycles alone. -/
theorem unblock_frame : ∀ (fuel : Nat) (u : Int) (s : CycleSearch),
    (unblock fuel u s).path = s.path ∧ (unblock fuel u s).found = s.found := by
  intro fuel
  induction fuel with
  | zero => exact fun u s => ⟨rfl, rfl⟩
  | succ fuel ih =>
    intro u s
    rw [unblock]
    refine foldl_run (fun _ (t : CycleSearch) => t.path = s.path ∧ t.found = s.found)
      ⟨rfl, rfl⟩ ?_
    rintro done w t _ ⟨hpath, hfound⟩
    split
    · exact ⟨(ih w t).1.trans hpath, (ih w t).2.trans hfound⟩
    · exact ⟨hpath, hfound⟩

/-- Some points are unblocked, with all that waited for them, and nothing
waits for them any more. -/
structure Freed (s s' : CycleSearch) : Prop where
  blocked : s'.blocked.Sublist s.blocked
  waits : ∀ y, ∀ z ∈ s'.waits y, z ∈ s.waits y
  kept : ∀ y ∈ s'.blocked, s'.waits y = s.waits y
  freed : ∀ y ∈ s.blocked, y ∉ s'.blocked →
    s'.waits y = [] ∧ ∀ z ∈ s.waits y, z ∉ s'.blocked

namespace Freed

theorem refl (s : CycleSearch) : Freed s s where
  blocked := List.Sublist.refl _
  waits _ _ := id
  kept _ _ := rfl
  freed _ hy hnot := absurd hy hnot

theorem trans (h₁ : Freed s s') (h₂ : Freed s' s'') : Freed s s'' where
  blocked := h₂.blocked.trans h₁.blocked
  waits y z hz := h₁.waits y z (h₂.waits y z hz)
  kept y hy := (h₂.kept y hy).trans (h₁.kept y (h₂.blocked.subset hy))
  freed y hy hnot := by
    by_cases hy' : y ∈ s'.blocked
    · obtain ⟨hnil, hfree⟩ := h₂.freed y hy' hnot
      exact ⟨hnil, fun z hz => hfree z (h₁.kept y hy' ▸ hz)⟩
    · obtain ⟨hnil, hfree⟩ := h₁.freed y hy hy'
      refine ⟨List.eq_nil_iff_forall_not_mem.2 fun z hz => ?_, fun z hz hzb =>
        hfree z hz (h₂.blocked.subset hzb)⟩
      have := h₂.waits y z hz
      rw [hnil] at this
      cases this

/-- Unblocking one point and then all that waited for it. -/
theorem of_erase (hnodup : s.blocked.Nodup)
    (h : Freed { s with blocked := s.blocked.erase u, waiting := s.waiting.erase u } s')
    (hwaiters : ∀ z ∈ s.waits u, z ∉ s'.blocked) : Freed s s' where
  blocked := h.blocked.trans List.erase_sublist
  waits y z hz := mem_waits_of_erase (h.waits y z hz)
  kept y hy := by
    have hyu : y ≠ u := fun heq => hnodup.not_mem_erase (heq ▸ h.blocked.subset hy)
    rw [h.kept y hy, waits_erase, if_neg hyu]
  freed y hy hnot := by
    by_cases hyu : y = u
    · subst hyu
      refine ⟨List.eq_nil_iff_forall_not_mem.2 fun z hz => ?_, hwaiters⟩
      have := h.waits y z hz
      rw [waits_erase, if_pos rfl] at this
      cases this
    · obtain ⟨hnil, hfree⟩ := h.freed y ((List.mem_erase_of_ne hyu).2 hy) hnot
      rw [waits_erase, if_neg hyu] at hfree
      exact ⟨hnil, hfree⟩

end Freed

/-- What is not among the points that would be unblocked in turn stays blocked. -/
def Spares (s : CycleSearch) (u : Int) (s' : CycleSearch) : Prop :=
  ∀ S : Int → Prop, S u → (∀ y, S y → ∀ z ∈ s.waits y, S z) →
    ∀ x ∈ s.blocked, ¬ S x → x ∈ s'.blocked

/-- What has become of the points waiting for `u` that have been run through: they are free,
and no more has been freed than has to be. -/
structure Rousing (s s₁ : CycleSearch) (u : Int) (done : List Int) (t : CycleSearch) : Prop where
  freed : Freed s₁ t
  free : ∀ z ∈ done, z ∉ t.blocked
  spares : Spares s u t

namespace Rousing

variable {s₁ t t' : CycleSearch} {done : List Int} {w : Int} (h : Rousing s s₁ u done t)

include h

/-- The next one is free already. -/
theorem skip (hw : w ∉ t.blocked) : Rousing s s₁ u (done ++ [w]) t where
  freed := h.freed
  free := List.forall_mem_append.2 ⟨h.free, List.forall_mem_singleton.2 hw⟩
  spares := h.spares

/-- The next one has been unblocked. -/
theorem rouse (hwaits : ∀ y, ∀ z ∈ s₁.waits y, z ∈ s.waits y) (hwu : w ∈ s.waits u)
    (hfreed : Freed t t') (hw : w ∉ t'.blocked) (hspares : Spares t w t') :
    Rousing s s₁ u (done ++ [w]) t' where
  freed := h.freed.trans hfreed
  free := List.forall_mem_append.2 ⟨fun z hz hzt => h.free z hz (hfreed.blocked.subset hzt),
    List.forall_mem_singleton.2 hw⟩
  spares S hS hclosed x hx hxS := by
    refine hspares S (hclosed u hS w hwu) (fun y hy z hz => ?_) x
      (h.spares S hS hclosed x hx hxS) hxS
    exact hclosed y hy z (hwaits y z (h.freed.waits y z hz))

end Rousing

/-- **Unblocking** frees the point and, in turn, what waits for it, and
nothing else. -/
theorem unblock_freed : ∀ (fuel : Nat) (u : Int) (s : CycleSearch), s.blocked.Nodup →
    u ∈ s.blocked → s.blocked.length ≤ fuel →
    Freed s (unblock fuel u s) ∧ u ∉ (unblock fuel u s).blocked ∧
      Spares s u (unblock fuel u s) := by
  intro fuel
  induction fuel with
  | zero =>
    intro u s _ hu hfuel
    have := List.length_pos_of_mem hu
    omega
  | succ fuel ih =>
    intro u s hnodup hu hfuel
    rw [unblock]
    generalize hs₁ : ({ s with blocked := s.blocked.erase u, waiting := s.waiting.erase u } :
      CycleSearch) = s₁
    have hblocked : s₁.blocked = s.blocked.erase u := by rw [← hs₁]
    have hwaits : ∀ y, ∀ z ∈ s₁.waits y, z ∈ s.waits y := by
      subst hs₁
      exact fun y z hz => mem_waits_of_erase hz
    have hnodup₁ : s₁.blocked.Nodup := hblocked ▸ hnodup.erase u
    have hlength : s₁.blocked.length ≤ fuel := by
      rw [hblocked, List.length_erase_of_mem hu]
      omega
    have hstart : Rousing s s₁ u [] s₁ := by
      refine ⟨.refl _, by simp, fun S hS _ x hx hxS => ?_⟩
      rw [hblocked, List.mem_erase_of_ne fun heq : x = u => hxS (heq ▸ hS)]
      exact hx
    have hrun : Rousing s s₁ u (s.waits u) ((s.waits u).foldl
        (fun t w => if w ∈ t.blocked then unblock fuel w t else t) s₁) := by
      refine foldl_run (Rousing s s₁ u) hstart ?_
      rintro done w t ⟨rest, hrest⟩ ht
      split
      · next hwt =>
        obtain ⟨hfreed, hw, hspares⟩ := ih w t (hnodup₁.sublist ht.freed.blocked) hwt
          (ht.freed.blocked.length_le.trans hlength)
        exact ht.rouse hwaits (by rw [hrest]; simp) hfreed hw hspares
      · next hwt => exact ht.skip hwt
    refine ⟨.of_erase hnodup (hs₁ ▸ hrun.freed) hrun.free, fun hut => ?_, hrun.spares⟩
    have hmem := hrun.freed.blocked.subset hut
    rw [hblocked] at hmem
    exact hnodup.not_mem_erase hmem

/-! ## Waiting -/

/-- Waiting changes nothing but who waits for whom. -/
theorem await_spec (v : Int) (ws : List Int) (s : CycleSearch) :
    (await v ws s).path = s.path ∧ (await v ws s).blocked = s.blocked ∧
      (await v ws s).found = s.found ∧
      ∀ y z, z ∈ (await v ws s).waits y ↔ z ∈ s.waits y ∨ y ∈ ws ∧ z = v := by
  refine foldl_run (fun done (t : CycleSearch) => t.path = s.path ∧ t.blocked = s.blocked ∧
    t.found = s.found ∧ ∀ y z, z ∈ t.waits y ↔ z ∈ s.waits y ∨ y ∈ done ∧ z = v)
    ⟨rfl, rfl, rfl, by simp⟩ ?_
  rintro done w t - ⟨hpath, hblocked, hfound, hwaits⟩
  refine ⟨hpath, hblocked, hfound, fun y z => ?_⟩
  by_cases hy : y = w
  · subst hy
    have hget : ({ t with waiting := t.waiting.set y ((t.waiting.getD y []).insert v) } :
        CycleSearch).waits y = (t.waits y).insert v := by
      simp [waits, Assoc.getD]
    rw [hget, List.mem_insert_iff, hwaits]
    simp only [List.mem_append, List.mem_singleton, or_true, true_and]
    tauto
  · have hget : ({ t with waiting := t.waiting.set w ((t.waiting.getD w []).insert v) } :
        CycleSearch).waits y = t.waits y := by
      simp [waits, Assoc.getD, Assoc.get?_set_ne _ _ hy]
    rw [hget, hwaits]
    simp [hy]

/-! ## The invariant -/

/-- What holds of the search all along. -/
structure Inv (g : Digraph) (start : Int) (s : CycleSearch) : Prop where
  nodup_blocked : s.blocked.Nodup
  blocked_subset : ∀ z ∈ s.blocked, z ∈ g.keys
  nodup_path : s.path.Nodup
  path_subset : ∀ z ∈ s.path, z ∈ s.blocked
  /-- Only blocked points are waited for. -/
  waited : ∀ y, ∀ z ∈ s.waits y, y ∈ s.blocked
  /-- A blocked point off the path leads to blocked points only, and waits for them. -/
  stuck : ∀ z ∈ s.blocked, z ∉ s.path → ∀ w ∈ g.succs z, w ≠ start ∧ w ∈ s.blocked ∧ z ∈ s.waits w

namespace Inv

/-- The search starts with nothing blocked. -/
theorem initial (found : List (List Int)) : Inv g start { found } where
  nodup_blocked := List.nodup_nil
  blocked_subset := by simp
  nodup_path := List.nodup_nil
  path_subset := by simp
  waited y z hz := by cases hz
  stuck := by simp

/-- **A blocked point off the path leads to no way back.** -/
theorem not_closing (h : Inv g start s) {path t : List Int} (hc : Closing g start (w :: path) t)
    (hsub : ∀ x ∈ s.path, x ∈ path) (hw : w ∈ s.blocked) (hoff : w ∉ s.path) : False := by
  generalize hq : w :: path = q at hc
  induction hc generalizing w path with
  | close harc =>
    obtain ⟨rfl, rfl⟩ := List.cons.inj hq
    exact (h.stuck _ hw hoff _ harc).1 rfl
  | step harc hnew _ ih =>
    obtain ⟨rfl, rfl⟩ := List.cons.inj hq
    refine ih (fun x hx => List.mem_cons_of_mem _ (hsub x hx)) (h.stuck _ hw hoff _ harc).2.1
      (fun hon => hnew (List.mem_cons_of_mem _ (hsub _ hon))) rfl

/-- Entering a point. -/
theorem enter (h : Inv g start s) (hv : v ∈ g.keys) (hnew : v ∉ s.blocked) :
    Inv g start { s with path := v :: s.path, blocked := s.blocked.insert v } where
  nodup_blocked := h.nodup_blocked.insert
  blocked_subset z hz := by
    rcases List.mem_insert_iff.1 hz with rfl | hz
    · exact hv
    · exact h.blocked_subset z hz
  nodup_path := List.nodup_cons.2 ⟨fun hp => hnew (h.path_subset v hp), h.nodup_path⟩
  path_subset z hz := by
    rcases List.mem_cons.1 hz with rfl | hz
    · exact List.mem_insert_self
    · exact List.mem_insert_of_mem (h.path_subset z hz)
  waited y z hz := List.mem_insert_of_mem (h.waited y z hz)
  stuck z hz hoff w hw := by
    rw [List.mem_cons, not_or] at hoff
    have hz : z ∈ s.blocked := (List.mem_insert_iff.1 hz).resolve_left hoff.1
    obtain ⟨hne, hb, hwait⟩ := h.stuck z hz hoff.2 w hw
    exact ⟨hne, List.mem_insert_of_mem hb, hwait⟩

end Inv

/-! ## The search -/

/-- `cs` lists, each once, the ways to close a path that go on with one of some points,
each as the path followed by the way. -/
structure Lists (g : Digraph) (start : Int) (path done : List Int) (cs : List (List Int)) :
    Prop where
  nodup : cs.Nodup
  mem_iff : ∀ c, c ∈ cs ↔
    ∃ w ∈ done, ∃ t, Closing g start path (w :: t) ∧ c = path.reverse ++ w :: t

namespace Lists

variable {path done : List Int} {cs ds : List (List Int)}

/-- The ways that go on with one more point. -/
theorem append (h : Lists g start path done cs) (hw : w ∉ done) (hnodup : ds.Nodup)
    (hds : ∀ c, c ∈ ds ↔ ∃ t, Closing g start path (w :: t) ∧ c = path.reverse ++ w :: t) :
    Lists g start path (done ++ [w]) (cs ++ ds) where
  nodup := by
    refine List.nodup_append.2 ⟨h.nodup, hnodup, ?_⟩
    rintro c hc _ hd rfl
    obtain ⟨x, hx, t, -, rfl⟩ := (h.mem_iff c).1 hc
    obtain ⟨t', -, heq⟩ := (hds _).1 hd
    obtain ⟨rfl, -⟩ := List.cons.inj (List.append_cancel_left heq)
    exact hw hx
  mem_iff c := by
    rw [List.mem_append, h.mem_iff, hds]
    constructor
    · rintro (⟨x, hx, t, ht⟩ | ⟨t, ht⟩)
      · exact ⟨x, List.mem_append_left _ hx, t, ht⟩
      · exact ⟨w, by simp, t, ht⟩
    · rintro ⟨x, hx, t, ht⟩
      rcases List.mem_append.1 hx with hx | hx
      · exact .inl ⟨x, hx, t, ht⟩
      · rw [List.mem_singleton.1 hx] at ht
        exact .inr ⟨t, ht⟩

/-- A way to close a path goes on with a successor. -/
theorem mem_iff_closing (h : Lists g start (v :: path) (g.succs v) cs) {c : List Int} :
    c ∈ cs ↔ ∃ t, Closing g start (v :: path) t ∧ c = (v :: path).reverse ++ t := by
  rw [h.mem_iff]
  constructor
  · rintro ⟨w, -, t, ht⟩
    exact ⟨w :: t, ht⟩
  · rintro ⟨t, ht, rfl⟩
    cases ht with
    | close harc => exact ⟨start, harc, [], .close harc, rfl⟩
    | step harc hnew hrest => exact ⟨_, harc, _, .step harc hnew hrest, rfl⟩

end Lists

/-- **What a search from `v` does**: it has added the cycles it has found, and
has unblocked nothing that was blocked before. -/
structure Searched (g : Digraph) (start v : Int) (s : CycleSearch) (hit : Bool)
    (s' : CycleSearch) : Prop where
  inv : Inv g start s'
  path : s'.path = s.path
  blocked : ∀ z ∈ s.blocked, z ∈ s'.blocked
  /-- What was blocked before waits for nothing new. -/
  waits : ∀ y, ∀ z ∈ s.blocked, z ∈ s'.waits y → z ∈ s.waits y
  missed : hit = false → v ∈ s'.blocked
  found : ∃ cs, s'.found = s.found ++ cs ∧ (hit = true ↔ cs ≠ []) ∧
    Lists g start (v :: s.path) (g.succs v) cs

/-- What holds in a search from `v` that has gone on with the successors `done`. -/
structure Searching (g : Digraph) (start v : Int) (s : CycleSearch) (done : List Int)
    (hit : Bool) (s' : CycleSearch) : Prop where
  inv : Inv g start s'
  path : s'.path = v :: s.path
  entered : v ∈ s'.blocked
  blocked : ∀ z ∈ s.blocked, z ∈ s'.blocked
  waits : ∀ y, ∀ z ∈ s.blocked, z ∈ s'.waits y → z ∈ s.waits y
  missed : hit = false → ∀ w ∈ done, w ≠ start ∧ w ∈ s'.blocked
  found : ∃ cs, s'.found = s.found ++ cs ∧ (hit = true ↔ cs ≠ []) ∧
    Lists g start (v :: s.path) done cs

namespace Searching

variable {done : List Int} {hit hit' : Bool}

/-- Right after entering. -/
theorem initial (h : Inv g start s) (hv : v ∈ g.keys) (hnew : v ∉ s.blocked) :
    Searching g start v s [] false
      { s with path := v :: s.path, blocked := s.blocked.insert v } where
  inv := h.enter hv hnew
  path := rfl
  entered := List.mem_insert_self
  blocked z hz := List.mem_insert_of_mem hz
  waits y z _ hz := hz
  missed _ := by simp
  found := ⟨[], by simp, by simp, List.nodup_nil, by simp⟩

/-- **The start as a successor** closes the path. -/
theorem close (h : Searching g start v s done hit s') (harc : start ∈ g.succs v)
    (hon : start ∈ v :: s.path) (hnew : start ∉ done) :
    Searching g start v s (done ++ [start]) true
      { s' with found := s'.found ++ [(start :: s'.path).reverse] } := by
  refine
    { inv := ⟨h.inv.nodup_blocked, h.inv.blocked_subset, h.inv.nodup_path, h.inv.path_subset,
        h.inv.waited, h.inv.stuck⟩
      path := h.path, entered := h.entered, blocked := h.blocked, waits := h.waits
      missed := nofun, found := ?_ }
  obtain ⟨cs, hcs, -, hlists⟩ := h.found
  refine ⟨cs ++ [(start :: s'.path).reverse], by rw [← List.append_assoc, hcs], by simp,
    hlists.append hnew (List.nodup_singleton _) fun c => ?_⟩
  rw [List.mem_singleton, h.path]
  constructor
  · rintro rfl
    exact ⟨[], .close harc, by simp⟩
  · rintro ⟨t, ht, rfl⟩
    cases ht with
    | close => simp
    | step _ hnot => exact absurd hon hnot

/-- **A blocked successor** may be left out. -/
theorem skip (h : Searching g start v s done hit s') (hne : w ≠ start) (hdone : w ∉ done)
    (hw : w ∈ s'.blocked) : Searching g start v s (done ++ [w]) hit s' := by
  refine { h with missed := fun hhit x hx => ?_, found := ?_ }
  · rcases List.mem_append.1 hx with hx | hx
    · exact h.missed hhit x hx
    · rw [List.mem_singleton.1 hx]
      exact ⟨hne, hw⟩
  · obtain ⟨cs, hcs, hhit, hlists⟩ := h.found
    refine ⟨cs, hcs, hhit, ?_⟩
    have hnone : ∀ t, ¬ Closing g start (v :: s.path) (w :: t) := by
      intro t ht
      cases ht with
      | close => exact hne rfl
      | step _ hnew hrest =>
        exact h.inv.not_closing hrest (by rw [h.path]; exact fun _ => id) hw (h.path ▸ hnew)
    have hlists' : Lists g start (v :: s.path) (done ++ [w]) (cs ++ []) :=
      hlists.append hdone List.nodup_nil fun c =>
        iff_of_false List.not_mem_nil fun ⟨t, ht, _⟩ => hnone t ht
    rwa [List.append_nil] at hlists'

/-- **A successor that is not blocked** is searched from. -/
theorem follow (h : Searching g start v s done hit s') (hne : w ≠ start) (hdone : w ∉ done)
    (harc : w ∈ g.succs v) (hw : w ∉ s'.blocked) (hs : Searched g start w s' hit' s'') :
    Searching g start v s (done ++ [w]) (hit || hit') s'' := by
  refine
    { inv := hs.inv, path := hs.path.trans h.path, entered := hs.blocked v h.entered
      blocked := fun z hz => hs.blocked z (h.blocked z hz)
      waits := fun y z hz hwait => h.waits y z hz (hs.waits y z (h.blocked z hz) hwait)
      missed := fun hhit x hx => ?_, found := ?_ }
  · rw [Bool.or_eq_false_iff] at hhit
    rcases List.mem_append.1 hx with hx | hx
    · obtain ⟨hx, hb⟩ := h.missed hhit.1 x hx
      exact ⟨hx, hs.blocked x hb⟩
    · rw [List.mem_singleton.1 hx]
      exact ⟨hne, hs.missed hhit.2⟩
  · obtain ⟨cs, hcs, hhit, hlists⟩ := h.found
    obtain ⟨ds, hds, hhit', hlists'⟩ := hs.found
    rw [h.path] at hlists'
    have hoff : w ∉ v :: s.path := fun hon => hw (h.inv.path_subset w (h.path ▸ hon))
    refine ⟨cs ++ ds, by rw [hds, hcs, List.append_assoc], ?_,
      hlists.append hdone hlists'.nodup fun c => ?_⟩
    · rw [Bool.or_eq_true, hhit, hhit', Ne, Ne, Ne, List.append_eq_nil_iff]
      tauto
    · rw [hlists'.mem_iff_closing]
      constructor
      · rintro ⟨t, ht, rfl⟩
        exact ⟨t, .step harc hoff ht, by simp⟩
      · rintro ⟨t, ht, rfl⟩
        cases ht with
        | close => exact absurd rfl hne
        | step _ _ hrest => exact ⟨t, hrest, by simp⟩

end Searching

/-- One round of the loop over the successors. -/
def look (g : Digraph) (limit start : Int) (fuel : Nat) (r : Bool × CycleSearch) (w : Int) :
    Bool × CycleSearch :=
  if r.2.full limit then r
  else if w = start then (true, { r.2 with found := r.2.found ++ [(w :: r.2.path).reverse] })
  else if w ∈ r.2.blocked then r
  else (r.1 || (circuit g limit start fuel w r.2).1, (circuit g limit start fuel w r.2).2)

/-- What is left to do when the successors have been run through. -/
def leave (g : Digraph) (v : Int) (r : Bool × CycleSearch) : Bool × CycleSearch :=
  let s := if r.1 then unblock (g.keys.length + 1) v r.2 else await v (g.succs v) r.2
  (r.1, { s with path := s.path.drop 1 })

theorem circuit_succ (g : Digraph) (limit start : Int) (fuel : Nat) (v : Int) (s : CycleSearch) :
    circuit g limit start (fuel + 1) v s = leave g v ((g.succs v).foldl (look g limit start fuel)
      (false, { s with path := v :: s.path, blocked := s.blocked.insert v })) := rfl

theorem found_leave (v : Int) (r : Bool × CycleSearch) : (leave g v r).2.found = r.2.found := by
  rw [leave]
  dsimp only
  split
  · exact (unblock_frame _ v r.2).2
  · exact (await_spec v (g.succs v) r.2).2.2.1

/-- **Leaving a point without a cycle** keeps it blocked, waiting for its successors. -/
theorem Searching.leave_missed (h : Searching g start v s (g.succs v) false s')
    (hnew : v ∉ s.blocked) : Searched g start v s false (leave g v (false, s')).2 := by
  obtain ⟨hpath, hblocked, -, hwaits⟩ := await_spec v (g.succs v) s'
  have hpath : (leave g v (false, s')).2.path = s.path :=
    (congrArg (List.drop 1) hpath).trans (by rw [h.path]; rfl)
  have hblocked : (leave g v (false, s')).2.blocked = s'.blocked := hblocked
  have hwaits : ∀ y z, z ∈ (leave g v (false, s')).2.waits y ↔
    z ∈ s'.waits y ∨ y ∈ g.succs v ∧ z = v := hwaits
  have hfound := found_leave (g := g) v (false, s')
  generalize (leave g v (false, s')).2 = t at *
  have hmissed := h.missed rfl
  refine
    { inv := ⟨?_, ?_, ?_, ?_, ?_, ?_⟩, path := hpath, blocked := hblocked ▸ h.blocked
      waits := ?_, missed := fun _ => hblocked ▸ h.entered, found := hfound ▸ h.found }
  · exact hblocked ▸ h.inv.nodup_blocked
  · exact hblocked ▸ h.inv.blocked_subset
  · exact hpath ▸ (List.nodup_cons.1 (h.path ▸ h.inv.nodup_path)).2
  · intro z hz
    rw [hblocked]
    exact h.inv.path_subset z (h.path ▸ List.mem_cons_of_mem _ (hpath ▸ hz))
  · intro y z hz
    rw [hblocked]
    rcases (hwaits y z).1 hz with hz | ⟨hy, -⟩
    · exact h.inv.waited y z hz
    · exact (hmissed y hy).2
  · intro z hz hoff w hw
    rw [hblocked] at hz ⊢
    rw [hpath] at hoff
    by_cases hzv : z = v
    · subst hzv
      obtain ⟨hne, hb⟩ := hmissed w hw
      exact ⟨hne, hb, (hwaits w z).2 (.inr ⟨hw, rfl⟩)⟩
    · obtain ⟨hne, hb, hwait⟩ := h.inv.stuck z hz (by rw [h.path]; simp [hzv, hoff]) w hw
      exact ⟨hne, hb, (hwaits w z).2 (.inl hwait)⟩
  · intro y z hz hwait
    rcases (hwaits y z).1 hwait with hwait | ⟨-, rfl⟩
    · exact h.waits y z hz hwait
    · exact absurd hz hnew

/-- **Leaving a point with a cycle** unblocks it and what has come to wait for it. -/
theorem Searching.leave_hit (h : Searching g start v s (g.succs v) true s') (hs : Inv g start s)
    (hnew : v ∉ s.blocked) : Searched g start v s true (leave g v (true, s')).2 := by
  have hlength : s'.blocked.length ≤ g.keys.length + 1 := Nat.le_succ_of_le
    (List.subperm_of_subset h.inv.nodup_blocked h.inv.blocked_subset).length_le
  obtain ⟨hfreed, hv, hspares⟩ := unblock_freed _ v s' h.inv.nodup_blocked h.entered hlength
  have hpath : (leave g v (true, s')).2.path = s.path :=
    (congrArg (List.drop 1) (unblock_frame _ v s').1).trans (by rw [h.path]; rfl)
  have hfreed : Freed s' (leave g v (true, s')).2 :=
    ⟨hfreed.blocked, hfreed.waits, hfreed.kept, hfreed.freed⟩
  have hv : v ∉ (leave g v (true, s')).2.blocked := hv
  have hspares : Spares s' v (leave g v (true, s')).2 := hspares
  have hfound := found_leave (g := g) v (true, s')
  generalize (leave g v (true, s')).2 = t at *
  -- what was blocked before waits only for points that were
  have hblocked : ∀ x ∈ s.blocked, x ∈ t.blocked := fun x hx =>
    hspares (· ∉ s.blocked) hnew
      (fun y hy z hwait hz => hy (hs.waited y z (h.waits y z hz hwait))) x (h.blocked x hx)
      (not_not_intro hx)
  refine
    { inv := ⟨?_, ?_, ?_, ?_, ?_, ?_⟩, path := hpath, blocked := hblocked
      waits := fun y z hz hwait => h.waits y z hz (hfreed.waits y z hwait)
      missed := nofun, found := hfound ▸ h.found }
  · exact h.inv.nodup_blocked.sublist hfreed.blocked
  · exact fun z hz => h.inv.blocked_subset z (hfreed.blocked.subset hz)
  · exact hpath ▸ hs.nodup_path
  · exact fun z hz => hblocked z (hs.path_subset z (hpath ▸ hz))
  · intro y z hz
    by_contra hy
    have := (hfreed.freed y (h.inv.waited y z (hfreed.waits y z hz)) hy).1
    rw [this] at hz
    cases hz
  · intro z hz hoff w hw
    have hzv : z ≠ v := fun heq => hv (heq ▸ hz)
    rw [hpath] at hoff
    obtain ⟨hne, hb, hwait⟩ := h.inv.stuck z (hfreed.blocked.subset hz)
      (by rw [h.path]; simp [hzv, hoff]) w hw
    have hwb : w ∈ t.blocked := by
      by_contra hnot
      exact (hfreed.freed w hb hnot).2 z hwait hz
    exact ⟨hne, hwb, hfreed.kept w hwb ▸ hwait⟩

theorem full_of_nonpos {limit : Int} (hlimit : limit ≤ 0) (s : CycleSearch) :
    s.full limit = false := by
  simp [full, Int.not_lt.2 hlimit]

/-- **A search without a limit finds each way to close its path once.** -/
theorem circuit_searched (hg : g.Plain) {limit : Int} (hlimit : limit ≤ 0) :
    ∀ (fuel : Nat) (v : Int) (s : CycleSearch), Inv g start s → v ∈ g.keys → v ∉ s.blocked →
      start ∈ v :: s.path → g.keys.length ≤ fuel + s.path.length →
      Searched g start v s (circuit g limit start fuel v s).1
        (circuit g limit start fuel v s).2 := by
  intro fuel
  induction fuel with
  | zero =>
    intro v s hs hv hnew _ hfuel
    -- all keys would be on the path
    have hnodup : (v :: s.path).Nodup :=
      List.nodup_cons.2 ⟨fun hp => hnew (hs.path_subset v hp), hs.nodup_path⟩
    have hsub : v :: s.path ⊆ g.keys := List.cons_subset.2
      ⟨hv, fun z hz => hs.blocked_subset z (hs.path_subset z hz)⟩
    have := (List.subperm_of_subset hnodup hsub).length_le
    rw [List.length_cons] at this
    omega
  | succ fuel ih =>
    intro v s hs hv hnew hon hfuel
    have hrun := foldl_run (l := g.succs v) (f := look g limit start fuel)
      (b := (false, { s with path := v :: s.path, blocked := s.blocked.insert v }))
      (fun done r => Searching g start v s done r.1 r.2) (.initial hs hv hnew)
      fun done w r hi h => by
        obtain ⟨rest, hrest⟩ := hi
        have harc : w ∈ g.succs v := by rw [hrest]; simp
        have hdone : w ∉ done := fun hw =>
          (List.nodup_append.1 (hrest ▸ hg.nodup_succs v)).2.2 w hw w List.mem_cons_self rfl
        rw [look, if_neg (by simp [full_of_nonpos hlimit])]
        split
        · next heq =>
          subst heq
          exact h.close harc hon hdone
        · next hne =>
          split
          · next hw => exact h.skip hne hdone hw
          · next hw =>
            have hlength : r.2.path.length = s.path.length + 1 := by rw [h.path]; rfl
            refine h.follow hne hdone harc hw (ih w r.2 h.inv (hg.mem_keys_of_succ harc).2 hw
              (List.mem_cons_of_mem _ (h.path ▸ hon)) (by omega))
    rw [circuit_succ]
    generalize (g.succs v).foldl _ _ = r at hrun ⊢
    obtain ⟨hit, s'⟩ := r
    cases hit with
    | false => exact hrun.leave_missed hnew
    | true => exact hrun.leave_hit hs hnew

/-! ## The limit -/

section

variable {limit : Int} {fuel n : Nat} {r r₀ : Bool × CycleSearch}

theorem look_of_not_full (h : r.2.full limit = false) : look g limit start fuel r w =
    if w = start then (true, { r.2 with found := r.2.found ++ [(w :: r.2.path).reverse] })
    else if w ∈ r.2.blocked then r
    else (r.1 || (circuit g limit start fuel w r.2).1, (circuit g limit start fuel w r.2).2) :=
  if_neg (by simp [h])

theorem found_prefix_look
    (ih : ∀ w s, s.found <+: (circuit g limit start fuel w s).2.found) :
    r.2.found <+: (look g limit start fuel r w).2.found := by
  rw [look]
  split_ifs
  · exact List.prefix_refl _
  · exact List.prefix_append ..
  · exact List.prefix_refl _
  · exact ih w r.2

/-- The cycles found so far stay found. -/
theorem found_prefix_circuit (g : Digraph) (limit start : Int) : ∀ (fuel : Nat) (v : Int)
    (s : CycleSearch), s.found <+: (circuit g limit start fuel v s).2.found := by
  intro fuel
  induction fuel with
  | zero => exact fun v s => List.prefix_refl _
  | succ fuel ih =>
    intro v s
    rw [circuit_succ, found_leave]
    exact foldl_run (fun _ (r : Bool × CycleSearch) => s.found <+: r.2.found)
      (List.prefix_refl _) fun _ w r _ hr => hr.trans (found_prefix_look ih)

/-- What a search that may find `n` cycles has come to, beside one without a limit: the
same, or the first `n` cycles. -/
def Cut (n : Nat) (r r₀ : Bool × CycleSearch) : Prop :=
  r.2.found.length < n ∧ r = r₀ ∨ n ≤ r₀.2.found.length ∧ r.2.found = r₀.2.found.take n

theorem Cut.found_eq (h : Cut n r r₀) : r.2.found = r₀.2.found.take n := by
  rcases h with ⟨hlt, rfl⟩ | ⟨-, htake⟩
  · exact (List.take_of_length_le (le_of_lt hlt)).symm
  · exact htake

theorem full_iff (hn : 0 < n) {s : CycleSearch} : s.full n ↔ n ≤ s.found.length := by
  simp [full, hn]

/-- One round of the loop: either both searches go on, or the limited one has stopped and
the other only adds cycles. -/
theorem Cut.look (hn : 0 < n) (ih : ∀ w s, s.found.length < n →
      Cut n (circuit g n start fuel w s) (circuit g 0 start fuel w s)) (h : Cut n r r₀) :
    Cut n (look g n start fuel r w) (look g 0 start fuel r₀ w) := by
  rcases h with ⟨hlt, rfl⟩ | ⟨hle, htake⟩
  · have hfull : r.2.full n = false := by
      rw [← Bool.not_eq_true, full_iff hn]
      omega
    rw [look_of_not_full hfull, look_of_not_full (full_of_nonpos le_rfl r.2)]
    split_ifs
    · rcases Nat.lt_or_ge (r.2.found.length + 1) n with hlt' | hge
      · exact .inl ⟨by simpa using hlt', rfl⟩
      · refine .inr ⟨by simpa using hge, (List.take_of_length_le ?_).symm⟩
        simpa using Nat.succ_le_of_lt hlt
    · exact .inl ⟨hlt, rfl⟩
    · rcases ih w r.2 hlt with ⟨hlt', heq⟩ | hcut
      · exact .inl ⟨hlt', by rw [heq]⟩
      · exact .inr hcut
  · have hfull : r.2.full n := by
      rw [full_iff hn, htake]
      simp [hle]
    obtain ⟨t, ht⟩ : r₀.2.found <+: (CycleSearch.look g 0 start fuel r₀ w).2.found :=
      found_prefix_look (found_prefix_circuit g 0 start fuel)
    rw [CycleSearch.look, if_pos hfull, Cut, ← ht, List.take_append_of_le_length hle]
    exact .inr ⟨by simp; omega, htake⟩

/-- **A limited search finds the first cycles of the search without a limit.** -/
theorem circuit_cut (hn : 0 < n) : ∀ (fuel : Nat) (v : Int) (s : CycleSearch),
    s.found.length < n → Cut n (circuit g n start fuel v s) (circuit g 0 start fuel v s) := by
  intro fuel
  induction fuel with
  | zero => exact fun v s hs => .inl ⟨hs, rfl⟩
  | succ fuel ih =>
    intro v s hs
    have hstart : Cut n (false, { s with path := v :: s.path, blocked := s.blocked.insert v })
      (false, { s with path := v :: s.path, blocked := s.blocked.insert v }) := .inl ⟨hs, rfl⟩
    rw [circuit_succ, circuit_succ]
    rcases foldl_run₂ (f := look g n start fuel) (fun _ r r₀ => Cut n r r₀) hstart
      (fun _ w r r₀ h => h.look (w := w) hn ih) (g.succs v) with ⟨hlt, heq⟩ | ⟨hle, htake⟩
    · exact .inl ⟨by rwa [found_leave], by rw [heq]⟩
    · exact .inr ⟨by rwa [found_leave], by rwa [found_leave, found_leave]⟩

end

end CycleSearch

end Digraph

end PointsTo
