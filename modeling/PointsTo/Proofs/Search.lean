import PointsTo.Proofs.Encoding
/-!
# The search requests what all paths request

A search leaves out components that are marked and components of larger
rank. `search_searched` says that it loses nothing by it: its requests
are those of the plain enumeration of all paths, `requestsFrom`. What
carries the proof is `Honest`: no path leads on from a component that is
marked as failed. While a component is being searched its mark is not
honest yet, but then all edges that are looked at lead to components of
larger rank, so honesty is only ever asked for from some rank on.
-/

namespace PointsTo

/-- The intervals that are requested by some events, in order. -/
def SearchEvent.requests (events : List SearchEvent) : List (Int64 × Int64) :=
  events.filterMap fun
    | .request l r => some (l, r)
    | .mark .. => none

namespace SearchState

/-- The requests so far. -/
def requests (s : SearchState) : List (Int64 × Int64) := SearchEvent.requests s.events

variable {s : SearchState} {r x : MethodId} {v : Nat}

@[simp] theorem requests_mark : (s.mark r v).requests = s.requests := by
  simp [requests, SearchEvent.requests, mark]

@[simp] theorem requests_request (is : List (Int64 × Int64)) :
    (s.request is).requests = s.requests ++ is := by
  simp [requests, SearchEvent.requests, request, List.filterMap_map]

@[simp] theorem size_mark : (s.mark r v).marks.size = s.marks.size := by simp [mark]

theorem label_mark_self (h0 : 0 ≤ (r : Int)) (hlt : (r : Int) < s.marks.size) :
    (s.mark r v).label r = v := by
  obtain ⟨a, ha⟩ := Option.isSome_iff_exists.1 (slot?_isSome.2 ⟨h0, hlt⟩)
  rw [label, mark, slot?_modify h0, if_pos rfl, ha]
  rfl

/-- A mark is on one representative alone. -/
theorem label_mark_of_ne (h0 : 0 ≤ (r : Int)) (hne : x ≠ r) :
    (s.mark r v).label x = s.label x := by
  rw [label, mark, slot?_modify h0, if_neg hne, label]

end SearchState

namespace Encoding

/-! ## The plain enumeration -/

/-- Where a path leads to that is entered with a context: the method it ends
at, and the context there. -/
def arrive (enc : Encoding) : MethodId → Int64 → List Edge → MethodId × Int64
  | m, l, [] => (m, l)
  | m, l, e :: p =>
    enc.arrive e.callee (e.offset + (l - 1) % (enc.blockD (enc.graph.repD m)).size) p

/-- The intervals of the target for a path that ends in its component: one
at the target itself, else one for each of its blocks. -/
def intervalsAt (enc : Encoding) (target : MethodId) (length : Int64) (m : MethodId) (l : Int64) :
    List (Int64 × Int64) :=
  if m = target then [(l, l + length)]
  else
    (List.range (enc.blockD target).num.toNatClampNeg).map fun i =>
      let lo := 1 + (l - 1) % (enc.blockD m).size + Int64.ofNat i * (enc.blockD m).size
      (lo, lo + length)

/-- What the paths from a method request that is entered with a context,
without marks or ranks. -/
def requestsFrom (enc : Encoding) (g : CallGraph) (target : MethodId) (length : Int64)
    (m : MethodId) (l : Int64) : List (Int64 × Int64) :=
  (enc.graph.allPaths g target m).flatMap fun p =>
    let (m, l) := enc.arrive m l p
    enc.intervalsAt target length m l

variable {enc : Encoding} {g : CallGraph} {target : MethodId} {length : Int64}

/-- A search ends in the component of its target. -/
theorem requestsFrom_of_arrived (h : Condensed g enc.graph) {m : MethodId}
    (hm : enc.graph.repD m = enc.graph.repD target) (l : Int64) :
    enc.requestsFrom g target length m l = enc.intervalsAt target length m l := by
  rw [requestsFrom, h.allPaths_eq, if_pos hm]
  simp [arrive]

/-- The paths from a method go on along the edges that leave its component. -/
theorem requestsFrom_of_ne (h : Condensed g enc.graph) {m : MethodId}
    (hm : enc.graph.repD m ≠ enc.graph.repD target) (l : Int64) :
    enc.requestsFrom g target length m l =
      (enc.graph.edgesFrom g (enc.graph.repD m)).flatMap fun e =>
        enc.requestsFrom g target length e.callee
          (e.offset + (l - 1) % (enc.blockD (enc.graph.repD m)).size) := by
  rw [requestsFrom, h.allPaths_eq, if_neg hm, List.flatMap_assoc]
  refine List.flatMap_congr fun e _ => ?_
  rw [List.flatMap_map, requestsFrom]
  rfl

/-- Where no path leads to the target, nothing is asked for. -/
theorem requestsFrom_of_not_leads (h : Condensed g enc.graph) {m : MethodId}
    (hm : ∀ p, ¬ enc.graph.Leads g target m p) (l : Int64) :
    enc.requestsFrom g target length m l = [] := by
  have hnil : enc.graph.allPaths g target m = [] :=
    List.eq_nil_iff_forall_not_mem.2 fun p hp => hm p (h.mem_allPaths.1 hp)
  rw [requestsFrom, hnil, List.flatMap_nil]

/-- A search may pass through all components that come one after the other. -/
theorem height_lt_searchDepth (h : Condensed g enc.graph) (m : MethodId) :
    enc.graph.height m < enc.searchDepth := by
  have hle := h.height_le m
  have hmul : enc.graph.size + 1 ≤ enc.searchDepth := Nat.le_mul_of_pos_right _ (Nat.succ_pos _)
  omega

/-! ## One component of a search -/

variable {goal : SearchGoal}

/-- What a search for a target in the component `t` does with one of the
edges that leave the component `r`, which it entered at a place of its
block. -/
def tryEdge (enc : Encoding) (g : CallGraph) (goal : SearchGoal) (fuel : Nat) (r t : MethodId)
    (place : Int64) (s : SearchState) (i : Nat) : SearchState :=
  match s.outcome, g.edges[i]? with
  | .error _, _ | _, none => s
  | .ok hit, some e =>
    let rt := enc.graph.repD e.callee
    if e.callee = r ∨ s.label rt = goal.failed then s
    else if s.label rt = goal.success ∨ enc.graph.rankOf rt ≤ enc.graph.rankOf t then
      let s := enc.search g goal fuel e.callee (e.offset + place) s
      match s.outcome with
      | .error _ => s
      | .ok true => { s.mark r goal.success with outcome := .ok true }
      | .ok false => { s with outcome := .ok hit }
    else s

/-- The answer of a search of the component `r` is its mark. -/
def answer (goal : SearchGoal) (r : MethodId) (s : SearchState) : SearchState :=
  match s.outcome with
  | .error _ => s
  | .ok _ => { s with outcome := .ok (s.label r = goal.success) }

/-- **All that a search can do**: stop, request intervals, or mark the
component, try the edges that leave it one by one, and answer with the
mark. Which of these it does is a matter of the place it has come to, and
not of its labels or of what it has done before. -/
theorem search_cases (enc : Encoding) (g : CallGraph) (target : MethodId) (length : Int64)
    (fuel : Nat) (m : MethodId) (l : Int64) :
    (∃ f, ∀ failed success s,
      enc.search g ⟨target, length, failed, success⟩ fuel m l s = s.stop f) ∨
    (∃ is, ∀ failed success s,
      enc.search g ⟨target, length, failed, success⟩ fuel m l s = s.request is) ∨
    (∃ r f, ∀ failed success s,
      enc.search g ⟨target, length, failed, success⟩ fuel m l s = (s.mark r failed).stop f) ∨
    ∃ n r t place, fuel = n + 1 ∧ ∀ failed success s,
      enc.search g ⟨target, length, failed, success⟩ fuel m l s =
        answer ⟨target, length, failed, success⟩ r ((enc.graph.outOf r).foldl
          (enc.tryEdge g ⟨target, length, failed, success⟩ n r t place)
          { s.mark r failed with outcome := .ok false }) := by
  unfold search
  dsimp -zeta only
  match enc.graph.rep? m, enc.graph.rep? target with
  | none, _ => exact .inl ⟨_, fun _ _ _ => rfl⟩
  | some r, none => exact .inl ⟨_, fun _ _ _ => rfl⟩
  | some r, some t =>
    dsimp -zeta only
    by_cases heq : m = target
    · exact .inr (.inl ⟨[(l, l + length)], fun _ _ _ => if_pos heq⟩)
    by_cases hrep : r = t
    · match inBlock (enc.blockD m) l with
      | .error f => exact .inl ⟨f, fun _ _ _ => (if_neg heq).trans (if_pos hrep)⟩
      | .ok place =>
        let intervals :=
          blockIntervals ⟨target, length, 0, 0⟩ (enc.blockD m).size (enc.blockD target).num place
        exact .inr (.inl ⟨intervals, fun _ _ _ => (if_neg heq).trans (if_pos hrep)⟩)
    · match inBlock (enc.blockD r) l, fuel with
      | .error f, _ =>
        exact .inr (.inr (.inl ⟨r, f, fun _ _ _ => (if_neg heq).trans (if_neg hrep)⟩))
      | .ok place, 0 =>
        exact .inr (.inr (.inl ⟨r, _, fun _ _ _ => (if_neg heq).trans (if_neg hrep)⟩))
      | .ok place, n + 1 =>
        exact .inr (.inr (.inr ⟨n, r, t, place, rfl,
          fun _ _ _ => (if_neg heq).trans (if_neg hrep)⟩))

section

variable (h : Condensed g enc.graph) (hpos : ∀ m, g.hasMethod m → 0 < (enc.blockD m).size)
  (htarget : g.hasMethod goal.target)

include h hpos htarget

/-- A search that has arrived requests its intervals. -/
theorem search_of_arrived {m : MethodId} (hm : g.hasMethod m)
    (hrep : enc.graph.repD m = enc.graph.repD goal.target) (fuel : Nat) (l : Int64)
    (s : SearchState) :
    enc.search g goal fuel m l s = s.request (enc.intervalsAt goal.target goal.length m l) := by
  unfold search
  simp only [h.rep?_eq hm, h.rep?_eq htarget, hrep, inBlock_of_pos (hpos _ hm), intervalsAt,
    if_true]
  split <;> rfl

/-- A search that has not arrived goes on along the edges that leave the
component. -/
theorem search_of_ne {m : MethodId} (hm : g.hasMethod m)
    (hrep : enc.graph.repD m ≠ enc.graph.repD goal.target) (fuel : Nat) (l : Int64)
    (s : SearchState) :
    enc.search g goal (fuel + 1) m l s =
      answer goal (enc.graph.repD m) ((enc.graph.outOf (enc.graph.repD m)).foldl
        (enc.tryEdge g goal fuel (enc.graph.repD m) (enc.graph.repD goal.target)
          ((l - 1) % (enc.blockD (enc.graph.repD m)).size))
        { s.mark (enc.graph.repD m) goal.failed with outcome := .ok false }) := by
  have hne : m ≠ goal.target := fun heq => hrep (by rw [heq])
  rw [search]
  simp only [h.rep?_eq hm, h.rep?_eq htarget, if_neg hne, if_neg hrep,
    inBlock_of_pos (hpos _ (h.hasMethod_repD hm))]
  rfl

end

/-! ## Honest marks -/

/-- No path leads to the target from one of the given components that is
marked as failed. -/
def Honest (enc : Encoding) (g : CallGraph) (goal : SearchGoal) (given : MethodId → Prop)
    (s : SearchState) : Prop :=
  ∀ x, given x → s.label x = goal.failed → ∀ p, ¬ enc.graph.Leads g goal.target x p

/-- **What a search that enters a method with a context does.** -/
structure Searched (enc : Encoding) (g : CallGraph) (goal : SearchGoal) (m : MethodId) (l : Int64)
    (s s' : SearchState) : Prop where
  size : s'.marks.size = s.marks.size
  requests : s'.requests = s.requests ++ enc.requestsFrom g goal.target goal.length m l
  /-- It comes to an end, and does not overlook the target. -/
  outcome : ∃ hit, s'.outcome = .ok hit ∧ ((∃ p, enc.graph.Leads g goal.target m p) → hit = true)
  honest : Honest enc g goal (fun x => enc.graph.rankOf m ≤ enc.graph.rankOf x) s'
  /-- It marks no component of smaller rank. -/
  frame : ∀ x, enc.graph.rankOf x < enc.graph.rankOf m → s'.label x = s.label x

/-- What holds between two edges that leave the component of `r`: `done` are
the edges that have been tried, `s₀` is the state before the first. -/
structure Trying (enc : Encoding) (g : CallGraph) (goal : SearchGoal) (r : MethodId)
    (place : Int64) (s₀ : SearchState) (done : List Nat) (s : SearchState) : Prop where
  size : s.marks.size = s₀.marks.size
  requests : s.requests = s₀.requests ++ (done.filterMap (g.edges[·]?)).flatMap fun e =>
    enc.requestsFrom g goal.target goal.length e.callee (e.offset + place)
  outcome : ∃ hit, s.outcome = .ok hit
  honest : Honest enc g goal (fun x => enc.graph.rankOf r ≤ enc.graph.rankOf x ∧ x ≠ r) s
  /-- An edge that leads to the target has left its mark. -/
  found : (∃ e ∈ done.filterMap (g.edges[·]?), ∃ p, enc.graph.Leads g goal.target e.callee p) →
    s.label r = goal.success
  frame : ∀ x, enc.graph.rankOf x < enc.graph.rankOf r → s.label x = s₀.label x

namespace Trying

variable {r : MethodId} {place : Int64} {s₀ s : SearchState} {done : List Nat} {i : Nat} {e : Edge}

/-- **An edge that leads nowhere may be left out.** -/
theorem skip (ht : Trying enc g goal r place s₀ done s) (h : Condensed g enc.graph)
    (he : g.edges[i]? = some e) (hnot : ∀ p, ¬ enc.graph.Leads g goal.target e.callee p) :
    Trying enc g goal r place s₀ (done ++ [i]) s := by
  have hedges : (done ++ [i]).filterMap (g.edges[·]?) = done.filterMap (g.edges[·]?) ++ [e] := by
    simp [List.filterMap_append, he]
  refine { ht with requests := ?_, found := ?_ }
  · rw [hedges, List.flatMap_append, List.flatMap_singleton, requestsFrom_of_not_leads h hnot,
      List.append_nil]
    exact ht.requests
  · rw [hedges]
    rintro ⟨e', he', p, hp⟩
    rcases List.mem_append.1 he' with he' | he'
    · exact ht.found ⟨e', he', p, hp⟩
    · rw [List.mem_singleton.1 he'] at hp
      exact absurd hp (hnot p)

/-- **An edge that is followed adds its requests**, and leaves the mark of
success behind if it leads to the target. -/
theorem followed (ht : Trying enc g goal r place s₀ done s) (he : g.edges[i]? = some e)
    (hrank : enc.graph.rankOf r < enc.graph.rankOf e.callee) (h0 : 0 ≤ (r : Int))
    (hr : (r : Int) < s₀.marks.size) {s' : SearchState}
    (hs' : Searched enc g goal e.callee (e.offset + place) s s') {hit : Bool} :
    Trying enc g goal r place s₀ (done ++ [i])
      (match s'.outcome with
      | .error _ => s'
      | .ok true => { s'.mark r goal.success with outcome := .ok true }
      | .ok false => { s' with outcome := .ok hit }) := by
  have hedges : (done ++ [i]).filterMap (g.edges[·]?) = done.filterMap (g.edges[·]?) ++ [e] := by
    simp [List.filterMap_append, he]
  have hsize : s'.marks.size = s₀.marks.size := hs'.size.trans ht.size
  have hrequests : s'.requests = s₀.requests ++ ((done ++ [i]).filterMap (g.edges[·]?)).flatMap
      fun e => enc.requestsFrom g goal.target goal.length e.callee (e.offset + place) := by
    rw [hs'.requests, ht.requests, hedges, List.flatMap_append, List.flatMap_singleton,
      List.append_assoc]
  have hframe : ∀ x, enc.graph.rankOf x < enc.graph.rankOf r → s'.label x = s₀.label x :=
    fun x hx => (hs'.frame x (Nat.lt_trans hx hrank)).trans (ht.frame x hx)
  have hhonest : Honest enc g goal
      (fun x => enc.graph.rankOf r ≤ enc.graph.rankOf x ∧ x ≠ r) s' := by
    intro x hx hfailed
    by_cases hle : enc.graph.rankOf e.callee ≤ enc.graph.rankOf x
    · exact hs'.honest x hle hfailed
    · rw [hs'.frame x (Nat.lt_of_not_le hle)] at hfailed
      exact ht.honest x hx hfailed
  -- the search went on in larger ranks only, so the mark of `r` is still its own
  have hself : s'.label r = s.label r := hs'.frame r hrank
  obtain ⟨found, hfound, hleads⟩ := hs'.outcome
  rw [hfound]
  cases found with
  | true =>
    have hmark : (s'.mark r goal.success).label r = goal.success :=
      SearchState.label_mark_self h0 (by rw [hsize]; exact hr)
    refine { size := by simpa using hsize, requests := ?_, outcome := ⟨true, rfl⟩, honest := ?_
             found := fun _ => hmark, frame := ?_ }
    · exact SearchState.requests_mark.trans hrequests
    · intro x hx hfailed
      exact hhonest x hx ((SearchState.label_mark_of_ne h0 hx.2).symm.trans hfailed)
    · intro x hx
      have hxr : x ≠ r := fun heq => by rw [heq] at hx; exact Nat.lt_irrefl _ hx
      exact (SearchState.label_mark_of_ne h0 hxr).trans (hframe x hx)
  | false =>
    refine { size := hsize, requests := hrequests, outcome := ⟨hit, rfl⟩, honest := hhonest
             found := ?_, frame := hframe }
    rw [hedges]
    rintro ⟨e', he', p, hp⟩
    rcases List.mem_append.1 he' with he' | he'
    · exact hself.trans (ht.found ⟨e', he', p, hp⟩)
    · rw [List.mem_singleton.1 he'] at hp
      exact absurd (hleads ⟨p, hp⟩) Bool.false_ne_true

end Trying

/-! ## The whole search -/

section

variable (h : Condensed g enc.graph) (hpos : ∀ m, g.hasMethod m → 0 < (enc.blockD m).size)
  (htarget : g.hasMethod goal.target)

include h htarget

/-- **Trying an edge**: it is followed, or it leads nowhere. -/
theorem Trying.next {r : MethodId} (hr : g.hasMethod r) (hrr : enc.graph.repD r = r)
    {place : Int64} {s₀ s : SearchState} (hsize : s₀.marks.size = g.size) {done : List Nat}
    {i : Nat} (hi : i ∈ enc.graph.outOf r) (ht : Trying enc g goal r place s₀ done s) {fuel : Nat}
    (hfuel : enc.graph.height r ≤ fuel)
    (ih : ∀ m l s, g.hasMethod m → enc.graph.height m < fuel → s.marks.size = g.size →
      Honest enc g goal (fun x => enc.graph.rankOf m ≤ enc.graph.rankOf x) s →
      Searched enc g goal m l s (enc.search g goal fuel m l s)) :
    Trying enc g goal r place s₀ (done ++ [i])
      (enc.tryEdge g goal fuel r (enc.graph.repD goal.target) place s i) := by
  obtain ⟨e, he, hreach, hfrom, hto⟩ := (h.mem_out r i).1 hi
  have hemem : e ∈ enc.graph.edgesFrom g (enc.graph.repD r) :=
    hrr.symm ▸ h.mem_edgesFrom.2 ⟨Array.mem_of_getElem? he, hreach, hfrom, hto⟩
  have hcallee : g.hasMethod e.callee := h.hasMethod _ (h.edgesFrom_spec hemem).2.2.1
  have hrank : enc.graph.rankOf r < enc.graph.rankOf e.callee := h.rank_lt_callee hemem
  have hheight : enc.graph.height e.callee < enc.graph.height r := h.height_lt hemem
  have hne : e.callee ≠ r := fun heq => hto (by rw [heq, hrr])
  obtain ⟨hit, hhit⟩ := ht.outcome
  rw [Encoding.tryEdge, hhit, he]
  simp only [hne, false_or]
  split
  · -- marked as failed: no path leads on from there
    next hfailed =>
    refine ht.skip h he fun p hp => ?_
    refine ht.honest _ ⟨?_, hto⟩ hfailed p (hp.congr (h.repD_repD hcallee).symm)
    rw [h.rankOf_repD hcallee]
    exact Nat.le_of_lt hrank
  · split
    · obtain ⟨h0, hlt⟩ := CallGraph.hasMethod_iff.1 hr
      refine ht.followed he hrank h0 (by rw [hsize]; exact hlt) (ih _ _ _ hcallee (by omega)
        (ht.size.trans hsize) ?_)
      intro x hx hfailed
      refine ht.honest x ⟨by omega, fun heq => ?_⟩ hfailed
      rw [heq] at hx
      omega
    · -- of larger rank than the target
      next hcut =>
      refine ht.skip h he fun p hp => hcut (.inr ?_)
      rw [h.rankOf_repD hcallee, h.rankOf_repD htarget]
      exact h.rank_le_of_leads hp

include hpos

/-- **A search does what the plain enumeration of all paths does**, from any
marks that are honest. -/
theorem search_searched (hlabels : goal.failed ≠ goal.success) :
    ∀ (fuel : Nat) (m : MethodId) (l : Int64) (s : SearchState), g.hasMethod m →
      enc.graph.height m < fuel → s.marks.size = g.size →
      Honest enc g goal (fun x => enc.graph.rankOf m ≤ enc.graph.rankOf x) s →
      Searched enc g goal m l s (enc.search g goal fuel m l s) := by
  intro fuel
  induction fuel with
  | zero => intro m l s _ hfuel; omega
  | succ fuel ih =>
    intro m l s hm hfuel hsize hhonest
    by_cases hrep : enc.graph.repD m = enc.graph.repD goal.target
    · rw [search_of_arrived h hpos htarget hm hrep]
      exact
        { size := rfl
          requests := by rw [SearchState.requests_request, requestsFrom_of_arrived h hrep]
          outcome := ⟨true, rfl, fun _ => rfl⟩, honest := hhonest, frame := fun _ _ => rfl }
    rw [search_of_ne h hpos htarget hm hrep]
    generalize hr : enc.graph.repD m = r at *
    have hmr : g.hasMethod r := hr ▸ h.hasMethod_repD hm
    have hrr : enc.graph.repD r = r := hr ▸ h.repD_repD hm
    have hrank : enc.graph.rankOf m = enc.graph.rankOf r := by rw [← hr, h.rankOf_repD hm]
    have hheight : enc.graph.height r = enc.graph.height m := by
      rw [Condensation.height, hrr, Condensation.height, hr]
    obtain ⟨h0, hlt⟩ := CallGraph.hasMethod_iff.1 hmr
    -- while its edges are tried, the component itself counts as failed
    have hlabel : ∀ x, x ≠ r → (s.mark r goal.failed).label x = s.label x :=
      fun x hx => SearchState.label_mark_of_ne h0 hx
    have hstart : Trying enc g goal r ((l - 1) % (enc.blockD r).size) s []
        { s.mark r goal.failed with outcome := .ok false } := by
      refine { size := SearchState.size_mark, requests := ?_, outcome := ⟨false, rfl⟩
               honest := ?_, found := by simp, frame := ?_ }
      · exact SearchState.requests_mark.trans (by simp)
      · rintro x ⟨hx, hxr⟩ hfailed
        exact hhonest x (hrank ▸ hx) ((hlabel x hxr).symm.trans hfailed)
      · intro x hx
        exact hlabel x fun heq => by rw [heq] at hx; exact Nat.lt_irrefl _ hx
    -- `Trying` is the invariant of the loop over the edges
    have hend := foldl_run (l := enc.graph.outOf r)
      (Trying enc g goal r ((l - 1) % (enc.blockD r).size) s) hstart
      fun done i s' hi ht => by
        obtain ⟨rest, hrest⟩ := hi
        exact ht.next h htarget hmr hrr hsize (by rw [hrest]; simp) (by omega) ih
    generalize (enc.graph.outOf r).foldl _ _ = s' at hend ⊢
    obtain ⟨hit, hhit⟩ := hend.outcome
    have hfound : (∃ p, enc.graph.Leads g goal.target m p) → s'.label r = goal.success := by
      rintro ⟨p, hp⟩
      cases hp with
      | here heq => exact absurd (hr ▸ heq) hrep
      | step _ he hp => exact hend.found ⟨_, hr ▸ he, _, hp⟩
    rw [answer, hhit]
    refine { size := hend.size, requests := ?_, outcome := ⟨_, rfl, fun hp => ?_⟩, honest := ?_
             frame := fun x hx => hend.frame x (hrank ▸ hx) }
    · rw [requestsFrom_of_ne h (hr ▸ hrep), hr]
      exact hend.requests
    · exact decide_eq_true (hfound hp)
    · intro x hx hfailed p hp
      by_cases hxr : x = r
      · subst hxr
        exact hlabels (hfailed.symm.trans (hfound ⟨p, hp.congr (hrr.trans hr.symm)⟩))
      · exact hend.honest x ⟨hrank ▸ hx, hxr⟩ hfailed p hp

end

end Encoding

end PointsTo
