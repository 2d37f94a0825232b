import PointsTo.Proofs.Ranges
/-!
# Contexts are paths

As long as the paths from the root can be counted within the span, the
contexts of a method number the paths of calls between components that
lead from the root to it. This is shown along the order of the components:
the paths to one are the paths to its callers, each with an edge added,
and the edge has been given as many contexts as there are such paths.
-/

namespace PointsTo

namespace Condensation

/-- The path of edges between components leads from the component of the root
to that of a representative. -/
inductive RootPath (c : Condensation) (g : CallGraph) : MethodId → List Edge → Prop
  | nil : RootPath c g (c.repD rootMethod) []
  | snoc {r : MethodId} {p : List Edge} {e : Edge} (hp : RootPath c g r p) (he : e ∈ g.edges)
      (hin : ¬ e.inComponent) (hfrom : c.repD e.caller = r) :
      RootPath c g (c.repD e.callee) (p ++ [e])

/-- A path from the component of the root that may also follow edges inside
components. -/
inductive RootWalk (c : Condensation) (g : CallGraph) : MethodId → List Edge → Prop
  | nil : RootWalk c g (c.repD rootMethod) []
  | snoc {r : MethodId} {p : List Edge} {e : Edge} (hp : RootWalk c g r p) (he : e ∈ g.edges)
      (hfrom : c.repD e.caller = r) : RootWalk c g (c.repD e.callee) (p ++ [e])

/-- The paths to the component of a representative. -/
def rootPaths (c : Condensation) (g : CallGraph) (r : MethodId) : Set (List Edge) :=
  {p | c.RootPath g r p}

end Condensation

/-- The context that a path leads to from the first context. -/
def Encoding.along (enc : Encoding) (p : List Edge) : Except Fault Int64 :=
  p.foldlM (fun x e => enc.mapThrough e x) 1

theorem Encoding.along_snoc (enc : Encoding) (p : List Edge) (e : Edge) :
    enc.along (p ++ [e]) = enc.along p >>= enc.mapThrough e := by
  rw [along, List.foldlM_append, along]
  simp

/-! ## The paths to a component -/

namespace Condensed

variable {g : CallGraph} {c : Condensation} (h : Condensed g c) {r : MethodId} {p : List Edge}

include h

/-- A path follows edges whose callers the root reaches. -/
theorem isReachable_caller {e : Edge} (he : e ∈ g.edges)
    (hreach : c.isReachable (c.repD e.caller)) : c.isReachable e.caller :=
  (h.isReachable_repD (h.wellFormed.caller e he)).1 hreach

theorem isReachable_of_rootPath (hsize : 0 < g.size) (hp : c.RootPath g r p) :
    c.isReachable r := by
  induction hp with
  | nil =>
    have hroot := (h.reachable rootMethod).2 ⟨hsize, .refl⟩
    exact (h.isReachable_repD (h.hasMethod _ hroot)).2 hroot
  | snoc _ he _ hfrom ih =>
    have hcallee := h.isReachable_callee he (h.isReachable_caller he (hfrom ▸ ih))
    exact (h.isReachable_repD (h.hasMethod _ hcallee)).2 hcallee

/-- The last edge of a path enters the component the path leads to. -/
theorem rootPath_iff (hsize : 0 < g.size) : c.RootPath g r p ↔
    r = c.repD rootMethod ∧ p = [] ∨
      ∃ e ∈ c.entering g r, ∃ q ∈ c.rootPaths g (c.repD e.caller), p = q ++ [e] := by
  constructor
  · intro hp
    cases hp with
    | nil => exact .inl ⟨rfl, rfl⟩
    | snoc hq he hin hfrom =>
      subst hfrom
      have hreach := h.isReachable_caller he (h.isReachable_of_rootPath hsize hq)
      refine .inr ⟨_, h.mem_entering.2 ⟨he, hreach, rfl, fun hsame => hin ?_⟩, _, hq, rfl⟩
      exact (h.flag _ he hreach).2 hsame
  · rintro (⟨rfl, rfl⟩ | ⟨e, he, q, hq, rfl⟩)
    · exact .nil
    · obtain ⟨hmem, hreach, rfl, hfrom⟩ := h.mem_entering.1 he
      exact .snoc hq hmem (fun hin => hfrom ((h.flag e hmem hreach).1 hin)) rfl

/-- The paths to another component than that of the root. -/
theorem rootPaths_eq (hsize : 0 < g.size) (hr : r ≠ rootMethod) : c.rootPaths g r =
    {p | ∃ e ∈ c.entering g r, ∃ q ∈ c.rootPaths g (c.repD e.caller), p = q ++ [e]} := by
  ext p
  refine (h.rootPath_iff hsize).trans (or_iff_right ?_)
  rintro ⟨heq, -⟩
  exact hr (heq.trans (h.repD_root hsize))

/-- The only path to the component of the root is the empty one. -/
theorem rootPaths_root (hsize : 0 < g.size) (hnil : c.entering g rootMethod = []) :
    c.rootPaths g rootMethod = {[]} := by
  ext p
  change c.RootPath g rootMethod p ↔ p = []
  rw [h.rootPath_iff hsize, hnil, h.repD_root hsize]
  simp

end Condensed

/-- Adding distinct last edges to as many paths as there are. -/
theorem encard_snoc {es : List Edge} (hes : es.Nodup) {P : Edge → Set (List Edge)}
    {n : Edge → Nat} (hP : ∀ e ∈ es, (P e).encard = n e) :
    {p | ∃ e ∈ es, ∃ q ∈ P e, p = q ++ [e]}.encard = ((es.map n).sum : Nat) := by
  induction es with
  | nil => simp
  | cons e es ih =>
    obtain ⟨hnot, hes⟩ := List.nodup_cons.1 hes
    have hsplit : {p | ∃ e' ∈ e :: es, ∃ q ∈ P e', p = q ++ [e']} =
        (fun q => q ++ [e]) '' P e ∪ {p | ∃ e' ∈ es, ∃ q ∈ P e', p = q ++ [e']} := by
      ext p
      constructor
      · rintro ⟨e', he', q, hq, rfl⟩
        rcases List.mem_cons.1 he' with rfl | he'
        · exact .inl ⟨q, hq, rfl⟩
        · exact .inr ⟨e', he', q, hq, rfl⟩
      · rintro (⟨q, hq, rfl⟩ | ⟨e', he', q, hq, rfl⟩)
        · exact ⟨e, List.mem_cons_self, q, hq, rfl⟩
        · exact ⟨e', List.mem_cons_of_mem _ he', q, hq, rfl⟩
    have hdisjoint : Disjoint ((fun q => q ++ [e]) '' P e)
        {p | ∃ e' ∈ es, ∃ q ∈ P e', p = q ++ [e']} := by
      refine Set.disjoint_left.2 ?_
      rintro _ ⟨q, -, rfl⟩ ⟨e', he', q', -, heq⟩
      obtain ⟨-, hlast⟩ := List.append_inj' heq rfl
      exact hnot (by rw [(List.cons.inj hlast).1]; exact he')
    have hinj : Set.InjOn (fun q => q ++ [e]) (P e) := fun q _ q' _ heq =>
      List.append_cancel_right heq
    rw [hsplit, Set.encard_union_eq hdisjoint, hinj.encard_image, hP e List.mem_cons_self,
      ih hes fun e' he' => hP e' (List.mem_cons_of_mem _ he'), List.map_cons, List.sum_cons,
      Nat.cast_add]

/-! ## Numbering the paths -/

namespace Encoded

variable {g : CallGraph} {enc : Encoding} {span : Int64} {share : Edge → Share}
  (h : Encoded g enc span share)

include h

/-- Inside a component a context of the first block stays what it is. -/
theorem mapThrough_inner {e : Edge} (he : e ∈ g.edges) (hreach : enc.graph.isReachable e.caller)
    (hin : e.inComponent) {x : Int64}
    (hx : x.toInt ∈ Set.Icc 1 (enc.blockD e.caller).size.toInt) : enc.mapThrough e x = .ok x := by
  rw [h.mapThrough_eq he, h.inner e he hreach hin, Context.first_eq hx.1 hx.2]

end Encoded

/-- **The contexts of a component number the paths to it.** -/
structure Numbered (g : CallGraph) (enc : Encoding) (r : MethodId) : Prop where
  num : (enc.blockD r).num = 1
  count : (enc.graph.rootPaths g r).encard = ((enc.blockD r).size.toInt.toNat : Nat)
  total : ∀ p ∈ enc.graph.rootPaths g r, ∃ x, enc.along p = .ok x ∧
    x.toInt ∈ Set.Icc 1 (enc.blockD r).size.toInt
  distinct : ∀ p ∈ enc.graph.rootPaths g r, ∀ q ∈ enc.graph.rootPaths g r,
    enc.along p = enc.along q → p = q
  exhausted : ∀ k ∈ Set.Icc 1 (enc.blockD r).size.toInt, ∃ p ∈ enc.graph.rootPaths g r, ∃ x,
    enc.along p = .ok x ∧ x.toInt = k

/-- The numbers as a function of the paths. -/
theorem Numbered.exists_bijOn {g : CallGraph} {enc : Encoding} {r : MethodId}
    (h : Numbered g enc r) : ∃ number : List Edge → Int64,
      (∀ p ∈ enc.graph.rootPaths g r, enc.along p = .ok (number p)) ∧
      Set.BijOn (fun p => (number p).toInt) (enc.graph.rootPaths g r)
        (Set.Icc 1 (enc.blockD r).size.toInt) := by
  choose! number hnumber using h.total
  refine ⟨number, fun p hp => (hnumber p hp).1, fun p hp => (hnumber p hp).2, ?_, ?_⟩
  · intro p hp q hq heq
    refine h.distinct p hp q hq ?_
    rw [(hnumber p hp).1, (hnumber q hq).1, Int64.toInt_inj.1 heq]
  · intro k hk
    obtain ⟨p, hp, x, hx, rfl⟩ := h.exhausted k hk
    obtain rfl : number p = x := Except.ok.inj ((hnumber p hp).1.symm.trans hx)
    exact ⟨p, hp, rfl⟩

namespace Encoded

variable {g : CallGraph} {enc : Encoding} {span : Int64} {share : Edge → Share}
  (h : Encoded g enc span share)

include h

theorem numbered_root (hsize : 0 < g.size) : Numbered g enc rootMethod := by
  have hrep := h.condensed.repD_root hsize
  have hroot : g.hasMethod rootMethod :=
    h.condensed.hasMethod _ ((h.condensed.reachable _).2 ⟨hsize, .refl⟩)
  have hblock := h.trivial rootMethod hroot fun _ => hrep
  have hnil := h.entering_eq_nil hroot fun _ => hrep
  rw [hrep] at hnil
  have hpaths := h.condensed.rootPaths_root hsize hnil
  have hone : (enc.blockD rootMethod).size.toInt = 1 := by rw [hblock]; rfl
  refine { num := by rw [hblock], count := ?_, total := ?_, distinct := ?_, exhausted := ?_ }
  · rw [hpaths, hone, Set.encard_singleton]
    rfl
  · rw [hpaths, hone]
    rintro p rfl
    exact ⟨1, rfl, by decide⟩
  · rw [hpaths]
    rintro p rfl q rfl _
    rfl
  · rw [hpaths, hone]
    intro k hk
    exact ⟨[], rfl, 1, rfl, (Set.mem_Icc.1 hk).1.antisymm (Set.mem_Icc.1 hk).2⟩

/-- **The context a path leads to, by its last edge**: the path to the caller
has a context of the caller, and the edge moves it to its own share. -/
theorem along_entering {r : MethodId} (hm : g.hasMethod r) (hrr : enc.graph.repD r = r)
    (hnum : (enc.blockD r).num = 1) {e : Edge} (he : e ∈ enc.graph.entering g r) {q : List Edge}
    {y : Int64} (hq : enc.along q = .ok y)
    (hy : y.toInt ∈ Set.Icc 1 (enc.blockD e.caller).size.toInt) :
    ∃ x, enc.along (q ++ [e]) = .ok x ∧ x.toInt = (share e).start + y.toInt ∧
      x.toInt ∈ Set.Icc 1 (enc.blockD r).size.toInt := by
  obtain ⟨hy1, hyle⟩ := hy
  have hcount : (enc.blockD r).size.toInt * (enc.blockD r).num.toInt ≤ Context.largest.toInt := by
    rw [hnum, Int64.toInt_one, Int.mul_one]
    exact Context.toInt_le_largest _
  have he' : e ∈ enc.graph.entering g (enc.graph.repD r) := by rw [hrr]; exact he
  obtain ⟨-, -, hshare⟩ := h.between_of_entering he
  have hoffset := h.offset_eq hm hcount he'
  have hle := h.share_le hm he'
  rw [hnum, Int64.toInt_one, Int.mul_one] at hle
  have hx : (e.offset + (y - 1) % (enc.blockD e.caller).size).toInt =
      (share e).start + y.toInt := by
    rw [h.toInt_through hm hcount he' hy1, Context.toInt_place hy1,
      Int.emod_eq_of_lt (by omega) (by omega), hoffset]
    omega
  refine ⟨_, ?_, hx, ?_⟩
  · rw [Encoding.along_snoc, hq]
    exact h.mapThrough_eq (h.condensed.mem_entering.1 he).1 y
  · rw [hx]
    exact ⟨by omega, by omega⟩

section Step

variable {r : MethodId} (hsize : 0 < g.size) (hreach : enc.graph.isReachable r)
  (hrr : enc.graph.repD r = r) (hr : r ≠ rootMethod)
  (hcallers : ∀ e ∈ enc.graph.entering g r, Numbered g enc (enc.graph.repD e.caller))

include hsize hr hcallers

/-- There are as many paths as contexts given to the edges. -/
theorem encard_rootPaths : (enc.graph.rootPaths g r).encard =
    ((((enc.graph.entering g r).map share).map (·.size)).sum : Nat) := by
  rw [h.condensed.rootPaths_eq hsize hr, encard_snoc (h.condensed.entering_nodup r)
    (n := fun e => (share e).size), List.map_map]
  · rfl
  · intro e he
    obtain ⟨hcaller, -, hshare⟩ := h.between_of_entering he
    rw [(hcallers e he).count, h.blockD_repD _ (h.condensed.hasMethod _ hcaller), ← hshare]
    rfl

include hreach hrr

/-- **A component whose callers are numbered is numbered**, if its paths can
be counted within the span. -/
theorem numbered_step (hcount : (enc.graph.rootPaths g r).encard ≤ (span.toInt.toNat : Nat)) :
    Numbered g enc r := by
  have hm := h.condensed.hasMethod r hreach
  have hencard := h.encard_rootPaths hsize hr hcallers
  have hspan := h.one_le_span
  have hnum : (enc.blockD r).num = 1 := by
    rw [hencard, Nat.cast_le] at hcount
    rw [h.num_eq_one_iff hm, hrr, ← h.sum_sizes]
    omega
  obtain ⟨-, hnil⟩ | ⟨full, used, ht, hused, hblock, hfull⟩ := h.layout_cases hm
  · rw [hrr] at hnil
    exact absurd hnil (h.entering_ne_nil hreach hrr hr)
  rw [hnum, Int64.toInt_one] at hfull
  obtain rfl : full = 0 := by omega
  rw [if_pos rfl] at hblock
  rw [hrr] at ht
  have hcaller : ∀ e ∈ enc.graph.entering g r,
      enc.blockD (enc.graph.repD e.caller) = enc.blockD e.caller := fun e he =>
    h.blockD_repD _ (h.condensed.hasMethod _ (h.between_of_entering he).1)
  -- a path continued by an edge leads into the share of the edge
  have hlast : ∀ e ∈ enc.graph.entering g r, ∀ q ∈ enc.graph.rootPaths g (enc.graph.repD e.caller),
      ∃ y, enc.along q = .ok y ∧ y.toInt ∈ Set.Icc 1 (enc.blockD e.caller).size.toInt ∧
        ∃ x, enc.along (q ++ [e]) = .ok x ∧ x.toInt = (share e).start + y.toInt ∧
          x.toInt ∈ Set.Icc 1 (enc.blockD r).size.toInt := by
    intro e he q hq
    obtain ⟨y, hqy, hy⟩ := (hcallers e he).total q hq
    rw [hcaller e he] at hy
    exact ⟨y, hqy, hy, h.along_entering hm hrr hnum he hqy hy⟩
  have hpaths := h.condensed.rootPaths_eq hsize hr
  refine { num := hnum, count := ?_, total := ?_, distinct := ?_, exhausted := ?_ }
  · rw [hencard, ← ht.total rfl, hblock]
    rfl
  · rw [hpaths]
    rintro _ ⟨e, he, q, hq, rfl⟩
    obtain ⟨-, -, -, x, hx, -, hmem⟩ := hlast e he q hq
    exact ⟨x, hx, hmem⟩
  · rw [hpaths]
    rintro _ ⟨e, he, q, hq, rfl⟩ _ ⟨e', he', q', hq', rfl⟩ heq
    obtain ⟨y, hqy, ⟨hy1, hyle⟩, x, hx, hxy, -⟩ := hlast e he q hq
    obtain ⟨y', hqy', ⟨hy1', hyle'⟩, x', hx', hxy', -⟩ := hlast e' he' q' hq'
    obtain rfl : x = x' := Except.ok.inj (hx.symm.trans (heq.trans hx'))
    obtain ⟨-, -, hshare⟩ := h.between_of_entering he
    obtain ⟨-, -, hshare'⟩ := h.between_of_entering he'
    by_cases hsame : e = e'
    · subst hsame
      obtain rfl : y = y' := Int64.toInt_inj.1 (by omega)
      rw [(hcallers e he).distinct q hq q' hq' (hqy.trans hqy'.symm)]
    · -- different last edges have different shares
      rcases ht.apart he he' hsame with hlt | hlt
      · omega
      · omega
  · rw [hpaths, hblock]
    rintro k ⟨hk1, hkle⟩
    -- the edge in whose share the context lies is the last one of the path
    obtain ⟨s, hs, hstart, hend⟩ := ht.cover rfl (k - 1).toNat (by omega)
    obtain ⟨e, he, rfl⟩ := List.mem_map.1 hs
    obtain ⟨-, -, hshare⟩ := h.between_of_entering he
    obtain ⟨q, hq, y, hqy, hy⟩ := (hcallers e he).exhausted (k - (share e).start)
      (by rw [hcaller e he]; exact ⟨by omega, by omega⟩)
    obtain ⟨x, hx, hxy, -⟩ :=
      h.along_entering hm hrr hnum he hqy (by rw [hy]; exact ⟨by omega, by omega⟩)
    exact ⟨q ++ [e], ⟨e, he, q, hq, rfl⟩, x, hx, by omega⟩

end Step

/-- **All components are numbered**, if the paths to each of them can be
counted within the span. -/
theorem numbered (hsize : 0 < g.size)
    (hcount : ∀ r, enc.graph.isReachable r → enc.graph.repD r = r →
      (enc.graph.rootPaths g r).encard ≤ (span.toInt.toNat : Nat)) {r : MethodId}
    (hreach : enc.graph.isReachable r) (hrr : enc.graph.repD r = r) : Numbered g enc r := by
  induction hn : enc.graph.order.idxOf r using Nat.strongRecOn generalizing r with
  | ind n ih =>
    by_cases hr : r = rootMethod
    · rw [hr]
      exact h.numbered_root hsize
    refine h.numbered_step hsize hreach hrr hr (fun e he => ?_) (hcount r hreach hrr)
    obtain ⟨hmem, hcaller, hto, hfrom⟩ := h.condensed.mem_entering.1 he
    have hm := h.condensed.hasMethod _ hcaller
    have hsorted := h.condensed.sorted e hmem hcaller (by rw [hto]; exact hfrom)
    rw [hto, hn] at hsorted
    exact ih _ hsorted ((h.condensed.isReachable_repD hm).2 hcaller) (h.condensed.repD_repD hm) rfl

/-- **Edges inside components do not count**: leaving them out of a walk
leaves a path that leads to the same context. -/
theorem along_rootWalk (hsize : 0 < g.size)
    (hnum : ∀ r, enc.graph.isReachable r → enc.graph.repD r = r → Numbered g enc r)
    {r : MethodId} {q : List Edge} (hq : enc.graph.RootWalk g r q) :
    enc.graph.RootPath g r (q.filter (!·.inComponent)) ∧
      enc.along q = enc.along (q.filter (!·.inComponent)) := by
  induction hq with
  | nil => exact ⟨.nil, rfl⟩
  | @snoc r q e _ he hfrom ih =>
    obtain ⟨hpath, halong⟩ := ih
    have hr := h.condensed.isReachable_of_rootPath hsize hpath
    have hcaller := h.condensed.isReachable_caller he (hfrom ▸ hr)
    have hm := h.condensed.hasMethod _ hcaller
    by_cases hin : e.inComponent
    · have hsame := (h.condensed.flag e he hcaller).1 hin
      have hfilter : (q ++ [e]).filter (!·.inComponent) = q.filter (!·.inComponent) := by
        simp [hin]
      rw [hfilter, ← hsame, hfrom]
      refine ⟨hpath, ?_⟩
      obtain ⟨x, hx, hrange⟩ :=
        (hnum r hr (by rw [← hfrom]; exact h.condensed.repD_repD hm)).total _ hpath
      rw [← hfrom, h.blockD_repD _ hm] at hrange
      rw [Encoding.along_snoc, halong, hx]
      exact h.mapThrough_inner he hcaller hin hrange
    · have hfilter : (q ++ [e]).filter (!·.inComponent) =
          q.filter (!·.inComponent) ++ [e] := by
        simp [hin]
      rw [hfilter, Encoding.along_snoc, Encoding.along_snoc, halong]
      exact ⟨.snoc hpath he hin hfrom, rfl⟩

end Encoded

/-! ## Paths do not depend on offsets -/

section Unmapped

variable {g g' : CallGraph} {c : Condensation}

theorem mem_edges_of_rootPath {r : MethodId} {p : List Edge} (hp : c.RootPath g r p) :
    ∀ e ∈ p, e ∈ g.edges := by
  induction hp with
  | nil => simp
  | snoc _ he _ _ ih =>
    intro e hmem
    rcases List.mem_append.1 hmem with hmem | hmem
    · exact ih e hmem
    · rw [List.mem_singleton.1 hmem]
      exact he

/-- A graph with the same calls has no more paths. -/
theorem encard_rootPaths_le (hw : g.WellFormed) (h : g'.unmapped = g.unmapped) (r : MethodId) :
    (c.rootPaths g' r).encard ≤ (c.rootPaths g r).encard := by
  have hw' := hw.of_unmapped h
  -- an edge is the one of the same call site in the other graph
  have hedge : ∀ e ∈ g'.edges, ∃ e₀ ∈ g.edges, g.edge? e.toCallSite = some e₀ ∧
      e₀.toCallSite = e.toCallSite ∧ e₀.inComponent = e.inComponent := by
    intro e he
    obtain ⟨e₀, he₀, hcall, hin⟩ := CallGraph.mem_of_unmapped h he
    exact ⟨e₀, he₀, hcall ▸ hw.edge?_eq he₀, hcall, hin⟩
  let there : Edge → Edge := fun e => (g.edge? e.toCallSite).getD e
  let back : Edge → Edge := fun e => (g'.edge? e.toCallSite).getD e
  refine Set.encard_le_encard_of_injOn (f := fun p => p.map there) ?_ ?_
  · intro p hp
    change c.RootPath g r (p.map there)
    induction hp with
    | nil => exact .nil
    | @snoc r p e _ he hin hfrom ih =>
      obtain ⟨e₀, he₀, hfound, hcall, hin₀⟩ := hedge e he
      have hthere : there e = e₀ := by simp only [there, hfound, Option.getD_some]
      rw [List.map_append, List.map_singleton, hthere, ← hcall]
      exact .snoc ih he₀ (by rw [hin₀]; exact hin) (by rw [hcall]; exact hfrom)
  · have hleft : ∀ p ∈ c.rootPaths g' r, (p.map there).map back = p := by
      intro p hp
      rw [List.map_map]
      refine (List.map_congr_left fun e he => ?_).trans (List.map_id p)
      have hmem := mem_edges_of_rootPath hp e he
      obtain ⟨e₀, -, hfound, hcall, -⟩ := hedge e hmem
      simp only [Function.comp_apply, there, back, hfound, Option.getD_some, hcall,
        hw'.edge?_eq hmem, id_eq]
    intro p hp q hq heq
    rw [← hleft p hp, ← hleft q hq]
    exact congrArg (List.map back) heq

end Unmapped

/-- **Contexts are paths.** Suppose that the paths of calls between components
from the root to each component it reaches can be counted within the span.
Then no such component needs a second block, a method has as many contexts
as there are paths to its component, following a path from the first
context numbers the paths by the contexts, and edges inside components do
not change the number. -/
theorem CallGraph.encode_numbers_paths {g g' : CallGraph} {c : Condensation} (hw : g.WellFormed)
    (hfew : g.edges.size < 2 ^ 63) (hcond : g.condense g.representatives = .ok (g', c))
    {maxSpan : Int64} (hspan : 1 ≤ maxSpan.toInt)
    (hcount : ∀ m, c.isReachable m →
      (c.rootPaths g' (c.repD m)).encard ≤ (maxSpan.toInt.toNat : Nat)) :
    let g'' := (g'.encode c maxSpan).1
    let enc := (g'.encode c maxSpan).2
    ∀ m, c.isReachable m →
      let size := (enc.blockD m).size.toInt
      let paths := c.rootPaths g'' (c.repD m)
      (enc.blockD m).num = 1 ∧ paths.encard = (size.toNat : Nat) ∧
      (∃ number : List Edge → Int64, (∀ p ∈ paths, enc.along p = .ok (number p)) ∧
        Set.BijOn (fun p => (number p).toInt) paths (Set.Icc 1 size)) ∧
      ∀ q, c.RootWalk g'' (c.repD m) q → q.filter (!·.inComponent) ∈ paths ∧
        enc.along q = enc.along (q.filter (!·.inComponent)) := by
  intro g'' enc m hreach
  have hc := condensed_of_condense hw hcond
  have hfew' : g'.edges.size < 2 ^ 63 := by rw [edges_size_of_condense hcond]; exact hfew
  have hcalls := unmapped_encode hc hfew' maxSpan
  have hspan' : Encoding.effectiveSpan maxSpan = maxSpan := by
    refine if_neg fun hle => ?_
    rw [Int64.le_iff_toInt_le, Int64.toInt_zero] at hle
    omega
  obtain ⟨share, h⟩ := encoded_of_encode hc hfew' maxSpan
  rw [hspan'] at h
  have hsize : 0 < g''.size := ((h.condensed.reachable m).1 hreach).1
  have hnum : ∀ r, c.isReachable r → c.repD r = r → Numbered g'' enc r := by
    intro r hr hrr
    refine h.numbered hsize (fun r hr hrr => ?_) hr hrr
    exact (encard_rootPaths_le hc.wellFormed hcalls r).trans (hrr ▸ hcount r hr)
  have hm := h.condensed.hasMethod m hreach
  have hrep := hnum (c.repD m) ((h.condensed.isReachable_repD hm).2 hreach)
    (h.condensed.repD_repD hm)
  have hblock : enc.blockD (c.repD m) = enc.blockD m := h.blockD_repD m hm
  have hone := hrep.num
  have hencard := hrep.count
  have hbij := hrep.exists_bijOn
  rw [hblock] at hone hencard hbij
  exact ⟨hone, hencard, hbij, fun q hq => h.along_rootWalk hsize hnum hq⟩

/-- Four paths lead to the method called last, and four contexts suffice. -/
theorem CallGraph.encode_numbers_paths_twoEntries :
    let enc := (twoEntriesMarked.encode twoEntriesCondensed 4).2
    (enc.blockD 2).num = 1 ∧
      (twoEntriesCondensed.rootPaths (twoEntriesMarked.encode twoEntriesCondensed 4).1 2).encard =
        ((enc.blockD 2).size.toInt.toNat : Nat) := by
  have hc := condensed_of_condense wellFormed_twoEntries condense_twoEntries
  have hsize : 0 < twoEntriesMarked.size := by decide
  -- the paths to each method, from those to its callers
  have hpaths₀ : (twoEntriesCondensed.rootPaths twoEntriesMarked rootMethod).encard =
      (1 : Nat) := by
    rw [hc.rootPaths_root hsize (by decide +kernel), Set.encard_singleton]
    rfl
  have hpaths₁ : (twoEntriesCondensed.rootPaths twoEntriesMarked 1).encard = (2 : Nat) := by
    rw [hc.rootPaths_eq hsize (by decide), encard_snoc (hc.entering_nodup 1) (n := fun _ => 1)]
    · decide +kernel
    · have hcaller : ∀ e ∈ twoEntriesCondensed.entering twoEntriesMarked 1,
          twoEntriesCondensed.repD e.caller = rootMethod := by decide +kernel
      exact fun e he => hcaller e he ▸ hpaths₀
  have hpaths₂ : (twoEntriesCondensed.rootPaths twoEntriesMarked 2).encard = (4 : Nat) := by
    rw [hc.rootPaths_eq hsize (by decide), encard_snoc (hc.entering_nodup 2) (n := fun _ => 2)]
    · decide +kernel
    · have hcaller : ∀ e ∈ twoEntriesCondensed.entering twoEntriesMarked 2,
          twoEntriesCondensed.repD e.caller = 1 := by decide +kernel
      exact fun e he => hcaller e he ▸ hpaths₁
  have hcount : ∀ m, twoEntriesCondensed.isReachable m →
      (twoEntriesCondensed.rootPaths twoEntriesMarked (twoEntriesCondensed.repD m)).encard ≤
        ((4 : Int64).toInt.toNat : Nat) := by
    intro m hm
    have hmem := mem_methods.2 (hc.hasMethod m hm)
    rw [show twoEntriesMarked.methods = [0, 1, 2] by decide] at hmem
    simp only [List.mem_cons, List.not_mem_nil, or_false] at hmem
    rcases hmem with rfl | rfl | rfl
    · exact hpaths₀.trans_le (Nat.cast_le.2 (by decide))
    · exact hpaths₁.trans_le (Nat.cast_le.2 (by decide))
    · exact hpaths₂.trans_le (Nat.cast_le.2 (by decide))
  obtain ⟨hnum, hencard, -⟩ :=
    encode_numbers_paths wellFormed_twoEntries (by decide) condense_twoEntries
      (show 1 ≤ (4 : Int64).toInt by decide) hcount 2 (by decide)
  exact ⟨hnum, hencard⟩

end PointsTo
