import PointsTo.CallGraph.Encoding
import PointsTo.Proofs.Packing
import PointsTo.Proofs.Paths
/-!
# How contexts are handed out

Computing an encoding runs through the components in their order. When a
component is laid out all edges into it have been given their contexts,
and from then on nothing changes its layout: this is the invariant
`Filled`, for the components that are done and the edges that have been
given contexts.
-/

namespace PointsTo

namespace Encoding

/-! ## Places in blocks -/

theorem inBlock_of_pos {b : Block} (hb : 0 < b.size) (x : Int64) :
    inBlock b x = .ok ((x - 1) % b.size) := by
  rw [inBlock, if_neg]
  intro h0
  rw [h0] at hb
  exact absurd hb (by decide)

/-- A context goes to the offset of the edge, plus its place in its block. -/
theorem mapThrough_of_pos {enc : Encoding} {e : Edge} {b : Block}
    (hblock : enc.block e.caller = .ok b) (hb : 0 < b.size) (x : Int64) :
    enc.mapThrough e x = .ok (e.offset + (x - 1) % b.size) := by
  rw [mapThrough, hblock]
  simp only [bind, Except.bind, inBlock_of_pos hb]

/-! ## The tables of the computation -/

namespace Filling

/-- The blocks of a component that are full. -/
def fullAt (f : Filling) (t : MethodId) : Int64 := (slot? f.full t).getD 0

/-- The contexts used in the current block of a component. -/
def usedAt (f : Filling) (t : MethodId) : Int64 := (slot? f.used t).getD 0

/-- The positions of the edges into a component, among some. -/
def into (g : CallGraph) (c : Condensation) (t : MethodId) (l : List Nat) : List Nat :=
  l.filter fun i => (g.edges[i]?).any fun e => c.repD e.callee == t

variable {g : CallGraph} {c : Condensation} {span : Int64} {f : Filling}

theorem layout_root : f.layout span rootMethod = {} := if_pos rfl

/-- A component other than the root's has one block of what it uses, or blocks of a
whole span once one is full. -/
theorem layout_of_ne {r : MethodId} (hr : r ≠ rootMethod) : f.layout span r =
    if f.fullAt r = 0 then ⟨if 1 < f.usedAt r then f.usedAt r else 1, 1⟩
    else ⟨span, Context.satAdd (f.fullAt r) 1⟩ := if_neg hr

/-- The layout of a component depends on its own counts alone. -/
theorem layout_congr {f' : Filling} {r : MethodId} (hfull : f'.fullAt r = f.fullAt r)
    (hused : f'.usedAt r = f.usedAt r) : f'.layout span r = f.layout span r := by
  by_cases hr : r = rootMethod
  · rw [hr, layout_root, layout_root]
  · rw [layout_of_ne hr, layout_of_ne hr, hfull, hused]

/-! ## What placing an edge changes -/

section Place

variable (span size : Int64) {i : Nat} {e : Edge} (he : f.edges[i]? = some e)

include he

/-- Room is made in the component of the callee, and the edge is given the
offset of it. -/
theorem place_eq : Filling.place c span size f i =
    let t := c.repD e.callee
    let room := Packed.room span size (f.fullAt t) (f.usedAt t)
    { f with
      edges := f.edges.modify i ({ · with
        offset := Context.satAdd (Context.satMul room.1 span) (Context.satAdd room.2 1) })
      full := f.full.modify t.toNat fun _ => room.1
      used := f.used.modify t.toNat fun _ => room.2 + size } := by
  rw [Filling.place, he]
  rfl

/-- Making room for an edge counts full blocks for the component it leads into alone. -/
theorem fullAt_place (h0 : 0 ≤ (c.repD e.callee : Int))
    (hlt : (c.repD e.callee : Int) < f.full.size) (t : MethodId) :
    (Filling.place c span size f i).fullAt t =
      if t = c.repD e.callee then (Packed.room span size (f.fullAt t) (f.usedAt t)).1
      else f.fullAt t := by
  rw [place_eq span size he, fullAt, slot?_getD_modify h0 hlt]
  split
  · next ht => rw [ht]
  · rfl

/-- Making room for an edge takes contexts in the component it leads into alone. -/
theorem usedAt_place (h0 : 0 ≤ (c.repD e.callee : Int))
    (hlt : (c.repD e.callee : Int) < f.used.size) (t : MethodId) :
    (Filling.place c span size f i).usedAt t =
      if t = c.repD e.callee then (Packed.room span size (f.fullAt t) (f.usedAt t)).2 + size
      else f.usedAt t := by
  rw [place_eq span size he, usedAt, slot?_getD_modify h0 hlt]
  split
  · next ht => rw [ht]
  · rfl

end Place

/-- Offsets do not matter for the calls of a graph. -/
theorem unmapped_modify_offset (es : Array Edge) (i : Nat) (offset : Int64) :
    ({ g with edges := es.modify i ({ · with offset }) } : CallGraph).unmapped =
      ({ g with edges := es } : CallGraph).unmapped := by
  simp only [CallGraph.unmapped, CallGraph.mk.injEq, true_and]
  refine Array.ext_getElem? fun j => ?_
  simp only [Array.getElem?_map, Array.getElem?_modify]
  split
  · rw [Option.map_map]
    rfl
  · rfl

/-! ## The invariant -/

/-- **The invariant.** `share` is what the edges at the positions `l` have been
given, and the components `done` have been laid out. -/
structure Filled (g : CallGraph) (c : Condensation) (span : Int64) (share : Nat → Share)
    (done : List MethodId) (l : List Nat) (f : Filling) : Prop where
  calls : ({ g with edges := f.edges } : CallGraph).unmapped = g.unmapped
  full_size : f.full.size = g.size
  used_size : f.used.size = g.size
  packed : ∀ t, Packed span ((into g c t l).map share) (f.fullAt t) (f.usedAt t)
  offset : ∀ i ∈ l, ∃ e, f.edges[i]? = some e ∧
    e.offset.toInt = min ((share i).start + 1 : Int) Context.largest.toInt
  size : ∀ i ∈ l, ∃ e, g.edges[i]? = some e ∧ c.repD e.caller ∈ done ∧
    ((share i).size : Int) = (f.layout span (c.repD e.caller)).size.toInt
  block : ∀ m, g.hasMethod m → slot? f.blocks m =
    some (if c.repD m ∈ done then f.layout span (c.repD m) else {})

namespace Filled

variable {share : Nat → Share} {done : List MethodId} {l : List Nat}

/-- A block holds at least one context and at most `span`. -/
theorem layout_size (h : Filled g c span share done l f) (hspan : 1 ≤ span.toInt) (r : MethodId) :
    1 ≤ (f.layout span r).size.toInt ∧ (f.layout span r).size.toInt ≤ span.toInt := by
  have hone : (1 : Int64).toInt = 1 := rfl
  by_cases hr : r = rootMethod
  · rw [hr, layout_root]
    exact ⟨by decide, by rw [hone]; exact hspan⟩
  · rw [layout_of_ne hr]
    obtain ⟨F, U, -, hU, ht⟩ := h.packed r
    have := ht.used_le
    split
    · dsimp only
      split
      · next hlt =>
        rw [Int64.lt_iff_toInt_lt] at hlt
        omega
      · omega
    · exact ⟨hspan, Int.le_refl _⟩

/-- An edge of the graph is there with the same call. -/
theorem edge_eq (h : Filled g c span share done l f) {i : Nat} {e : Edge}
    (he : g.edges[i]? = some e) : ∃ e', f.edges[i]? = some e' ∧ e'.toCallSite = e.toCallSite := by
  obtain ⟨e', he', hcall, -⟩ := CallGraph.getElem?_of_unmapped h.calls.symm he
  exact ⟨e', he', hcall⟩

/-- Giving an edge its contexts makes room in the component it enters. -/
theorem tables_place (h : Filled g c span share done l f) {i : Nat} {e : Edge}
    (he : g.edges[i]? = some e) (hmethod : g.hasMethod (c.repD e.callee)) (size : Int64)
    (t : MethodId) :
    let room := Packed.room span size (f.fullAt t) (f.usedAt t)
    (Filling.place c span size f i).fullAt t =
        (if t = c.repD e.callee then room.1 else f.fullAt t) ∧
      (Filling.place c span size f i).usedAt t =
        (if t = c.repD e.callee then room.2 + size else f.usedAt t) := by
  obtain ⟨e', he', hcall⟩ := h.edge_eq he
  obtain ⟨h0, hlt⟩ := CallGraph.hasMethod_iff.1 hmethod
  rw [← hcall] at h0 hlt ⊢
  exact ⟨fullAt_place span size he' h0 (by rw [h.full_size]; exact hlt) t,
    usedAt_place span size he' h0 (by rw [h.used_size]; exact hlt) t⟩

/-- It changes no layout but that of the component it enters. -/
theorem layout_place (h : Filled g c span share done l f) {i : Nat} {e : Edge}
    (he : g.edges[i]? = some e) (hmethod : g.hasMethod (c.repD e.callee)) (size : Int64)
    {r : MethodId} (hr : r ≠ c.repD e.callee) :
    (Filling.place c span size f i).layout span r = f.layout span r := by
  obtain ⟨hfull, hused⟩ := h.tables_place he hmethod size r
  exact layout_congr (hfull.trans (if_neg hr)) (hused.trans (if_neg hr))

/-- What the component it enters has given away grows by the edge's share. -/
theorem packed_place (h : Filled g c span share done l f) {i : Nat} {e : Edge}
    (he : g.edges[i]? = some e) (hmethod : g.hasMethod (c.repD e.callee)) {size : Int64}
    {share' : Nat → Share} (hold : ∀ j ∈ l, share' j = share j)
    (hpacked :
      let room := Packed.room span size (f.fullAt (c.repD e.callee)) (f.usedAt (c.repD e.callee))
      Packed span ((into g c (c.repD e.callee) l).map share ++ [share' i]) room.1 (room.2 + size))
    (t : MethodId) :
    Packed span ((into g c t (l ++ [i])).map share') ((Filling.place c span size f i).fullAt t)
      ((Filling.place c span size f i).usedAt t) := by
  have hmap : (into g c t l).map share' = (into g c t l).map share :=
    List.map_congr_left fun j hj => hold j (List.mem_filter.1 hj).1
  obtain ⟨hfull, hused⟩ := h.tables_place he hmethod size t
  rw [hfull, hused, into, List.filter_append, List.map_append]
  change Packed span ((into g c t l).map _ ++ _) _ _
  rw [hmap]
  by_cases ht : t = c.repD e.callee
  · subst ht
    rw [if_pos rfl, if_pos rfl]
    simpa [he] using hpacked
  · rw [if_neg ht, if_neg ht]
    simpa [he, Ne.symm ht] using h.packed t

/-- **Giving an edge its contexts.** The edge leaves a component that is laid
out, for one that is not. -/
theorem place (h : Filled g c span share done l f) (hspan : 1 ≤ span.toInt) {i : Nat} {e : Edge}
    (he : g.edges[i]? = some e) (hi : i ∉ l) (hl : l.length + 1 < 2 ^ 63)
    (hmethod : g.hasMethod (c.repD e.callee)) (hfrom : c.repD e.caller ∈ done)
    (hto : c.repD e.callee ∉ done) {size : Int64}
    (hsize : size = (f.layout span (c.repD e.caller)).size) :
    (∃ share', (∀ j ∈ l, share' j = share j) ∧
      Filled g c span share' done (l ++ [i]) (Filling.place c span size f i)) ∧
    ∀ r ∈ done, (Filling.place c span size f i).layout span r = f.layout span r := by
  obtain ⟨e', he', hcall⟩ := h.edge_eq he
  have hbounds := h.layout_size hspan (c.repD e.caller)
  rw [← hsize] at hbounds
  have hlen : ((into g c (c.repD e.callee) l).map share).length ≤ l.length := by
    rw [List.length_map]
    exact List.length_filter_le ..
  obtain ⟨start, hstart, hpacked⟩ :=
    (h.packed (c.repD e.callee)).place hbounds.1 hbounds.2 (by omega)
  have hlayout : ∀ r ∈ done,
      (Filling.place c span size f i).layout span r = f.layout span r :=
    fun r hr => h.layout_place he hmethod size fun heq => hto (heq ▸ hr)
  have hne : ∀ j ∈ l, j ≠ i := fun j hj heq => hi (heq ▸ hj)
  have hold : ∀ j ∈ l, (if j = i then ⟨start, size.toInt.toNat⟩ else share j) = share j :=
    fun j hj => if_neg (hne j hj)
  refine ⟨⟨fun j => if j = i then ⟨start, size.toInt.toNat⟩ else share j, hold, ?_⟩, hlayout⟩
  -- the other edges keep their offsets, and their shares
  have hedge : ∀ j, j ≠ i → (Filling.place c span size f i).edges[j]? = f.edges[j]? := by
    intro j hj
    rw [place_eq span size he']
    simp [Array.getElem?_modify, Ne.symm hj]
  refine { calls := ?_, full_size := ?_, used_size := ?_, packed := ?_, offset := ?_, size := ?_
           block := ?_ }
  · rw [place_eq span size he']
    exact (unmapped_modify_offset ..).trans h.calls
  · rw [place_eq span size he']
    simpa using h.full_size
  · rw [place_eq span size he']
    simpa using h.used_size
  · exact h.packed_place he hmethod hold (by simpa using hpacked)
  · intro j hj
    rcases List.mem_append.1 hj with hj | hj
    · rw [hold j hj, hedge j (hne j hj)]
      exact h.offset j hj
    · rw [List.mem_singleton.1 hj, if_pos rfl, place_eq span size he']
      simp only [Array.getElem?_modify, he', hcall, if_true, Option.map_some]
      refine ⟨_, rfl, ?_⟩
      dsimp only
      exact hstart
  · intro j hj
    rcases List.mem_append.1 hj with hj | hj
    · obtain ⟨d, hd, hdone, hds⟩ := h.size j hj
      refine ⟨d, hd, hdone, ?_⟩
      rw [hold j hj, hlayout _ hdone]
      exact hds
    · rw [List.mem_singleton.1 hj, if_pos rfl]
      refine ⟨e, he, hfrom, ?_⟩
      rw [hlayout _ hfrom, ← hsize]
      exact Int.toNat_of_nonneg (by omega)
  · intro m hm
    have hblocks : (Filling.place c span size f i).blocks = f.blocks := by
      rw [place_eq span size he']
    rw [hblocks, h.block m hm]
    by_cases hmd : c.repD m ∈ done
    · rw [if_pos hmd, if_pos hmd, hlayout _ hmd]
    · rw [if_neg hmd, if_neg hmd]

end Filled

/-! ## Running through the components -/

/-- Giving all methods of a list the same block. -/
theorem slot?_foldl_modify {bs : Array Block} {b : Block} {ms : List MethodId}
    (hms : ∀ m ∈ ms, 0 ≤ (m : Int)) (m : MethodId) :
    slot? (ms.foldl (fun bs m => bs.modify m.toNat fun _ => b) bs) m =
      if m ∈ ms then (slot? bs m).map fun _ => b else slot? bs m := by
  induction ms generalizing bs with
  | nil => simp
  | cons x ms ih =>
    rw [List.foldl_cons, ih fun y hy => hms y (List.mem_cons_of_mem _ hy),
      slot?_modify (hms x List.mem_cons_self)]
    by_cases hx : m = x
    · subst hx
      by_cases hmem : m ∈ ms <;> simp [hmem, Function.comp_def]
    · simp [hx]

/-- The first half of a round: the methods of a component are laid out. -/
def layOut (c : Condensation) (span : Int64) (f : Filling) (r : MethodId) : Filling :=
  let b := f.layout span r
  { f with blocks := (c.membersOf r).foldl (fun bs m => bs.modify m.toNat fun _ => b) f.blocks }

section Order

variable (hc : Condensed g c)

include hc

/-- No edge leaves two components. -/
theorem nodup_positions : (c.order.flatMap c.outOf).Nodup := by
  refine List.nodup_flatMap.2 ⟨fun r _ => hc.out_nodup r, ?_⟩
  refine hc.order_nodup.imp fun {r r'} hne => List.disjoint_left.2 fun i hi hi' => hne ?_
  obtain ⟨e, he, -, rfl, -⟩ := (hc.mem_out r i).1 hi
  obtain ⟨e', he', -, rfl, -⟩ := (hc.mem_out r' i).1 hi'
  rw [Option.some.inj (he.symm.trans he')]

/-- The edges that are looked at are no more than the graph has. -/
theorem length_positions_le : (c.order.flatMap c.outOf).length ≤ g.edges.size := by
  have hsub : c.order.flatMap c.outOf ⊆ List.range g.edges.size := by
    intro i hi
    obtain ⟨r, -, hi⟩ := List.mem_flatMap.1 hi
    obtain ⟨e, he, -⟩ := (hc.mem_out r i).1 hi
    exact List.mem_range.2 (Array.getElem?_eq_some_iff.1 he).1
  have := ((nodup_positions hc).subperm hsub).length_le
  rwa [List.length_range] at this

/-- An edge leads to a component that comes later. -/
theorem callee_not_done {done rest : List MethodId} {r : MethodId}
    (horder : c.order = done ++ r :: rest) {e : Edge} (he : e ∈ g.edges)
    (hreach : c.isReachable e.caller) (hfrom : c.repD e.caller = r) (hto : c.repD e.callee ≠ r) :
    c.repD e.callee ∉ done ++ [r] := by
  have hnodup := hc.order_nodup
  rw [horder] at hnodup
  have hr : r ∉ done := fun hr =>
    (List.nodup_append.1 hnodup).2.2 r hr r List.mem_cons_self rfl
  have hsorted := hc.sorted e he hreach (by rw [hfrom]; exact Ne.symm hto)
  rw [hfrom, horder, List.idxOf_append_of_notMem hr, List.idxOf_cons_self] at hsorted
  intro hmem
  rcases List.mem_append.1 hmem with hmem | hmem
  · rw [List.idxOf_append_of_mem hmem] at hsorted
    have := List.idxOf_lt_length_iff.2 hmem
    omega
  · exact hto (List.mem_singleton.1 hmem)

/-- Laying out a component leaves the shares of the edges as they are. -/
theorem Filled.layOut {share : Nat → Share} {done : List MethodId} {l : List Nat}
    (h : Filled g c span share done l f) (r : MethodId) :
    Filled g c span share (done ++ [r]) l (f.layOut c span r) := by
  refine { h with size := ?_, block := ?_ }
  · intro i hi
    obtain ⟨e, he, hdone, hsize⟩ := h.size i hi
    exact ⟨e, he, List.mem_append_left _ hdone, hsize⟩
  · intro m hm
    have hmembers : ∀ m ∈ c.membersOf r, 0 ≤ (m : Int) := fun m hm =>
      (CallGraph.hasMethod_iff.1 ((hc.mem_members r m).1 hm).1).1
    rw [Filling.layOut, slot?_foldl_modify hmembers, h.block m hm]
    by_cases hmr : c.repD m = r
    · have hmem : r ∈ done ++ [r] := List.mem_append_right _ (List.mem_singleton_self r)
      rw [if_pos ((hc.mem_members r m).2 ⟨hm, hmr⟩), hmr, if_pos hmem]
      rfl
    · rw [if_neg fun hmem => hmr ((hc.mem_members r m).1 hmem).2]
      simp only [List.mem_append, List.mem_singleton, hmr, or_false]
      rfl

/-- **Laying out a component and giving its edges their contexts.** -/
theorem Filled.component (hspan : 1 ≤ span.toInt) (hfew : g.edges.size < 2 ^ 63)
    {share : Nat → Share} {done rest : List MethodId} {r : MethodId}
    (horder : c.order = done ++ r :: rest)
    (h : Filled g c span share done (done.flatMap c.outOf) f) :
    ∃ share', Filled g c span share' (done ++ [r]) ((done ++ [r]).flatMap c.outOf)
      (Filling.component c span f r) := by
  have hpositions : c.order.flatMap c.outOf =
      done.flatMap c.outOf ++ c.outOf r ++ rest.flatMap c.outOf := by
    rw [horder, List.flatMap_append, List.flatMap_cons, List.append_assoc]
  have hnodup := nodup_positions hc
  have hlength := length_positions_le hc
  rw [hpositions] at hnodup hlength
  have hloop := foldl_run (l := c.outOf r)
    (f := Filling.place c span (f.layout span r).size) (b := f.layOut c span r)
    (fun tried f' => (∃ share', Filled g c span share' (done ++ [r])
      (done.flatMap c.outOf ++ tried) f') ∧ f'.layout span r = f.layout span r)
    ⟨⟨share, by rw [List.append_nil]; exact h.layOut hc r⟩, rfl⟩ ?_
  · obtain ⟨⟨share', h'⟩, -⟩ := hloop
    refine ⟨share', ?_⟩
    rw [List.flatMap_append, List.flatMap_singleton]
    exact h'
  · rintro tried i f' ⟨todo, hout⟩ ⟨⟨share', h'⟩, hlayout⟩
    have hi : i ∈ c.outOf r := by rw [hout]; simp
    obtain ⟨e, he, hreach, hfrom, hto⟩ := (hc.mem_out r i).1 hi
    have hemem : e ∈ g.edges := Array.mem_of_getElem? he
    have hcallee := hc.hasMethod _ (hc.isReachable_callee hemem hreach)
    -- the position has not been met yet, and there is one more than those met
    rw [hout] at hnodup hlength
    have hnew : i ∉ done.flatMap c.outOf ++ tried := by
      intro hmem
      have : (done.flatMap c.outOf ++ tried ++ (i :: todo ++ rest.flatMap c.outOf)).Nodup := by
        simpa [List.append_assoc] using hnodup
      exact (List.nodup_append.1 this).2.2 i hmem i (by simp) rfl
    have hroom : (done.flatMap c.outOf ++ tried).length + 1 < 2 ^ 63 := by
      simp only [List.length_append, List.length_cons] at hlength ⊢
      omega
    obtain ⟨⟨share'', -, h''⟩, hkeep⟩ := h'.place hspan he hnew hroom (hc.hasMethod_repD hcallee)
      (by simp [hfrom]) (callee_not_done hc horder hemem hreach hfrom hto)
      (by rw [hfrom, hlayout])
    refine ⟨⟨share'', ?_⟩, (hkeep r (by simp)).trans hlayout⟩
    rw [← List.append_assoc]
    exact h''

/-- **All components are laid out, and all edges between them are given
their contexts.** -/
theorem exists_filled (hspan : 1 ≤ span.toInt) (hfew : g.edges.size < 2 ^ 63) :
    ∃ share, Filled g c span share c.order (c.order.flatMap c.outOf)
      (c.order.foldl (Filling.component c span)
        { edges := g.edges
          blocks := Array.replicate c.size {}
          full := Array.replicate c.size 0
          used := Array.replicate c.size 0 }) := by
  refine foldl_run (fun done f => ∃ share, Filled g c span share done (done.flatMap c.outOf) f)
    ⟨fun _ => ⟨0, 0⟩, ?_⟩ ?_
  · refine { calls := rfl, full_size := by simp [hc.size], used_size := by simp [hc.size]
             packed := fun t => ?_, offset := by simp, size := by simp, block := fun m hm => ?_ }
    · have hzero : ∀ n : Nat, (slot? (Array.replicate n (0 : Int64)) t).getD 0 = 0 := by
        intro n
        rw [slot?_replicate]
        split <;> rfl
      rw [fullAt, usedAt, hzero]
      exact Packed.start span
    · rw [slot?_replicate, if_pos (by rw [hc.size]; exact CallGraph.hasMethod_iff.1 hm),
        if_neg List.not_mem_nil]
  · rintro done r f ⟨rest, horder⟩ ⟨share, h⟩
    exact h.component hc hspan hfew horder

end Order

end Filling

/-! ## Settling the offsets -/

variable {c : Condensation} {e : Edge}

@[simp] theorem toCallSite_settle : (settle c e).toCallSite = e.toCallSite := by
  unfold settle
  repeat' split
  all_goals rfl

@[simp] theorem inComponent_settle : (settle c e).inComponent = e.inComponent := by
  unfold settle
  repeat' split
  all_goals rfl

theorem settle_of_not_reachable (h : ¬ c.isReachable e.caller) : (settle c e).offset = 0 := by
  simp [settle, h]

theorem settle_of_inComponent (h : c.isReachable e.caller) (hin : e.inComponent) :
    (settle c e).offset = 1 := by
  simp [settle, h, hin]

theorem settle_of_between (h : c.isReachable e.caller) (hin : ¬ e.inComponent) :
    settle c e = e := by
  simp [settle, h, hin]

end Encoding

/-! ## The finished encoding -/

/-- The edges that enter the component of a representative from another one
that the root reaches, in the order in which they are given contexts. -/
def Condensation.entering (c : Condensation) (g : CallGraph) (r : MethodId) : List Edge :=
  (c.order.flatMap (c.edgesFrom g)).filter (c.repD ·.callee == r)

/-- `enc` is the encoding of its graph with blocks of at most `span` contexts,
the edges of `g` carry its offsets, and `share` is what they have been
given in exact numbers. -/
structure Encoded (g : CallGraph) (enc : Encoding) (span : Int64) (share : Edge → Share) :
    Prop where
  condensed : Condensed g enc.graph
  one_le_span : 1 ≤ span.toInt
  block_eq : ∀ m, g.hasMethod m → enc.block m = .ok (enc.blockD m)
  unreachable : ∀ e ∈ g.edges, ¬ enc.graph.isReachable e.caller → e.offset = 0
  inner : ∀ e ∈ g.edges, enc.graph.isReachable e.caller → e.inComponent → e.offset = 1
  between : ∀ e ∈ g.edges, enc.graph.isReachable e.caller → ¬ e.inComponent →
    e.offset.toInt = min ((share e).start + 1 : Int) Context.largest.toInt ∧
      ((share e).size : Int) = (enc.blockD e.caller).size.toInt
  blockD_repD : ∀ m, g.hasMethod m → enc.blockD (enc.graph.repD m) = enc.blockD m
  /-- Methods the root does not reach have one context, and so has the root. -/
  trivial : ∀ m, g.hasMethod m → (enc.graph.isReachable m → enc.graph.repD m = rootMethod) →
    enc.blockD m = {}
  laidOut : ∀ r, enc.graph.isReachable r → enc.graph.repD r = r → r ≠ rootMethod →
    ∃ full used : Nat,
      Tiled span.toInt.toNat ((enc.graph.entering g r).map share) full used ∧
      (enc.blockD r).size.toInt = (if full = 0 then (used : Int) else span.toInt) ∧
      (enc.blockD r).num.toInt = full + 1

/-- The edges that enter a component are those from reachable methods outside of it. -/
theorem Condensed.mem_entering {g : CallGraph} {c : Condensation} (h : Condensed g c)
    {r : MethodId} {e : Edge} : e ∈ c.entering g r ↔ e ∈ g.edges ∧ c.isReachable e.caller ∧
      c.repD e.callee = r ∧ c.repD e.caller ≠ r := by
  simp only [Condensation.entering, List.mem_filter, List.mem_flatMap, h.mem_edgesFrom, beq_iff_eq]
  constructor
  · rintro ⟨⟨u, -, hmem, hreach, rfl, hne⟩, rfl⟩
    exact ⟨hmem, hreach, rfl, Ne.symm hne⟩
  · rintro ⟨hmem, hreach, rfl, hne⟩
    have hm := h.hasMethod _ hreach
    refine ⟨⟨c.repD e.caller, ?_, hmem, hreach, rfl, Ne.symm hne⟩, rfl⟩
    exact (h.mem_order _).2 ⟨(h.isReachable_repD hm).2 hreach, h.repD_repD hm⟩

theorem Condensed.entering_nodup {g : CallGraph} {c : Condensation} (h : Condensed g c)
    (r : MethodId) : (c.entering g r).Nodup := by
  refine List.Nodup.filter _ (List.nodup_flatMap.2 ⟨fun u _ => h.edgesFrom_nodup u, ?_⟩)
  refine h.order_nodup.imp fun {u u'} hne => List.disjoint_left.2 fun e he he' => hne ?_
  rw [← (h.mem_edgesFrom.1 he).2.2.1, (h.mem_edgesFrom.1 he').2.2.1]

namespace CallGraph

variable {g : CallGraph} {c : Condensation}

/-- A span holds at least one context. -/
theorem one_le_effectiveSpan (maxSpan : Int64) :
    1 ≤ (Encoding.effectiveSpan maxSpan).toInt := by
  unfold Encoding.effectiveSpan
  split
  · decide
  · next h =>
    rw [Int64.le_iff_toInt_le, Int64.toInt_zero] at h
    omega

/-- An edge is known by its position. -/
theorem WellFormed.idxOf_eq (hw : g.WellFormed) {i : Nat} {e : Edge}
    (he : g.edges[i]? = some e) : g.edges.toList.idxOf e = i := by
  obtain ⟨hlt, rfl⟩ := Array.getElem?_eq_some_iff.1 he
  have hnodup : g.edges.toList.Nodup := List.Nodup.of_map _ hw.distinct
  rw [← Array.getElem_toList]
  exact hnodup.idxOf_getElem i (by simpa using hlt)

/-- Settling changes offsets only. -/
theorem unmapped_settle (es : Array Edge) :
    ({ g with edges := es.map (Encoding.settle c) } : CallGraph).unmapped =
      ({ g with edges := es } : CallGraph).unmapped := by
  simp only [unmapped, Array.map_map]
  congr 2
  funext e
  have hcall := Encoding.toCallSite_settle (c := c) (e := e)
  have hin := Encoding.inComponent_settle (c := c) (e := e)
  simp only [Function.comp_apply, hcall, hin]

end CallGraph

namespace Encoding.Filling

variable {g : CallGraph} {c : Condensation} {f : Filling} {e : Edge}

/-- The graph with the offsets that have been handed out. -/
def settled (f : Filling) (g : CallGraph) (c : Condensation) : CallGraph :=
  { g with edges := f.edges.map (settle c) }

theorem getElem?_settled {i : Nat} (he : (f.settled g c).edges[i]? = some e) :
    ∃ e₁, f.edges[i]? = some e₁ ∧ settle c e₁ = e := by
  rw [settled, Array.getElem?_map] at he
  exact Option.map_eq_some_iff.1 he

/-- Every edge that has been settled was there before. -/
theorem mem_settled (he : e ∈ (f.settled g c).edges) : ∃ e₁, e₁.toCallSite = e.toCallSite ∧
    e₁.inComponent = e.inComponent ∧ settle c e₁ = e := by
  obtain ⟨e₁, -, rfl⟩ := Array.mem_map.1 he
  exact ⟨e₁, by simp, by simp, rfl⟩

end Encoding.Filling

/-- The positions of the edges between components are those looked at. -/
theorem Condensed.mem_positions {g : CallGraph} {c : Condensation} (h : Condensed g c) {i : Nat}
    {e : Edge} (he : g.edges[i]? = some e) (hreach : c.isReachable e.caller)
    (hin : ¬ e.inComponent) : i ∈ c.order.flatMap c.outOf := by
  have hm := h.hasMethod _ hreach
  refine List.mem_flatMap.2 ⟨c.repD e.caller,
    (h.mem_order _).2 ⟨(h.isReachable_repD hm).2 hreach, h.repD_repD hm⟩, ?_⟩
  refine (h.mem_out _ i).2 ⟨e, he, hreach, rfl, fun hsame => hin ?_⟩
  exact (h.flag e (Array.mem_of_getElem? he) hreach).2 hsame.symm

namespace CallGraph

variable {g : CallGraph} {c : Condensation}

/-- Reading the same things off positions and off the edges there. -/
theorem map_filter_filterMap {α β γ : Type} {l : List α} {φ : α → Option β} {p : α → Bool}
    {q : β → Bool} {s : α → γ} {s' : β → γ}
    (h : ∀ a ∈ l, ∃ b, φ a = some b ∧ p a = q b ∧ s a = s' b) :
    (l.filter p).map s = ((l.filterMap φ).filter q).map s' := by
  induction l with
  | nil => rfl
  | cons a l ih =>
    obtain ⟨b, hb, hpq, hs⟩ := h a List.mem_cons_self
    have ih := ih fun x hx => h x (List.mem_cons_of_mem _ hx)
    rw [List.filterMap_cons_some hb, List.filter_cons, List.filter_cons, hpq]
    split
    · rw [List.map_cons, List.map_cons, ih, hs]
    · exact ih

section Filled

open Encoding.Filling (Filled)

variable {span : Int64} {share : Nat → Share} {f : Encoding.Filling} (hc : Condensed g c)
  (hf : Filled g c span share c.order (c.order.flatMap c.outOf) f)

include hc hf

/-- A method has the block of its component, or that of the root if the root does not
reach it. -/
theorem blockD_of_filled {m : MethodId} (hm : g.hasMethod m) :
    (⟨c, f.blocks⟩ : Encoding).blockD m =
      if c.isReachable m then f.layout span (c.repD m) else {} := by
  have hdone : c.repD m ∈ c.order ↔ c.isReachable m := by
    rw [hc.mem_order, hc.isReachable_repD hm]
    exact and_iff_left (hc.repD_repD hm)
  rw [Encoding.blockD, hf.block m hm, Option.getD_some]
  exact if_congr hdone rfl rfl

/-- The block of a component that is not the root's, read off its tiling. -/
theorem layout_of_filled (hfew : g.edges.size < 2 ^ 63) {r : MethodId} (hr : r ≠ rootMethod)
    (hnil : Encoding.Filling.into g c r (c.order.flatMap c.outOf) ≠ []) :
    ∃ full used : Nat, Tiled span.toInt.toNat
        ((Encoding.Filling.into g c r (c.order.flatMap c.outOf)).map share) full used ∧
      (f.layout span r).size.toInt = (if full = 0 then (used : Int) else span.toInt) ∧
      (f.layout span r).num.toInt = full + 1 := by
  obtain ⟨F, U, hF, hU, ht⟩ := hf.packed r
  refine ⟨F, U, ht, ?_⟩
  have hzero : f.fullAt r = 0 ↔ F = 0 := by
    rw [← Int64.toInt_inj, hF, Int64.toInt_zero]
    omega
  have hone : (1 : Int64).toInt = 1 := rfl
  have hstarted := ht.started (by simpa using hnil)
  rw [Encoding.Filling.layout_of_ne hr]
  by_cases hfull : F = 0
  · rw [if_pos (hzero.2 hfull), if_pos hfull, hfull]
    refine ⟨?_, rfl⟩
    dsimp only
    split
    · exact hU
    · next hle =>
      rw [Int64.lt_iff_toInt_lt] at hle
      omega
  · have hlength : F < g.edges.size := by
      have := Encoding.Filling.length_positions_le hc
      have := List.length_filter_le
        (fun i => (g.edges[i]?).any fun e => c.repD e.callee == r) (c.order.flatMap c.outOf)
      have hlt := hstarted.2
      rw [List.length_map, Encoding.Filling.into] at hlt
      omega
    rw [if_neg fun h => hfull (hzero.1 h), if_neg hfull]
    refine ⟨rfl, ?_⟩
    have hlargest := Context.toInt_largest
    rw [Context.toInt_satAdd (by omega) (by omega)]
    omega

/-! ### The settled graph -/

omit hc in
theorem unmapped_settled : (f.settled g c).unmapped = g.unmapped :=
  (unmapped_settle f.edges).trans hf.calls

/-- The graph is condensed as it was. -/
theorem condensed_settled : Condensed (f.settled g c) c :=
  condensed_of_unmapped (unmapped_settled hf) hc

/-- What an edge between components has been given. -/
theorem between_of_filled {i : Nat} {e : Edge} (hi : (f.settled g c).edges[i]? = some e)
    (hreach : c.isReachable e.caller) (hin : ¬ e.inComponent) :
    e.offset.toInt = min ((share i).start + 1 : Int) Context.largest.toInt ∧
      ((share i).size : Int) = ((⟨c, f.blocks⟩ : Encoding).blockD e.caller).size.toInt := by
  have hc' := condensed_settled hc hf
  have hpos := hc'.mem_positions hi hreach hin
  obtain ⟨e₁, he₁, hoffset⟩ := hf.offset i hpos
  obtain ⟨e₀, he₀, hdone, hsize⟩ := hf.size i hpos
  obtain ⟨e₂, he₂, hcall, -⟩ := getElem?_of_unmapped (unmapped_settled hf) hi
  obtain rfl := Option.some.inj (he₀.symm.trans he₂)
  obtain ⟨e₃, he₃, hsettle⟩ := Encoding.Filling.getElem?_settled hi
  obtain rfl := Option.some.inj (he₁.symm.trans he₃)
  -- settling leaves edges between components as they are
  have heq : e₁ = e := by
    rw [← hsettle] at hreach hin ⊢
    exact (Encoding.settle_of_between (by simpa using hreach) (by simpa using hin)).symm
  rw [blockD_of_filled hc hf (hc'.hasMethod _ hreach), if_pos hreach, ← hcall]
  exact ⟨heq ▸ hoffset, hsize⟩

/-- The positions of the edges that enter a component, and the edges there. -/
theorem into_eq_entering (r : MethodId) :
    (Encoding.Filling.into g c r (c.order.flatMap c.outOf)).map share =
      (c.entering (f.settled g c) r).map fun e =>
        share ((f.settled g c).edges.toList.idxOf e) := by
  have hc' := condensed_settled hc hf
  have hflat : c.order.flatMap (c.edgesFrom (f.settled g c)) =
      (c.order.flatMap c.outOf).filterMap ((f.settled g c).edges[·]?) := by
    rw [List.filterMap_flatMap]
    rfl
  rw [Condensation.entering, hflat]
  refine map_filter_filterMap fun i hi => ?_
  obtain ⟨u, -, hi⟩ := List.mem_flatMap.1 hi
  obtain ⟨e, he, -⟩ := (hc'.mem_out u i).1 hi
  obtain ⟨e₀, he₀, hcall, -⟩ := getElem?_of_unmapped (unmapped_settled hf) he
  exact ⟨e, he, by rw [he₀, Option.any_some, hcall], by rw [hc'.wellFormed.idxOf_eq he]⟩

/-- Some edge enters every component but that of the root. -/
theorem into_ne_nil {r : MethodId} (hreach : c.isReachable r) (hrr : c.repD r = r)
    (hr : r ≠ rootMethod) : Encoding.Filling.into g c r (c.order.flatMap c.outOf) ≠ [] := by
  intro hnil
  have hc' := condensed_settled hc hf
  have hentering := into_eq_entering hc hf r
  rw [hnil, List.map_nil, eq_comm, List.map_eq_nil_iff] at hentering
  obtain ⟨e, he, hcaller, hto, hfrom⟩ := hc'.exists_entering hreach (by rw [hrr]; exact hr)
  rw [hrr] at hto hfrom
  have hmem := hc'.mem_entering.2 ⟨he, hcaller, hto, hfrom⟩
  rw [hentering] at hmem
  exact List.not_mem_nil hmem

/-- **The tables of the loop, settled, are an encoding.** -/
theorem encoded_of_filled (hspan : 1 ≤ span.toInt) (hfew : g.edges.size < 2 ^ 63) :
    Encoded (f.settled g c) ⟨c, f.blocks⟩ span
      fun e => share ((f.settled g c).edges.toList.idxOf e) := by
  have hc' := condensed_settled hc hf
  refine
    { condensed := hc', one_le_span := hspan, block_eq := ?_, unreachable := ?_, inner := ?_
      between := ?_, blockD_repD := ?_, trivial := ?_, laidOut := ?_ }
  · intro m hm
    rw [Encoding.block, Encoding.blockD, hf.block m hm]
    rfl
  · intro e he hreach
    obtain ⟨e₁, hcall, -, rfl⟩ := Encoding.Filling.mem_settled he
    exact Encoding.settle_of_not_reachable (by rw [hcall]; exact hreach)
  · intro e he hreach hin
    obtain ⟨e₁, hcall, hin₁, rfl⟩ := Encoding.Filling.mem_settled he
    exact Encoding.settle_of_inComponent (by rw [hcall]; exact hreach) (hin₁ ▸ hin)
  · intro e he hreach hin
    obtain ⟨i, hi⟩ := Array.mem_iff_getElem?.1 he
    rw [hc'.wellFormed.idxOf_eq hi]
    exact between_of_filled hc hf hi hreach hin
  · intro m hm
    change (⟨c, f.blocks⟩ : Encoding).blockD (c.repD m) = _
    rw [blockD_of_filled hc hf (hc.hasMethod_repD hm), blockD_of_filled hc hf hm, hc.repD_repD hm]
    exact if_congr (hc.isReachable_repD hm) rfl rfl
  · intro m hm hroot
    rw [blockD_of_filled hc hf hm]
    split
    · next hreach =>
      change c.isReachable m → c.repD m = rootMethod at hroot
      rw [hroot hreach, Encoding.Filling.layout_root]
    · rfl
  · intro r hreach hrr hr
    change c.isReachable r at hreach
    change c.repD r = r at hrr
    change ∃ full used, Tiled _ ((c.entering (f.settled g c) r).map _) full used ∧ _
    rw [blockD_of_filled hc hf (hc'.hasMethod r hreach), if_pos hreach, hrr,
      ← into_eq_entering hc hf r]
    exact layout_of_filled hc hf hfew hr (into_ne_nil hc hf hreach hrr hr)

end Filled

/-- **Computing an encoding encodes the graph.** -/
theorem encoded_of_encode (hc : Condensed g c) (hfew : g.edges.size < 2 ^ 63) (maxSpan : Int64) :
    ∃ share, Encoded (g.encode c maxSpan).1 (g.encode c maxSpan).2
      (Encoding.effectiveSpan maxSpan) share := by
  obtain ⟨share, hf⟩ :=
    Encoding.Filling.exists_filled hc (one_le_effectiveSpan maxSpan) hfew
  exact ⟨_, encoded_of_filled hc hf (one_le_effectiveSpan maxSpan) hfew⟩

/-- **Handing out contexts changes no call.** -/
theorem unmapped_encode (hc : Condensed g c) (hfew : g.edges.size < 2 ^ 63) (maxSpan : Int64) :
    (g.encode c maxSpan).1.unmapped = g.unmapped := by
  obtain ⟨share, hf⟩ :=
    Encoding.Filling.exists_filled hc (one_le_effectiveSpan maxSpan) hfew
  exact unmapped_settled hf

/-! ## From the graph as it was built -/

section Built

variable {g' : CallGraph} (hw : g.WellFormed) (hfew : g.edges.size < 2 ^ 63)
  (hcond : g.condense g.representatives = .ok (g', c)) (maxSpan : Int64)

include hw hfew hcond

/-- **Condensing a graph and encoding it gives an encoding of its calls.** -/
theorem encoded_of_condense : ∃ share, Encoded (g'.encode c maxSpan).1 (g'.encode c maxSpan).2
    (Encoding.effectiveSpan maxSpan) share :=
  encoded_of_encode (condensed_of_condense hw hcond)
    (by rw [edges_size_of_condense hcond]; exact hfew) maxSpan

theorem unmapped_of_condense : (g'.encode c maxSpan).1.unmapped = g'.unmapped :=
  unmapped_encode (condensed_of_condense hw hcond)
    (by rw [edges_size_of_condense hcond]; exact hfew) maxSpan

theorem hasMethod_of_condense (m : MethodId) :
    (g'.encode c maxSpan).1.hasMethod m = g.hasMethod m := by
  rw [hasMethod, size_of_unmapped (unmapped_of_condense hw hfew hcond maxSpan),
    size_of_condense hcond, hasMethod]

/-- The call sites stay those of the graph that was built. -/
theorem callSites_encode :
    (g'.encode c maxSpan).1.edges.toList.map (·.toCallSite) =
      g.edges.toList.map (·.toCallSite) :=
  (callSites_of_unmapped (unmapped_of_condense hw hfew hcond maxSpan)).trans
    (callSites_of_condense hcond)

/-- An encoding does not change which methods reach which. -/
theorem reaches_of_condense : (g'.encode c maxSpan).1.Reaches = g.Reaches := by
  rw [Reaches, successors_of_unmapped (unmapped_of_condense hw hfew hcond maxSpan),
    successors_of_condense hcond]

end Built

end CallGraph

end PointsTo
