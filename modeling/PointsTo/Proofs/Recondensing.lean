import Mathlib.Data.List.Nodup
import PointsTo.Proofs.Encoding
/-!
# Condensing a graph again

What condensing and encoding find out about an edge stays on the edge
while the graph goes on growing. It does not show when the graph is
condensed and encoded again (`recondense_eq_fresh`). A mark that is left
from an earlier condensation would be set again, because components and
what the root reaches only grow (`Lasting`); an offset that is left is
overwritten before it is read (`encode_of_unmapped`).
-/

namespace PointsTo

namespace CallGraph

variable {g g' : CallGraph} {c : Condensation}

/-! ## Histories -/

/-- **One step in the life of a graph.** Methods and edges are added, it is
condensed by its own representatives, it is encoded, by any condensation,
and the offset of an edge is changed by hand. -/
inductive Step : CallGraph → CallGraph → Prop
  | ensure {g : CallGraph} (m : MethodId) : Step g (g.ensure m)
  | addEdge {g : CallGraph} (cs : CallSite) (hcaller : 0 ≤ cs.caller) (hcallee : 0 ≤ cs.callee) :
      Step g ((addEdge cs).go g).2
  | condense {g g' : CallGraph} {c : Condensation}
      (h : g.condense g.representatives = .ok (g', c)) : Step g g'
  | encode {g : CallGraph} (c : Condensation) (maxSpan : Int64) : Step g (g.encode c maxSpan).1
  | assign {g : CallGraph} (i : Nat) (offset : Int64) :
      Step g (g.modifyEdge i ({ · with offset }))

/-- A graph that came out of the other in some steps. -/
abbrev Evolves : CallGraph → CallGraph → Prop := Relation.ReflTransGen Step

/-- **What every graph keeps.** Edges lead to methods, and a mark is on an edge that
would be marked again: the root reaches its caller, and it stays inside a
component. -/
structure Lasting (g : CallGraph) : Prop extends WellFormed g where
  callee : ∀ e ∈ g.edges, g.hasMethod e.callee
  reached : ∀ e ∈ g.edges, e.inComponent → g.Reaches rootMethod e.caller

/-- Adding an edge whose ends can be methods. -/
theorem go_addEdge {cs : CallSite} (hcaller : 0 ≤ cs.caller) : ((addEdge cs).go g).2 =
    if (g.position? cs).isSome then g
    else { (g.ensure cs.caller).ensure cs.callee with edges := g.edges.push { cs with } } := by
  rw [CallGraph.addEdge, Attempt.go_bind, Attempt.go_get]
  cases hp : g.position? cs with
  | some i => simp [hp]
  | none =>
    have hneg : ¬ cs.caller < 0 := Int.not_lt.2 hcaller
    simp [hp, Attempt.go_bind, hneg]
    rfl

namespace Lasting

/-- Offsets are no matter of it. -/
theorem of_unmapped (hg : g.Lasting) (h : g'.unmapped = g.unmapped) : g'.Lasting := by
  refine ⟨hg.toWellFormed.of_unmapped h, fun e he => ?_, fun e he hin => ?_⟩
  · obtain ⟨e₀, he₀, hcall, -⟩ := mem_of_unmapped h he
    rw [← hcall, hasMethod, size_of_unmapped h]
    exact hg.callee e₀ he₀
  · obtain ⟨e₀, he₀, hcall, hflag⟩ := mem_of_unmapped h he
    rw [Reaches, successors_of_unmapped h, ← hcall]
    exact hg.reached e₀ he₀ (hflag ▸ hin)

theorem ensure (hg : g.Lasting) (m : MethodId) : (g.ensure m).Lasting :=
  ⟨hg.toWellFormed.ensure m, fun e he => hasMethod_ensure.2 (.inl (hg.callee e he)), hg.reached⟩

/-- A new edge has no mark, and more edges reach more. -/
theorem addEdge (hg : g.Lasting) {cs : CallSite} (hcaller : 0 ≤ cs.caller)
    (hcallee : 0 ≤ cs.callee) : ((CallGraph.addEdge cs).go g).2.Lasting := by
  have hw := hg.toWellFormed.addEdge cs
  rw [go_addEdge hcaller] at hw ⊢
  split
  · exact hg
  · next hnew =>
    rw [if_neg hnew] at hw
    have hg' := (hg.ensure cs.caller).ensure cs.callee
    refine ⟨hw, fun e he => ?_, fun e he hin => ?_⟩
    · rcases Array.mem_push.1 he with he | rfl
      · exact hg'.callee e he
      · exact hasMethod_ensure.2 (.inr ⟨hcallee, Int.le_refl _⟩)
    · rcases Array.mem_push.1 he with he | rfl
      · exact (hg.reached e he hin).mono fun e he => Array.mem_push.2 (.inl he)
      · exact absurd hin Bool.false_ne_true

/-- **A condensed graph lasts**: marks say which calls stay inside, as before. -/
theorem condense (hg : g.Lasting) (h : g.condense g.representatives = .ok (g', c)) :
    g'.Lasting := by
  have hgrouped := grouped_of_condense hg.toWellFormed h
  refine ⟨hgrouped.wellFormed, fun e he => ?_, fun e he hin => ?_⟩
  · obtain ⟨e₀, he₀, hcall⟩ := mem_of_condense h he
    rw [hcall, hasMethod, size_of_condense h]
    exact hg.callee e₀ he₀
  · rw [Reaches, successors_of_condense h]
    obtain ⟨reachable, hreach, rfl, -⟩ := condense_eq_ok h
    obtain ⟨e₀, he₀, hcall, hmark⟩ := mem_markComponents he
    rcases hmark.1 hin with hin | ⟨hcaller, -⟩
    · rw [hcall]
      exact hg.reached e₀ he₀ hin
    · exact ((reachable_eq_ok hreach e.caller).1.1 hcaller).2

end Lasting

end CallGraph

/-! ## Offsets that are left over -/

namespace Encoding.Filling

variable {g : CallGraph} {c : Condensation} {span size : Int64} {f f' : Filling} {l : List Nat}

/-- Placing a block sets an offset and changes no call. -/
theorem unmapped_place (i : Nat) :
    ({ g with edges := (place c span size f i).edges } : CallGraph).unmapped =
      ({ g with edges := f.edges } : CallGraph).unmapped := by
  match he : f.edges[i]? with
  | none => rw [place, he]
  | some e =>
    rw [place_eq span size he]
    exact unmapped_modify_offset ..

theorem unmapped_component (r : MethodId) :
    ({ g with edges := (component c span f r).edges } : CallGraph).unmapped =
      ({ g with edges := f.edges } : CallGraph).unmapped :=
  foldl_run (fun _ (st : Filling) => ({ g with edges := st.edges } : CallGraph).unmapped =
    ({ g with edges := f.edges } : CallGraph).unmapped) rfl
    fun _ i _ _ hst => (unmapped_place i).trans hst

/-- **Two computations that hand out the same contexts**: the tables are the same,
and so are the calls, and at the positions `l` the offsets. -/
structure Agrees (l : List Nat) (f f' : Filling) : Prop where
  blocks : f'.blocks = f.blocks
  full : f'.full = f.full
  used : f'.used = f.used
  calls : ∀ i : Nat, (f'.edges[i]?).map (fun e : Edge => { e with offset := 0 }) =
    (f.edges[i]?).map fun e : Edge => { e with offset := 0 }
  given : ∀ i ∈ l, f'.edges[i]? = f.edges[i]?

namespace Agrees

/-- Where blocks go depends on what has been handed out. -/
theorem layout (h : Agrees l f f') (r : MethodId) : f'.layout span r = f.layout span r :=
  layout_congr (by rw [fullAt, fullAt, h.full]) (by rw [usedAt, usedAt, h.used])

/-- An offset is overwritten, not read. -/
theorem place (h : Agrees l f f') (size : Int64) (i : Nat) :
    Agrees (l ++ [i]) (place c span size f i) (place c span size f' i) := by
  have hcalls := h.calls i
  match he : f.edges[i]?, he' : f'.edges[i]? with
  | none, none =>
    rw [Filling.place, Filling.place, he, he']
    refine ⟨h.blocks, h.full, h.used, h.calls, fun j hj => ?_⟩
    rcases List.mem_append.1 hj with hj | hj
    · exact h.given j hj
    · rw [List.mem_singleton.1 hj, he, he']
  | some e, none | none, some e' => simp [he, he'] at hcalls
  | some e, some e' =>
    have hsame : ({ e' with offset := 0 } : Edge) = { e with offset := 0 } := by
      simpa [he, he'] using hcalls
    obtain ⟨hcall, hin⟩ : e'.toCallSite = e.toCallSite ∧ e'.inComponent = e.inComponent := by
      simpa using hsame
    have hfull : f'.fullAt = f.fullAt := by funext t; rw [fullAt, fullAt, h.full]
    have hused : f'.usedAt = f.usedAt := by funext t; rw [usedAt, usedAt, h.used]
    rw [place_eq span size he, place_eq span size he', hcall, hfull, hused]
    generalize Packed.room span size _ _ = room
    refine ⟨h.blocks, by simp only [h.full], by simp only [h.used], fun j => ?_, fun j hj => ?_⟩
    · simp only [Array.getElem?_modify]
      split
      · next hij => simp [← hij, he, he', hcall, hin]
      · exact h.calls j
    · simp only [Array.getElem?_modify]
      split
      · next hij => simp [← hij, he, he', hcall, hin]
      · next hij =>
        refine h.given j ((List.mem_append.1 hj).resolve_right fun hj => hij ?_)
        exact (List.mem_singleton.1 hj).symm

/-- **A component after the other**: the offsets of its calls are given then. -/
theorem component (h : Agrees l f f') (r : MethodId) :
    Agrees (l ++ c.outOf r) (component c span f r) (component c span f' r) := by
  have hlayout : f'.layout span r = f.layout span r := h.layout r
  unfold Filling.component
  rw [hlayout, h.blocks]
  refine foldl_run₂ (fun placed => Agrees (l ++ placed)) ?_ (fun placed i s s' hs => ?_) _
  · rw [List.append_nil]
    exact ⟨rfl, h.full, h.used, h.calls, h.given⟩
  · rw [← List.append_assoc]
    exact hs.place _ i

end Agrees

end Encoding.Filling

namespace CallGraph

variable {g g' : CallGraph} {c : Condensation}

/-- The contexts handed out along a condensation. -/
def filling (g : CallGraph) (c : Condensation) (maxSpan : Int64) : Encoding.Filling :=
  c.order.foldl (Encoding.Filling.component c (Encoding.effectiveSpan maxSpan))
    { edges := g.edges
      blocks := Array.replicate c.size {}
      full := Array.replicate c.size 0
      used := Array.replicate c.size 0 }

/-- An encoding is what was handed out, and settled. -/
theorem encode_eq (g : CallGraph) (c : Condensation) (maxSpan : Int64) : g.encode c maxSpan =
    ((g.filling c maxSpan).settled g c, ⟨c, (g.filling c maxSpan).blocks⟩) := rfl

/-- All of the handing out changes no call. -/
theorem unmapped_filling (g : CallGraph) (c : Condensation) (maxSpan : Int64) :
    ({ g with edges := (g.filling c maxSpan).edges } : CallGraph).unmapped = g.unmapped :=
  foldl_run (fun _ (st : Encoding.Filling) =>
    ({ g with edges := st.edges } : CallGraph).unmapped = g.unmapped) rfl
    fun _ r _ _ hst => (Encoding.Filling.unmapped_component r).trans hst

/-- Handing out contexts changes no call, whatever condensation they are handed out
by. -/
theorem unmapped_encode_of_any (g : CallGraph) (c : Condensation) (maxSpan : Int64) :
    (g.encode c maxSpan).1.unmapped = g.unmapped :=
  (unmapped_settle _).trans (unmapped_filling g c maxSpan)

/-- **What is left over of offsets is never read**: graphs with the same calls are
handed out the same contexts. -/
theorem agrees_filling (h : g'.unmapped = g.unmapped) (c : Condensation) (maxSpan : Int64) :
    Encoding.Filling.Agrees (c.order.flatMap c.outOf) (g.filling c maxSpan)
      (g'.filling c maxSpan) := by
  refine foldl_run₂ (fun done => Encoding.Filling.Agrees (done.flatMap c.outOf)) ?_
    (fun done r s s' hs => ?_) c.order
  · refine ⟨rfl, rfl, rfl, fun i => ?_, fun i hi => absurd hi List.not_mem_nil⟩
    simpa [unmapped] using congrArg (fun g => g.edges[i]?) h
  · rw [List.flatMap_append, List.flatMap_singleton]
    exact hs.component r

/-- **Offsets that are left over do not show** in an encoding of a condensation of
the graph. -/
theorem encode_of_unmapped (hc : Condensed g c) (h : g'.unmapped = g.unmapped)
    (maxSpan : Int64) : g'.encode c maxSpan = g.encode c maxSpan := by
  have hagree := agrees_filling h c maxSpan
  have hfilled := condensed_of_unmapped (unmapped_filling g c maxSpan) hc
  have hedges : (g'.filling c maxSpan).edges.map (Encoding.settle c) =
      (g.filling c maxSpan).edges.map (Encoding.settle c) := by
    refine Array.ext_getElem? fun i => ?_
    have hcalls := hagree.calls i
    simp only [Array.getElem?_map]
    match he : (g.filling c maxSpan).edges[i]?, he' : (g'.filling c maxSpan).edges[i]? with
    | none, none => rfl
    | some e, none | none, some e' => simp [he, he'] at hcalls
    | some e, some e' =>
      obtain ⟨hcall, hin⟩ : e'.toCallSite = e.toCallSite ∧ e'.inComponent = e.inComponent := by
        simpa [he, he'] using hcalls
      by_cases hreach : c.isReachable e.caller
      · by_cases hinside : e.inComponent
        · simp [Encoding.settle, hcall, hin, hreach, hinside]
        · -- an edge between components has been given its offset
          have hgiven := hagree.given i (hfilled.mem_positions he hreach hinside)
          rw [← he, ← he', hgiven]
      · simp [Encoding.settle, hcall, hin, hreach]
  rw [encode_eq, encode_eq, Encoding.Filling.settled, Encoding.Filling.settled, hedges,
    hagree.blocks, size_of_unmapped h]

/-! ## Marks that are left over -/

/-- Condensing looks at the calls alone. -/
def condensationOf (g : CallGraph) (rep : Array MethodId) (reachable : Array Bool) :
    Condensation :=
  let out := (g.methods.map (g.leaving rep reachable)).toArray
  { rep
    rank := (g.traverse rep out).rank
    out
    members := (g.methods.map fun r => g.methods.filter fun m => slot? rep m == some r).toArray
    reachable
    order := (g.traverse rep out).order }

/-- Condensing is marking, and reading the condensation off the marked graph. -/
theorem condense_eq {reps : List MethodId} {reachable : Array Bool}
    (hcheck : checkReps (g.repTable reps) = .ok ()) (hreach : g.reachable = .ok reachable) :
    g.condense reps = .ok (g.markComponents (g.repTable reps) reachable,
      (g.markComponents (g.repTable reps) reachable).condensationOf
        (g.repTable reps) reachable) := by
  simp only [condense, hcheck, hreach, bind, Except.bind]
  rfl

theorem condensationOf_unmapped (g : CallGraph) (rep : Array MethodId) (reachable : Array Bool) :
    g.unmapped.condensationOf rep reachable = g.condensationOf rep reachable := by
  have hleaving : g.unmapped.leaving rep reachable = g.leaving rep reachable := by
    funext r
    simp [leaving, outPositions, methods, unmapped, Option.any_map]
  have hcallees : g.unmapped.calleesOf rep = g.calleesOf rep := by
    funext out m
    simp [calleesOf, unmapped, Option.bind_map]
  have hmethods : g.unmapped.methods = g.methods := rfl
  have hsize : g.unmapped.size = g.size := rfl
  simp only [condensationOf, traverse, hleaving, hcallees, hmethods, hsize]

/-- The graph with its calls and nothing that has been found out about them. -/
def bare (g : CallGraph) : CallGraph :=
  { g with edges := g.edges.map fun e => { toCallSite := e.toCallSite } }

theorem successors_bare (g : CallGraph) : g.bare.successors = g.successors := by
  funext m
  simp [successors, out, bare, List.filter_map, Function.comp_def]

theorem representatives_bare (g : CallGraph) : g.bare.representatives = g.representatives := by
  have hedges : g.bare.edges.size = g.edges.size := Array.size_map
  simp only [representatives, successors_bare, hedges]
  rfl

theorem reachable_bare (g : CallGraph) : g.bare.reachable = g.reachable := by
  have hedges : g.bare.edges.size = g.edges.size := Array.size_map
  simp only [reachable, successors_bare, hedges]
  rfl

/-- **A mark that is left over would be set again.** -/
theorem Lasting.marked (hg : g.Lasting) {reachable : Array Bool}
    (hreach : g.reachable = .ok reachable) {e : Edge} (he : e ∈ g.edges) (hin : e.inComponent) :
    (slot? reachable e.caller).getD false ∧ slot? (g.repTable g.representatives) e.caller =
      slot? (g.repTable g.representatives) e.callee := by
  have hcaller := hg.caller e he
  have hsize : 0 < g.size := by
    have := hasMethod_iff.1 hcaller
    omega
  have hback : g.Reaches e.callee e.caller := hg.flagged e he hin
  have hto : g.Reaches e.caller e.callee := .of_edge he
  refine ⟨(reachable_eq_ok hreach _).1.2 ⟨hsize, hg.reached e he hin⟩, ?_⟩
  obtain ⟨r, hr, hcr, hrc, hleast⟩ := slot?_repTable_representatives hcaller
  obtain ⟨r', hr', hcr', hrc', hleast'⟩ := slot?_repTable_representatives (hg.callee e he)
  have hle := hleast r' (hto.trans hcr') (hrc'.trans hback)
  have hge := hleast' r (hback.trans hcr) (hrc.trans hto)
  rw [hr, hr', Int.le_antisymm hle hge]

/-- **So it does not matter that marks are left over**: without them the graph is marked
the same. -/
theorem Lasting.unmapped_markComponents (hg : g.Lasting) {reachable : Array Bool}
    (hreach : g.reachable = .ok reachable) :
    (g.bare.markComponents (g.repTable g.representatives) reachable).unmapped =
      (g.markComponents (g.repTable g.representatives) reachable).unmapped := by
  simp only [unmapped, markComponents, bare, Array.map_map, CallGraph.mk.injEq, true_and]
  refine Array.map_congr_left fun e he => ?_
  simp only [Function.comp_apply, Bool.and_eq_true, beq_iff_eq]
  split
  · rfl
  · next hnot =>
    have hin : e.inComponent = false := by
      by_contra hin
      exact hnot (hg.marked hreach he (by simpa using hin))
    rw [hin]

/-! ## From the beginning -/

/-- The graph with the same methods, to which the same edges have been added in the
same order. -/
def fresh (g : CallGraph) : CallGraph :=
  (g.edges.toList.map (·.toCallSite)).foldl (fun g cs => ((addEdge cs).go g).2) (ofSize g.size)

theorem ofSize_eq (n : Nat) : ofSize n = ⟨n, #[]⟩ := by
  simp only [ofSize, ensure, CallGraph.mk.injEq, and_true]
  omega

/-- A method that is there is not added. -/
theorem ensure_of_hasMethod {m : MethodId} (hm : g.hasMethod m) : g.ensure m = g := by
  have := hasMethod_iff.1 hm
  have hsize : max g.size (m + 1).toNat = g.size := by omega
  rw [ensure, hsize]

/-- Adding the edges again gives the calls as they are. -/
theorem fresh_eq (hg : g.Lasting) : g.fresh = g.bare := by
  have hrun : g.fresh = ⟨g.size, ((g.edges.toList.map (·.toCallSite)).map
      fun cs => ({ toCallSite := cs } : Edge)).toArray⟩ := by
    refine foldl_run (fun done (g' : CallGraph) =>
      g' = ⟨g.size, (done.map fun cs => ({ toCallSite := cs } : Edge)).toArray⟩)
      (ofSize_eq g.size) ?_
    rintro done cs _ ⟨rest, hlist⟩ rfl
    have hmem : cs ∈ g.edges.toList.map (·.toCallSite) := by rw [hlist]; simp
    obtain ⟨e, he, rfl⟩ := List.mem_map.1 hmem
    have he := Array.mem_toList_iff.1 he
    have hcaller := hg.caller e he
    have hcallee := hg.callee e he
    have hnew : e.toCallSite ∉ done := by
      have hnodup : (done ++ e.toCallSite :: rest).Nodup := hlist ▸ hg.distinct
      exact fun hdone => (List.nodup_append.1 hnodup).2.2 _ hdone _ (List.mem_cons_self ..) rfl
    have hposition : ¬ (position? ⟨g.size, (done.map fun cs =>
        ({ toCallSite := cs } : Edge)).toArray⟩ e.toCallSite).isSome := by
      simpa [position?] using hnew
    have hensure : ∀ {m : MethodId} (es : Array Edge), g.hasMethod m →
        (⟨g.size, es⟩ : CallGraph).ensure m = ⟨g.size, es⟩ := fun _ hm => ensure_of_hasMethod hm
    rw [go_addEdge (hasMethod_iff.1 hcaller).1, if_neg hposition, hensure _ hcaller,
      hensure _ hcallee]
    simp
  rw [hrun, bare]
  simp [← Array.toList_inj]

theorem lasting_ofSize (n : Int) : (ofSize n).Lasting :=
  ⟨wellFormed_ofSize n, fun e he => by simp [ofSize, ensure] at he,
    fun e he => by simp [ofSize, ensure] at he⟩

/-- **Every step keeps what lasts.** -/
theorem Lasting.step (hg : g.Lasting) (hstep : Step g g') : g'.Lasting := by
  cases hstep with
  | ensure m => exact hg.ensure m
  | addEdge cs hcaller hcallee => exact hg.addEdge hcaller hcallee
  | condense h => exact hg.condense h
  | encode c maxSpan => exact hg.of_unmapped (unmapped_encode_of_any g c maxSpan)
  | assign i offset => exact hg.of_unmapped (Encoding.Filling.unmapped_modify_offset ..)

/-- **Whatever happens to a graph, it lasts.** -/
theorem Lasting.evolves (hg : g.Lasting) (hrun : Evolves g g') : g'.Lasting := by
  induction hrun with
  | refl => exact hg
  | tail _ hstep ih => exact ih.step hstep

/-- Condensing the calls from the beginning gives the same condensation, and the
same marks. -/
theorem Lasting.condense_bare (hg : g.Lasting) {g₁ : CallGraph}
    (h : g.condense g.representatives = .ok (g₁, c)) :
    ∃ g₂, g.bare.condense g.bare.representatives = .ok (g₂, c) ∧ g₂.unmapped = g₁.unmapped := by
  obtain ⟨reachable, hreach, -⟩ := condense_eq_ok h
  have hcheck := checkReps_representatives hg.toWellFormed
  rw [condense_eq hcheck hreach, Except.ok.injEq, Prod.mk.injEq] at h
  obtain ⟨rfl, rfl⟩ := h
  have hmarks := hg.unmapped_markComponents hreach
  refine ⟨_, ?_, hmarks⟩
  rw [representatives_bare, condense_eq (g := g.bare) hcheck ((reachable_bare g).trans hreach),
    Except.ok.injEq, Prod.mk.injEq]
  refine ⟨rfl, ?_⟩
  rw [← condensationOf_unmapped, ← condensationOf_unmapped (g.markComponents _ _), ← hmarks]
  rfl

/-- After condensing, the marks are on the edges inside components that the root
reaches. -/
theorem Lasting.inComponent_iff (hg : g.Lasting) (h : g.condense g.representatives = .ok (g', c))
    {e : Edge} (he : e ∈ g'.edges) : e.inComponent ↔ g.Reaches rootMethod e.caller ∧
      g.Reaches e.caller e.callee ∧ g.Reaches e.callee e.caller := by
  have hg' := hg.condense h
  have hgrouped := grouped_of_condense hg.toWellFormed h
  have hreaches : g'.Reaches = g.Reaches := by rw [Reaches, successors_of_condense h]
  rw [← hreaches]
  constructor
  · intro hin
    exact ⟨hg'.reached e he hin, .of_edge he, hg'.flagged e he hin⟩
  · rintro ⟨hroot, hto, hback⟩
    have hcaller := hg'.caller e he
    have hsize : 0 < g'.size := by
      have := hasMethod_iff.1 hcaller
      omega
    have hreach := (hgrouped.reachable e.caller).2 ⟨hsize, hroot⟩
    rw [flag_of_condense hg.toWellFormed h he hreach,
      hgrouped.repD_eq_iff hcaller (hg'.callee e he)]
    exact ⟨hto, hback⟩

/-- **What has been found out before does not show.** A graph to which methods and
edges were added in any order, and that was condensed, encoded and changed
by hand in between, is condensed and encoded like one to which the same
edges are added from the beginning: the condensation is the same, and so
are the layouts of all methods and the marks and offsets of all edges. An
edge is marked if the root reaches its caller, and caller and callee reach
each other. -/
theorem recondense_eq_fresh {n : Int} (hrun : Evolves (ofSize n) g) (maxSpan : Int64) :
    ∃ g₁ g₂ c, g.condense g.representatives = .ok (g₁, c) ∧
      g.fresh.condense g.fresh.representatives = .ok (g₂, c) ∧
      g₁.encode c maxSpan = g₂.encode c maxSpan ∧
      (g₁.encode c maxSpan).1.edges.toList.map (·.toCallSite) =
        g.edges.toList.map (·.toCallSite) ∧
      ∀ e ∈ (g₁.encode c maxSpan).1.edges, e.inComponent ↔
        g.Reaches rootMethod e.caller ∧ g.Reaches e.caller e.callee ∧
          g.Reaches e.callee e.caller := by
  have hg := (lasting_ofSize n).evolves hrun
  obtain ⟨g₁, c, hcond⟩ := exists_condense hg.toWellFormed hg.callee
  obtain ⟨g₂, hfresh, hcalls⟩ := hg.condense_bare hcond
  have hcondensed := condensed_of_condense hg.toWellFormed hcond
  have hencode := unmapped_encode_of_any g₁ c maxSpan
  refine ⟨g₁, g₂, c, hcond, by rw [fresh_eq hg, hfresh],
    (encode_of_unmapped hcondensed hcalls maxSpan).symm,
    (callSites_of_unmapped hencode).trans (callSites_of_condense hcond), fun e he => ?_⟩
  obtain ⟨e₁, he₁, hcall, hin⟩ := mem_of_unmapped hencode he
  rw [← hin, ← hcall]
  exact hg.inComponent_iff hcond he₁

/-- A method that calls itself. -/
def selfCall : CallGraph := ⟨2, #[⟨⟨0, 1, 1⟩, false, 0⟩, ⟨⟨1, 1, 2⟩, false, 0⟩]⟩

/-- `selfCall` with the call inside a component marked, and with offsets. -/
def selfCallEncoded : CallGraph := ⟨2, #[⟨⟨0, 1, 1⟩, false, 1⟩, ⟨⟨1, 1, 2⟩, true, 1⟩]⟩

/-- Both methods of `selfCall` are components of their own. -/
def selfCallCondensed : Condensation :=
  ⟨#[0, 1], #[0, 1], #[[0], []], #[[0], [1]], #[true, true], [0, 1]⟩

/-- `selfCallEncoded` after an offset was changed and the method was put on a longer
cycle. -/
def longerCycle : CallGraph :=
  ⟨3, #[⟨⟨0, 1, 1⟩, false, 7⟩, ⟨⟨1, 1, 2⟩, true, 1⟩, ⟨⟨1, 2, 3⟩, false, 0⟩, ⟨⟨2, 1, 4⟩, false, 0⟩]⟩

/-- This graph has been condensed and encoded, and then calls were added that make its
cycle longer. -/
theorem evolves_longerCycle : Evolves (ofSize 1) longerCycle := by
  have hbuilt : Evolves (ofSize 1) selfCall :=
    (Relation.ReflTransGen.single (.addEdge ⟨0, 1, 1⟩ (by decide) (by decide))).tail
      (.addEdge ⟨1, 1, 2⟩ (by decide) (by decide))
  have hcondense : selfCall.condense selfCall.representatives =
      .ok (selfCallEncoded.unmapped, selfCallCondensed) := by cbv
  have hencode : (selfCallEncoded.unmapped.encode selfCallCondensed 4).1 = selfCallEncoded := by
    cbv
  have hencoded := Step.encode (g := selfCallEncoded.unmapped) selfCallCondensed 4
  rw [hencode] at hencoded
  have hassigned : Step selfCallEncoded
      ⟨2, #[⟨⟨0, 1, 1⟩, false, 7⟩, ⟨⟨1, 1, 2⟩, true, 1⟩]⟩ := .assign 0 7
  exact ((((hbuilt.tail (.condense hcondense)).tail hencoded).tail hassigned).tail
    (.addEdge ⟨1, 2, 3⟩ (by decide) (by decide))).tail (.addEdge ⟨2, 1, 4⟩ (by decide) (by decide))

theorem recondense_eq_fresh_longerCycle :
    ∃ g₁ g₂ c, longerCycle.condense longerCycle.representatives = .ok (g₁, c) ∧
      longerCycle.fresh.condense longerCycle.fresh.representatives = .ok (g₂, c) ∧
      g₁.encode c 4 = g₂.encode c 4 ∧ (g₁.encode c 4).1.edges =
        #[⟨⟨0, 1, 1⟩, false, 1⟩, ⟨⟨1, 1, 2⟩, true, 1⟩, ⟨⟨1, 2, 3⟩, true, 1⟩,
          ⟨⟨2, 1, 4⟩, true, 1⟩] := by
  obtain ⟨g₁, g₂, c, hcond, hfresh, hsame, -⟩ := recondense_eq_fresh evolves_longerCycle 4
  refine ⟨g₁, g₂, c, hcond, hfresh, hsame, ?_⟩
  have hvalue : longerCycle.condense longerCycle.representatives = .ok
      (⟨3, #[⟨⟨0, 1, 1⟩, false, 7⟩, ⟨⟨1, 1, 2⟩, true, 1⟩, ⟨⟨1, 2, 3⟩, true, 0⟩,
        ⟨⟨2, 1, 4⟩, true, 0⟩]⟩,
      ⟨#[0, 1, 1], #[0, 1, 0], #[[0], [], []], #[[0], [1, 2], []], #[true, true, true],
        [0, 1]⟩) := by
    cbv
  rw [hvalue] at hcond
  cases hcond
  cbv

end CallGraph

end PointsTo
