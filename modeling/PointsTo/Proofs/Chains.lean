import PointsTo.Proofs.AnyEdge
import PointsTo.Proofs.Ranges
/-!
# Chains through an edge

A query by one edge should deliver whatever a query by a chain that starts
with the edge delivers. Along a chain the search keeps up: edges inside a
component only bring a context back to the first block, which is all that
the edges leaving the component look at. At the end it may not: a search
that enters the target itself stops there, while the chain may go round
inside the component and come back in the first block. `Strays` says when
this makes a difference. Nothing else does: all other chains are covered.
-/

namespace PointsTo

/-! ## Chains of calls -/

/-- The edges have contexts and lead from the method to the target, each
called by the callee of the one before. -/
inductive CallGraph.Chain (g : CallGraph) (target : MethodId) : MethodId → List Edge → Prop
  | nil : Chain g target target []
  | cons {e : Edge} {es : List Edge} (he : e ∈ g.edges) (hmapped : e.mapped)
      (hes : Chain g target e.callee es) : Chain g target e.caller (e :: es)

/-- The chain enters the target itself in another block than the first, and
goes on from there. -/
def Encoding.Strays (enc : Encoding) (target : MethodId) (es : List Edge) : Prop :=
  ∃ f rest, f :: rest <:+ es ∧ f.callee = target ∧ rest ≠ [] ∧ (enc.blockD target).size < f.offset

/-- Some chain to the target strays: an edge enters it in another block than
the first, and it calls a method of its own component. -/
def Encoding.MayStray (enc : Encoding) (g : CallGraph) (target : MethodId) : Prop :=
  (∃ f ∈ g.edges, f.callee = target ∧ (enc.blockD target).size < f.offset) ∧
    ∃ e ∈ g.edges, e.caller = target ∧ e.inComponent

/-- A chain strays at its first edge, or later. -/
theorem Encoding.strays_cons {enc : Encoding} {target : MethodId} {e : Edge} {es : List Edge} :
    enc.Strays target (e :: es) ↔
      e.callee = target ∧ es ≠ [] ∧ (enc.blockD target).size < e.offset ∨ enc.Strays target es := by
  constructor
  · rintro ⟨f, rest, hf, hstrays⟩
    rcases List.suffix_cons_iff.1 hf with heq | hf
    · obtain ⟨rfl, rfl⟩ := List.cons.inj heq
      exact .inl hstrays
    · exact .inr ⟨f, rest, hf, hstrays⟩
  · rintro (hstrays | ⟨f, rest, hf, hstrays⟩)
    · exact ⟨e, es, List.suffix_rfl, hstrays⟩
    · exact ⟨f, rest, hf.trans (List.suffix_cons e es), hstrays⟩

namespace CallGraph

variable {g : CallGraph} {target m : MethodId} {es : List Edge}

theorem Chain.reaches (h : g.Chain target m es) : g.Reaches m target := by
  induction h with
  | nil => exact .refl
  | cons he _ _ ih => exact (Reaches.of_edge he).trans ih

theorem Chain.mem (h : g.Chain target m es) : ∀ e ∈ es, e ∈ g.edges ∧ e.mapped := by
  induction h with
  | nil => simp
  | cons he hmapped _ ih =>
    intro e hmem
    rcases List.mem_cons.1 hmem with rfl | hmem
    · exact ⟨he, hmapped⟩
    · exact ih e hmem

/-- The rest of a chain leads on from where it starts. -/
theorem Chain.of_suffix (h : g.Chain target m es) {f : Edge} {rest : List Edge}
    (hf : f :: rest <:+ es) : f ∈ g.edges ∧ f.mapped ∧ g.Chain target f.callee rest := by
  induction h with
  | nil => exact absurd (List.eq_nil_of_suffix_nil hf) (List.cons_ne_nil _ _)
  | cons he hmapped hes ih =>
    rcases List.suffix_cons_iff.1 hf with heq | hf
    · obtain ⟨rfl, rfl⟩ := List.cons.inj heq
      exact ⟨he, hmapped, hes⟩
    · exact ih hf

end CallGraph

namespace Encoded

variable {g : CallGraph} {enc : Encoding} {span : Int64} {share : Edge → Share}
  (h : Encoded g enc span share) {target : MethodId}

include h

/-- A method that is reached and reaches the target has a chain to it. -/
theorem exists_chain {m : MethodId} (hreach : enc.graph.isReachable m)
    (hto : g.Reaches m target) : ∃ es, g.Chain target m es := by
  induction hto using Relation.ReflTransGen.head_induction_on with
  | refl => exact ⟨[], .nil⟩
  | head hstep _ ih =>
    obtain ⟨e, he, rfl, rfl⟩ := CallGraph.mem_successors.1 hstep
    obtain ⟨es, hes⟩ := ih (h.condensed.isReachable_callee he hreach)
    exact ⟨e :: es, .cons he ((h.mapped_iff he).2 hreach) hes⟩

section Calls

variable {e : Edge} (he : e ∈ g.edges) (hmapped : e.mapped)

include he hmapped

/-- The ends of an edge with contexts are methods. -/
theorem hasMethod_of_mapped : g.hasMethod e.caller ∧ g.hasMethod e.callee := by
  have hreach := (h.mapped_iff he).1 hmapped
  exact ⟨h.condensed.hasMethod _ hreach,
    h.condensed.hasMethod _ (h.condensed.isReachable_callee he hreach)⟩

/-- **A chain does not leave the component of its target.** -/
theorem inComponent_of_chain (htarget : g.hasMethod target)
    (hrep : enc.graph.repD e.caller = enc.graph.repD target) (hto : g.Reaches e.callee target) :
    e.inComponent ∧ enc.graph.repD e.callee = enc.graph.repD target := by
  have hreach := (h.mapped_iff he).1 hmapped
  obtain ⟨hcaller, hcallee⟩ := h.hasMethod_of_mapped he hmapped
  obtain ⟨-, hback⟩ := (h.condensed.repD_eq_iff hcaller htarget).1 hrep
  have hsame : enc.graph.repD e.callee = enc.graph.repD target :=
    (h.condensed.repD_eq_iff hcallee htarget).2
      ⟨hto, hback.trans (CallGraph.Reaches.of_edge he)⟩
  exact ⟨(h.condensed.flag e he hreach).2 (hrep.trans hsame.symm), hsame⟩

/-- Inside a component an edge keeps the place of a context, and brings it
back to the first block. -/
theorem mapThrough_inComponent (hin : e.inComponent) (l : Int64) :
    enc.mapThrough e l = .ok (1 + (l - 1) % (enc.blockD e.caller).size) ∧
      enc.blockD e.callee = enc.blockD e.caller := by
  have hreach := (h.mapped_iff he).1 hmapped
  obtain ⟨hcaller, hcallee⟩ := h.hasMethod_of_mapped he hmapped
  refine ⟨by rw [h.mapThrough_eq he, h.inner e he hreach hin], ?_⟩
  rw [← h.blockD_repD _ hcallee, ← (h.condensed.flag e he hreach).1 hin, h.blockD_repD _ hcaller]

/-- **The search does not see edges inside a component**: the paths from both
ends of the edge make the same requests. -/
theorem requestsFrom_inComponent (hin : e.inComponent)
    (hne : enc.graph.repD e.caller ≠ enc.graph.repD target) (length l : Int64) :
    enc.requestsFrom g target length e.callee (1 + (l - 1) % (enc.blockD e.caller).size) =
      enc.requestsFrom g target length e.caller l := by
  have hsame := (h.condensed.flag e he ((h.mapped_iff he).1 hmapped)).1 hin
  have hblock : enc.blockD (enc.graph.repD e.caller) = enc.blockD e.caller :=
    h.blockD_repD _ (h.hasMethod_of_mapped he hmapped).1
  rw [Encoding.requestsFrom_of_ne h.condensed (hsame ▸ hne),
    Encoding.requestsFrom_of_ne h.condensed hne, ← hsame, hblock, Context.place_first]

/-- An edge that is not inside a component enters that of its callee. -/
theorem mem_entering_of_mapped (hin : ¬ e.inComponent) :
    e ∈ enc.graph.entering g (enc.graph.repD e.callee) := by
  have hreach := (h.mapped_iff he).1 hmapped
  refine h.condensed.mem_entering.2 ⟨he, hreach, rfl, fun hsame => hin ?_⟩
  exact (h.condensed.flag e he hreach).2 hsame

end Calls

/-- **A chain that has arrived ends in the first block**, unless it is at its
end already. -/
theorem follow_of_arrived (htarget : g.hasMethod target) {m : MethodId} {es : List Edge}
    (hchain : g.Chain target m es) (hrep : enc.graph.repD m = enc.graph.repD target)
    (hes : es ≠ []) (l : Int64) :
    enc.follow (es.map some) l = .ok (some (1 + (l - 1) % (enc.blockD target).size)) := by
  induction hchain generalizing l with
  | nil => exact absurd rfl hes
  | @cons e es he hmapped hchain ih =>
    obtain ⟨hin, hsame⟩ := h.inComponent_of_chain he hmapped htarget hrep hchain.reaches
    have hblock : enc.blockD e.caller = enc.blockD target := by
      rw [← h.blockD_repD _ (h.hasMethod_of_mapped he hmapped).1, hrep, h.blockD_repD _ htarget]
    have hstep := (h.mapThrough_inComponent he hmapped hin l).1
    rw [hblock] at hstep
    rw [List.map_cons, Encoding.follow, if_pos hmapped, hstep]
    change enc.follow (es.map some) _ = _
    by_cases hnil : es = []
    · rw [hnil]
      rfl
    · rw [ih hsame hnil, Context.place_first]

/-- **Chains can stray exactly where the target allows for it.** -/
theorem mayStray_of_strays (htarget : g.hasMethod target) {m : MethodId} {es : List Edge}
    (hchain : g.Chain target m es) (hstrays : enc.Strays target es) : enc.MayStray g target := by
  obtain ⟨f, rest, hf, hcallee, hne, hlt⟩ := hstrays
  obtain ⟨hfmem, -, hrest⟩ := hchain.of_suffix hf
  refine ⟨⟨f, hfmem, hcallee, hlt⟩, ?_⟩
  rw [hcallee] at hrest
  match hrest with
  | .nil => exact absurd rfl hne
  | .cons he hmapped hes =>
    exact ⟨_, he, rfl, (h.inComponent_of_chain he hmapped htarget rfl hes.reaches).1⟩

theorem exists_strays (hstray : enc.MayStray g target) : ∃ f es,
    g.Chain target f.caller (f :: es) ∧ f.callee = target ∧ es ≠ [] ∧
      (enc.blockD target).size < f.offset := by
  obtain ⟨⟨f, hf, rfl, hlt⟩, e, he, hcaller, hin⟩ := hstray
  have hmethod : g.hasMethod f.callee := hcaller ▸ h.condensed.wellFormed.caller e he
  have hmapped : f.mapped := by
    have hpos := (h.size_mem_Icc hmethod).1
    rw [Int64.lt_iff_toInt_lt] at hlt
    rw [Edge.mapped, decide_eq_true_iff, Int64.lt_iff_toInt_lt, Int64.toInt_zero]
    omega
  have hreach := h.condensed.isReachable_callee hf ((h.mapped_iff hf).1 hmapped)
  rw [← hcaller] at hreach
  -- an edge inside a component leads to a chain back
  obtain ⟨es, hes⟩ := h.exists_chain (h.condensed.isReachable_callee he hreach)
    (h.condensed.wellFormed.flagged e he hin)
  have hchain : g.Chain f.callee f.callee (e :: es) := by
    rw [hcaller] at hes
    have hcons := CallGraph.Chain.cons he ((h.mapped_iff he).2 hreach) hes
    rwa [hcaller] at hcons
  exact ⟨f, e :: es, .cons hf hmapped hchain, rfl, by simp, hlt⟩

/-! ## The search keeps up -/

section Countable

variable (hcount : ∀ t, g.hasMethod t →
  (enc.blockD t).size.toInt * (enc.blockD t).num.toInt ≤ Context.largest.toInt)

include hcount

/-- An edge leads from a context to a context, and to one of the first block
of its callee if its first context is one. -/
theorem one_le_through {e : Edge} (he : e ∈ g.edges) (hmapped : e.mapped) {l : Int64}
    (hl : 1 ≤ l.toInt) :
    let x := (e.offset + (l - 1) % (enc.blockD e.caller).size).toInt
    1 ≤ x ∧ (e.offset.toInt ≤ (enc.blockD e.callee).size.toInt →
      x ≤ (enc.blockD e.callee).size.toInt) := by
  intro x
  have hreach := (h.mapped_iff he).1 hmapped
  obtain ⟨hcaller, hcallee⟩ := h.hasMethod_of_mapped he hmapped
  by_cases hin : e.inComponent
  · have hblock := (h.mapThrough_inComponent he hmapped hin l).2
    have hpos := (h.size_mem_Icc hcaller).1
    obtain ⟨hnonneg, hlt⟩ := Context.toInt_place_mem hl hpos
    have hx : x = 1 + ((l - 1) % (enc.blockD e.caller).size).toInt := by
      change (e.offset + _).toInt = _
      rw [h.inner e he hreach hin, Context.toInt_first hl hpos]
    rw [hblock]
    omega
  · have hentering := h.mem_entering_of_mapped he hmapped hin
    have hmem := h.through_mem_range hcallee (hcount _ hcallee) hentering hl
    refine ⟨(h.range_subset hcallee (hcount _ hcallee) hentering hmem).1, fun hfirst => ?_⟩
    exact (h.range_subset_first hcallee (hcount _ hcallee) hentering hfirst hmem).2

/-- Brought back to the first block, the contexts of an edge that leads to
another block are below those it leads to. -/
theorem first_add_le_offset {e : Edge} (he : e ∈ g.edges) (hmapped : e.mapped)
    (hlt : (enc.blockD e.callee).size < e.offset) :
    let x := (1 + (e.offset - 1) % (enc.blockD e.callee).size).toInt
    1 ≤ x ∧ x + (enc.blockD e.caller).size.toInt ≤ e.offset.toInt := by
  have hcallee := (h.hasMethod_of_mapped he hmapped).2
  have hpos := (h.size_mem_Icc hcallee).1
  rw [Int64.lt_iff_toInt_lt] at hlt
  have hin : ¬ e.inComponent := by
    intro hin
    rw [h.inner e he ((h.mapped_iff he).1 hmapped) hin, Int64.toInt_one] at hlt
    omega
  obtain ⟨hone, hle⟩ := h.toInt_first_add hcallee (hcount _ hcallee)
    (h.mem_entering_of_mapped he hmapped hin)
  exact ⟨hone, by omega⟩

/-- **A chain that does not stray ends where a path of the search does.** The
search has come to the method with the context; the induction is along the
rest of the chain. -/
theorem follow_mem_requestsFrom (htarget : g.hasMethod target) (length : Int64) {m : MethodId}
    {es : List Edge} (hchain : g.Chain target m es) (hstay : ¬ enc.Strays target es) {l : Int64}
    (hl : 1 ≤ l.toInt)
    (hfirst : m = target → es ≠ [] → l.toInt ≤ (enc.blockD target).size.toInt) :
    ∃ x, enc.follow (es.map some) l = .ok (some x) ∧
      (x, x + length) ∈ enc.requestsFrom g target length m l := by
  induction hchain generalizing l with
  | nil =>
    refine ⟨l, rfl, ?_⟩
    rw [Encoding.requestsFrom_of_arrived h.condensed rfl, Encoding.intervalsAt, if_pos rfl]
    exact List.mem_singleton_self _
  | @cons e es he hmapped hchain ih =>
    by_cases hrep : enc.graph.repD e.caller = enc.graph.repD target
    · refine ⟨_, h.follow_of_arrived htarget (.cons he hmapped hchain) hrep (by simp) l, ?_⟩
      have hblock : enc.blockD e.caller = enc.blockD target := by
        rw [← h.blockD_repD _ (h.hasMethod_of_mapped he hmapped).1, hrep, h.blockD_repD _ htarget]
      rw [Encoding.requestsFrom_of_arrived h.condensed hrep, Encoding.intervalsAt, hblock]
      by_cases hcaller : e.caller = target
      · -- the search has stopped where the chain goes round inside the component
        rw [if_pos hcaller, Context.first_eq hl (hfirst hcaller (by simp))]
        exact List.mem_singleton_self _
      · have hnum := h.one_le_num htarget
        rw [if_neg hcaller]
        refine List.mem_map.2 ⟨0, List.mem_range.2 ?_, by simp⟩
        rw [Int64.toNatClampNeg]
        omega
    · -- the edge stays inside a component on the way, or the search follows it
      obtain ⟨hx1, hxle⟩ := h.one_le_through hcount he hmapped hl
      obtain ⟨hhere, hlater⟩ := not_or.1 (mt Encoding.strays_cons.2 hstay)
      have hfirst' : e.callee = target → es ≠ [] →
          (e.offset + (l - 1) % (enc.blockD e.caller).size).toInt ≤
            (enc.blockD target).size.toInt := by
        intro hcallee hes
        have hoffset : ¬ (enc.blockD target).size < e.offset := fun hlt =>
          hhere ⟨hcallee, hes, hlt⟩
        rw [Int64.lt_iff_toInt_lt] at hoffset
        rw [← hcallee] at hoffset ⊢
        exact hxle (by omega)
      obtain ⟨x, hfollow, hmem⟩ := ih hlater hx1 hfirst'
      refine ⟨x, ?_, ?_⟩
      · rw [List.map_cons, Encoding.follow, if_pos hmapped, h.mapThrough_eq he]
        exact hfollow
      · have hreach := (h.mapped_iff he).1 hmapped
        by_cases hin : e.inComponent
        · rw [h.inner e he hreach hin] at hmem
          rwa [← h.requestsFrom_inComponent he hmapped hin hrep]
        · rw [Encoding.requestsFrom_of_ne h.condensed hrep,
            h.blockD_repD _ (h.hasMethod_of_mapped he hmapped).1]
          refine List.mem_flatMap.2 ⟨e, h.condensed.mem_edgesFrom.2 ⟨he, hreach, rfl, ?_⟩, hmem⟩
          exact fun hsame => hin ((h.condensed.flag e he hreach).2 hsame.symm)

end Countable

end Encoded

/-! ## What the queries deliver -/

/-- The objects that some facts are about, each with the contexts under which
it is pointed to. -/
def Fact.pairs (fs : List Fact) : Set (NodeId × Int64) :=
  {p | ∃ f ∈ fs, f.obj = p.1 ∧ f.lo ≤ p.2 ∧ p.2 < f.hi}

/-- A clipped fact holds under the contexts of the interval under which the
fact itself does. -/
theorem Fact.clip_mem_iff {l r x : Int64} {f : Fact} :
    (∃ f' ∈ f.clip l r, f'.obj = f.obj ∧ f'.lo ≤ x ∧ x < f'.hi) ↔
      l ≤ x ∧ x < r ∧ f.lo ≤ x ∧ x < f.hi := by
  have hlo : (if f.lo < l then l else f.lo) ≤ x ↔ l ≤ x ∧ f.lo ≤ x := by
    split <;> simp only [Int64.le_iff_toInt_le, Int64.lt_iff_toInt_lt] at * <;> omega
  have hhi : x < (if r < f.hi then r else f.hi) ↔ x < r ∧ x < f.hi := by
    split <;> simp only [Int64.lt_iff_toInt_lt] at * <;> omega
  simp only [clip, Option.mem_def, Option.ite_none_right_eq_some, Option.some.injEq]
  constructor
  · rintro ⟨_, ⟨-, rfl⟩, -, hlox, hhix⟩
    exact ⟨(hlo.1 hlox).1, (hhi.1 hhix).1, (hlo.1 hlox).2, (hhi.1 hhix).2⟩
  · rintro ⟨hl, hr, hlof, hhif⟩
    have hlox := hlo.2 ⟨hl, hlof⟩
    have hhix := hhi.2 ⟨hr, hhif⟩
    exact ⟨_, ⟨Int64.lt_of_le_of_lt hlox hhix, rfl⟩, rfl, hlox, hhix⟩

theorem FactStore.mem_pairs_contextObjects {facts : FactStore} {node o : NodeId} {l r x : Int64} :
    (o, x) ∈ Fact.pairs (facts.contextObjects node l r) ↔
      l ≤ x ∧ x < r ∧ (o, x) ∈ Fact.pairs (facts.factsOf node) := by
  constructor
  · rintro ⟨f', hf', hobj, hx⟩
    obtain ⟨f, hf, hclip⟩ := List.mem_filterMap.1 hf'
    have hsame : f'.obj = f.obj := by
      simp only [Fact.clip, Option.ite_none_right_eq_some, Option.some.injEq] at hclip
      rw [← hclip.2]
    obtain ⟨hl, hr, hf''⟩ := Fact.clip_mem_iff.1 ⟨f', hclip, hsame, hx⟩
    exact ⟨hl, hr, f, hf, hsame.symm.trans hobj, hf''⟩
  · rintro ⟨hl, hr, f, hf, hobj, hx⟩
    obtain ⟨f', hclip, hsame, hx'⟩ := Fact.clip_mem_iff.2 ⟨hl, hr, hx⟩
    exact ⟨f', List.mem_filterMap.2 ⟨f, hf, hclip⟩, hsame.trans hobj, hx'⟩

/-- A store with one fact. -/
theorem FactStore.single {n o : NodeId} {l r : Int64} (hn : n ≠ noNode) (hlt : l < r) :
    (empty.add n o l r).representative n = some n ∧
      (empty.add n o l r).factsOf n = [⟨o, l, r⟩] := by
  have hle : ¬ r ≤ l := by
    rw [Int64.le_iff_toInt_le]
    rw [Int64.lt_iff_toInt_lt] at hlt
    omega
  have hadd : empty.add n o l r = { facts := [(n, [⟨o, l, r⟩])] } := by
    rw [add, if_neg hle]
    rfl
  rw [hadd]
  exact ⟨if_neg hn, by simp [factsOf, Assoc.getD, Assoc.get?]⟩

theorem Visitor.go_takeAll_collect (fs s : List Fact) :
    (Visitor.collect.takeAll fs).go s = (.ok (), s ++ fs) := by
  induction fs generalizing s with
  | nil => simp [takeAll]
  | cons f fs ih => simp [takeAll, collect, Attempt.go_bind, ih]

namespace Query

variable {σ : Type}

theorem mem_pairs_objectsUnder {facts : FactStore} {node : NodeId} {is : List (Int64 × Int64)}
    {p : NodeId × Int64} : p ∈ Fact.pairs (objectsUnder facts node is) ↔
      ∃ i ∈ is, p ∈ Fact.pairs (facts.contextObjects node i.1 i.2) := by
  constructor
  · rintro ⟨f, hf, hp⟩
    obtain ⟨i, hi, hf⟩ := List.mem_flatMap.1 hf
    exact ⟨i, hi, f, hf, hp⟩
  · rintro ⟨i, hi, f, hf, hp⟩
    exact ⟨f, List.mem_flatMap.2 ⟨i, hi, hf⟩, hp⟩

/-- **A query by a chain, run**: the visitor takes what lies under the contexts
the chain leads to. -/
theorem go_byChain {sc : Scene} {e : Edge} {es : List Edge} {ptr node : NodeId} {x : Int64}
    {b : Block} (hnode : sc.facts.representative ptr = some node)
    (hedges : ∀ e' ∈ e :: es, sc.graph.edge? e'.toCallSite = some e')
    (hcompose : sc.encoding.compose ((e :: es).map some) = .ok (some x))
    (hblock : sc.encoding.block e.caller = .ok b) (v : Visitor σ) (q : Querier) (s : σ) :
    let visit := (v.takeAll (sc.facts.contextObjects node x (x + b.size))).go s
    (byChain sc ((e :: es).map (·.toCallSite)) ptr v).go (q, s) =
      (visit.1.map fun _ => true, q, visit.2) := by
  have hmap : ((e :: es).map (·.toCallSite)).map sc.graph.edge? = some e :: es.map some := by
    rw [List.map_map]
    exact List.map_congr_left hedges
  have hcontains : (some e :: es.map some).contains none = false := by simp
  rw [List.map_cons] at hcompose
  rw [byChain, hnode]
  simp only [hmap, hcontains, Bool.false_eq_true, if_false, hcompose, hblock, Attempt.go_bind,
    Attempt.go_liftM, go_visiting, Attempt.go_pure]
  match (v.takeAll (sc.facts.contextObjects node x (x + b.size))).go s with
  | (.ok (), s') => rfl
  | (.error f, s') => rfl

/-! ## Chains that are covered -/

/-- The query by the first edge of a chain delivers all that the query by the
chain delivers. Both come through, and answer whether the pointer is live. -/
def Covers (sc : Scene) (e : Edge) (es : List Edge) (ptr : NodeId) (q : Querier) : Prop :=
  let chain := (byChain sc ((e :: es).map (·.toCallSite)) ptr Visitor.collect).go (q, [])
  let edge := (byAnyEdge sc e.toCallSite ptr Visitor.collect).go (q, [])
  let live := (sc.facts.representative ptr).isSome
  chain.1 = .ok live ∧ edge.1 = .ok live ∧ Fact.pairs chain.2.2 ⊆ Fact.pairs edge.2.2

theorem covers_of_dead {sc : Scene} {e : Edge} {es : List Edge} {ptr : NodeId} {q : Querier}
    (hnode : sc.facts.representative ptr = none) : Covers sc e es ptr q := by
  simp [Covers, byChain, byAnyEdge, hnode]

section Encoded

variable {sc : Scene} {span : Int64} {share : Edge → Share}
  (h : Encoded sc.graph sc.encoding span share) {ptr : NodeId}
  (htarget : sc.graph.hasMethod (sc.nodes.methodOf ptr))

include h htarget

/-- **What the two queries deliver** for a chain of edges with contexts. -/
theorem go_of_chain {node : NodeId} (hnode : sc.facts.representative ptr = some node) {e : Edge}
    {es : List Edge} (hchain : sc.graph.Chain (sc.nodes.methodOf ptr) e.caller (e :: es))
    {x : Int64} (hfollow : sc.encoding.follow (es.map some) e.offset = .ok (some x)) {q : Querier}
    (hq : q.Ready sc.encoding.graph.size) :
    let length := (sc.encoding.blockD e.caller).size
    (byChain sc ((e :: es).map (·.toCallSite)) ptr Visitor.collect).go (q, []) =
        (.ok true, q, sc.facts.contextObjects node x (x + length)) ∧
      ∃ q' : Querier, (byAnyEdge sc e.toCallSite ptr Visitor.collect).go (q, []) =
        (.ok true, q', objectsUnder sc.facts node (sc.encoding.requestsFrom sc.graph
          (sc.nodes.methodOf ptr) length e.callee e.offset)) := by
  intro length
  obtain ⟨he, hmapped⟩ := hchain.mem e List.mem_cons_self
  obtain ⟨hcaller, hcallee⟩ := h.hasMethod_of_mapped he hmapped
  have hedges : ∀ e' ∈ e :: es, sc.graph.edge? e'.toCallSite = some e' := fun e' he' =>
    h.condensed.wellFormed.edge?_eq (hchain.mem e' he').1
  have hcompose : sc.encoding.compose ((e :: es).map some) = .ok (some x) := by
    rw [Encoding.compose, List.map_cons, if_neg (by simp), Encoding.follow, if_pos hmapped,
      h.mapThrough_eq he]
    simpa [bind, Except.bind] using hfollow
  refine ⟨?_, ?_⟩
  · rw [go_byChain hnode hedges hcompose (h.block_eq _ hcaller), Visitor.go_takeAll_collect]
    rfl
  · obtain ⟨q', hgo⟩ := byAnyEdge_visits h.condensed (fun m hm => h.size_pos hm)
      (hedges e List.mem_cons_self) hmapped (h.block_eq _ hcaller) hcallee hnode htarget hq
      Visitor.collect []
    rw [Visitor.go_takeAll_collect] at hgo
    exact ⟨q', hgo⟩

variable (hcount : ∀ t, sc.graph.hasMethod t → (sc.encoding.blockD t).size.toInt *
  (sc.encoding.blockD t).num.toInt ≤ Context.largest.toInt)

include hcount

/-- **A chain that does not stray is covered.** -/
theorem covers_of_not_strays {e : Edge} {es : List Edge}
    (hchain : sc.graph.Chain (sc.nodes.methodOf ptr) e.caller (e :: es))
    (hstay : ¬ sc.encoding.Strays (sc.nodes.methodOf ptr) (e :: es)) {q : Querier}
    (hq : q.Ready sc.encoding.graph.size) : Covers sc e es ptr q := by
  match hnode : sc.facts.representative ptr with
  | none => exact covers_of_dead hnode
  | some node =>
    obtain ⟨he, hmapped, hrest⟩ := hchain.of_suffix List.suffix_rfl
    have hoffset : 1 ≤ e.offset.toInt := by
      have hlt := of_decide_eq_true hmapped
      rwa [Int64.lt_iff_toInt_lt, Int64.toInt_zero] at hlt
    obtain ⟨hhere, hlater⟩ := not_or.1 (mt Encoding.strays_cons.2 hstay)
    have hfirst : e.callee = sc.nodes.methodOf ptr → es ≠ [] →
        e.offset.toInt ≤ (sc.encoding.blockD (sc.nodes.methodOf ptr)).size.toInt := by
      intro hcallee hes
      have hle : ¬ (sc.encoding.blockD (sc.nodes.methodOf ptr)).size < e.offset := fun hlt =>
        hhere ⟨hcallee, hes, hlt⟩
      rw [Int64.lt_iff_toInt_lt] at hle
      omega
    obtain ⟨x, hfollow, hmem⟩ := h.follow_mem_requestsFrom hcount htarget
      (sc.encoding.blockD e.caller).size hrest hlater hoffset hfirst
    obtain ⟨hbyChain, q', hbyEdge⟩ := go_of_chain h htarget hnode hchain hfollow hq
    simp only [Covers, hbyChain, hbyEdge, hnode, Option.isSome_some]
    exact ⟨trivial, trivial, fun p hp => mem_pairs_objectsUnder.2 ⟨_, hmem, hp⟩⟩

/-- **A chain that strays at its first edge is not covered**: a fact under the
first context it ends with is lost. -/
theorem not_covers_of_strays {e : Edge} {es : List Edge}
    (hchain : sc.graph.Chain (sc.nodes.methodOf ptr) e.caller (e :: es))
    (hcallee : e.callee = sc.nodes.methodOf ptr) (hes : es ≠ [])
    (hlt : (sc.encoding.blockD (sc.nodes.methodOf ptr)).size < e.offset) {q : Querier}
    (hq : q.Ready sc.encoding.graph.size) :
    ∃ facts : FactStore, ¬ Covers { sc with facts } e es ptr q := by
  have hptr : ptr ≠ noNode := by
    rintro rfl
    refine absurd htarget ?_
    simp [Universe.methodOf, Universe.node?, CallGraph.hasMethod, noMethod]
  obtain ⟨he, hmapped, hrest⟩ := hchain.of_suffix List.suffix_rfl
  have hfollow := h.follow_of_arrived htarget hrest (by rw [hcallee]) hes e.offset
  rw [← hcallee] at hlt hfollow
  obtain ⟨hx, hend⟩ := h.first_add_le_offset hcount he hmapped hlt
  generalize 1 + (e.offset - 1) % (sc.encoding.blockD e.callee).size = x at *
  have hpos := (h.size_mem_Icc (h.hasMethod_of_mapped he hmapped).1).1
  have hmax := Int64.toInt_lt e.offset
  have hnext := Context.toInt_add_one (a := x)
    (Int.lt_of_lt_of_le (by omega) (Context.toInt_le_largest e.offset))
  have hlast : (x + (sc.encoding.blockD e.caller).size).toInt =
      x.toInt + (sc.encoding.blockD e.caller).size.toInt :=
    Context.toInt_add_of_le (by omega) (by omega)
  have hxnext : x < x + 1 := by rw [Int64.lt_iff_toInt_lt, hnext]; omega
  have hxlast : x < x + (sc.encoding.blockD e.caller).size := by
    rw [Int64.lt_iff_toInt_lt, hlast]
    omega
  obtain ⟨hnode, hfacts⟩ := FactStore.single (o := ptr) hptr hxnext
  refine ⟨FactStore.empty.add ptr ptr x (x + 1), ?_⟩
  generalize FactStore.empty.add ptr ptr x (x + 1) = facts at hnode hfacts ⊢
  rintro ⟨-, -, hsub⟩
  have hscene : Encoded (Scene.graph { sc with facts }) (Scene.encoding { sc with facts })
    span share := h
  obtain ⟨hbyChain, q', hbyEdge⟩ := go_of_chain hscene htarget hnode hchain hfollow hq
  rw [hbyChain, hbyEdge] at hsub
  have hmem : (ptr, x) ∈ Fact.pairs (facts.factsOf ptr) := by
    rw [hfacts]
    exact ⟨_, List.mem_singleton_self _, rfl, Int64.le_refl x, hxnext⟩
  obtain ⟨i, hi, hlost⟩ := mem_pairs_objectsUnder.1
    (hsub (FactStore.mem_pairs_contextObjects.2 ⟨Int64.le_refl x, hxlast, hmem⟩))
  -- the search stops at the target, and its only request starts beyond the first block
  rw [Encoding.requestsFrom_of_arrived hscene.condensed (by rw [hcallee]), Encoding.intervalsAt,
    if_pos hcallee, List.mem_singleton] at hi
  have hle := (FactStore.mem_pairs_contextObjects.1 hlost).1
  rw [hi, Int64.le_iff_toInt_le] at hle
  dsimp only at hle
  omega

end Encoded

/-- **Which chains a query by one edge covers.** Let the contexts of the encoding
of a condensed graph be countable. Whatever the facts are and whatever the
querier was asked before, a chain to the method of the pointer that does not
stray is covered by the query by its first edge. All chains to the method
are covered iff none can stray: either no edge enters the method in another
block than the first, or it calls no method of its own component. -/
theorem byAnyEdge_covers_iff {g g' : CallGraph} {c : Condensation} (hw : g.WellFormed)
    (hfew : g.edges.size < 2 ^ 63) (hcond : g.condense g.representatives = .ok (g', c))
    {maxSpan : Int64} (hcount : ∀ t, g.hasMethod t →
      let b := (g'.encode c maxSpan).2.blockD t
      b.size.toInt * b.num.toInt ≤ Context.largest.toInt)
    {nodes : Universe} {ptr : NodeId} (htarget : g.hasMethod (nodes.methodOf ptr)) :
    let g'' := (g'.encode c maxSpan).1
    let enc := (g'.encode c maxSpan).2
    let m := nodes.methodOf ptr
    let covered := fun e es => ∀ (facts : FactStore) (q : Querier), q.Reached c.size →
      Covers ⟨g'', enc, nodes, facts⟩ e es ptr q
    (∀ e es, g''.Chain m e.caller (e :: es) → ¬ enc.Strays m (e :: es) → covered e es) ∧
    ((∀ e es, g''.Chain m e.caller (e :: es) → covered e es) ↔ ¬ enc.MayStray g'' m) := by
  intro g'' enc m covered
  have hc := CallGraph.condensed_of_condense hw hcond
  have hfew' : g'.edges.size < 2 ^ 63 := by
    rw [CallGraph.edges_size_of_condense hcond]
    exact hfew
  have hcalls := CallGraph.unmapped_encode hc hfew' maxSpan
  obtain ⟨share, h⟩ := CallGraph.encoded_of_encode hc hfew' maxSpan
  have hmethod : ∀ t, g''.hasMethod t = g.hasMethod t := fun t => by
    rw [CallGraph.hasMethod, CallGraph.size_of_unmapped hcalls, CallGraph.size_of_condense hcond,
      CallGraph.hasMethod]
  have htarget' : g''.hasMethod m := by rw [hmethod]; exact htarget
  have hcount' : ∀ t, g''.hasMethod t →
      (enc.blockD t).size.toInt * (enc.blockD t).num.toInt ≤ Context.largest.toInt :=
    fun t ht => hcount t (by rw [← hmethod]; exact ht)
  have hcovered : ∀ e es, g''.Chain m e.caller (e :: es) → ¬ enc.Strays m (e :: es) →
      covered e es := by
    intro e es hchain hstay facts q hq
    let sc : Scene := ⟨g'', enc, nodes, facts⟩
    have hsc : Encoded sc.graph sc.encoding _ share := h
    exact covers_of_not_strays hsc htarget' hcount' hchain hstay hq.ready
  refine ⟨hcovered, fun hall hstray => ?_, fun hstray e es hchain => ?_⟩
  · obtain ⟨f, es, hchain, hcallee, hes, hlt⟩ := h.exists_strays hstray
    let sc : Scene := ⟨g'', enc, nodes, .empty⟩
    have hsc : Encoded sc.graph sc.encoding _ share := h
    obtain ⟨facts, hnot⟩ := not_covers_of_strays hsc htarget' hcount' hchain hcallee hes hlt
      (Querier.ready_new c.size)
    exact hnot (hall f es hchain facts _ .new)
  · exact hcovered e es hchain fun hstrays => hstray (h.mayStray_of_strays htarget' hchain hstrays)

/-- The encoding of `CallGraph.twoEntries` with blocks of one context. The
pointer is one of the method with two entries, which calls itself, and
points to itself under the first context. -/
def strayingScene : Scene where
  graph := (CallGraph.twoEntriesMarked.encode CallGraph.twoEntriesCondensed 1).1
  encoding := (CallGraph.twoEntriesMarked.encode CallGraph.twoEntriesCondensed 1).2
  nodes := { nodes := #[{}, { id := 1, method := 1 }] }
  facts := FactStore.empty.add 1 1 1 2

/-- The chain through the first entry is covered, but not all chains are. -/
theorem byAnyEdge_covers_iff_twoEntries :
    Covers strayingScene ⟨⟨0, 1, 1⟩, false, 1⟩ [⟨⟨1, 1, 3⟩, true, 1⟩] 1 (Querier.new 3) ∧
      ¬ ∀ e es, strayingScene.graph.Chain 1 e.caller (e :: es) →
        ∀ (facts : FactStore) (q : Querier), q.Reached 3 →
          Covers { strayingScene with facts } e es 1 q := by
  have hcount : ∀ t, CallGraph.twoEntries.hasMethod t →
      let b := strayingScene.encoding.blockD t
      b.size.toInt * b.num.toInt ≤ Context.largest.toInt := by
    have hall : ∀ t ∈ CallGraph.twoEntries.methods,
        (strayingScene.encoding.blockD t).size.toInt *
          (strayingScene.encoding.blockD t).num.toInt ≤ Context.largest.toInt := by
      decide +kernel
    exact fun t ht => hall t (CallGraph.mem_methods.2 ht)
  obtain ⟨hcovered, hiff⟩ := byAnyEdge_covers_iff CallGraph.wellFormed_twoEntries (by decide)
    CallGraph.condense_twoEntries hcount (show CallGraph.twoEntries.hasMethod
      (strayingScene.nodes.methodOf 1) by decide)
  have hchain : strayingScene.graph.Chain 1 0 [⟨⟨0, 1, 1⟩, false, 1⟩, ⟨⟨1, 1, 3⟩, true, 1⟩] :=
    .cons (e := ⟨⟨0, 1, 1⟩, false, 1⟩) (by decide +kernel) (by decide)
      (.cons (e := ⟨⟨1, 1, 3⟩, true, 1⟩) (by decide +kernel) (by decide) .nil)
  refine ⟨hcovered ⟨⟨0, 1, 1⟩, false, 1⟩ _ hchain (fun hstrays => ?_) _ _ .new, fun hall => ?_⟩
  · rcases Encoding.strays_cons.1 hstrays with ⟨-, -, hlt⟩ | hstrays
    · exact absurd hlt (by decide +kernel)
    · rcases Encoding.strays_cons.1 hstrays with ⟨-, hne, -⟩ | ⟨f, rest, hf, -⟩
      · exact hne rfl
      · exact absurd (List.eq_nil_of_suffix_nil hf) (List.cons_ne_nil f rest)
  · refine hiff.1 hall ⟨⟨⟨⟨0, 1, 2⟩, false, 2⟩, ?_⟩, ⟨⟨1, 1, 3⟩, true, 1⟩, ?_⟩ <;> decide +kernel

/-- The chain through the second entry ends under the first context, which the
query by its first edge does not look at. -/
theorem byAnyEdge_misses_twoEntries :
    strayingScene.graph.Chain (strayingScene.nodes.methodOf 1) 0
      [⟨⟨0, 1, 2⟩, false, 2⟩, ⟨⟨1, 1, 3⟩, true, 1⟩] ∧
    ((byChain strayingScene [⟨0, 1, 2⟩, ⟨1, 1, 3⟩] 1 Visitor.collect).go
      (Querier.new 3, [])).2.2 = [⟨1, 1, 2⟩] ∧
    ((byAnyEdge strayingScene ⟨0, 1, 2⟩ 1 Visitor.collect).go (Querier.new 3, [])).2.2 = [] := by
  refine ⟨?_, by cbv, by cbv⟩
  exact .cons (e := ⟨⟨0, 1, 2⟩, false, 2⟩) (by decide +kernel) (by decide)
    (.cons (e := ⟨⟨1, 1, 3⟩, true, 1⟩) (by decide +kernel) (by decide) .nil)

end Query

end PointsTo
