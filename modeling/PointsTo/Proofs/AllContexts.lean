import PointsTo.Proofs.Exactness
/-!
# Facts under all contexts

A fact that holds under every context of a method covers all that a query
can ask for there, so a query by one edge delivers its object as soon as
it asks for anything at all. It does iff some path leads to the component
of the method, which is to say that the callee reaches the method along
calls: calls inside components, which paths leave out, lead nowhere else.
-/

namespace PointsTo

/-! ## Paths and reachability -/

/-- **Paths lead to what can be reached.** -/
theorem Condensed.exists_leads_iff {g : CallGraph} {c : Condensation} (h : Condensed g c)
    {target m : MethodId} (hreach : c.isReachable m) (htarget : g.hasMethod target) :
    (∃ p, c.Leads g target m p) ↔ g.Reaches m target := by
  constructor
  · rintro ⟨p, hp⟩
    induction hp with
    | @here m hrep =>
      have hto := (h.reaches_repD (h.hasMethod m hreach)).1
      rw [hrep] at hto
      exact hto.trans (h.reaches_repD htarget).2
    | @step m e p _ he _ ih =>
      obtain ⟨hmem, hreach', hreach'', hfrom, -⟩ := h.edgesFrom_spec he
      have hto := (h.reaches_repD (h.hasMethod m hreach)).1
      rw [← hfrom] at hto
      have hcaller := hto.trans (h.reaches_repD (h.hasMethod _ hreach')).2
      exact (hcaller.trans (CallGraph.Reaches.of_edge hmem)).trans (ih hreach'')
  · intro hto
    induction hto using Relation.ReflTransGen.head_induction_on with
    | refl => exact ⟨[], .here rfl⟩
    | @head m x hstep _ ih =>
      obtain ⟨e, he, rfl, rfl⟩ := CallGraph.mem_successors.1 hstep
      obtain ⟨p, hp⟩ := ih (h.isReachable_callee he hreach)
      by_cases hrep : c.repD e.caller = c.repD target
      · exact ⟨[], .here hrep⟩
      by_cases hin : c.repD e.callee = c.repD e.caller
      · -- the call stays inside the component, and so does the search
        exact ⟨p, hp.congr hin⟩
      · exact ⟨e :: p, .step hrep (h.mem_edgesFrom.2 ⟨he, hreach, rfl, hin⟩) hp⟩

namespace Encoded

variable {g : CallGraph} {enc : Encoding} {span : Int64} {share : Edge → Share}
  (h : Encoded g enc span share)

include h

/-- Where a search ends it asks for something. -/
theorem intervalsAt_ne_nil {target : MethodId} (htarget : g.hasMethod target) (length : Int64)
    (m : MethodId) (l : Int64) : enc.intervalsAt target length m l ≠ [] := by
  have hnum := h.one_le_num htarget
  have hblocks : (enc.blockD target).num.toNatClampNeg ≠ 0 := by
    change (enc.blockD target).num.toInt.toNat ≠ 0
    omega
  rw [Encoding.intervalsAt]
  split
  · exact List.cons_ne_nil _ _
  · simpa using hblocks

/-- **Paths ask for something iff the target can be reached.** -/
theorem requestsFrom_ne_nil_iff {target m : MethodId} (htarget : g.hasMethod target)
    (hreach : enc.graph.isReachable m) (length l : Int64) :
    enc.requestsFrom g target length m l ≠ [] ↔ g.Reaches m target := by
  rw [← h.condensed.exists_leads_iff hreach htarget]
  constructor
  · intro hsome
    by_contra hnone
    exact hsome (Encoding.requestsFrom_of_not_leads h.condensed (not_exists.1 hnone) l)
  · rintro ⟨p, hp⟩ hnil
    rw [Encoding.requestsFrom, List.flatMap_eq_nil_iff] at hnil
    exact h.intervalsAt_ne_nil htarget _ _ _ (hnil p (h.condensed.mem_allPaths.2 hp))

section Countable

variable (hcount : ∀ t, enc.graph.isReachable t →
  (enc.blockD t).size.toInt * (enc.blockD t).num.toInt < Context.largest.toInt)

include hcount

/-- The contexts of every method can be counted: one that the root does not
reach has one. -/
theorem span_lt_largest {m : MethodId} (hm : g.hasMethod m) :
    (enc.blockD m).span.toInt = (enc.blockD m).size.toInt * (enc.blockD m).num.toInt ∧
      (enc.blockD m).span.toInt < Context.largest.toInt := by
  have hlt : (enc.blockD m).size.toInt * (enc.blockD m).num.toInt < Context.largest.toInt := by
    by_cases hreach : enc.graph.isReachable m
    · exact hcount m hreach
    · rw [h.trivial m hm fun hr => absurd hr hreach]
      decide
  have hspan := h.toInt_span hm (Int.le_of_lt hlt)
  exact ⟨hspan, hspan ▸ hlt⟩

/-- **All that is asked for behind an edge are contexts of the target.** -/
theorem requestsFrom_within {target : MethodId} (htarget : g.hasMethod target) {e : Edge}
    (he : e ∈ g.edges) (hmapped : e.mapped) :
    ∀ i ∈ enc.requestsFrom g target (enc.blockD e.caller).size e.callee e.offset,
      1 ≤ i.1.toInt ∧ i.1.toInt < i.2.toInt ∧ i.2.toInt ≤ (enc.blockD target).span.toInt + 1 := by
  intro i hi
  have hsize := (h.size_mem_Icc (h.hasMethod_of_mapped he hmapped).1).1
  obtain ⟨⟨hone, hlt, -⟩, hle⟩ := h.requestsFrom_exact
    (fun _ hf hfmapped => h.fits_of_countable hcount hf hfmapped) htarget hsize he hmapped
    ⟨Int.le_refl _, Int.le_refl _⟩ i hi
  rw [(h.span_lt_largest hcount htarget).1]
  exact ⟨hone, hlt, hle⟩

end Countable

end Encoded

/-! ## Facts that cover what is asked for -/

/-- A fact that covers an interval is cut down to it. -/
theorem Fact.clip_of_covers {l r : Int64} {f : Fact} (hlo : f.lo.toInt ≤ l.toInt)
    (hlt : l.toInt < r.toInt) (hhi : r.toInt ≤ f.hi.toInt) : f.clip l r = some ⟨f.obj, l, r⟩ := by
  have hl : (if f.lo < l then l else f.lo) = l := by
    split
    · rfl
    · next hnot =>
      rw [Int64.lt_iff_toInt_lt] at hnot
      exact Int64.toInt_inj.1 (by omega)
  have hr : (if r < f.hi then r else f.hi) = r := by
    split
    · rfl
    · next hnot =>
      rw [Int64.lt_iff_toInt_lt] at hnot
      exact Int64.toInt_inj.1 (by omega)
  rw [clip]
  simp only [hl, hr]
  exact if_pos (Int64.lt_iff_toInt_lt.2 hlt)

theorem Fact.mem_objects {fs : List Fact} {o : NodeId} :
    o ∈ objects fs ↔ ∃ f ∈ fs, f.obj = o := by
  simp [objects]

namespace Query

/-- The pointer holds its own facts, and they say that it points to the objects
of `O` under each of `span` contexts. -/
structure PointsEverywhere (facts : FactStore) (ptr : NodeId) (span : Int64) (O : Set NodeId) :
    Prop where
  own : facts.representative ptr = some ptr
  mem_iff : ∀ f, f ∈ facts.factsOf ptr ↔
    f.obj ∈ O ∧ f.lo = 1 ∧ f.hi.toInt = span.toInt + 1

/-- **Asked for intervals of these contexts, the pointer points to all its objects
under each of them.** -/
theorem PointsEverywhere.mem_objectsUnder {facts : FactStore} {ptr : NodeId} {span : Int64}
    {O : Set NodeId} (h : PointsEverywhere facts ptr span O)
    (hspan : span.toInt < Context.largest.toInt) {is : List (Int64 × Int64)}
    (his : ∀ i ∈ is, 1 ≤ i.1.toInt ∧ i.1.toInt < i.2.toInt ∧ i.2.toInt ≤ span.toInt + 1)
    {f : Fact} : f ∈ objectsUnder facts ptr is ↔ f.obj ∈ O ∧ (f.lo, f.hi) ∈ is := by
  have hclip : ∀ i ∈ is, ∀ f ∈ facts.factsOf ptr, f.clip i.1 i.2 = some ⟨f.obj, i.1, i.2⟩ := by
    intro i hi f hf
    obtain ⟨hone, hlt, hle⟩ := his i hi
    obtain ⟨-, hlo, hhi⟩ := (h.mem_iff f).1 hf
    refine Fact.clip_of_covers ?_ hlt (by omega)
    rw [hlo, Int64.toInt_one]
    exact hone
  simp only [objectsUnder, List.mem_flatMap, FactStore.contextObjects, List.mem_filterMap]
  constructor
  · rintro ⟨i, hi, f', hf', heq⟩
    obtain rfl := Option.some.inj ((hclip i hi f' hf').symm.trans heq)
    exact ⟨((h.mem_iff f').1 hf').1, hi⟩
  · rintro ⟨hO, hi⟩
    have hnext := Context.toInt_add_one hspan
    have hf' : ⟨f.obj, 1, span + 1⟩ ∈ facts.factsOf ptr := (h.mem_iff _).2 ⟨hO, rfl, hnext⟩
    exact ⟨_, hi, _, hf', hclip _ hi _ hf'⟩

/-- **Facts under all contexts are found along calls.** Let the contexts of every
component that the root reaches be countable, and let a variable of a
method point to some objects under all contexts of the method. The query
by any edge with contexts is answered with yes. It delivers all these
objects if the callee of the edge reaches the method, and nothing
otherwise; what it delivers holds under contexts of the method. -/
theorem byAnyEdge_delivers_iff {g g' : CallGraph} {c : Condensation} (hw : g.WellFormed)
    (hfew : g.edges.size < 2 ^ 63) (hcond : g.condense g.representatives = .ok (g', c))
    {maxSpan : Int64} (hcount : ∀ t, c.isReachable t →
      let b := (g'.encode c maxSpan).2.blockD t
      b.size.toInt * b.num.toInt < Context.largest.toInt)
    {nodes : Universe} {facts : FactStore} {ptr : NodeId} {O : Set NodeId}
    (hmethod : g.hasMethod (nodes.methodOf ptr))
    (hfacts : PointsEverywhere facts ptr
      ((g'.encode c maxSpan).2.blockD (nodes.methodOf ptr)).span O)
    {e : Edge} (he : e ∈ (g'.encode c maxSpan).1.edges) (hmapped : e.mapped) {q : Querier}
    (hq : q.Reached c.size) :
    let sc : Scene := ⟨(g'.encode c maxSpan).1, (g'.encode c maxSpan).2, nodes, facts⟩
    let span := (sc.encoding.blockD (nodes.methodOf ptr)).span
    ∃ (q' : Querier) (found : List Fact),
      (byAnyEdge sc e.toCallSite ptr Visitor.collect).go (q, []) = (.ok true, q', found) ∧
      {o | o ∈ Fact.objects found} = {o ∈ O | g.Reaches e.callee (nodes.methodOf ptr)} ∧
      ∀ f ∈ found, 1 ≤ f.lo.toInt ∧ f.lo.toInt < f.hi.toInt ∧ f.hi.toInt ≤ span.toInt + 1 := by
  intro sc span
  obtain ⟨share, h⟩ := CallGraph.encoded_of_condense hw hfew hcond maxSpan
  have htarget : sc.graph.hasMethod (nodes.methodOf ptr) := by
    rw [CallGraph.hasMethod_of_condense hw hfew hcond]
    exact hmethod
  obtain ⟨hcaller, hcallee⟩ := h.hasMethod_of_mapped he hmapped
  have hreach := h.condensed.isReachable_callee he ((h.mapped_iff he).1 hmapped)
  have hwithin := h.requestsFrom_within hcount htarget he hmapped
  have hmem : ∀ f, f ∈ objectsUnder facts ptr _ ↔ _ := fun f =>
    hfacts.mem_objectsUnder (h.span_lt_largest hcount htarget).2 hwithin
  have hc : Condensed sc.graph sc.encoding.graph := h.condensed
  have hown : sc.facts.representative ptr = some ptr := hfacts.own
  obtain ⟨q', hgo⟩ := byAnyEdge_visits hc (fun m hm => h.size_pos hm)
    (h.condensed.wellFormed.edge?_eq he) hmapped (h.block_eq _ hcaller) hcallee hown htarget
    hq.ready Visitor.collect []
  rw [Visitor.go_takeAll_collect] at hgo
  refine ⟨q', _, hgo, ?_, fun f hf => hwithin _ ((hmem f).1 hf).2⟩
  rw [← CallGraph.reaches_of_condense hw hfew hcond maxSpan]
  ext o
  rw [Set.mem_ofPred_eq, Fact.mem_objects, Set.mem_ofPred_eq,
    ← h.requestsFrom_ne_nil_iff htarget hreach (sc.encoding.blockD e.caller).size e.offset]
  constructor
  · rintro ⟨f, hf, rfl⟩
    obtain ⟨hO, hi⟩ := (hmem f).1 hf
    exact ⟨hO, List.ne_nil_of_mem hi⟩
  · rintro ⟨hO, hne⟩
    obtain ⟨i, hi⟩ := List.exists_mem_of_ne_nil _ hne
    exact ⟨⟨o, i.1, i.2⟩, (hmem _).2 ⟨hO, hi⟩, rfl⟩

/-- A variable of the method called last points to itself under both of its
contexts, and the query by the second entry delivers it. -/
theorem byAnyEdge_delivers_twoEntries :
    let g := (CallGraph.twoEntriesMarked.encode CallGraph.twoEntriesCondensed 1).1
    let enc := (CallGraph.twoEntriesMarked.encode CallGraph.twoEntriesCondensed 1).2
    let sc : Scene := ⟨g, enc, { nodes := #[{}, { id := 1, method := 2 }] }, .add .empty 1 1 1 3⟩
    PointsEverywhere sc.facts 1 (enc.blockD 2).span {1} ∧
      ∃ (q' : Querier) (found : List Fact),
        (byAnyEdge sc ⟨0, 1, 2⟩ 1 Visitor.collect).go (Querier.new 3, []) =
          (.ok true, q', found) ∧ {o | o ∈ Fact.objects found} = {1} := by
  intro g enc sc
  have hspan : (enc.blockD 2).span = 2 := by decide +kernel
  obtain ⟨hown, hfacts⟩ := FactStore.single (n := 1) (o := 1) (l := 1) (r := 3) (by decide)
    (by decide)
  have heverywhere : PointsEverywhere sc.facts 1 (enc.blockD 2).span {1} := by
    refine ⟨hown, fun f => ?_⟩
    rw [hfacts, List.mem_singleton, hspan, Set.mem_singleton_iff]
    constructor
    · rintro rfl
      exact ⟨rfl, rfl, rfl⟩
    · rintro ⟨hobj, hlo, hhi⟩
      have hhi' : f.hi = 3 := Int64.toInt_inj.1 hhi
      rw [← hobj, ← hlo, ← hhi']
  have hedge : (⟨⟨0, 1, 2⟩, false, 2⟩ : Edge) ∈ g.edges := by decide +kernel
  have hreaches : CallGraph.twoEntries.Reaches 1 2 :=
    CallGraph.Reaches.of_edge (e := ⟨⟨1, 2, 4⟩, false, 0⟩) (by decide +kernel)
  obtain ⟨q', found, hgo, hobjects, -⟩ := byAnyEdge_delivers_iff CallGraph.wellFormed_twoEntries
    (by decide) CallGraph.condense_twoEntries CallGraph.countable_twoEntries
    (show CallGraph.twoEntries.hasMethod (sc.nodes.methodOf 1) by decide) heverywhere hedge
    (by decide) .new
  refine ⟨heverywhere, q', found, hgo, hobjects.trans (Set.ext fun o => ?_)⟩
  exact and_iff_left hreaches

end Query

end PointsTo
