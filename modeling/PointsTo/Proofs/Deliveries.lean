import PointsTo.Proofs.Chains
import PointsTo.Proofs.Freezing
/-!
# What queries hand over

An encoding `Serves` a graph if the graph is condensed by it and its blocks
hold contexts, whatever the offsets are. A builder leaves such an encoding
behind when it freezes, and replacing offsets and blocks keeps it one. On a
graph that is served a query does not stop by itself: it hands the same
facts to whoever takes them, and stops if he does (`delivers_ask`).
-/

namespace PointsTo

variable {g g' : CallGraph} {enc : Encoding} {c : Condensation}

/-! ## Encodings that serve a graph -/

/-- **The encoding serves the graph**: it belongs to a condensation of it, and its
blocks hold contexts. -/
structure Encoding.Serves (enc : Encoding) (g : CallGraph) : Prop where
  condensed : Condensed g enc.graph
  callee : ∀ e ∈ g.edges, g.hasMethod e.callee
  blocks : enc.blocks.size = enc.graph.size
  positive : ∀ b ∈ enc.blocks, 0 < b.size

namespace Encoding.Serves

theorem of_unmapped (h : enc.Serves g) (hcalls : g'.unmapped = g.unmapped) : enc.Serves g' where
  condensed := CallGraph.condensed_of_unmapped hcalls h.condensed
  callee e he := by
    obtain ⟨e₀, he₀, hcall, -⟩ := CallGraph.mem_of_unmapped hcalls he
    rw [CallGraph.hasMethod, CallGraph.size_of_unmapped hcalls, ← hcall]
    exact h.callee e₀ he₀
  blocks := h.blocks
  positive := h.positive

/-- The layout of a method can be replaced by another one with contexts. -/
theorem setBlock (h : enc.Serves g) {m : MethodId} (hm : g.hasMethod m) {b : Block}
    (hb : 0 < b.size) : ∃ enc', enc.setBlock m b = .ok enc' ∧ enc'.Serves g := by
  have hsome : (slot? enc.blocks m).isSome := by
    rw [slot?_isSome, h.blocks, h.condensed.size]
    exact CallGraph.hasMethod_iff.1 hm
  obtain ⟨old, hold⟩ := Option.isSome_iff_exists.1 hsome
  refine ⟨{ enc with blocks := enc.blocks.modify m.toNat fun _ => b },
    by rw [Encoding.setBlock, block, hold]; rfl, h.condensed, h.callee, ?_, fun b' hb' => ?_⟩
  · exact Array.size_modify.trans h.blocks
  · obtain rfl | hold' := eq_or_mem_of_mem_modify hb'
    · exact hb
    · exact h.positive b' hold'

end Encoding.Serves

namespace Encoding.Filling

variable {f : Filling} {span : Int64}

theorem layout_pos (hspan : 0 < span) (r : MethodId) : 0 < (f.layout span r).size := by
  unfold layout
  split
  · decide
  · dsimp only
    split
    · dsimp only
      split
      · next hused => exact Int64.lt_trans (by decide) hused
      · decide
    · exact hspan

theorem blocks_place (size : Int64) (i : Nat) : (place c span size f i).blocks = f.blocks := by
  unfold place
  split <;> rfl

/-- Laying out a component leaves contexts in every block. -/
theorem component_positive (hspan : 0 < span) (hf : ∀ b ∈ f.blocks, 0 < b.size) (r : MethodId) :
    (component c span f r).blocks.size = f.blocks.size ∧
      ∀ b ∈ (component c span f r).blocks, 0 < b.size := by
  have hmembers : ∀ ms : List MethodId,
      let blocks := ms.foldl (fun bs m => bs.modify m.toNat fun _ => f.layout span r) f.blocks
      blocks.size = f.blocks.size ∧ ∀ b ∈ blocks, 0 < b.size := by
    refine fun ms => foldl_run (fun _ (bs : Array Block) =>
      bs.size = f.blocks.size ∧ ∀ b ∈ bs, 0 < b.size) ⟨rfl, hf⟩ ?_
    intro _ m bs _ hbs
    refine ⟨Array.size_modify.trans hbs.1, fun b hb => ?_⟩
    obtain rfl | hold := eq_or_mem_of_mem_modify hb
    · exact layout_pos hspan r
    · exact hbs.2 b hold
  -- handing out contexts does not touch the blocks
  exact foldl_run (fun _ (st : Filling) =>
    st.blocks.size = f.blocks.size ∧ ∀ b ∈ st.blocks, 0 < b.size) (hmembers (c.membersOf r))
    fun _ i st _ hst => by rwa [blocks_place]

end Encoding.Filling

/-- **Encoding a condensed graph serves it.** -/
theorem CallGraph.serves_encode (hc : Condensed g c) (hcallee : ∀ e ∈ g.edges, g.hasMethod e.callee)
    (maxSpan : Int64) : (g.encode c maxSpan).2.Serves (g.encode c maxSpan).1 := by
  have hspan : 0 < Encoding.effectiveSpan maxSpan := by
    rw [Int64.lt_iff_toInt_lt, Int64.toInt_zero]
    exact one_le_effectiveSpan maxSpan
  have hfilled : (g.filling c maxSpan).blocks.size = c.size ∧
      ∀ b ∈ (g.filling c maxSpan).blocks, 0 < b.size := by
    refine foldl_run (fun _ (st : Encoding.Filling) =>
      st.blocks.size = c.size ∧ ∀ b ∈ st.blocks, 0 < b.size) ⟨by simp, fun b hb => ?_⟩ ?_
    · obtain ⟨-, rfl⟩ := Array.mem_replicate.1 hb
      decide
    · intro _ r st _ hst
      obtain ⟨hsize, hpos⟩ := Encoding.Filling.component_positive (c := c) hspan hst.2 r
      exact ⟨hsize.trans hst.1, hpos⟩
  have hserves : (⟨c, (g.filling c maxSpan).blocks⟩ : Encoding).Serves g :=
    ⟨hc, hcallee, hfilled.1, hfilled.2⟩
  exact hserves.of_unmapped (unmapped_encode_of_any g c maxSpan)

/-- **A frozen graph is served by its encoding**, and has the methods of the
universe. -/
theorem Builder.Growing.serves_of_freeze {u : Universe} {b b' : Builder} {added : List CallSite}
    (h : Growing u added b) {r : Frozen} {disk disk' : Disk}
    (hgo : (Builder.freeze u).go (b, disk) = (.ok r, b', disk')) :
    r.encoding.Serves b'.graph ∧ u.numMethods ≤ b'.graph.size := by
  have hg : (b.graph.ensure (u.numMethods - 1)).Lasting := h.graph.ensure _
  obtain ⟨g, c, hcond⟩ := CallGraph.exists_condense hg.toWellFormed hg.callee
  have hc : Condensed g c := CallGraph.condensed_of_condense hg.toWellFormed hcond
  have hserves : (g.encode c b.config.maxContextSpan).2.Serves
      (g.encode c b.config.maxContextSpan).1 := by
    refine CallGraph.serves_encode hc (fun e he => ?_) _
    obtain ⟨e₀, he₀, hcall⟩ := CallGraph.mem_of_condense hcond he
    rw [CallGraph.hasMethod, CallGraph.size_of_condense hcond, hcall]
    exact hg.callee e₀ he₀
  obtain ⟨b₁, disk₁, hfrozen, hgraph⟩ :=
    go_freeze_of_condensed disk h.unfrozen hcond hserves.condensed
  obtain ⟨hr, hend⟩ := Prod.mk.inj (hgo.symm.trans hfrozen)
  obtain ⟨rfl, -⟩ := Prod.mk.inj hend
  obtain rfl := Except.ok.inj hr
  rw [hgraph]
  refine ⟨hserves, ?_⟩
  rw [CallGraph.size_of_unmapped (CallGraph.unmapped_encode_of_any g c _),
    CallGraph.size_of_condense hcond]
  simp only [CallGraph.ensure]
  omega

/-! ## What is handed over -/

namespace Query

variable {sc : Scene} {q : Querier}

/-- **The query hands these facts over**, whoever takes them. It stops if he stops it, and
otherwise it has that answer. -/
def HandsOver (query : (σ : Type) → Visitor σ → Attempt (State σ) Bool) (q : Querier)
    (fs : List Fact) (answer : Bool) : Prop :=
  ∀ (σ : Type) (v : Visitor σ) (s : σ), ∃ q' : Querier, (query σ v).go (q, s) =
    (((v.takeAll fs).go s).1.map fun _ => answer, q', ((v.takeAll fs).go s).2)

/-- What is collected is what is handed over. -/
theorem HandsOver.collected {query : (σ : Type) → Visitor σ → Attempt (State σ) Bool}
    {fs : List Fact} {answer : Bool} (h : HandsOver query q fs answer) :
    ∃ q' : Querier, (query _ Visitor.collect).go (q, []) = (.ok answer, q', fs) := by
  obtain ⟨q', hgo⟩ := h _ Visitor.collect []
  rw [Visitor.go_takeAll_collect] at hgo
  exact ⟨q', hgo⟩

theorem Scene.encodes_of_serves (h : sc.encoding.Serves sc.graph) :
    sc.Encodes sc.graph sc.encoding.graph := ⟨rfl, rfl, h.blocks, h.positive⟩

variable (h : sc.encoding.Serves sc.graph)

include h

theorem handsOver_byAnyEdge (hq : q.Ready sc.encoding.graph.size) (cs : CallSite) (ptr : NodeId) :
    ∃ fs answer, HandsOver (fun _ => byAnyEdge sc cs ptr) q fs answer := by
  match hnode : sc.facts.representative ptr, hedge : sc.graph.edge? cs with
  | none, _ | some _, none =>
    refine ⟨[], false, fun σ v s => ⟨q, ?_⟩⟩
    simp only [byAnyEdge, hnode, hedge]
    rfl
  | some node, some e =>
    by_cases hskip : (!e.mapped || (sc.encoding.graph.rep? (sc.nodes.methodOf ptr)).isNone) = true
    · refine ⟨[], false, fun σ v s => ⟨q, ?_⟩⟩
      simp only [byAnyEdge, hnode, hedge, hskip, if_true]
      rfl
    · have hsc := Scene.encodes_of_serves h
      obtain ⟨he, -⟩ := CallGraph.edge?_eq_some hedge
      simp only [Bool.or_eq_true, Bool.not_eq_true', Option.isNone_iff_eq_none, not_or,
        Bool.not_eq_false] at hskip
      have htarget := h.condensed.rep?_isSome.1 (Option.isSome_iff_ne_none.2 hskip.2)
      refine ⟨objectsUnder sc.facts node (sc.encoding.requestsFrom sc.graph
        (sc.nodes.methodOf ptr) (sc.encoding.blockD e.caller).size e.callee e.offset), true,
        fun σ v s => ?_⟩
      exact byAnyEdge_visits h.condensed (fun m _ => hsc.blockD_pos m) hedge hskip.1
        (hsc.block_eq h.condensed (h.condensed.wellFormed.caller e he)) (h.callee e he) hnode
        htarget hq v s

/-- A chain of calls of the graph is followed to its end. -/
theorem exists_follow : ∀ (es : List (Option Edge)) (x : Int64),
    (∀ e, some e ∈ es → e ∈ sc.graph.edges) → ∃ o, sc.encoding.follow es x = .ok o := by
  have hsc := Scene.encodes_of_serves h
  intro es
  induction es with
  | nil => exact fun x _ => ⟨some x, rfl⟩
  | cons e? es ih =>
    intro x hes
    cases e? with
    | none => exact ⟨none, rfl⟩
    | some e =>
      have hblock := hsc.block_eq h.condensed
        (h.condensed.wellFormed.caller e (hes e List.mem_cons_self))
      have hsize : (sc.encoding.blockD e.caller).size ≠ 0 :=
        (Int64.ne_of_lt (hsc.blockD_pos e.caller)).symm
      have hmap : sc.encoding.mapThrough e x =
          .ok (e.offset + (x - 1) % (sc.encoding.blockD e.caller).size) := by
        rw [Encoding.mapThrough, hblock]
        show (Encoding.inBlock (sc.encoding.blockD e.caller) x >>= fun place =>
          Except.ok (e.offset + place)) = _
        rw [Encoding.inBlock, if_neg hsize]
        rfl
      rw [Encoding.follow]
      split
      · rw [hmap]
        exact ih _ fun e' he' => hes e' (List.mem_cons_of_mem _ he')
      · exact ⟨none, rfl⟩

theorem handsOver_byChain (chain : List CallSite) (ptr : NodeId) :
    ∃ fs answer, HandsOver (fun _ => byChain sc chain ptr) q fs answer := by
  have hno : ∀ {query : (σ : Type) → Visitor σ → Attempt (State σ) Bool},
      (∀ σ v, query σ v = pure false) → ∃ fs answer, HandsOver query q fs answer := by
    intro query hquery
    refine ⟨[], false, fun σ v s => ⟨q, ?_⟩⟩
    rw [hquery]
    rfl
  match hnode : sc.facts.representative ptr, hedges : chain.map sc.graph.edge? with
  | none, _ => exact hno fun σ v => by simp only [byChain, hnode]
  | some node, [] => exact hno fun σ v => by simp only [byChain, hnode, hedges]
  | some node, none :: es => exact hno fun σ v => by simp only [byChain, hnode, hedges]
  | some node, some first :: es =>
    have hmem : ∀ e, some e ∈ some first :: es → e ∈ sc.graph.edges := by
      intro e he
      rw [← hedges] at he
      obtain ⟨cs, -, hcs⟩ := List.mem_map.1 he
      exact (CallGraph.edge?_eq_some hcs).1
    by_cases hnone : (some first :: es).contains none
    · exact hno fun σ v => by simp only [byChain, hnode, hedges, hnone, if_true]
    · obtain ⟨o, ho⟩ := exists_follow h (some first :: es) 1 hmem
      have hcompose : sc.encoding.compose (some first :: es) = .ok o := ho
      cases o with
      | none =>
        refine hno fun σ v => ?_
        simp only [byChain, hnode, hedges, hnone, hcompose]
        rfl
      | some l =>
        have hblock := (Scene.encodes_of_serves h).block_eq h.condensed
          (h.condensed.wellFormed.caller first (hmem first List.mem_cons_self))
        refine ⟨sc.facts.contextObjects node l (l + (sc.encoding.blockD first.caller).size), true,
          fun σ v s => ⟨q, ?_⟩⟩
        simp only [byChain, hnode, hedges, hnone, Bool.false_eq_true, if_false, hcompose, hblock,
          Attempt.go_bind, Attempt.go_liftM, go_visiting]
        generalize (v.takeAll _).go s = visit
        obtain ⟨visited, s'⟩ := visit
        cases visited <;> rfl

omit h in
/-- Fields are visited up to the first object that has none. -/
theorem handsOver_fieldOfAll (f : FieldId) (os : List Fact) :
    ∃ fs answer, HandsOver (fun _ v => fieldOfAll sc f v os) q fs answer := by
  induction os with
  | nil => exact ⟨[], true, fun σ v s => ⟨q, rfl⟩⟩
  | cons o os ih =>
    match hfields : fieldObjects sc f o with
    | none =>
      refine ⟨[], false, fun σ v s => ⟨q, ?_⟩⟩
      simp only [fieldOfAll, hfields]
      rfl
    | some first =>
      obtain ⟨fs, answer, hrest⟩ := ih
      refine ⟨first ++ fs, answer, fun σ v s => ?_⟩
      simp only [fieldOfAll, hfields, Visitor.takeAll_append, Attempt.go_bind, go_visiting]
      match (v.takeAll first).go s with
      | (.ok (), s') => exact hrest σ v s'
      | (.error e, s') => exact ⟨q, rfl⟩

/-- The fields of the objects that any caller has are handed over all at once. -/
theorem handsOver_fieldByAnyEdge (hq : q.Ready sc.encoding.graph.size) (cs : CallSite)
    (ptr : NodeId) (f : FieldId) :
    ∃ fs answer, HandsOver (fun _ v => fieldByAnyEdge sc cs ptr f v) q fs answer := by
  obtain ⟨objs, found, hinner⟩ := handsOver_byAnyEdge h hq cs ptr
  obtain ⟨q₁, hcollected⟩ := hinner.collected
  cases found with
  | false =>
    refine ⟨[], false, fun σ v s => ⟨q₁, ?_⟩⟩
    rw [go_fieldByAnyEdge, hcollected]
    rfl
  | true =>
    refine ⟨objs.flatMap fun o => (fieldObjects sc f o).getD [], true, fun σ v s => ⟨q₁, ?_⟩⟩
    rw [go_fieldByAnyEdge, hcollected]
    show (((v.takeAll _ >>= fun _ => pure true).go s).1, q₁,
      ((v.takeAll _ >>= fun _ => pure true).go s).2) = _
    rw [Attempt.go_bind]
    generalize (v.takeAll _).go s = visit
    obtain ⟨visited, s'⟩ := visit
    cases visited <;> rfl

/-- Those of the objects at the end of a chain are handed over object by object. -/
theorem handsOver_fieldByChain (chain : List CallSite) (ptr : NodeId) (f : FieldId) :
    ∃ fs answer, HandsOver (fun _ v => fieldByChain sc chain ptr f v) q fs answer := by
  obtain ⟨objs, found, hinner⟩ := handsOver_byChain h (q := q) chain ptr
  obtain ⟨q₁, hcollected⟩ := hinner.collected
  cases found with
  | false =>
    refine ⟨[], false, fun σ v s => ⟨q₁, ?_⟩⟩
    show (fieldByChain sc chain ptr f v).go (q, s) = _
    rw [fieldByChain, Attempt.go_bind, go_collecting, hcollected]
    rfl
  | true =>
    obtain ⟨fs, answer, hfields⟩ : ∃ fs answer,
        HandsOver (fun _ v => fieldOfAll sc f v objs) q₁ fs answer := handsOver_fieldOfAll f objs
    refine ⟨fs, answer, fun σ v s => ?_⟩
    obtain ⟨q₂, hgo⟩ := hfields σ v s
    refine ⟨q₂, ?_⟩
    show (fieldByChain sc chain ptr f v).go (q, s) = _
    rw [fieldByChain, Attempt.go_bind, go_collecting, hcollected]
    exact hgo

/-- **A query does not stop by itself.** -/
theorem handsOver_ask (hq : q.Ready sc.encoding.graph.size) (question : Question) :
    ∃ fs answer, HandsOver (fun _ v => ask sc v question) q fs answer := by
  cases question with
  | anyEdge cs ptr => exact handsOver_byAnyEdge h hq cs ptr
  | chain chain ptr => exact handsOver_byChain h chain ptr
  | fieldAnyEdge cs ptr f => exact handsOver_fieldByAnyEdge h hq cs ptr f
  | fieldChain chain ptr f => exact handsOver_fieldByChain h chain ptr f

end Query

end PointsTo
