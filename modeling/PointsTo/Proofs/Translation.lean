import PointsTo.Proofs.Chains
/-!
# Chains move intervals of contexts

An edge takes a context by its place in a block of the caller, so it moves
the contexts of one block by a fixed amount and merges the blocks. The
contexts it leads to lie in one block again, and the next edge moves them
as a whole. Following the first context along a chain therefore says where
all of them go, as long as no number on the way is too large: an edge is
`Bounded` if its range ends at a machine number.
-/

namespace PointsTo

namespace Encoding

/-- The contexts the edge leads to, and the number after the last of them,
can be represented. -/
def Bounded (enc : Encoding) (e : Edge) : Prop :=
  e.offset.toInt + (enc.blockD e.caller).size.toInt ≤ Context.largest.toInt

/-- The `n` numbers from `l` on are contexts that the edge leads to. -/
def Carries (enc : Encoding) (e : Edge) (l n : Int) : Prop :=
  e.offset.toInt ≤ l ∧ l + n ≤ e.offset.toInt + (enc.blockD e.caller).size.toInt

/-- The context that edges lead to one after the other. -/
def alongFrom (enc : Encoding) (x : Int64) (p : List Edge) : Except Fault Int64 :=
  p.foldlM (fun x e => enc.mapThrough e x) x

variable {enc : Encoding} {e : Edge} {x y : Int64} {p : List Edge}

theorem alongFrom_cons (h : enc.mapThrough e x = .ok y) :
    enc.alongFrom x (e :: p) = enc.alongFrom y p := by
  rw [alongFrom, List.foldlM_cons, h]
  rfl

/-- Following a chain is going along its edges, if all of them have contexts. -/
theorem follow_of_alongFrom (hp : ∀ e ∈ p, e.mapped) (h : enc.alongFrom x p = .ok y) :
    enc.follow (p.map some) x = .ok (some y) := by
  induction p generalizing x with
  | nil =>
    obtain rfl : x = y := Except.ok.inj h
    rfl
  | cons e p ih =>
    rw [List.map_cons, follow, if_pos (hp e List.mem_cons_self)]
    cases hx : enc.mapThrough e x with
    | error f =>
      rw [alongFrom, List.foldlM_cons, hx] at h
      cases h
    | ok z =>
      rw [alongFrom_cons hx] at h
      exact ih (fun e he => hp e (List.mem_cons_of_mem _ he)) h

/-- Composing a chain is going along it from the first context. -/
theorem compose_of_alongFrom (hp : ∀ e' ∈ e :: p, e'.mapped)
    (h : enc.alongFrom 1 (e :: p) = .ok y) : enc.compose ((e :: p).map some) = .ok (some y) := by
  rw [compose, if_neg (by simp)]
  exact follow_of_alongFrom hp h

end Encoding

namespace Encoded

variable {g : CallGraph} {enc : Encoding} {span : Int64} {share : Edge → Share}
  (h : Encoded g enc span share)

include h

/-- The methods of a component share a block. -/
theorem blockD_eq {a b : MethodId} (ha : g.hasMethod a) (hb : g.hasMethod b)
    (hrep : enc.graph.repD a = enc.graph.repD b) : enc.blockD a = enc.blockD b := by
  rw [← h.blockD_repD a ha, hrep, h.blockD_repD b hb]

/-- **Countable contexts keep every range bounded.** -/
theorem bounded_of_countable (hcount : ∀ t, enc.graph.isReachable t →
      (enc.blockD t).size.toInt * (enc.blockD t).num.toInt < Context.largest.toInt)
    {e : Edge} (he : e ∈ g.edges) (hmapped : e.mapped) : enc.Bounded e := by
  have hreach := (h.mapped_iff he).1 hmapped
  have hreach' := h.condensed.isReachable_callee he hreach
  have hcallee := h.condensed.hasMethod _ hreach'
  have hlt := hcount _ hreach'
  rw [Encoding.Bounded]
  by_cases hin : e.inComponent
  · have hblock := (h.mapThrough_inComponent he hmapped hin 1).2
    have hle := le_mul_of_one_le_right (Int.le_of_lt (h.size_mem_Icc hcallee).1)
      (h.one_le_num hcallee)
    rw [h.inner e he hreach hin, Int64.toInt_one, ← hblock]
    omega
  · have hentering := h.mem_entering_of_mapped he hmapped hin
    obtain ⟨-, -, hsize⟩ := h.between_of_entering hentering
    have hle := h.share_le hcallee hentering
    rw [h.offset_eq hcallee (Int.le_of_lt hlt) hentering]
    omega

section Edge

variable {e : Edge} (he : e ∈ g.edges) (hmapped : e.mapped) (hbound : enc.Bounded e)

include he hmapped hbound

/-- **Where a bounded edge leads to**: into one block of its callee. -/
theorem lands : 1 ≤ e.offset.toInt ∧
    (e.offset.toInt - 1) % (enc.blockD e.callee).size.toInt + (enc.blockD e.caller).size.toInt ≤
      (enc.blockD e.callee).size.toInt ∧
    e.offset.toInt + (enc.blockD e.caller).size.toInt ≤
      (enc.blockD e.callee).size.toInt * (enc.blockD e.callee).num.toInt + 1 := by
  have hreach := (h.mapped_iff he).1 hmapped
  obtain ⟨hcaller, hcallee⟩ := h.hasMethod_of_mapped he hmapped
  have hpos := (h.size_mem_Icc hcaller).1
  by_cases hin : e.inComponent
  · have hblock := (h.mapThrough_inComponent he hmapped hin 1).2
    have hle := le_mul_of_one_le_right (Int.le_of_lt hpos) (h.one_le_num hcaller)
    rw [h.inner e he hreach hin, hblock, Int64.toInt_one, Int.sub_self, Int.zero_emod]
    omega
  · have hentering := h.mem_entering_of_mapped he hmapped hin
    obtain ⟨-, hoffset, hsize⟩ := h.between_of_entering hentering
    have hone := h.share_oneBlock hcallee hentering
    have hle := h.share_le hcallee hentering
    -- an offset that has been cut off would leave no room for a context
    have hexact : e.offset.toInt = (share e).start + 1 := by
      rw [Encoding.Bounded] at hbound
      omega
    rw [hexact, Int.add_sub_cancel]
    omega

/-- The sum that an edge makes of a context is exact. -/
theorem toInt_through_of_bounded {x : Int64} (hx : 1 ≤ x.toInt) :
    (e.offset + (x - 1) % (enc.blockD e.caller).size).toInt =
      e.offset.toInt + (x.toInt - 1) % (enc.blockD e.caller).size.toInt := by
  have hpos := (h.size_mem_Icc (h.hasMethod_of_mapped he hmapped).1).1
  obtain ⟨hnonneg, hlt⟩ := Context.toInt_place_mem hx hpos
  obtain ⟨hone, -⟩ := h.lands he hmapped hbound
  have hlargest := Context.toInt_largest
  rw [Encoding.Bounded] at hbound
  rw [← Context.toInt_place hx]
  exact Context.toInt_add_of_le (by omega) (by omega)

/-- A context that the edge leads to has the place of the offset in the block
of the callee, moved on by as much as the context is beyond the offset. -/
theorem emod_of_carries {x : Int} (hx : enc.Carries e x 1) :
    (x - 1) % (enc.blockD e.callee).size.toInt =
      (e.offset.toInt - 1) % (enc.blockD e.callee).size.toInt + (x - e.offset.toInt) := by
  obtain ⟨-, hone, -⟩ := h.lands he hmapped hbound
  have hpos := (h.size_mem_Icc (h.hasMethod_of_mapped he hmapped).2).1
  have hnonneg := Int.emod_nonneg (e.offset.toInt - 1) (b := (enc.blockD e.callee).size.toInt)
    (by omega)
  obtain ⟨hlo, hhi⟩ := hx
  have hsplit : x - 1 = e.offset.toInt - 1 + (x - e.offset.toInt) := by omega
  rw [hsplit, ← Int.emod_add_emod, Int.emod_eq_of_lt (by omega) (by omega)]

/-- **The next edge moves the contexts as a whole.** -/
theorem carries_next {f : Edge} (hf : f ∈ g.edges) (hfmapped : f.mapped)
    (hrep : enc.graph.repD f.caller = enc.graph.repD e.callee) {l n : Int} (hn : 1 ≤ n)
    (hcarries : enc.Carries e l n) :
    enc.Carries f (f.offset.toInt + (l - 1) % (enc.blockD f.caller).size.toInt) n := by
  have hblock := h.blockD_eq (h.hasMethod_of_mapped hf hfmapped).1
    (h.hasMethod_of_mapped he hmapped).2 hrep
  obtain ⟨hlo, hhi⟩ := hcarries
  have hplace := h.emod_of_carries he hmapped hbound (x := l) ⟨hlo, by omega⟩
  obtain ⟨-, hone, -⟩ := h.lands he hmapped hbound
  have hpos := (h.size_mem_Icc (h.hasMethod_of_mapped he hmapped).2).1
  have hnonneg := Int.emod_nonneg (l - 1) (b := (enc.blockD e.callee).size.toInt) (by omega)
  rw [Encoding.Carries, hblock]
  omega

end Edge

/-- **A chain moves the contexts of its first edge by a fixed amount**, to
contexts that its last edge leads to. -/
theorem exists_shift (hbound : ∀ e ∈ g.edges, e.mapped → enc.Bounded e) {target m : MethodId}
    {es : List Edge} (hchain : g.Chain target m es) {e : Edge} (he : e ∈ g.edges)
    (hmapped : e.mapped) (hm : e.callee = m) {l n : Int} (hn : 1 ≤ n)
    (hcarries : enc.Carries e l n) :
    ∃ f ∈ g.edges, f.mapped ∧ f.callee = target ∧ ∃ shift : Int, enc.Carries f (l + shift) n ∧
      ∀ x : Int64, l ≤ x.toInt → x.toInt < l + n →
        ∃ y, enc.alongFrom x es = .ok y ∧ y.toInt = x.toInt + shift := by
  induction hchain generalizing e l with
  | nil =>
    refine ⟨e, he, hmapped, hm, 0, by simpa using hcarries, fun x _ _ => ⟨x, rfl, ?_⟩⟩
    rw [Int.add_zero]
  | @cons e' es he' hmapped' hchain ih =>
    have hrep : enc.graph.repD e'.caller = enc.graph.repD e.callee := by rw [hm]
    have hblock : enc.blockD e'.caller = enc.blockD e.callee := by rw [hm]
    have hnext := h.carries_next he hmapped (hbound e he hmapped) he' hmapped' hrep hn hcarries
    obtain ⟨f, hf, hfmapped, hcallee, shift, hend, halong⟩ := ih he' hmapped' rfl hnext
    obtain ⟨hlo, hhi⟩ := hcarries
    have hone := (h.lands he hmapped (hbound e he hmapped)).1
    have hl := h.emod_of_carries he hmapped (hbound e he hmapped) (x := l) ⟨hlo, by omega⟩
    rw [← hblock] at hl
    refine ⟨f, hf, hfmapped, hcallee,
      e'.offset.toInt + (l - 1) % (enc.blockD e'.caller).size.toInt - l + shift, ?_, ?_⟩
    · have heq : l + (e'.offset.toInt + (l - 1) % (enc.blockD e'.caller).size.toInt - l + shift) =
          e'.offset.toInt + (l - 1) % (enc.blockD e'.caller).size.toInt + shift := by omega
      rw [heq]
      exact hend
    · intro x hxlo hxhi
      have hx := h.emod_of_carries he hmapped (hbound e he hmapped) (x := x.toInt)
        ⟨by omega, by omega⟩
      rw [← hblock] at hx
      have hsum := h.toInt_through_of_bounded he' hmapped' (hbound e' he' hmapped')
        (x := x) (by omega)
      obtain ⟨y, hy, hyx⟩ := halong (e'.offset + (x - 1) % (enc.blockD e'.caller).size)
        (by omega) (by omega)
      refine ⟨y, ?_, by omega⟩
      rw [Encoding.alongFrom_cons (h.mapThrough_eq he' x)]
      exact hy

/-! ## What a query by a chain looks at -/

/-- The number of contexts, if it can be counted. -/
theorem toInt_span {m : MethodId} (hm : g.hasMethod m)
    (hcount : (enc.blockD m).size.toInt * (enc.blockD m).num.toInt ≤ Context.largest.toInt) :
    (enc.blockD m).span.toInt = (enc.blockD m).size.toInt * (enc.blockD m).num.toInt := by
  have hsize := (h.size_mem_Icc hm).1
  have hnum := h.one_le_num hm
  rw [Block.span, Context.toInt_satMul (by omega) (by omega)]
  omega

/-- What an edge leads to lies in one block of its callee. -/
theorem exists_block_of_carries {e : Edge} (he : e ∈ g.edges) (hmapped : e.mapped)
    (hbound : enc.Bounded e) {l n : Int} (hn : 1 ≤ n) (hcarries : enc.Carries e l n) :
    ∃ k ∈ Set.Ico 0 (enc.blockD e.callee).num.toInt, Set.Ico l (l + n) ⊆
      Set.Icc (k * (enc.blockD e.callee).size.toInt + 1)
        ((k + 1) * (enc.blockD e.callee).size.toInt) := by
  obtain ⟨hone, hblock, hspan⟩ := h.lands he hmapped hbound
  have hpos := (h.size_mem_Icc (h.hasMethod_of_mapped he hmapped).2).1
  obtain ⟨hlo, hhi⟩ := hcarries
  have hplace := h.emod_of_carries he hmapped hbound (x := l) ⟨hlo, by omega⟩
  generalize (enc.blockD e.callee).size.toInt = size at *
  generalize (enc.blockD e.callee).num.toInt = num at *
  have hdiv := Int.emod_add_mul_ediv (l - 1) size
  have hnonneg := Int.emod_nonneg (l - 1) (b := size) (by omega)
  refine ⟨(l - 1) / size, ⟨Int.ediv_nonneg (by omega) (by omega), ?_⟩, fun x hx => ?_⟩
  · rw [Int.ediv_lt_iff_lt_mul (by omega), Int.mul_comm]
    omega
  · rw [Set.mem_Ico] at hx
    rw [Int.mul_comm] at hdiv
    rw [Set.mem_Icc, Int.add_mul, Int.one_mul]
    omega

/-- **Where a chain leads to from any context of its first caller**: as far
beyond where it leads to from the first context as the place in the block
is beyond the first place. -/
theorem exists_interval (hbound : ∀ e ∈ g.edges, e.mapped → enc.Bounded e) {target : MethodId}
    {e : Edge} {es : List Edge} (hchain : g.Chain target e.caller (e :: es)) :
    ∃ l : Int64, (∃ f ∈ g.edges, f.mapped ∧ f.callee = target ∧
        enc.Carries f l.toInt (enc.blockD e.caller).size.toInt) ∧
      ∀ x : Int64, 1 ≤ x.toInt → ∃ y, enc.alongFrom x (e :: es) = .ok y ∧
        y.toInt = l.toInt + (x.toInt - 1) % (enc.blockD e.caller).size.toInt := by
  obtain ⟨he, hmapped, hrest⟩ := hchain.of_suffix List.suffix_rfl
  have hpos := (h.size_mem_Icc (h.hasMethod_of_mapped he hmapped).1).1
  obtain ⟨f, hf, hfmapped, hcallee, shift, hcarries, halong⟩ :=
    h.exists_shift hbound hrest he hmapped rfl hpos ⟨Int.le_refl _, Int.le_refl _⟩
  obtain ⟨l, -, hl⟩ := halong e.offset (Int.le_refl _) (by omega)
  refine ⟨l, ⟨f, hf, hfmapped, hcallee, by rw [hl]; exact hcarries⟩, fun x hx => ?_⟩
  have hsum := h.toInt_through_of_bounded he hmapped (hbound e he hmapped) hx
  have hnonneg := Int.emod_nonneg (x.toInt - 1) (b := (enc.blockD e.caller).size.toInt) (by omega)
  have hlt := Int.emod_lt_of_pos (x.toInt - 1) (b := (enc.blockD e.caller).size.toInt) (by omega)
  obtain ⟨y, hy, hyx⟩ := halong (e.offset + (x - 1) % (enc.blockD e.caller).size)
    (by omega) (by omega)
  refine ⟨y, ?_, by omega⟩
  rw [Encoding.alongFrom_cons (h.mapThrough_eq he x)]
  exact hy

end Encoded

/-- The places in a block, counted from some number, over all contexts of the
blocks. -/
theorem image_emod_eq_Ico {l size span : Int} (hsize : 1 ≤ size) (hspan : size ≤ span)
    (hmax : span < 2 ^ 63) {place : Int64 → Int}
    (hplace : ∀ x, 1 ≤ x.toInt → place x = l + (x.toInt - 1) % size) :
    place '' {x | x.toInt ∈ Set.Icc 1 span} = Set.Ico l (l + size) := by
  ext y
  constructor
  · rintro ⟨x, ⟨hx, -⟩, rfl⟩
    rw [hplace x hx]
    exact ⟨by have := Int.emod_nonneg (x.toInt - 1) (b := size) (by omega); omega,
      by have := Int.emod_lt_of_pos (x.toInt - 1) (b := size) (by omega); omega⟩
  · rintro ⟨hlo, hhi⟩
    have hx : (Int64.ofInt (y - l + 1)).toInt = y - l + 1 :=
      Int64.toInt_ofInt_of_le (by omega) (by omega)
    refine ⟨Int64.ofInt (y - l + 1), ?_, ?_⟩
    · change (Int64.ofInt (y - l + 1)).toInt ∈ Set.Icc 1 span
      rw [hx]
      exact ⟨by omega, by omega⟩
    · rw [hplace _ (by omega), hx, Int.add_sub_cancel, Int.emod_eq_of_lt (by omega) (by omega)]
      omega

/-- With blocks of one context, the contexts of the sample graph can be
counted. -/
theorem CallGraph.countable_twoEntries : ∀ t, twoEntriesCondensed.isReachable t →
    let b := (twoEntriesMarked.encode twoEntriesCondensed 1).2.blockD t
    b.size.toInt * b.num.toInt < Context.largest.toInt := by
  have hall : ∀ t ∈ twoEntriesMarked.methods,
      let b := (twoEntriesMarked.encode twoEntriesCondensed 1).2.blockD t
      b.size.toInt * b.num.toInt < Context.largest.toInt := by
    decide +kernel
  have hc := condensed_of_condense wellFormed_twoEntries condense_twoEntries
  exact fun t ht => hall t (mem_methods.2 (hc.hasMethod t ht))

namespace Query

/-- **A query by a chain is exact.** Let the contexts of every component that the
root reaches be countable. The contexts that a chain of calls leads to from
the contexts of its first caller are then an interval as long as a block of
that caller, from where the first context is led to. It lies in one block
of the last callee and is what the query by the chain looks at. -/
theorem byChain_exact {g g' : CallGraph} {c : Condensation} (hw : g.WellFormed)
    (hfew : g.edges.size < 2 ^ 63) (hcond : g.condense g.representatives = .ok (g', c))
    {maxSpan : Int64} (hcount : ∀ t, c.isReachable t →
      let b := (g'.encode c maxSpan).2.blockD t
      b.size.toInt * b.num.toInt < Context.largest.toInt)
    {target : MethodId} {e : Edge} {es : List Edge}
    (hchain : (g'.encode c maxSpan).1.Chain target e.caller (e :: es)) :
    let g'' := (g'.encode c maxSpan).1
    let enc := (g'.encode c maxSpan).2
    let size := (enc.blockD e.caller).size
    let last := enc.blockD target
    ∃ (l : Int64) (through : Int64 → Int64),
      enc.compose ((e :: es).map some) = .ok (some l) ∧
      (∀ x, 1 ≤ x.toInt → enc.alongFrom x (e :: es) = .ok (through x)) ∧
      (fun x => (through x).toInt) '' {x | x.toInt ∈ Set.Icc 1 (enc.blockD e.caller).span.toInt} =
        Set.Ico l.toInt (l.toInt + size.toInt) ∧
      (l + size).toInt = l.toInt + size.toInt ∧
      Set.Ico l.toInt (l.toInt + size.toInt) ⊆ Set.Icc 1 last.span.toInt ∧
      (∃ k ∈ Set.Ico 0 last.num.toInt, Set.Ico l.toInt (l.toInt + size.toInt) ⊆
        Set.Icc (k * last.size.toInt + 1) ((k + 1) * last.size.toInt)) ∧
      ∀ (nodes : Universe) (facts : FactStore) (ptr node : NodeId),
        facts.representative ptr = some node →
        ∀ (σ : Type) (v : Visitor σ) (q : Querier) (s : σ),
          let visit := (v.takeAll (facts.contextObjects node l (l + size))).go s
          (byChain ⟨g'', enc, nodes, facts⟩ ((e :: es).map (·.toCallSite)) ptr v).go (q, s) =
            (visit.1.map fun _ => true, q, visit.2) := by
  intro g'' enc size last
  obtain ⟨share, h⟩ := CallGraph.encoded_of_condense hw hfew hcond maxSpan
  have hbound : ∀ e ∈ g''.edges, e.mapped → enc.Bounded e := fun e he hmapped =>
    h.bounded_of_countable hcount he hmapped
  have hcountable : ∀ t, c.isReachable t →
      (enc.blockD t).span.toInt = (enc.blockD t).size.toInt * (enc.blockD t).num.toInt :=
    fun t ht => h.toInt_span (h.condensed.hasMethod t ht) (Int.le_of_lt (hcount t ht))
  obtain ⟨he, hmapped⟩ := hchain.mem e List.mem_cons_self
  have hreach : c.isReachable e.caller := (h.mapped_iff he).1 hmapped
  have hcaller := h.condensed.hasMethod _ hreach
  have hsize : 1 ≤ size.toInt := (h.size_mem_Icc hcaller).1
  obtain ⟨l, ⟨f, hf, hfmapped, rfl, hcarries⟩, halong⟩ := h.exists_interval hbound hchain
  obtain ⟨hlo, hhi⟩ : f.offset.toInt ≤ l.toInt ∧
      l.toInt + size.toInt ≤ f.offset.toInt + (enc.blockD f.caller).size.toInt := hcarries
  obtain ⟨hone, -, hspan⟩ : _ ∧ _ ∧ f.offset.toInt + (enc.blockD f.caller).size.toInt ≤
      last.size.toInt * last.num.toInt + 1 := h.lands hf hfmapped (hbound f hf hfmapped)
  have hlast : last.span.toInt = last.size.toInt * last.num.toInt :=
    hcountable _ (h.condensed.isReachable_callee hf ((h.mapped_iff hf).1 hfmapped))
  have hfits : l.toInt + size.toInt ≤ Context.largest.toInt :=
    Int.le_trans hhi (hbound f hf hfmapped)
  have hlargest := Context.toInt_largest
  choose! through hthrough hplace using halong
  have hfirst : through 1 = l := by
    have heq := hplace 1 (by decide)
    rw [Int64.toInt_one, Int.sub_self, Int.zero_emod, Int.add_zero] at heq
    exact Int64.toInt_inj.1 heq
  have hcompose : enc.compose ((e :: es).map some) = .ok (some l) :=
    Encoding.compose_of_alongFrom (fun e' he' => (hchain.mem e' he').2)
      (hfirst ▸ hthrough 1 (by decide))
  refine ⟨l, through, hcompose, hthrough, ?_, ?_, ?_, ?_, ?_⟩
  · refine image_emod_eq_Ico hsize ?_ (Int64.toInt_lt _) hplace
    rw [hcountable _ hreach]
    exact le_mul_of_one_le_right (by omega) (h.one_le_num hcaller)
  · exact Context.toInt_add_of_le (by omega) (by omega)
  · rw [hlast]
    intro x hx
    rw [Set.mem_Ico] at hx
    exact ⟨by omega, by omega⟩
  · exact h.exists_block_of_carries hf hfmapped (hbound f hf hfmapped) hsize
      ⟨hlo, hhi⟩
  · intro nodes facts ptr node hnode σ v q s
    have hedges : ∀ e' ∈ e :: es, g''.edge? e'.toCallSite = some e' := fun e' he' =>
      h.condensed.wellFormed.edge?_eq (hchain.mem e' he').1
    let sc : Scene := ⟨g'', enc, nodes, facts⟩
    have hlive : sc.facts.representative ptr = some node := hnode
    exact go_byChain hlive hedges hcompose (h.block_eq _ hcaller) v q s

/-- With blocks of one context, the chain through the second entry and round
the loop looks at the second block of the method called last. -/
theorem byChain_exact_twoEntries :
    let g := (CallGraph.twoEntriesMarked.encode CallGraph.twoEntriesCondensed 1).1
    let enc := (CallGraph.twoEntriesMarked.encode CallGraph.twoEntriesCondensed 1).2
    let chain := [⟨⟨0, 1, 2⟩, false, 2⟩, ⟨⟨1, 1, 3⟩, true, 1⟩, ⟨⟨1, 2, 5⟩, false, 2⟩]
    g.Chain 2 0 chain ∧ enc.compose (chain.map some) = .ok (some 2) ∧
      Set.Ico 2 (2 + (enc.blockD 0).size.toInt) ⊆ Set.Icc 1 (enc.blockD 2).span.toInt := by
  intro g enc chain
  have hchain : g.Chain 2 0 chain :=
    .cons (e := ⟨⟨0, 1, 2⟩, false, 2⟩) (by decide +kernel) (by decide)
      (.cons (e := ⟨⟨1, 1, 3⟩, true, 1⟩) (by decide +kernel) (by decide)
        (.cons (e := ⟨⟨1, 2, 5⟩, false, 2⟩) (by decide +kernel) (by decide) .nil))
  have hcompose : enc.compose (chain.map some) = .ok (some 2) := by decide +kernel
  obtain ⟨l, -, hl, -, -, -, hsub, -⟩ := byChain_exact CallGraph.wellFormed_twoEntries
    (by decide) CallGraph.condense_twoEntries CallGraph.countable_twoEntries
    (e := ⟨⟨0, 1, 2⟩, false, 2⟩) hchain
  obtain rfl : l = 2 := by simpa using hl.symm.trans hcompose
  exact ⟨hchain, hcompose, hsub⟩

end Query

end PointsTo
