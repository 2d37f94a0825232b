import PointsTo.Builder
import PointsTo.Proofs.Translation
/-!
# Exact intervals

The encoder keeps its sums and products from wrapping around, but the
queries add plain machine numbers to what it hands out. `ExactQueries`
says that they get away with it: every interval a query asks for has the
length of a block of the first caller. This is not so for every encoding.
It is so iff every edge `Fits`, which compares what the encoder has given
to one edge with the largest number; it is enough that the contexts of
every component can be counted. Where contexts double along a chain of
calls, sixty-three methods are enough for an interval that wraps around.
-/

namespace PointsTo

/-! ## What has to fit -/

/-- The intervals that queries ask for behind the edge end at machine
numbers, both at its callee and, for another method of that component, in
the last block. -/
structure Encoding.Fits (enc : Encoding) (g : CallGraph) (e : Edge) : Prop where
  bounded : enc.Bounded e
  blocks : ∀ m, g.hasMethod m → enc.graph.repD m = enc.graph.repD e.callee → m ≠ e.callee →
    1 + (e.offset.toInt - 1) % (enc.blockD e.callee).size.toInt +
      ((enc.blockD e.callee).num.toInt - 1) * (enc.blockD e.callee).size.toInt +
      (enc.blockD e.caller).size.toInt ≤ Context.largest.toInt

/-- The interval holds contexts, and `length` of them in exact numbers. -/
def Query.Exact (length : Int64) (i : Int64 × Int64) : Prop :=
  1 ≤ i.1.toInt ∧ i.1.toInt < i.2.toInt ∧ i.2.toInt - i.1.toInt = length.toInt

theorem Query.exact_of_le {l length : Int64} (hl : 1 ≤ l.toInt) (hlength : 1 ≤ length.toInt)
    (hmax : l.toInt + length.toInt ≤ Context.largest.toInt) :
    Exact length (l, l + length) ∧ (l + length).toInt = l.toInt + length.toInt := by
  have hlargest := Context.toInt_largest
  have hsum : (l + length).toInt = l.toInt + length.toInt :=
    Context.toInt_add_of_le (by omega) (by omega)
  refine ⟨⟨hl, ?_, ?_⟩, hsum⟩
  · change l.toInt < (l + length).toInt
    omega
  · change (l + length).toInt - l.toInt = length.toInt
    omega

/-- The contexts before the last block. -/
theorem Block.num_sub_one_mul_size (b : Block) :
    (b.num.toInt - 1) * b.size.toInt = b.size.toInt * b.num.toInt - b.size.toInt := by
  rw [Int.sub_mul, Int.one_mul, Int.mul_comm]

namespace Context

variable {place size : Int64}

/-- The first numbers of blocks one after the other. -/
theorem blockStart_succ (place size : Int64) (i : Nat) :
    1 + place + Int64.ofNat (i + 1) * size = 1 + place + Int64.ofNat i * size + size := by
  rw [Int64.ofNat_add, Int64.add_mul, Int64.add_assoc _ _ size]
  congr 2
  exact Int64.one_mul size

/-- If the place can be reached in the last block, it is exact in all. -/
theorem toInt_blockStart (hplace : 0 ≤ place.toInt) (hsize : 0 ≤ size.toInt) {i num : Nat}
    (hi : i < num)
    (hmax : 1 + place.toInt + ((num : Int) - 1) * size.toInt ≤ largest.toInt) :
    (1 + place + Int64.ofNat i * size).toInt = 1 + place.toInt + i * size.toInt := by
  have hlargest := toInt_largest
  induction i with
  | zero =>
    have hmul : 0 ≤ ((num : Int) - 1) * size.toInt := Int.mul_nonneg (by omega) hsize
    simpa using toInt_one_add (a := place) (by omega)
  | succ i ih =>
    have hle : (((i + 1 : Nat) : Int)) * size.toInt ≤ ((num : Int) - 1) * size.toInt :=
      Int.mul_le_mul_of_nonneg_right (by omega) hsize
    have hsucc : (((i + 1 : Nat) : Int)) * size.toInt = i * size.toInt + size.toInt := by
      rw [Int.natCast_add, Int.add_mul, Int.natCast_one, Int.one_mul]
    have hmul : 0 ≤ (i : Int) * size.toInt := Int.mul_nonneg (by omega) hsize
    have hi' := ih (by omega)
    rw [blockStart_succ, toInt_add_of_le (by omega) (by omega)]
    omega

/-- Conversely: if the place is a context in every block, no sum has wrapped
around. -/
theorem toInt_blockStart_of_pos (hplace : 0 ≤ place.toInt) (hlt : place.toInt < size.toInt)
    {num : Nat} (hpos : ∀ i < num, 1 ≤ (1 + place + Int64.ofNat i * size).toInt) {i : Nat}
    (hi : i < num) :
    (1 + place + Int64.ofNat i * size).toInt = 1 + place.toInt + i * size.toInt := by
  have hmax := Int64.toInt_lt size
  induction i with
  | zero =>
    simpa using toInt_one_add (Int.lt_of_lt_of_le hlt (toInt_le_largest size))
  | succ i ih =>
    have hsucc : (((i + 1 : Nat) : Int)) * size.toInt = i * size.toInt + size.toInt := by
      rw [Int.natCast_add, Int.add_mul, Int.natCast_one, Int.one_mul]
    have hi' := ih (by omega)
    have hpos' := hpos (i + 1) hi
    have hmax' := Int64.toInt_lt (1 + place + Int64.ofNat i * size)
    have hone := hpos i (by omega)
    rw [blockStart_succ] at hpos' ⊢
    rw [Int64.toInt_add] at hpos' ⊢
    -- a sum that wraps around is negative
    rw [Int.bmod_def] at hpos' ⊢
    split at hpos' <;> omega

end Context

/-! ## Queries on an encoded graph -/

namespace Encoded

open Query

variable {g : CallGraph} {enc : Encoding} {span : Int64} {share : Edge → Share}
  (h : Encoded g enc span share)

include h

/-- **Countable contexts make every edge fit.** -/
theorem fits_of_countable (hcount : ∀ t, enc.graph.isReachable t →
      (enc.blockD t).size.toInt * (enc.blockD t).num.toInt < Context.largest.toInt)
    {e : Edge} (he : e ∈ g.edges) (hmapped : e.mapped) : enc.Fits g e where
  bounded := h.bounded_of_countable hcount he hmapped
  blocks m _ _ _ := by
    have hreach := h.condensed.isReachable_callee he ((h.mapped_iff he).1 hmapped)
    have hlt := hcount _ hreach
    obtain ⟨-, hone, -⟩ := h.lands he hmapped (h.bounded_of_countable hcount he hmapped)
    have hlast := (enc.blockD e.callee).num_sub_one_mul_size
    omega

/-- The numbers that a query asks for where a search ends behind an edge. -/
theorem intervalsAt_exact {e : Edge} (he : e ∈ g.edges) (hmapped : e.mapped)
    (hfits : enc.Fits g e) {target : MethodId} (htarget : g.hasMethod target)
    (hrep : enc.graph.repD e.callee = enc.graph.repD target) {l length : Int64}
    (hlength : 1 ≤ length.toInt) (hcarries : enc.Carries e l.toInt length.toInt) :
    ∀ i ∈ enc.intervalsAt target length e.callee l, Exact length i ∧
      i.2.toInt ≤ (enc.blockD target).size.toInt * (enc.blockD target).num.toInt + 1 := by
  obtain ⟨hlo, hhi⟩ := hcarries
  obtain ⟨hone, hblock, hspan⟩ := h.lands he hmapped hfits.bounded
  have hcallee := (h.hasMethod_of_mapped he hmapped).2
  have hbound := hfits.bounded
  rw [Encoding.Bounded] at hbound
  intro i hi
  rw [Encoding.intervalsAt] at hi
  by_cases heq : e.callee = target
  · rw [if_pos heq, List.mem_singleton] at hi
    obtain ⟨hexact, hsum⟩ := exact_of_le (l := l) (by omega) hlength (by omega)
    rw [hi, ← heq, hsum]
    exact ⟨hexact, by omega⟩
  · -- the place in the block is that of the offset, moved on
    have hsize := (h.size_mem_Icc hcallee).1
    have hnum := h.one_le_num hcallee
    have hplace : ((l - 1) % (enc.blockD e.callee).size).toInt =
        (e.offset.toInt - 1) % (enc.blockD e.callee).size.toInt + (l.toInt - e.offset.toInt) := by
      rw [Context.toInt_place (by omega)]
      exact h.emod_of_carries he hmapped hfits.bounded ⟨hlo, by omega⟩
    have hnonneg := (Context.toInt_place_mem (x := l) (by omega) hsize).1
    have hlast := hfits.blocks target htarget hrep.symm (Ne.symm heq)
    rw [if_neg heq, ← h.blockD_eq hcallee htarget hrep] at hi
    rw [← h.blockD_eq hcallee htarget hrep]
    obtain ⟨k, hk, rfl⟩ := List.mem_map.1 hi
    have hk' : k < (enc.blockD e.callee).num.toInt.toNat := List.mem_range.1 hk
    have hcast : (((enc.blockD e.callee).num.toInt.toNat : Nat) : Int) =
        (enc.blockD e.callee).num.toInt := Int.toNat_of_nonneg (by omega)
    have hstart : (1 + (l - 1) % (enc.blockD e.callee).size +
        Int64.ofNat k * (enc.blockD e.callee).size).toInt =
          1 + ((l - 1) % (enc.blockD e.callee).size).toInt + k * (enc.blockD e.callee).size.toInt :=
      Context.toInt_blockStart hnonneg (by omega) hk' (by rw [hcast]; omega)
    have hle : (k : Int) * (enc.blockD e.callee).size.toInt ≤
        ((enc.blockD e.callee).num.toInt - 1) * (enc.blockD e.callee).size.toInt :=
      Int.mul_le_mul_of_nonneg_right (by omega) (by omega)
    have hmul : 0 ≤ (k : Int) * (enc.blockD e.callee).size.toInt :=
      Int.mul_nonneg (by omega) (by omega)
    have hbefore := (enc.blockD e.callee).num_sub_one_mul_size
    dsimp only
    generalize 1 + (l - 1) % (enc.blockD e.callee).size +
      Int64.ofNat k * (enc.blockD e.callee).size = lo at hstart ⊢
    obtain ⟨hexact, hsum⟩ := exact_of_le (l := lo) (by omega) hlength (by omega)
    rw [hsum]
    exact ⟨hexact, by omega⟩

/-- **All that a search asks for is exact**, and lies in the contexts of the
target. The induction is along the order of the components; `e` is the
edge by which the search has come to the one it is in. -/
theorem requestsFrom_exact (hfits : ∀ e ∈ g.edges, e.mapped → enc.Fits g e) {target : MethodId}
    (htarget : g.hasMethod target) {length : Int64} (hlength : 1 ≤ length.toInt) {e : Edge}
    (he : e ∈ g.edges) (hmapped : e.mapped) {l : Int64}
    (hcarries : enc.Carries e l.toInt length.toInt) :
    ∀ i ∈ enc.requestsFrom g target length e.callee l, Exact length i ∧
      i.2.toInt ≤ (enc.blockD target).size.toInt * (enc.blockD target).num.toInt + 1 := by
  induction hn : enc.graph.height e.callee using Nat.strongRecOn generalizing e l with
  | ind n ih =>
    by_cases hrep : enc.graph.repD e.callee = enc.graph.repD target
    · rw [Encoding.requestsFrom_of_arrived h.condensed hrep]
      exact h.intervalsAt_exact he hmapped (hfits e he hmapped) htarget hrep hlength hcarries
    · intro i hi
      rw [Encoding.requestsFrom_of_ne h.condensed hrep] at hi
      obtain ⟨f, hf, hi⟩ := List.mem_flatMap.1 hi
      obtain ⟨hfmem, hreach, -, hfrom, -⟩ := h.condensed.edgesFrom_spec hf
      have hfmapped := (h.mapped_iff hfmem).2 hreach
      have hbound := (hfits f hfmem hfmapped).bounded
      have hblock : enc.blockD (enc.graph.repD e.callee) = enc.blockD f.caller := by
        rw [← hfrom, h.blockD_repD _ (h.condensed.hasMethod _ hreach)]
      have hnext := h.carries_next he hmapped (hfits e he hmapped).bounded hfmem hfmapped hfrom
        hlength hcarries
      have hone := (h.lands he hmapped (hfits e he hmapped).bounded).1
      have hl : 1 ≤ l.toInt := Int.le_trans hone hcarries.1
      rw [← h.toInt_through_of_bounded hfmem hfmapped hbound hl] at hnext
      rw [hblock] at hi
      exact ih _ (hn ▸ h.condensed.height_lt hf) hfmem hfmapped hnext rfl i hi

/-- **An edge whose own queries are exact fits.** -/
theorem fits_of_exact {e : Edge} (he : e ∈ g.edges) (hmapped : e.mapped)
    (hexact : ∀ target, g.hasMethod target → ∀ i ∈ enc.requestsFrom g target
      (enc.blockD e.caller).size e.callee e.offset, Exact (enc.blockD e.caller).size i) :
    enc.Fits g e := by
  obtain ⟨hcaller, hcallee⟩ := h.hasMethod_of_mapped he hmapped
  have hsize := (h.size_mem_Icc hcaller).1
  have hbound : enc.Bounded e := by
    obtain ⟨-, -, hwidth⟩ := hexact e.callee hcallee (e.offset, _) (by
      rw [Encoding.requestsFrom_of_arrived h.condensed rfl, Encoding.intervalsAt, if_pos rfl]
      exact List.mem_singleton_self _)
    have hle := Context.toInt_le_largest (e.offset + (enc.blockD e.caller).size)
    rw [Encoding.Bounded]
    dsimp only at hwidth
    omega
  refine ⟨hbound, fun m hm hrep hne => ?_⟩
  have hsize' := (h.size_mem_Icc hcallee).1
  have hnum := h.one_le_num hcallee
  have hone := (h.lands he hmapped hbound).1
  obtain ⟨hnonneg, hlt⟩ := Context.toInt_place_mem hone hsize'
  have hcast : (((enc.blockD e.callee).num.toInt.toNat : Nat) : Int) =
      (enc.blockD e.callee).num.toInt := Int.toNat_of_nonneg (by omega)
  -- one interval for each block of the other method
  have hblocks : ∀ k < (enc.blockD e.callee).num.toInt.toNat,
      let lo := 1 + (e.offset - 1) % (enc.blockD e.callee).size +
        Int64.ofNat k * (enc.blockD e.callee).size
      Exact (enc.blockD e.caller).size (lo, lo + (enc.blockD e.caller).size) := by
    intro k hk lo
    refine hexact m hm _ ?_
    rw [Encoding.requestsFrom_of_arrived h.condensed hrep.symm, Encoding.intervalsAt,
      if_neg (Ne.symm hne), h.blockD_eq hm hcallee hrep]
    exact List.mem_map.2 ⟨k, List.mem_range.2 hk, rfl⟩
  have hlast : (enc.blockD e.callee).num.toInt.toNat - 1 <
      (enc.blockD e.callee).num.toInt.toNat := by omega
  have hstart := Context.toInt_blockStart_of_pos hnonneg hlt (fun k hk => (hblocks k hk).1) hlast
  obtain ⟨-, -, hwidth⟩ := hblocks _ hlast
  have hpred : (((enc.blockD e.callee).num.toInt.toNat - 1 : Nat) : Int) =
      (enc.blockD e.callee).num.toInt - 1 := by omega
  rw [Context.toInt_place hone, hpred] at hstart
  have hle := Context.toInt_le_largest (1 + (e.offset - 1) % (enc.blockD e.callee).size +
    Int64.ofNat ((enc.blockD e.callee).num.toInt.toNat - 1) * (enc.blockD e.callee).size +
    (enc.blockD e.caller).size)
  dsimp only at hwidth
  omega

end Encoded

/-! ## All queries -/

namespace Query

/-- A search of a querier that has come through all its queries requests what
the paths from the edge request. -/
theorem requests_searchFrom {sc : Scene} {span : Int64} {share : Edge → Share}
    (h : Encoded sc.graph sc.encoding span share) {e : Edge} (he : e ∈ sc.graph.edges)
    (hmapped : e.mapped) {target : MethodId} (htarget : sc.graph.hasMethod target)
    {length : Int64} {q : Querier} (hq : q.Reached sc.encoding.graph.size) :
    (searchFrom sc e target length q.renew).requests =
      sc.encoding.requestsFrom sc.graph target length e.callee e.offset :=
  (searchFrom_searched h.condensed (fun _ hm => h.size_pos hm) htarget
    (h.hasMethod_of_mapped he hmapped).2 hq.ready.renew.1).requests

/-- **No number that a query computes wraps around**, and all intervals that
it asks for are as long as a block of the first caller. -/
structure ExactQueries (g : CallGraph) (enc : Encoding) : Prop where
  /-- Going through an edge. -/
  through : ∀ e ∈ g.edges, e.mapped → ∀ x : Int64, 1 ≤ x.toInt →
    ∃ y, enc.mapThrough e x = .ok y ∧
      y.toInt = e.offset.toInt + (x.toInt - 1) % (enc.blockD e.caller).size.toInt
  /-- The search of a query by one edge. -/
  anyEdge : ∀ sc : Scene, sc.graph = g → sc.encoding = enc → ∀ e ∈ g.edges, e.mapped →
    ∀ ptr, g.hasMethod (sc.nodes.methodOf ptr) → ∀ q : Querier, q.Reached enc.graph.size →
    ∀ i ∈ (searchFrom sc e (sc.nodes.methodOf ptr) (enc.blockD e.caller).size q.renew).requests,
      Exact (enc.blockD e.caller).size i
  /-- A query by a chain. -/
  chain : ∀ target e es, g.Chain target e.caller (e :: es) →
    ∃ l, enc.compose ((e :: es).map some) = .ok (some l) ∧
      Exact (enc.blockD e.caller).size (l, l + (enc.blockD e.caller).size)

/-- **Queries are exact iff every edge fits.** -/
theorem exactQueries_iff {g : CallGraph} {enc : Encoding} {span : Int64} {share : Edge → Share}
    (h : Encoded g enc span share) :
    ExactQueries g enc ↔ ∀ e ∈ g.edges, e.mapped → enc.Fits g e := by
  constructor
  · intro hexact e he hmapped
    refine h.fits_of_exact he hmapped fun target htarget i hi => ?_
    -- a pointer of the target, which no fact is about
    let sc : Scene := ⟨g, enc, { nodes := #[{}, { id := 1, method := target }] }, .empty⟩
    have hsc : Encoded sc.graph sc.encoding span share := h
    have hi' : i ∈ (searchFrom sc e target (enc.blockD e.caller).size
        (Querier.new enc.graph.size).renew).requests := by
      rw [requests_searchFrom hsc he hmapped htarget .new]
      exact hi
    exact hexact.anyEdge sc rfl rfl e he hmapped 1 htarget _ .new i hi'
  · intro hfits
    have hbound : ∀ e ∈ g.edges, e.mapped → enc.Bounded e := fun e he hmapped =>
      (hfits e he hmapped).bounded
    have hsize : ∀ e ∈ g.edges, 1 ≤ (enc.blockD e.caller).size.toInt := fun e he =>
      (h.size_mem_Icc (h.condensed.wellFormed.caller e he)).1
    refine { through := ?_, anyEdge := ?_, chain := ?_ }
    · intro e he hmapped x hx
      exact ⟨_, h.mapThrough_eq he x,
        h.toInt_through_of_bounded he hmapped (hbound e he hmapped) hx⟩
    · rintro sc rfl rfl e he hmapped ptr htarget q hq i hi
      rw [requests_searchFrom h he hmapped htarget hq] at hi
      exact (h.requestsFrom_exact hfits htarget (hsize e he) he hmapped
        ⟨Int.le_refl _, Int.le_refl _⟩ i hi).1
    · intro target e es hchain
      obtain ⟨he, -⟩ := hchain.mem e List.mem_cons_self
      obtain ⟨l, ⟨f, hf, hfmapped, -, hlo, hhi⟩, halong⟩ := h.exists_interval hbound hchain
      obtain ⟨y, hy, hyl⟩ := halong 1 (by decide)
      rw [Int64.toInt_one, Int.sub_self, Int.zero_emod, Int.add_zero, Int64.toInt_inj] at hyl
      subst hyl
      have hone := (h.lands hf hfmapped (hbound f hf hfmapped)).1
      refine ⟨y, Encoding.compose_of_alongFrom (fun e' he' => (hchain.mem e' he').2) hy, ?_⟩
      exact (exact_of_le (Int.le_trans hone hlo) (hsize e he)
        (Int.le_trans hhi (hbound f hf hfmapped))).1

end Query

/-! ## Freezing -/

/-- The statistics of a condensed graph can be taken. -/
theorem Stats.exists_ofGraph {g : CallGraph} {enc : Encoding} (h : Condensed g enc.graph)
    (n : Nat) : ∃ s, Stats.ofGraph g enc n = .ok s := by
  refine ⟨_, if_neg fun hany => ?_⟩
  obtain ⟨e, he, hnone⟩ := List.any_eq_true.1 hany
  have hmem := Array.mem_toList_iff.1 (List.mem_filter.1 he).1
  have hsome := h.rep?_isSome.2 (h.wellFormed.caller e hmem)
  rw [Option.isNone_iff_eq_none] at hnone
  rw [hnone] at hsome
  exact Bool.false_ne_true hsome

namespace Builder

/-- Reporting statistics or not leaves the graph alone. -/
theorem graph_report (b : Builder) (disk : Disk) (s : Stats) (p : Prop) [Decidable p] :
    (if p then b.report disk s else (b, disk)).1.graph = b.graph := by
  unfold report
  dsimp only
  split
  · split <;> rfl
  · rfl

/-- Freezing succeeds if what it encodes is condensed. -/
theorem go_freeze_of_condensed {u : Universe} {b : Builder} (disk : Disk) (hnew : b.result = none)
    {g : CallGraph} {c : Condensation} (hcond : (b.graph.ensure (u.numMethods - 1)).condense
      (b.graph.ensure (u.numMethods - 1)).representatives = .ok (g, c))
    (hc : Condensed (g.encode c b.config.maxContextSpan).1
      (g.encode c b.config.maxContextSpan).2.graph) :
    ∃ (b' : Builder) (disk' : Disk), (freeze u).go (b, disk) =
        (.ok ⟨(g.encode c b.config.maxContextSpan).2, b.reachables⟩, b', disk') ∧
      b'.graph = (g.encode c b.config.maxContextSpan).1 := by
  obtain ⟨s, hstats⟩ := Stats.exists_ofGraph hc b.reachables.length
  rw [freeze]
  simp only [Attempt.go_bind, Attempt.go_get, hnew]
  -- the warning about methods that are not resolved changes the log alone
  obtain ⟨log, hlog⟩ : ∃ log, (if b.pending.isEmpty = true then b else
      b.say .warn ("freezing with " ++ toString b.pending.length ++
        " methods whose callees have not been resolved")) = { b with log } := by
    split <;> exact ⟨_, rfl⟩
  rw [hlog]
  simp only [reachables] at hstats
  simp only [Attempt.go_set, Attempt.go_liftM, hcond, stats, reachables, hstats, Attempt.go_pure]
  exact ⟨_, _, rfl, graph_report _ _ _ _⟩

/-- **Freezing condenses and encodes the graph** that has been built. -/
theorem go_freeze {u : Universe} {b : Builder} (disk : Disk) (hw : b.graph.WellFormed)
    (hfew : b.graph.edges.size < 2 ^ 63) (hnew : b.result = none) {g : CallGraph}
    {c : Condensation} (hcond : (b.graph.ensure (u.numMethods - 1)).condense
      (b.graph.ensure (u.numMethods - 1)).representatives = .ok (g, c)) :
    ∃ (b' : Builder) (disk' : Disk), (freeze u).go (b, disk) =
        (.ok ⟨(g.encode c b.config.maxContextSpan).2, b.reachables⟩, b', disk') ∧
      b'.graph = (g.encode c b.config.maxContextSpan).1 := by
  obtain ⟨share, h⟩ :=
    CallGraph.encoded_of_condense (hw.ensure _) hfew hcond b.config.maxContextSpan
  exact go_freeze_of_condensed disk hnew hcond h.condensed

end Builder

namespace Query

/-- **When queries on a frozen graph are exact.** Freezing gives offsets to the
calls of the graph whose callers the root reaches. Then every interval that
queries ask for is exact iff every one of these calls fits, and they do if
the contexts of every component can be counted. -/
theorem freeze_exact_iff (u : Universe) {b : Builder} (disk : Disk) (hw : b.graph.WellFormed)
    (hids : ∀ e ∈ b.graph.edges, b.graph.hasMethod e.callee)
    (hfew : b.graph.edges.size < 2 ^ 63) (hnew : b.result = none) :
    ∃ (r : Frozen) (b' : Builder) (disk' : Disk),
      (Builder.freeze u).go (b, disk) = (.ok r, b', disk') ∧
      b'.graph.edges.toList.map (·.toCallSite) = b.graph.edges.toList.map (·.toCallSite) ∧
      (∀ e ∈ b'.graph.edges, e.mapped ↔ b.graph.Reaches rootMethod e.caller) ∧
      (ExactQueries b'.graph r.encoding ↔
        ∀ e ∈ b'.graph.edges, e.mapped → r.encoding.Fits b'.graph e) ∧
      ((∀ t, r.encoding.graph.isReachable t →
          (r.encoding.blockD t).size.toInt * (r.encoding.blockD t).num.toInt <
            Context.largest.toInt) →
        ExactQueries b'.graph r.encoding) := by
  have hw' := hw.ensure (u.numMethods - 1)
  have hids' : ∀ e ∈ (b.graph.ensure (u.numMethods - 1)).edges,
      (b.graph.ensure (u.numMethods - 1)).hasMethod e.callee := fun e he =>
    CallGraph.hasMethod_ensure.2 (.inl (hids e he))
  obtain ⟨g, c, hcond⟩ := CallGraph.exists_condense hw' hids'
  obtain ⟨share, h⟩ := CallGraph.encoded_of_condense hw' hfew hcond b.config.maxContextSpan
  obtain ⟨b', disk', hgo, hgraph⟩ := Builder.go_freeze disk hw hfew hnew hcond
  refine ⟨_, b', disk', hgo, ?_⟩
  rw [hgraph]
  refine ⟨CallGraph.callSites_encode hw' hfew hcond _, fun e he => ?_, exactQueries_iff h,
    fun hcount => (exactQueries_iff h).2 fun e he hmapped => h.fits_of_countable hcount he hmapped⟩
  have hmethod := (CallGraph.hasMethod_iff.1 (h.condensed.wellFormed.caller e he))
  rw [h.mapped_iff he, h.condensed.reachable, CallGraph.reaches_of_condense hw' hfew hcond]
  exact and_iff_right (by omega)

/-- A graph with a recursive method, frozen with blocks of one context. -/
theorem freeze_exact_twoEntries :
    let b : Builder := { config := { maxContextSpan := 1 }, log := .new 0 true
                         graph := CallGraph.twoEntries }
    ∃ (r : Frozen) (b' : Builder) (disk' : Disk),
      (Builder.freeze {}).go (b, {}) = (.ok r, b', disk') ∧ r.encoding.blockD 2 = ⟨1, 2⟩ ∧
        ExactQueries b'.graph r.encoding := by
  intro b
  have hw := CallGraph.wellFormed_twoEntries
  obtain ⟨r, b', disk', hgo, -, -, -, hexact⟩ := freeze_exact_iff {} (b := b) {} hw
    (by decide) (by decide) rfl
  have hcond : (b.graph.ensure ((({} : Universe).numMethods : Int) - 1)).condense
      (b.graph.ensure ((({} : Universe).numMethods : Int) - 1)).representatives =
        .ok (CallGraph.twoEntriesMarked, CallGraph.twoEntriesCondensed) :=
    CallGraph.condense_twoEntries
  obtain ⟨b₁, disk₁, hgo₁, -⟩ := Builder.go_freeze {} hw (by decide) rfl hcond
  have henc : r.encoding =
      (CallGraph.twoEntriesMarked.encode CallGraph.twoEntriesCondensed 1).2 := by
    have heq := congrArg Prod.fst (hgo.symm.trans hgo₁)
    exact congrArg Frozen.encoding (Except.ok.inj heq)
  refine ⟨r, b', disk', hgo, by rw [henc]; decide +kernel, hexact ?_⟩
  rw [henc]
  exact CallGraph.countable_twoEntries

end Query

/-! ## Contexts that double -/

/-- Two calls that enter the component of one method. -/
structure CallGraph.Rivals (g : CallGraph) (e e' : Edge) : Prop where
  left : e ∈ g.edges ∧ e.mapped ∧ ¬ e.inComponent
  right : e' ∈ g.edges ∧ e'.mapped ∧ ¬ e'.inComponent
  callee : e'.callee = e.callee
  ne : e ≠ e'

namespace Encoded

variable {g : CallGraph} {enc : Encoding} {span : Int64} {share : Edge → Share}
  (h : Encoded g enc span share) {e e' : Edge} (hrivals : g.Rivals e e')

include h hrivals

/-- They are given numbers of their own, in one block unless blocks of `span`
contexts are too small for both. -/
theorem apart_of_rivals : (share e).Apart (share e') ∧
    min ((enc.blockD e.caller).size.toInt + (enc.blockD e'.caller).size.toInt) span.toInt ≤
      (enc.blockD e.callee).size.toInt := by
  obtain ⟨⟨he, hmapped, hin⟩, ⟨he', hmapped', hin'⟩, hcallee, hne⟩ := hrivals
  have hentering := h.mem_entering_of_mapped he hmapped hin
  have hentering' := h.mem_entering_of_mapped he' hmapped' hin'
  rw [hcallee] at hentering'
  obtain ⟨-, -, hsize⟩ := h.between_of_entering hentering
  obtain ⟨-, -, hsize'⟩ := h.between_of_entering hentering'
  obtain ⟨-, hnil⟩ | ⟨full, used, htiled, -, hblock, -⟩ :=
    h.layout_cases (h.hasMethod_of_mapped he hmapped).2
  · rw [hnil] at hentering
    exact absurd hentering List.not_mem_nil
  have hapart := htiled.apart hentering hentering' hne
  refine ⟨hapart, ?_⟩
  have hbelow := htiled.below _ (List.mem_map_of_mem hentering)
  have hbelow' := htiled.below _ (List.mem_map_of_mem hentering')
  rw [Share.Apart] at hapart
  rw [hblock]
  split
  · next hfull =>
    rw [hfull, Nat.zero_mul] at hbelow hbelow'
    omega
  · omega

/-- If both are bounded, their callers have few contexts. -/
theorem size_add_size_lt (hbound : enc.Bounded e) (hbound' : enc.Bounded e') :
    (enc.blockD e.caller).size.toInt + (enc.blockD e'.caller).size.toInt <
      Context.largest.toInt := by
  have hapart := (h.apart_of_rivals hrivals).1
  obtain ⟨⟨he, hmapped, hin⟩, ⟨he', hmapped', hin'⟩, -, -⟩ := hrivals
  have hreach := (h.mapped_iff he).1 hmapped
  have hreach' := (h.mapped_iff he').1 hmapped'
  obtain ⟨hoffset, hsize⟩ := h.between e he hreach hin
  obtain ⟨hoffset', hsize'⟩ := h.between e' he' hreach' hin'
  have hpos := (h.size_mem_Icc (h.condensed.hasMethod _ hreach)).1
  have hpos' := (h.size_mem_Icc (h.condensed.hasMethod _ hreach')).1
  rw [Share.Apart] at hapart
  rw [Encoding.Bounded] at hbound hbound'
  omega

end Encoded

namespace CallGraph

/-- The methods up to `n`, each of which calls the next one at two sites. -/
def doubling (n : Nat) : CallGraph where
  size := n + 1
  edges := ((List.range n).flatMap fun k =>
    [⟨⟨k, k + 1, 1⟩, false, 0⟩, ⟨⟨k, k + 1, 2⟩, false, 0⟩]).toArray

theorem mem_doubling {n : Nat} {e : Edge} : e ∈ (doubling n).edges ↔
    ∃ k < n, e = ⟨⟨k, k + 1, 1⟩, false, 0⟩ ∨ e = ⟨⟨k, k + 1, 2⟩, false, 0⟩ := by
  simp [doubling]

theorem hasMethod_doubling {n : Nat} {e : Edge} (he : e ∈ (doubling n).edges) :
    (doubling n).hasMethod e.caller ∧ (doubling n).hasMethod e.callee := by
  simp only [hasMethod_iff, doubling]
  obtain ⟨k, hk, rfl | rfl⟩ := mem_doubling.1 he <;> (dsimp only; omega)

theorem size_edges_doubling (n : Nat) : (doubling n).edges.size = n * 2 := by
  simp [doubling, List.length_flatMap]

theorem wellFormed_doubling (n : Nat) : (doubling n).WellFormed where
  caller e he := (hasMethod_doubling he).1
  distinct := by
    simp only [doubling, List.map_flatMap]
    refine List.nodup_flatMap.2 ⟨fun k _ => by simp, ?_⟩
    refine List.nodup_range.imp fun {k k'} hne => List.disjoint_left.2 fun cs hcs hcs' => hne ?_
    simp at hcs hcs'
    rcases hcs with rfl | rfl <;> simp at hcs' <;> omega
  flagged e he hin := by
    obtain ⟨k, hk, rfl | rfl⟩ := mem_doubling.1 he <;> cases hin

/-- Calls lead upwards. -/
theorem le_of_reaches_doubling {n : Nat} {a b : MethodId} (h : (doubling n).Reaches a b) :
    (a : Int) ≤ b := by
  refine h.mem_of_closed (S := fun x => (a : Int) ≤ x) (fun x y hx hy => ?_) (Int.le_refl a)
  obtain ⟨e, he, rfl, rfl⟩ := mem_successors.1 hy
  obtain ⟨k, -, rfl | rfl⟩ := mem_doubling.1 he <;> exact Int.le_trans hx (by simp)

theorem reaches_doubling {n k : Nat} (hk : k ≤ n) : (doubling n).Reaches rootMethod k := by
  induction k with
  | zero => exact .refl
  | succ k ih =>
    have hmem : ⟨⟨k, k + 1, 1⟩, false, 0⟩ ∈ (doubling n).edges :=
      mem_doubling.2 ⟨k, by omega, .inl rfl⟩
    exact (ih (by omega)).trans (Reaches.of_edge hmem)

section Doubling

variable {n : Nat} {g' : CallGraph} {c : Condensation} (hfew : (doubling n).edges.size < 2 ^ 63)
  (hcond : (doubling n).condense (doubling n).representatives = .ok (g', c)) (maxSpan : Int64)

include hfew hcond

/-- A call of the frozen graph. -/
theorem exists_call_doubling {cs : CallSite} (hcs : ⟨cs, false, 0⟩ ∈ (doubling n).edges) :
    ∃ e, (e ∈ (g'.encode c maxSpan).1.edges ∧ e.mapped ∧ ¬ e.inComponent) ∧
      e.toCallSite = cs := by
  have hw := wellFormed_doubling n
  obtain ⟨share, h⟩ := encoded_of_condense hw hfew hcond maxSpan
  have hreaches := reaches_of_condense hw hfew hcond maxSpan
  have hmem : cs ∈ (g'.encode c maxSpan).1.edges.toList.map (·.toCallSite) := by
    rw [callSites_encode hw hfew hcond]
    exact List.mem_map.2 ⟨_, Array.mem_toList_iff.2 hcs, rfl⟩
  obtain ⟨e, he, rfl⟩ := List.mem_map.1 hmem
  rw [Array.mem_toList_iff] at he
  have hmethod := hasMethod_iff.1 (h.condensed.wellFormed.caller e he)
  obtain ⟨k, hk, hcall⟩ : ∃ k < n, e.caller = (k : Int) ∧ e.callee = (k + 1 : Int) := by
    obtain ⟨k, hk, heq | heq⟩ := mem_doubling.1 hcs <;>
      exact ⟨k, hk, by rw [(Edge.mk.inj heq).1], by rw [(Edge.mk.inj heq).1]⟩
  refine ⟨e, ⟨he, ?_, fun hin => ?_⟩, rfl⟩
  · rw [h.mapped_iff he, h.condensed.reachable, hreaches, hcall.1]
    exact ⟨by omega, reaches_doubling (Nat.le_of_lt hk)⟩
  · -- a marked call would lead back
    have hback := h.condensed.wellFormed.flagged e he hin
    rw [hreaches, hcall.1, hcall.2] at hback
    have hle : (k + 1 : Int) ≤ k := le_of_reaches_doubling hback
    omega

theorem exists_rivals_doubling {k : Nat} (hk : k < n) :
    ∃ e e', (g'.encode c maxSpan).1.Rivals e e' ∧ e.caller = (k : Int) ∧
      e'.caller = (k : Int) ∧ e.callee = (k + 1 : Int) := by
  obtain ⟨e, he, hcall⟩ := exists_call_doubling hfew hcond maxSpan
    (mem_doubling.2 ⟨k, hk, .inl rfl⟩)
  obtain ⟨e', he', hcall'⟩ := exists_call_doubling hfew hcond maxSpan
    (mem_doubling.2 ⟨k, hk, .inr rfl⟩)
  refine ⟨e, e', ⟨he, he', by rw [hcall, hcall'], ?_⟩, by rw [hcall], by rw [hcall'],
    by rw [hcall]⟩
  rintro rfl
  exact absurd (hcall.symm.trans hcall') (by simp)

/-- **The contexts of a method are twice those of the one before it**, as far
as blocks of that many contexts are allowed. -/
theorem le_size_doubling {k : Nat} (hk : k ≤ n) :
    min (2 ^ k : Int) (Encoding.effectiveSpan maxSpan).toInt ≤
      ((g'.encode c maxSpan).2.blockD k).size.toInt := by
  have hw := wellFormed_doubling n
  obtain ⟨share, h⟩ := encoded_of_condense hw hfew hcond maxSpan
  have hspan := h.one_le_span
  induction k with
  | zero =>
    have hmethod : (g'.encode c maxSpan).1.hasMethod ((0 : Nat) : Int) := by
      rw [hasMethod_of_condense hw hfew hcond]
      exact hasMethod_iff.2 ⟨by simp, by simp [doubling]⟩
    have hone := (h.size_mem_Icc hmethod).1
    rw [Int.pow_zero]
    omega
  | succ k ih =>
    have hih := ih (by omega)
    obtain ⟨e, e', hrivals, hcaller, hcaller', hcallee⟩ :=
      exists_rivals_doubling hfew hcond maxSpan hk
    have hle := (h.apart_of_rivals hrivals).2
    rw [hcaller, hcaller', hcallee] at hle
    rw [Int.pow_succ, Int.natCast_succ]
    omega

/-- Queries by the sixty-third call wrap around, if blocks are large. -/
theorem not_exactQueries_doubling (hn : 63 ≤ n)
    (hspan : 2 ^ 62 ≤ (Encoding.effectiveSpan maxSpan).toInt) :
    ¬ Query.ExactQueries (g'.encode c maxSpan).1 (g'.encode c maxSpan).2 := by
  intro hexact
  obtain ⟨share, h⟩ := encoded_of_condense (wellFormed_doubling n) hfew hcond maxSpan
  have hfits := (Query.exactQueries_iff h).1 hexact
  obtain ⟨e, e', hrivals, hcaller, hcaller', -⟩ :=
    exists_rivals_doubling hfew hcond maxSpan (show 62 < n by omega)
  have hlt := h.size_add_size_lt hrivals
    (hfits e hrivals.left.1 hrivals.left.2.1).bounded
    (hfits e' hrivals.right.1 hrivals.right.2.1).bounded
  have hsize := le_size_doubling hfew hcond maxSpan (show 62 ≤ n by omega)
  have hlargest := Context.toInt_largest
  rw [hcaller, hcaller'] at hlt
  omega

end Doubling

end CallGraph

/-- **Where contexts double, queries wrap around**: along a chain of
sixty-three methods that call the next one twice, with a span that the
configuration allows. -/
theorem Query.freeze_not_exact :
    let b : Builder := { config := { maxContextSpan := 4611686018427387904 }, log := .new 0 true
                         graph := CallGraph.doubling 63 }
    b.config.validate = .ok () ∧ ∃ (r : Frozen) (b' : Builder) (disk' : Disk),
      (Builder.freeze {}).go (b, {}) = (.ok r, b', disk') ∧
        ¬ ExactQueries b'.graph r.encoding := by
  intro b
  refine ⟨by decide, ?_⟩
  have hw := CallGraph.wellFormed_doubling 63
  have hfew : (CallGraph.doubling 63).edges.size < 2 ^ 63 := by
    rw [CallGraph.size_edges_doubling]
    decide
  obtain ⟨g, c, hcond⟩ :=
    CallGraph.exists_condense hw fun _ he => (CallGraph.hasMethod_doubling he).2
  have hcond' : (b.graph.ensure ((({} : Universe).numMethods : Int) - 1)).condense
      (b.graph.ensure ((({} : Universe).numMethods : Int) - 1)).representatives = .ok (g, c) :=
    hcond
  obtain ⟨b', disk', hgo, hgraph⟩ := Builder.go_freeze {} hw hfew rfl hcond'
  refine ⟨_, b', disk', hgo, ?_⟩
  rw [hgraph]
  exact CallGraph.not_exactQueries_doubling hfew hcond _ (by decide) (by decide)

end PointsTo
