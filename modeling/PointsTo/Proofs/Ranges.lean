import PointsTo.Proofs.Encoding
/-!
# The ranges of contexts

An edge leads to a range of contexts of its callee, as long as a block of
its caller. This module says how these ranges lie: as long as the
contexts of a component can be counted, the ranges of the edges that enter
it do not meet, and each is inside one block. Blocks are counted with
machine numbers, so there have to be fewer edges than these can count.
-/

namespace PointsTo

/-- The contexts of the callee that an edge leads to. -/
def Encoding.range (enc : Encoding) (e : Edge) : Set Int :=
  Set.Ico e.offset.toInt (e.offset.toInt + (enc.blockD e.caller).size.toInt)

namespace Encoded

variable {g : CallGraph} {enc : Encoding} {span : Int64} {share : Edge → Share}
  (h : Encoded g enc span share)

include h

/-- Nothing enters the component of the root, or one the root does not
reach. -/
theorem entering_eq_nil {t : MethodId} (ht : g.hasMethod t)
    (hroot : enc.graph.isReachable t → enc.graph.repD t = rootMethod) :
    enc.graph.entering g (enc.graph.repD t) = [] := by
  refine List.eq_nil_iff_forall_not_mem.2 fun e he => ?_
  obtain ⟨hmem, hreach, hto, hfrom⟩ := h.condensed.mem_entering.1 he
  have hcallee := h.condensed.isReachable_callee hmem hreach
  have hm := h.condensed.hasMethod _ hreach
  have hm' := h.condensed.hasMethod _ hcallee
  obtain ⟨hback, hforth⟩ := (h.condensed.repD_eq_iff hm' ht).1 hto
  have hrep := hroot (h.condensed.isReachable_of_reaches hcallee hback)
  obtain ⟨hsize, hcaller⟩ := (h.condensed.reachable _).1 hreach
  -- the root reaches the caller, and the caller the root
  have hreaches : g.Reaches e.caller rootMethod :=
    (CallGraph.Reaches.of_edge hmem).trans
      (hrep ▸ hto ▸ (h.condensed.reaches_repD hm').1)
  refine hfrom ?_
  rw [hrep, ← h.condensed.repD_root hsize]
  exact (h.condensed.repD_eq_iff hm (h.condensed.hasMethod _
    ((h.condensed.reachable _).2 ⟨hsize, .refl⟩))).2 ⟨hreaches, hcaller⟩

/-- Something enters every other component. -/
theorem entering_ne_nil {r : MethodId} (hreach : enc.graph.isReachable r)
    (hrr : enc.graph.repD r = r) (hr : r ≠ rootMethod) : enc.graph.entering g r ≠ [] := by
  obtain ⟨e, he, hcaller, hto, hfrom⟩ :=
    h.condensed.exists_entering hreach (by rw [hrr]; exact hr)
  rw [hrr] at hto hfrom
  exact List.ne_nil_of_mem (h.condensed.mem_entering.2 ⟨he, hcaller, hto, hfrom⟩)

/-- **How a component is laid out**: it has one context and is entered by no
edge, or its block is that of the tiling by the edges that enter it. -/
theorem layout_cases {t : MethodId} (ht : g.hasMethod t) :
    (enc.blockD t = {} ∧ enc.graph.entering g (enc.graph.repD t) = []) ∨
    ∃ full used : Nat,
      Tiled span.toInt.toNat ((enc.graph.entering g (enc.graph.repD t)).map share) full used ∧
      0 < used ∧ (enc.blockD t).size.toInt = (if full = 0 then (used : Int) else span.toInt) ∧
      (enc.blockD t).num.toInt = full + 1 := by
  by_cases hroot : enc.graph.isReachable t → enc.graph.repD t = rootMethod
  · exact .inl ⟨h.trivial t ht hroot, h.entering_eq_nil ht hroot⟩
  · obtain ⟨hreach, hne⟩ := Classical.not_imp.1 hroot
    have hreach' := (h.condensed.isReachable_repD ht).2 hreach
    have hrr := h.condensed.repD_repD ht
    obtain ⟨full, used, htiled, hsize, hnum⟩ := h.laidOut _ hreach' hrr hne
    have hused := (htiled.started (by simpa using h.entering_ne_nil hreach' hrr hne)).1
    rw [h.blockD_repD t ht] at hsize hnum
    exact .inr ⟨full, used, htiled, hused, hsize, hnum⟩

/-- **A block holds at least one context, and no more than the span.** -/
theorem size_mem_Icc {m : MethodId} (hm : g.hasMethod m) :
    (enc.blockD m).size.toInt ∈ Set.Icc 1 span.toInt := by
  obtain ⟨hblock, -⟩ | ⟨full, used, ht, hused, hsize, -⟩ := h.layout_cases hm
  · rw [hblock]
    exact ⟨by decide, h.one_le_span⟩
  · have hle := ht.used_le
    have hspan := h.one_le_span
    rw [hsize]
    split
    · exact ⟨by omega, by omega⟩
    · exact ⟨hspan, Int.le_refl _⟩

theorem size_pos {m : MethodId} (hm : g.hasMethod m) : 0 < (enc.blockD m).size := by
  rw [Int64.lt_iff_toInt_lt, Int64.toInt_zero]
  exact (h.size_mem_Icc hm).1

theorem one_le_num {m : MethodId} (hm : g.hasMethod m) : 1 ≤ (enc.blockD m).num.toInt := by
  obtain ⟨hblock, -⟩ | ⟨full, used, -, -, -, hnum⟩ := h.layout_cases hm
  · rw [hblock]
    decide
  · rw [hnum]
    omega

/-- What an edge does to a context, in place of an attempt. -/
theorem mapThrough_eq {e : Edge} (he : e ∈ g.edges) (x : Int64) :
    enc.mapThrough e x = .ok (e.offset + (x - 1) % (enc.blockD e.caller).size) :=
  have hm := h.condensed.wellFormed.caller e he
  Encoding.mapThrough_of_pos (h.block_eq _ hm) (h.size_pos hm) x

/-- **An edge has contexts iff the root reaches its caller.** -/
theorem mapped_iff {e : Edge} (he : e ∈ g.edges) : e.mapped ↔ enc.graph.isReachable e.caller := by
  have hmapped : e.mapped ↔ 0 < e.offset.toInt := by
    rw [Edge.mapped, decide_eq_true_iff, Int64.lt_iff_toInt_lt, Int64.toInt_zero]
  rw [hmapped]
  by_cases hreach : enc.graph.isReachable e.caller
  · refine iff_of_true ?_ hreach
    by_cases hin : e.inComponent
    · rw [h.inner e he hreach hin]
      decide
    · have hlargest := Context.toInt_largest
      rw [(h.between e he hreach hin).1]
      omega
  · rw [h.unreachable e he hreach]
    exact iff_of_false (by decide) hreach

/-! ## Edges between components -/

theorem between_of_entering {r : MethodId} {e : Edge} (he : e ∈ enc.graph.entering g r) :
    enc.graph.isReachable e.caller ∧
      e.offset.toInt = min ((share e).start + 1 : Int) Context.largest.toInt ∧
      ((share e).size : Int) = (enc.blockD e.caller).size.toInt := by
  obtain ⟨hmem, hreach, hto, hfrom⟩ := h.condensed.mem_entering.1 he
  refine ⟨hreach, h.between e hmem hreach fun hin => hfrom ?_⟩
  rw [(h.condensed.flag e hmem hreach).1 hin, hto]

section Countable

variable {t : MethodId} (ht : g.hasMethod t)
  (hcount : (enc.blockD t).size.toInt * (enc.blockD t).num.toInt ≤ Context.largest.toInt)
  {e : Edge} (he : e ∈ enc.graph.entering g (enc.graph.repD t))

include ht he

/-- The contexts given to an edge are contexts of the component. -/
theorem share_le : ((share e).start + (share e).size : Int) ≤
    (enc.blockD t).size.toInt * (enc.blockD t).num.toInt := by
  obtain ⟨-, hnil⟩ | ⟨full, used, htiled, -, hsize, hnum⟩ := h.layout_cases ht
  · rw [hnil] at he
    exact absurd he List.not_mem_nil
  have hbelow := htiled.below _ (List.mem_map_of_mem he)
  have hused := htiled.used_le
  have hspan := h.one_le_span
  rw [hsize, hnum]
  by_cases hfull : full = 0
  · subst hfull
    rw [if_pos rfl]
    omega
  · have hmul : ((full * span.toInt.toNat : Nat) : Int) = full * span.toInt := by
      rw [Int.natCast_mul, Int.toNat_of_nonneg (by omega)]
    have hexpand : span.toInt * ((full : Int) + 1) = full * span.toInt + span.toInt := by
      rw [Int.mul_add, Int.mul_comm, Int.mul_one]
    rw [if_neg hfull, hexpand]
    omega

/-- The contexts given to an edge lie in one block. -/
theorem share_oneBlock : ((share e).start : Int) % (enc.blockD t).size.toInt + (share e).size ≤
    (enc.blockD t).size.toInt := by
  obtain ⟨-, hnil⟩ | ⟨full, used, htiled, -, hsize, -⟩ := h.layout_cases ht
  · rw [hnil] at he
    exact absurd he List.not_mem_nil
  have hmem := List.mem_map_of_mem (f := share) he
  have hspan := h.one_le_span
  rw [hsize]
  by_cases hfull : full = 0
  · -- a single block is as long as what has been used of it
    have hbelow := htiled.below _ hmem
    have hpos := (htiled.sizes _ hmem).1
    rw [if_pos hfull]
    subst hfull
    rw [Int.emod_eq_of_lt (by omega) (by omega)]
    omega
  · have hone := htiled.oneBlock _ hmem
    have hcast : ((((share e).start % span.toInt.toNat : Nat)) : Int) =
        (share e).start % span.toInt := by
      rw [Int.natCast_emod, Int.toNat_of_nonneg (by omega)]
    rw [if_neg hfull, ← hcast]
    omega

include hcount

/-- **As long as the contexts can be counted, the offset is exact.** -/
theorem offset_eq : e.offset.toInt = (share e).start + 1 := by
  obtain ⟨hreach, hoffset, hsize⟩ := h.between_of_entering he
  have hle := h.share_le ht he
  have hpos := (h.size_mem_Icc (h.condensed.hasMethod _ hreach)).1
  rw [hoffset]
  omega

/-- An edge leads to a range inside the block that it starts in. -/
theorem place_add_le : (e.offset.toInt - 1) % (enc.blockD t).size.toInt +
    (enc.blockD e.caller).size.toInt ≤ (enc.blockD t).size.toInt := by
  obtain ⟨-, -, hsize⟩ := h.between_of_entering he
  rw [h.offset_eq ht hcount he, Int.add_sub_cancel, ← hsize]
  exact h.share_oneBlock ht he

/-- The contexts an edge leads to are contexts of the component. -/
theorem range_subset : enc.range e ⊆
    Set.Icc 1 ((enc.blockD t).size.toInt * (enc.blockD t).num.toInt) := by
  obtain ⟨-, -, hsize⟩ := h.between_of_entering he
  have hoffset := h.offset_eq ht hcount he
  have hle := h.share_le ht he
  intro x hx
  rw [Encoding.range, Set.mem_Ico] at hx
  exact ⟨by omega, by omega⟩

/-- **Going through an edge is exact**: no context is too large. -/
theorem toInt_through {x : Int64} (hx : 1 ≤ x.toInt) :
    (e.offset + (x - 1) % (enc.blockD e.caller).size).toInt =
      e.offset.toInt + ((x - 1) % (enc.blockD e.caller).size).toInt := by
  have hpos := (h.size_mem_Icc (h.condensed.hasMethod _ (h.between_of_entering he).1)).1
  obtain ⟨hnonneg, hlt⟩ := Context.toInt_place_mem hx hpos
  have hlast : e.offset.toInt + (enc.blockD e.caller).size.toInt - 1 ∈ enc.range e :=
    Set.mem_Ico.2 ⟨by omega, by omega⟩
  have hoffset := Int64.le_toInt e.offset
  have hle := (h.range_subset ht hcount he hlast).2
  have hlargest := Context.toInt_largest
  exact Context.toInt_add_of_le (by omega) (by omega)

/-- It leads to a context of the range. -/
theorem through_mem_range {x : Int64} (hx : 1 ≤ x.toInt) :
    (e.offset + (x - 1) % (enc.blockD e.caller).size).toInt ∈ enc.range e := by
  have hpos := (h.size_mem_Icc (h.condensed.hasMethod _ (h.between_of_entering he).1)).1
  obtain ⟨hnonneg, hlt⟩ := Context.toInt_place_mem hx hpos
  rw [h.toInt_through ht hcount he hx]
  exact Set.mem_Ico.2 ⟨by omega, by omega⟩

/-- **The contexts an edge leads to lie in one block.** -/
theorem exists_block_range : ∃ k : Int, enc.range e ⊆
    Set.Icc (k * (enc.blockD t).size.toInt + 1) ((k + 1) * (enc.blockD t).size.toInt) := by
  have hone := h.place_add_le ht hcount he
  have hpos := (h.size_mem_Icc ht).1
  refine ⟨(e.offset.toInt - 1) / (enc.blockD t).size.toInt, fun x hx => ?_⟩
  have hdiv := Int.emod_add_mul_ediv (e.offset.toInt - 1) (enc.blockD t).size.toInt
  have hnonneg := Int.emod_nonneg (e.offset.toInt - 1) (b := (enc.blockD t).size.toInt) (by omega)
  rw [Encoding.range, Set.mem_Ico] at hx
  rw [Int.mul_comm] at hdiv
  rw [Set.mem_Icc, Int.add_mul, Int.one_mul]
  exact ⟨by omega, by omega⟩

/-- Brought back to the first block, the contexts an edge leads to end inside
it. -/
theorem toInt_first_add :
    let x := 1 + (e.offset - 1) % (enc.blockD t).size
    1 ≤ x.toInt ∧ x.toInt + (enc.blockD e.caller).size.toInt ≤ (enc.blockD t).size.toInt + 1 := by
  intro x
  have hoffset := h.offset_eq ht hcount he
  have hone := h.place_add_le ht hcount he
  have hpos := (h.size_mem_Icc ht).1
  obtain ⟨hnonneg, -⟩ := Context.toInt_place_mem (x := e.offset) (by omega) hpos
  have hplace := Context.toInt_place (x := e.offset) (b := (enc.blockD t).size) (by omega)
  have hx : x.toInt = 1 + ((e.offset - 1) % (enc.blockD t).size).toInt :=
    Context.toInt_first (by omega) hpos
  exact ⟨by omega, by omega⟩

/-- An edge that leads to a context of the first block leads nowhere else. -/
theorem range_subset_first (hfirst : e.offset.toInt ≤ (enc.blockD t).size.toInt) :
    enc.range e ⊆ Set.Icc 1 (enc.blockD t).size.toInt := by
  have hoffset := h.offset_eq ht hcount he
  have hone := h.place_add_le ht hcount he
  rw [Int.emod_eq_of_lt (by omega) (by omega)] at hone
  intro x hx
  rw [Encoding.range, Set.mem_Ico] at hx
  exact ⟨by omega, by omega⟩

/-- **Edges do not lead to the same context.** -/
theorem range_disjoint {e' : Edge} (he' : e' ∈ enc.graph.entering g (enc.graph.repD t))
    (hne : e ≠ e') : Disjoint (enc.range e) (enc.range e') := by
  have hapart : (share e).Apart (share e') := by
    obtain ⟨-, hnil⟩ | ⟨full, used, htiled, -⟩ := h.layout_cases ht
    · rw [hnil] at he
      exact absurd he List.not_mem_nil
    · exact htiled.apart he he' hne
  obtain ⟨-, -, hsize⟩ := h.between_of_entering he
  obtain ⟨-, -, hsize'⟩ := h.between_of_entering he'
  have hoffset := h.offset_eq ht hcount he
  have hoffset' := h.offset_eq ht hcount he'
  refine Set.disjoint_left.2 fun x hx hx' => ?_
  rw [Encoding.range, Set.mem_Ico] at hx hx'
  rcases hapart with hlt | hlt
  · omega
  · omega

end Countable

/-! ## When blocks are needed -/

theorem sum_sizes (r : MethodId) :
    ((((enc.graph.entering g r).map share).map (·.size)).sum : Nat) =
      ((enc.graph.entering g r).map fun e => (enc.blockD e.caller).size.toInt).sum := by
  have hsize : ∀ e ∈ enc.graph.entering g r,
      ((share e).size : Int) = (enc.blockD e.caller).size.toInt :=
    fun e he => (h.between_of_entering he).2.2
  generalize enc.graph.entering g r = es at hsize ⊢
  induction es with
  | nil => rfl
  | cons e es ih =>
    have hrest := ih fun e' he' => hsize e' (List.mem_cons_of_mem _ he')
    have he := hsize e List.mem_cons_self
    simp only [List.map_cons, List.sum_cons, Int.natCast_add]
    rw [he, hrest]

/-- **A component has one block iff what enters it fits in one.** -/
theorem num_eq_one_iff {t : MethodId} (ht : g.hasMethod t) : (enc.blockD t).num = 1 ↔
    ((enc.graph.entering g (enc.graph.repD t)).map
      fun e => (enc.blockD e.caller).size.toInt).sum ≤ span.toInt := by
  rw [← h.sum_sizes]
  have hspan := h.one_le_span
  obtain ⟨hblock, hnil⟩ | ⟨full, used, htiled, -, -, hnum⟩ := h.layout_cases ht
  · rw [hblock, hnil]
    exact iff_of_true rfl (by simp only [List.map_nil, List.sum_nil]; omega)
  · rw [← Int64.toInt_inj, hnum, show (1 : Int64).toInt = 1 from rfl]
    by_cases hfull : full = 0
    · have htotal := htiled.total hfull
      have hle := htiled.used_le
      exact iff_of_true (by omega) (by omega)
    · have hover := htiled.overflow (Nat.pos_of_ne_zero hfull)
      exact iff_of_false (by omega) (by omega)

/-- The edges that enter a component, as the graph lists them. -/
theorem entering_perm {t : MethodId} : List.Perm (enc.graph.entering g (enc.graph.repD t))
    (g.edges.toList.filter fun e => enc.graph.isReachable e.caller && !e.inComponent &&
      enc.graph.repD e.callee == enc.graph.repD t) := by
  have hnodup : g.edges.toList.Nodup := List.Nodup.of_map _ h.condensed.wellFormed.distinct
  refine (List.perm_ext_iff_of_nodup (h.condensed.entering_nodup _) (hnodup.filter _)).2 ?_
  intro e
  simp only [h.condensed.mem_entering, List.mem_filter, Array.mem_toList_iff, Bool.and_eq_true,
    Bool.not_eq_true', beq_iff_eq, and_assoc]
  refine and_congr_right fun he => and_congr_right fun hreach => ?_
  have hflag := h.condensed.flag e he hreach
  constructor
  · rintro ⟨hto, hfrom⟩
    exact ⟨Bool.eq_false_iff.2 fun hin => hfrom ((hflag.1 hin).trans hto), hto⟩
  · rintro ⟨hin, hto⟩
    exact ⟨hto, fun hfrom => Bool.eq_false_iff.1 hin (hflag.2 (hfrom.trans hto.symm))⟩

end Encoded

/-- **How the ranges of contexts lie.** In the encoding of a condensed graph an
edge has contexts iff the root reaches its caller, and the methods of a
component share a block of at least one context and at most the span. As
long as the contexts of a component can be counted, the ranges of the edges
that enter it do not meet, are contexts of it, and lie in one block each;
it has one block iff they all fit in one. -/
theorem CallGraph.encode_ranges {g g' : CallGraph} {c : Condensation} (hw : g.WellFormed)
    (hfew : g.edges.size < 2 ^ 63) (hcond : g.condense g.representatives = .ok (g', c))
    (maxSpan : Int64) :
    let g'' := (g'.encode c maxSpan).1
    let enc := (g'.encode c maxSpan).2
    let span := (Encoding.effectiveSpan maxSpan).toInt
    (∀ e ∈ g''.edges, e.mapped ↔ g.Reaches rootMethod e.caller) ∧
    (∀ m, g.hasMethod m → enc.block m = .ok (enc.blockD m) ∧
      (enc.blockD m).size.toInt ∈ Set.Icc 1 span) ∧
    (∀ a b, g.hasMethod a → g.hasMethod b → g.Reaches a b → g.Reaches b a →
      enc.blockD a = enc.blockD b) ∧
    ∀ t, g.hasMethod t →
      let size := (enc.blockD t).size.toInt
      let contexts := size * (enc.blockD t).num.toInt
      let entering := g''.edges.toList.filter fun e =>
        c.isReachable e.caller && !e.inComponent && c.repD e.callee == c.repD t
      (contexts < Context.largest.toInt →
        entering.Pairwise (fun e e' => Disjoint (enc.range e) (enc.range e')) ∧
        ∀ e ∈ entering, enc.range e ⊆ Set.Icc 1 contexts ∧
          ∃ k, enc.range e ⊆ Set.Icc (k * size + 1) ((k + 1) * size)) ∧
      ((enc.blockD t).num = 1 ↔
        (entering.map fun e => (enc.blockD e.caller).size.toInt).sum ≤ span) := by
  intro g'' enc span
  have hc := condensed_of_condense hw hcond
  have hfew' : g'.edges.size < 2 ^ 63 := by rw [edges_size_of_condense hcond]; exact hfew
  have hcalls := unmapped_encode hc hfew' maxSpan
  obtain ⟨share, h⟩ := encoded_of_encode hc hfew' maxSpan
  have hreaches : g''.Reaches = g.Reaches := by
    rw [Reaches, successors_of_unmapped hcalls, successors_of_condense hcond]
  have hsize : g''.size = g.size := (size_of_unmapped hcalls).trans (size_of_condense hcond)
  have hmethod : ∀ m, g.hasMethod m → g''.hasMethod m := fun m hm => by
    rw [hasMethod_iff, hsize, ← hasMethod_iff]
    exact hm
  refine ⟨?_, ?_, ?_, ?_⟩
  · intro e he
    have hpos : 0 < g''.size := by
      obtain ⟨h0, hlt⟩ := hasMethod_iff.1 (h.condensed.wellFormed.caller e he)
      exact Int.natCast_pos.1 (Int.lt_of_le_of_lt h0 hlt)
    rw [h.mapped_iff he, h.condensed.reachable, ← hreaches]
    exact and_iff_right hpos
  · exact fun m hm => ⟨h.block_eq m (hmethod m hm), h.size_mem_Icc (hmethod m hm)⟩
  · intro a b ha hb hab hba
    rw [← hreaches] at hab hba
    have hrep := (h.condensed.repD_eq_iff (hmethod a ha) (hmethod b hb)).2 ⟨hab, hba⟩
    rw [← h.blockD_repD a (hmethod a ha), hrep, h.blockD_repD b (hmethod b hb)]
  · intro t ht size contexts entering
    have hperm : List.Perm (c.entering g'' (c.repD t)) entering := h.entering_perm
    have ht' := hmethod t ht
    refine ⟨fun hcount => ⟨?_, fun e he => ?_⟩, ?_⟩
    · have hnodup : entering.Nodup := hperm.nodup_iff.1 (h.condensed.entering_nodup _)
      refine hnodup.pairwise_of_forall_ne fun e he e' he' hne => ?_
      exact h.range_disjoint ht' (Int.le_of_lt hcount) (hperm.mem_iff.2 he)
        (hperm.mem_iff.2 he') hne
    · have he' := hperm.mem_iff.2 he
      exact ⟨h.range_subset ht' (Int.le_of_lt hcount) he',
        h.exists_block_range ht' (Int.le_of_lt hcount) he'⟩
    · rw [h.num_eq_one_iff ht']
      exact iff_of_eq (congrArg (· ≤ span) (hperm.map _).sum_eq)

/-- With blocks of one context the two calls of the root lead to different
contexts, in two blocks. -/
theorem CallGraph.encode_ranges_twoEntries :
    let enc := (twoEntriesMarked.encode twoEntriesCondensed 1).2
    Disjoint (enc.range ⟨⟨0, 1, 1⟩, false, 1⟩) (enc.range ⟨⟨0, 1, 2⟩, false, 2⟩) ∧
      (enc.blockD 1).num ≠ 1 := by
  obtain ⟨-, -, -, hranges⟩ :=
    encode_ranges wellFormed_twoEntries (by decide) condense_twoEntries 1
  obtain ⟨hlie, hnum⟩ := hranges 1 (by decide)
  have hentering : ((twoEntriesMarked.encode twoEntriesCondensed 1).1.edges.toList.filter fun e =>
      twoEntriesCondensed.isReachable e.caller && !e.inComponent &&
        twoEntriesCondensed.repD e.callee == twoEntriesCondensed.repD 1) =
      [⟨⟨0, 1, 1⟩, false, 1⟩, ⟨⟨0, 1, 2⟩, false, 2⟩] := by
    decide +kernel
  rw [hentering] at hlie hnum
  have hdisjoint := (hlie (by decide +kernel)).1
  rw [List.pairwise_pair] at hdisjoint
  exact ⟨hdisjoint, fun h => absurd (hnum.1 h) (by decide +kernel)⟩

end PointsTo
