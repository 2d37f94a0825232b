import PointsTo.Proofs.HeapTables
/-!
# Nested allocations show a window of their history

An allocation may be qualified by one that has been qualified itself, and
so on down to a plain site. A table shifts the chain of the receiver by
one site and cuts it at the old end, step by step; what the chain of the
last allocation shows is said here in one go (`slot`): the sites before
it, closest first, back to the last one whose type is never qualified.
`Nested.mem_records` carries that along a sequence of sites through
whatever else happens to the table, and `nested_windows` reads off what is
seen of a sequence, when two sequences are one allocation, and that deeper
tables tell more of them apart.
-/

namespace PointsTo

namespace Universe

variable {u u' : Universe} {n : NodeId}

/-- The number is that of an allocation that is not qualified. -/
def HasSite (u : Universe) (n : NodeId) : Prop :=
  ∃ r, u.node? n = some r ∧ r.isAlloc ∧ r.allocKind ≠ .objectSensitive

instance (u : Universe) (n : NodeId) : Decidable (u.HasSite n) :=
  decidable_of_iff ((u.node? n).any fun r => r.isAlloc && decide (r.allocKind ≠ .objectSensitive))
    (by rw [HasSite]; cases u.node? n <;> simp)

theorem HasSite.hasAlloc (h : u.HasSite n) : u.HasAlloc n :=
  h.imp fun _ hr => ⟨hr.1, hr.2.1⟩

/-- A site stays one. -/
theorem Within.hasSite (hw : Within u u') (h : u.HasSite n) : u'.HasSite n :=
  h.imp fun _ hr => ⟨hw _ _ hr.1, hr.2⟩

theorem Within.hasAlloc (hw : Within u u') (h : u.HasAlloc n) : u'.HasAlloc n :=
  h.imp fun _ hr => ⟨hw _ _ hr.1, hr.2⟩

/-- What an allocation is enclosed by does not change. -/
theorem Within.lineage (hw : Within u u') (h : u.HasAlloc n) : u'.lineage n = u.lineage n := by
  obtain ⟨r, hr, -⟩ := h
  rw [Universe.lineage, Universe.lineage, hr, hw _ _ hr]

theorem Within.typeOf (hw : Within u u') (h : u.HasAlloc n) : u'.typeOf n = u.typeOf n := by
  obtain ⟨r, hr, -⟩ := h
  rw [Universe.typeOf, Universe.typeOf, hr, hw _ _ hr]

/-- Nothing encloses a plain site. -/
theorem Sited.lineage (hs : u.Sited) (h : u.HasSite n) : u.lineage n = [n] := by
  obtain ⟨r, hr, halloc, hkind⟩ := h
  obtain ⟨hsite, hcontext⟩ := hs.plain n r hr halloc hkind
  rw [Universe.lineage, hr, Option.map_some, Option.getD_some, hsite, hcontext]

/-- A plain site is its own site. -/
theorem Sited.siteOf (hs : u.Sited) (h : u.HasSite n) : u.siteOf n = n := by
  obtain ⟨r, hr, halloc, hkind⟩ := h
  rw [Universe.siteOf, hr, Option.map_some, Option.getD_some, (hs.plain n r hr halloc hkind).1]

/-- A qualified allocation is enclosed by its chain. -/
theorem Qualifies.lineage {site : NodeId} {chain : List NodeId} (h : u.Qualifies n site chain) :
    u.lineage n = site :: chain := by
  obtain ⟨b, -, -, -, hn⟩ := h
  rw [Universe.lineage, hn]
  rfl

theorem Qualifies.hasAlloc {site : NodeId} {chain : List NodeId} (h : u.Qualifies n site chain) :
    u.HasAlloc n := by
  obtain ⟨b, -, -, -, hn⟩ := h
  exact ⟨_, hn, rfl⟩

end Universe

namespace HeapTable

open Universe

variable {s : Setup} {u u' : Universe} {a b : Nat → NodeId} {i j k l n m : Nat}

/-! ## Windows -/

/-- **What is seen `j` sites back from the `i`-th site of a sequence**: that site, if
there is one and none of the types of the `j` sites after it is never
qualified. -/
def slot (s : Setup) (u : Universe) (a : Nat → NodeId) (i j : Nat) : NodeId :=
  if j ≤ i ∧ ∀ l < j, ¬ s.OptsOut (u.typeOf (a (i - l))) then a (i - j) else noNode

/-- The sites that a table shows before the `i`-th site of a sequence, closest first. -/
def window (s : Setup) (u : Universe) (a : Nat → NodeId) (i : Nat) : List NodeId :=
  (List.range s.slots).map fun j => slot s u a i (j + 1)

@[simp] theorem slot_zero : slot s u a i 0 = a i := by simp [slot]

/-- **Nothing is seen before the beginning.** -/
theorem slot_of_lt (h : i < j) : slot s u a i j = noNode := if_neg fun hj => by omega

/-- **One site more shifts the view by one**, or closes it. -/
theorem slot_succ : slot s u a (i + 1) (j + 1) =
    if s.OptsOut (u.typeOf (a (i + 1))) then noNode else slot s u a i j := by
  have hview : (j + 1 ≤ i + 1 ∧ ∀ l < j + 1, ¬ s.OptsOut (u.typeOf (a (i + 1 - l)))) ↔
      ¬ s.OptsOut (u.typeOf (a (i + 1))) ∧
        j ≤ i ∧ ∀ l < j, ¬ s.OptsOut (u.typeOf (a (i - l))) := by
    rw [Nat.forall_lt_succ_left]
    simp only [Nat.add_le_add_iff_right, Nat.sub_zero, Nat.add_sub_add_right]
    tauto
  by_cases hout : s.OptsOut (u.typeOf (a (i + 1)))
  · rw [if_pos hout, slot, if_neg fun h => (hview.1 h).1 hout]
  · rw [if_neg hout, slot, slot, Nat.add_sub_add_right]
    exact if_congr (hview.trans (and_iff_right hout)) rfl rfl

/-- The view depends on which of the sites have types that are never qualified. -/
theorem slot_congr {s' : Setup}
    (h : ∀ x ≤ i, s'.OptsOut (u'.typeOf (a x)) ↔ s.OptsOut (u.typeOf (a x))) :
    slot s' u' a i j = slot s u a i j := by
  refine if_congr (and_congr_right fun _ => ?_) rfl rfl
  exact forall₂_congr fun l _ => not_congr (h _ (Nat.sub_le i l))

/-- It stays as it is while the types of the sites do. -/
theorem slot_typeOf (h : ∀ x ≤ i, u'.typeOf (a x) = u.typeOf (a x)) :
    slot s u' a i j = slot s u a i j :=
  slot_congr fun x hx => by rw [h x hx]

theorem window_typeOf (h : ∀ x ≤ i, u'.typeOf (a x) = u.typeOf (a x)) :
    window s u' a i = window s u a i :=
  List.map_congr_left fun _ _ => slot_typeOf h

/-- The window is what is seen from the next site back on. -/
theorem getElem?_window (h : j < s.slots) :
    (window s u a i)[j]? = some (slot s u a i (j + 1)) := by
  rw [window, List.getElem?_map, List.getElem?_range h, Option.map_some]

/-- **A shallower table shows less**: windows that agree in a deeper table, where the same
sites are never qualified, agree. -/
theorem window_shallower {s' : Setup} {i' : Nat} (hdepth : s'.depth = s.depth + 1)
    (ha : ∀ x ≤ i, s'.OptsOut (u'.typeOf (a x)) ↔ s.OptsOut (u.typeOf (a x)))
    (hb : ∀ x ≤ i', s'.OptsOut (u'.typeOf (b x)) ↔ s.OptsOut (u.typeOf (b x)))
    (h : window s' u' a i = window s' u' b i') : window s u a i = window s u b i' := by
  refine List.map_congr_left fun j hj => ?_
  have hlt : j < s'.slots := by
    have := List.mem_range.1 hj
    simp only [Setup.slots] at this ⊢
    omega
  have hget := congrArg (·[j]?) h
  rw [getElem?_window hlt, getElem?_window hlt, slot_congr ha, slot_congr hb] at hget
  exact Option.some.inj hget

/-- The chain under an allocation whose sites are seen like that. -/
theorem chain_eq_window {e : NodeId}
    (h : ∀ j < s.slots, (u.lineage e).getD j noNode = slot s u a i j) :
    (Call.mk (a (i + 1)) (some e)).chain s u = window s u a (i + 1) := by
  have hsites : (Call.mk (a (i + 1)) (some e)).sites s u =
      if s.OptsOut (u.typeOf (a (i + 1))) then [] else u.lineage e := rfl
  refine List.map_congr_left fun j hj => ?_
  rw [slot_succ, hsites]
  by_cases hout : s.OptsOut (u.typeOf (a (i + 1)))
  · rw [if_pos hout, if_pos hout, List.getD_nil]
  · rw [if_neg hout, if_neg hout, h j (List.mem_range.1 hj)]

/-! ## Histories -/

/-- What a table was reset to, what was in its universe then, and what has happened
to both since. -/
structure History where
  setup : Setup
  made : List Addition
  events : List Event

namespace History

variable {h : History} {e c : NodeId}

/-- The table and the universe after the first so many events. -/
def state (h : History) (k : Nat) : HeapTable × Universe :=
  after (h.setup.table, Addition.applyAll .empty h.made) (h.events.take k)

/-- The table and the universe in the end. -/
def last (h : History) : HeapTable × Universe :=
  after (h.setup.table, Addition.applyAll .empty h.made) h.events

/-- The next state is what the next event leaves. -/
theorem state_succ {ev : Event} (hev : h.events[k]? = some ev) :
    h.state (k + 1) = ev.next (h.state k) := by
  rw [state, List.take_add_one, hev, Option.toList_some, after, List.foldl_append]
  rfl

/-- Later states have lost nothing. -/
theorem later_state (hkl : k ≤ l) : Later (h.state k) (h.state l) := by
  have hsplit := List.take_append_drop k (h.events.take l)
  rw [List.take_take, Nat.min_eq_left hkl] at hsplit
  rw [state, state, ← hsplit, after, after, List.foldl_append]
  exact later_after _ _

theorem later_last (h : History) (k : Nat) : Later (h.state k) h.last := by
  have hlater := later_after (h.state k) (h.events.drop k)
  rwa [state, after, after, ← List.foldl_append, List.take_append_drop] at hlater

theorem words_state (hw : h.last.2.Words) (k : Nat) : (h.state k).2.Words :=
  hw.of_within (h.later_last k).within

/-- **Every state is sound**, if the numbers at the end are words. -/
theorem sound_state (hw : h.last.2.Words) (k : Nat) : Sound h.setup (h.state k) :=
  (sound_start h.setup h.made).after (words_state hw k)

theorem sound_last (hw : h.last.2.Words) : Sound h.setup h.last :=
  (sound_start h.setup h.made).after hw

/-- **A sequence of nested sites.** After the first so many events, the node is the
first site of the sequence, or it was the answer to a call for the next site,
made by a method of the allocation of the sites before. Anything may have
happened between the calls. -/
inductive Nested (h : History) (a : Nat → NodeId) : Nat → Nat → NodeId → Prop
  | site {k : Nat} (hsite : (h.state k).2.HasSite (a 0)) : Nested h a k 0 (a 0)
  | qualified {k l i : Nat} {e c : NodeId} (hn : Nested h a k i e) (hkl : k ≤ l)
      (hcall : h.events[l]? = some (.call ⟨a (i + 1), some e⟩))
      (hsite : (h.state l).2.HasSite (a (i + 1)))
      (hc : ((Call.mk (a (i + 1)) (some e)).step.go (h.state l)).1 = .ok c) :
      Nested h a (l + 1) (i + 1) c

namespace Nested

/-- **All sites of a sequence are there**, from when they were used on. -/
theorem sites (hn : h.Nested a k i e) : ∀ x ≤ i, (h.state k).2.HasSite (a x) := by
  induction hn with
  | site hsite =>
    intro x hx
    rwa [Nat.le_zero.1 hx]
  | @qualified k l i _ _ hn hkl _ hsite _ ih =>
    have hwithin : ∀ {m}, m ≤ l + 1 → Within (h.state m).2 (h.state (l + 1)).2 :=
      fun hm => (later_state hm).within
    intro x hx
    obtain hlt | rfl := Nat.lt_or_eq_of_le hx
    · exact (hwithin (Nat.le_succ_of_le hkl)).hasSite (ih x (Nat.le_of_lt_succ hlt))
    · exact (hwithin (Nat.le_succ l)).hasSite hsite

/-- Types of sites do not change. -/
theorem typeOf (hn : h.Nested a k i e) (hu : Within (h.state k).2 u) :
    ∀ x ≤ i, u.typeOf (a x) = (h.state k).2.typeOf (a x) :=
  fun x hx => hu.typeOf (hn.sites x hx).hasAlloc

/-- The allocation is seen as its sequence, as far as the table is deep. -/
structure Shown (h : History) (a : Nat → NodeId) (k i : Nat) (e : NodeId) : Prop where
  hasAlloc : (h.state k).2.HasAlloc e
  lineage : ∀ j ≤ h.setup.slots,
    ((h.state k).2.lineage e).getD j noNode = slot h.setup (h.state k).2 a i j

/-- What is shown is shown as well later on. -/
theorem Shown.later (hs : Shown h a k i e) (hn : h.Nested a k i e) (hkl : k ≤ l) :
    Shown h a l i e := by
  have hwithin := (later_state (h := h) hkl).within
  refine ⟨hwithin.hasAlloc hs.hasAlloc, fun j hj => ?_⟩
  rw [hwithin.lineage hs.hasAlloc, hs.lineage j hj, slot_typeOf (hn.typeOf hwithin)]

/-- The next call asks for something proper. -/
theorem Shown.proper (hs : Shown h a l i e) (hsite : (h.state l).2.HasSite (a (i + 1))) :
    (Call.mk (a (i + 1)) (some e)).Proper h.setup (h.state l).2 :=
  ⟨hsite.hasAlloc, fun _ hx => .inr (Option.some.inj hx ▸ hs.hasAlloc)⟩

/-- **The next call has an answer** unless the table is too deep, and is recorded under the
window of its sequence. -/
theorem Shown.call (hw : h.last.2.Words) (hs : Shown h a l i e) (hkeys : h.setup.KeysFit)
    (hcall : h.events[l]? = some (.call ⟨a (i + 1), some e⟩))
    (hsite : (h.state l).2.HasSite (a (i + 1))) :
    ∃ c, ((Call.mk (a (i + 1)) (some e)).step.go (h.state l)).1 = .ok c ∧
      ⟨c, a (i + 1), window h.setup (h.state l).2 a (i + 1)⟩ ∈ (h.state (l + 1)).1.records := by
  have hsound := sound_state hw l
  obtain ⟨c, hc, -, hmem⟩ := hsound.call (words_state hw l) ⟨hs.proper hsite, hkeys⟩
  rw [hsound.sited.siteOf hsite, chain_eq_window fun j hj => hs.lineage j (Nat.le_of_lt hj)] at hmem
  exact ⟨c, hc, (state_succ hcall).symm ▸ hmem⟩

/-- What is recorded under its window is seen as its sequence. -/
theorem shown_of_mem (hw : h.last.2.Words)
    (hmem : ⟨c, a (i + 1), window h.setup (h.state k).2 a (i + 1)⟩ ∈ (h.state k).1.records) :
    Shown h a k (i + 1) c := by
  have hqualifies := (sound_state hw k).consistent.qualified _ hmem
  refine ⟨hqualifies.hasAlloc, fun j hj => ?_⟩
  rw [hqualifies.lineage]
  cases j with
  | zero => rw [slot_zero, List.getD_cons_zero]
  | succ j => rw [List.getD_cons_succ, List.getD_eq_getElem?_getD, getElem?_window hj,
      Option.getD_some]

/-- The answer to the next call is recorded. -/
theorem mem_of_shown (hw : h.last.2.Words) (hn : h.Nested a k i e) (hs : Shown h a k i e)
    (hkl : k ≤ l) (hcall : h.events[l]? = some (.call ⟨a (i + 1), some e⟩))
    (hsite : (h.state l).2.HasSite (a (i + 1)))
    (hc : ((Call.mk (a (i + 1)) (some e)).step.go (h.state l)).1 = .ok c) :
    ⟨c, a (i + 1), window h.setup (h.state (l + 1)).2 a (i + 1)⟩ ∈
      (h.state (l + 1)).1.records := by
  have hkeys := (Call.valid_of_go (sound_state hw l).setTo hc).2
  obtain ⟨c', hc', hmem⟩ := (hs.later hn hkl).call hw hkeys hcall hsite
  obtain rfl := Except.ok.inj (hc.symm.trans hc')
  refine window_typeOf (fun x hx => ?_) ▸ hmem
  refine ((later_state (Nat.le_succ l)).within.typeOf ?_).symm
  obtain hlt | rfl := Nat.lt_or_eq_of_le hx
  · exact ((later_state hkl).within.hasSite (hn.sites x (Nat.le_of_lt_succ hlt))).hasAlloc
  · exact hsite.hasAlloc

/-- **Every allocation of a sequence is seen as its sequence.** -/
theorem shown (hw : h.last.2.Words) (hn : h.Nested a k i e) : Shown h a k i e := by
  induction hn with
  | @site k hsite =>
    refine ⟨hsite.hasAlloc, fun j _ => ?_⟩
    rw [(sound_state hw k).sited.lineage hsite]
    cases j with
    | zero => rw [slot_zero, List.getD_cons_zero]
    | succ j => rw [slot_of_lt (Nat.succ_pos j), List.getD_cons_succ, List.getD_nil]
  | @qualified k l i e c hn hkl hcall hsite hc ih =>
    exact shown_of_mem hw (mem_of_shown hw hn ih hkl hcall hsite hc)

/-- **Every allocation of a sequence is recorded under the window of its sequence.** -/
theorem mem_records (hw : h.last.2.Words) (hn : h.Nested a k (i + 1) c) :
    ⟨c, a (i + 1), window h.setup h.last.2 a (i + 1)⟩ ∈ h.last.1.records := by
  have htypes := hn.typeOf (h.later_last k).within
  cases hn with
  | qualified hn hkl hcall hsite hc =>
    have hmem := mem_of_shown hw hn (hn.shown hw) hkl hcall hsite hc
    exact window_typeOf htypes ▸ (h.later_last _).records hmem

/-- What is read of an allocation of a sequence. -/
theorem context_eq (hw : h.last.2.Words) (hn : h.Nested a k (i + 1) c) {j : Int} (hj : 1 ≤ j)
    (hlt : j < h.setup.depth) :
    h.last.1.context c j = .ok (slot h.setup h.last.2 a (i + 1) j.toNat) := by
  have hrecord := (sound_last hw).consistent.record?_eq_some.2 ⟨hn.mem_records hw, rfl⟩
  have hdepth : (h.last.1.depth : Int) = max h.setup.depth 1 := by
    rw [(sound_last hw).setTo.1]
    exact Int.toNat_of_nonneg (Int.le_trans (by decide) (Int.le_max_right ..))
  have hslots : (j - 1).toNat < h.setup.slots := by
    unfold Setup.slots
    omega
  rw [context, if_pos ⟨hj, by omega⟩, hrecord, Option.bind_some, getElem?_window hslots,
    Option.getD_some, show (j - 1).toNat + 1 = j.toNat by omega]

variable {k' i' : Nat} {c' : NodeId}

/-- **Two sequences are one allocation exactly if they end in one site and show one
window.** -/
theorem eq_iff (hw : h.last.2.Words) (hn : h.Nested a k (i + 1) c)
    (hn' : h.Nested b k' (i' + 1) c') : c = c' ↔ a (i + 1) = b (i' + 1) ∧
      window h.setup h.last.2 a (i + 1) = window h.setup h.last.2 b (i' + 1) := by
  have hconsistent := (sound_last hw).consistent
  have hmem := hn.mem_records hw
  have hmem' := hn'.mem_records hw
  constructor
  · rintro rfl
    have heq := hconsistent.byNode.eq_of_mem hmem hmem' rfl
    exact ⟨congrArg (·.site) heq, congrArg (·.context) heq⟩
  · rintro ⟨hsite, hwindow⟩
    rw [hsite, hwindow] at hmem
    exact congrArg (·.node) (hconsistent.byKey.eq_of_mem hmem hmem' rfl)

end Nested

end History

open History

/-- **Nested allocations show a window of their history.** In a table that has been
reset, and whatever happens to it and its universe in between, a call that
qualifies a plain site by an allocation of a sequence of nested sites has an
answer, unless the table is too deep to make any chain; what is read of it `j`
places back is the `j`-th site before it, if there is one and none of the types
from the site after that one on is never qualified, and no site otherwise.
Two sequences are one allocation exactly if they end in one site and show one
window, and those that are one in a table that is deeper by one, where the same
sites are never qualified, are one in this table. -/
theorem nested_windows (h : History) (hw : h.last.2.Words) :
    (∀ a k l i e, h.Nested a k i e → k ≤ l →
      h.events[l]? = some (.call ⟨a (i + 1), some e⟩) → (h.state l).2.HasSite (a (i + 1)) →
      (h.setup.KeysFit → ∃ c, ((Call.mk (a (i + 1)) (some e)).step.go (h.state l)).1 = .ok c ∧
        h.Nested a (l + 1) (i + 1) c) ∧
      (¬ h.setup.KeysFit → (Call.mk (a (i + 1)) (some e)).step.go (h.state l) =
        (.error .sliceTooLong, h.state l))) ∧
    (∀ a k i c, h.Nested a k (i + 1) c → ∀ j : Int, 1 ≤ j → j < h.setup.depth →
      h.last.1.context c j = .ok (slot h.setup h.last.2 a (i + 1) j.toNat)) ∧
    (∀ a b k k' i i' c c', h.Nested a k (i + 1) c → h.Nested b k' (i' + 1) c' →
      (c = c' ↔ a (i + 1) = b (i' + 1) ∧
        window h.setup h.last.2 a (i + 1) = window h.setup h.last.2 b (i' + 1))) ∧
    ∀ h' : History, h'.setup.depth = h.setup.depth + 1 → h'.last.2.Words →
      ∀ a b k k' i i' c c', h.Nested a k (i + 1) c → h.Nested b k' (i' + 1) c' →
        ∀ l l' d d', h'.Nested a l (i + 1) d → h'.Nested b l' (i' + 1) d' →
          (∀ x ≤ i + 1, h'.setup.OptsOut (h'.last.2.typeOf (a x)) ↔
            h.setup.OptsOut (h.last.2.typeOf (a x))) →
          (∀ x ≤ i' + 1, h'.setup.OptsOut (h'.last.2.typeOf (b x)) ↔
            h.setup.OptsOut (h.last.2.typeOf (b x))) →
          d = d' → c = c' := by
  refine ⟨fun a k l i e hn hkl hcall hsite => ⟨fun hkeys => ?_, fun hkeys => ?_⟩,
    fun a k i c hn j hj hlt => hn.context_eq hw hj hlt,
    fun a b k k' i i' c c' hn hn' => hn.eq_iff hw hn', ?_⟩
  · obtain ⟨c, hc, -⟩ := ((hn.shown hw).later hn hkl).call hw hkeys hcall hsite
    exact ⟨c, hc, .qualified hn hkl hcall hsite hc⟩
  · have hproper := ((hn.shown hw).later hn hkl).proper hsite
    exact Call.go_step_of_refused (sound_state hw l).setTo (hproper.refused hkeys)
  · intro h' hdepth hw' a b k k' i i' c c' hn hn' l l' d d' hd hd' hopts hopts' hsame
    obtain ⟨hsite, hwindow⟩ := (hd.eq_iff hw' hd').1 hsame
    exact (hn.eq_iff hw hn').2 ⟨hsite, window_shallower hdepth hopts hopts' hwindow⟩

/-- Four sites; the type of the second is never qualified. -/
def cutHistory (depth : Int) : History where
  setup := ⟨none, depth, [2]⟩
  made := [.type "T" .ref, .alloc "a" nullType rootMethod, .alloc "b" 2 rootMethod,
    .alloc "c" nullType rootMethod, .alloc "d" nullType rootMethod]
  events := [.call ⟨2, some 1⟩, .call ⟨2, some 4⟩, .call ⟨3, some 5⟩, .call ⟨3, some 1⟩]

/-- Sequences through that site. -/
def throughCut (first : NodeId) (i : Nat) : NodeId := [first, 2, 3].getD i noNode

/-- A sequence past that site. -/
def pastCut (i : Nat) : NodeId := [1, 3].getD i noNode

/-- Wherever a sequence through that site starts, it is one allocation. -/
theorem nested_cutHistory {depth : Int} (hdepth : depth ∈ [3, 4]) :
    (∀ first ∈ [1, 4], (cutHistory depth).Nested (throughCut first) 3 2 6) ∧
      (cutHistory depth).Nested pastCut 4 1 7 := by
  have hsites : ∀ d ∈ [3, 4], ∀ l < 4, ∀ n ∈ [1, 2, 3, 4],
      ((cutHistory d).state l).2.HasSite n := by
    decide +kernel
  have hanswers : ∀ d ∈ [3, 4], ∀ p ∈ [(0, Call.mk 2 (some 1), 5), (1, ⟨2, some 4⟩, 5),
      (2, ⟨3, some 5⟩, 6), (3, ⟨3, some 1⟩, 7)],
      (p.2.1.step.go ((cutHistory d).state p.1)).1 = .ok p.2.2 := by
    decide +kernel
  have hsite := hsites depth hdepth
  have hanswer := hanswers depth hdepth
  have hend {first : NodeId} {k : Nat} (hk : k ≤ 2)
      (hn : (cutHistory depth).Nested (throughCut first) k 1 5) :
      (cutHistory depth).Nested (throughCut first) 3 2 6 :=
    .qualified hn hk rfl (hsite 2 (by decide) 3 (by decide))
      (hanswer (2, ⟨3, some 5⟩, 6) (by decide))
  refine ⟨fun first hfirst => ?_, ?_⟩
  · obtain rfl | rfl : first = 1 ∨ first = 4 := by simpa using hfirst
    · refine hend (by decide) (.qualified (e := 1) (.site (k := 0) ?_) (Nat.le_refl 0) rfl ?_ ?_)
      · exact hsite 0 (by decide) 1 (by decide)
      · exact hsite 0 (by decide) 2 (by decide)
      · exact hanswer (0, ⟨2, some 1⟩, 5) (by decide)
    · refine hend (by decide) (.qualified (e := 4) (.site (k := 0) ?_) (Nat.zero_le 1) rfl ?_ ?_)
      · exact hsite 0 (by decide) 4 (by decide)
      · exact hsite 1 (by decide) 2 (by decide)
      · exact hanswer (1, ⟨2, some 4⟩, 5) (by decide)
  · refine .qualified (e := 1) (.site (k := 0) ?_) (Nat.zero_le 3) rfl ?_ ?_
    · exact hsite 0 (by decide) 1 (by decide)
    · exact hsite 3 (by decide) 3 (by decide)
    · exact hanswer (3, ⟨3, some 1⟩, 7) (by decide)

/-- There are few nodes, and their chains are short. -/
theorem words_cutHistory {depth : Int} (hdepth : depth ∈ [3, 4]) :
    (cutHistory depth).last.2.Words := by
  obtain rfl | rfl : depth = 3 ∨ depth = 4 := by simpa using hdepth
  · exact Universe.words_of_nodes (by decide +kernel) (by decide +kernel)
  · exact Universe.words_of_nodes (by decide +kernel) (by decide +kernel)

theorem nested_windows_cutHistory :
    (cutHistory 3).last.2.Words ∧ (cutHistory 3).Nested (throughCut 1) 3 2 6 ∧
      (cutHistory 3).Nested pastCut 4 1 7 ∧
      (cutHistory 3).last.1.context 6 1 = .ok 2 ∧
      (cutHistory 3).last.1.context 6 2 = .ok noNode ∧
      (cutHistory 3).last.1.context 7 1 = .ok 1 ∧
      window (cutHistory 3).setup (cutHistory 3).last.2 (throughCut 1) 2 ≠
        window (cutHistory 3).setup (cutHistory 3).last.2 pastCut 1 ∧
      window (cutHistory 3).setup (cutHistory 3).last.2 (throughCut 1) 2 =
        window (cutHistory 3).setup (cutHistory 3).last.2 (throughCut 4) 2 := by
  have hthree : (3 : Int) ∈ [3, 4] := by decide
  have hfour : (4 : Int) ∈ [3, 4] := by decide
  have hw := words_cutHistory hthree
  have hw' := words_cutHistory hfour
  obtain ⟨hthrough, hpast⟩ := nested_cutHistory hthree
  obtain ⟨hthrough', -⟩ := nested_cutHistory hfour
  obtain ⟨-, hreads, hsame, hdeeper⟩ := nested_windows (cutHistory 3) hw
  have h1 := hthrough 1 (by decide)
  refine ⟨hw, h1, hpast, ?_, ?_, ?_, ?_, ?_⟩
  · exact hreads _ _ _ _ h1 1 (by decide) (by decide)
  · exact hreads _ _ _ _ h1 2 (by decide) (by decide)
  · exact hreads _ _ _ _ hpast 1 (by decide) (by decide)
  · intro heq
    exact absurd ((hsame _ _ _ _ _ _ _ _ h1 hpast).2 ⟨rfl, heq⟩) (by decide)
  · have h4 := hthrough 4 (by decide)
    refine ((hsame _ _ _ _ _ _ _ _ h1 h4).1 ?_).2
    exact hdeeper (cutHistory 4) rfl hw' _ _ _ _ _ _ _ _ h1 h4 _ _ _ _
      (hthrough' 1 (by decide)) (hthrough' 4 (by decide)) (by decide +kernel)
      (by decide +kernel) rfl

end HeapTable

end PointsTo
