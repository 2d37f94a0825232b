import Mathlib.Data.List.Basic
import Mathlib.Logic.Relation
import PointsTo.Casting
import PointsTo.Proofs.Attempts
import PointsTo.Proofs.Universes
/-!
# Casts and masks that are remembered

What has been decided about casts and masks is remembered, under the
numbers of types and allocations, while the universe grows and requests
are stopped by faults. `Sound` says that all that is remembered is what
deciding it from scratch gives; growth keeps it so, because a cast between
known types does not change. `UpToDate` says which allocations the masks
speak of. Both hold at any point of any run, so that no answer depends on
what was asked before (`answers_from_scratch`).
-/

namespace PointsTo

/-- Two hierarchies, or none and none, answer alike about the types of a
universe. -/
def Hierarchy.AgreeOn (u : Universe) : Option Hierarchy → Option Hierarchy → Prop :=
  Option.Rel fun h h' => ∀ src dst, u.HasType src → u.HasType dst →
    h.canStore src dst = h'.canStore src dst

theorem Hierarchy.AgreeOn.refl (u : Universe) (h : Option Hierarchy) : AgreeOn u h h := by
  cases h with
  | none => exact .none
  | some h => exact .some fun _ _ _ _ => rfl

/-- **A cast between known types does not change** while the universe grows. -/
theorem castNeverFails_grows {u u' : Universe} {h h' : Option Hierarchy} (hu : u.Grows u')
    (hh : Hierarchy.AgreeOn u h h') {src dst : TypeId} (hsrc : u.Knows src) (hdst : u.Knows dst) :
    castNeverFails u' h' src dst = castNeverFails u h src dst := by
  cases hh with
  | none => rfl
  | some hh =>
    unfold castNeverFails
    dsimp only
    by_cases hsame : dst = noType ∨ dst = src
    · rw [if_pos hsame, if_pos hsame]
    rw [if_neg hsame, if_neg hsame]
    by_cases hnone : src = noType
    · rw [if_pos hnone, if_pos hnone]
    rw [if_neg hnone, if_neg hnone]
    have hstore := hh src dst (hsrc.resolve_left hnone) (hdst.resolve_left fun h => hsame (.inl h))
    obtain ⟨b, hb⟩ := hu.typeD hsrc
    obtain ⟨b', hb'⟩ := hu.typeD hdst
    simp only [decideCast, hb, hb', hstore]

namespace Casting

variable {u u' : Universe} {h h' : Option Hierarchy} {c c' c'' : Casting} {t s : TypeId}
  {n m : NodeId} {ns ms : List NodeId}

/-! ## What is remembered -/

/-- It is remembered that the allocation is in the mask of the type, or that it
is not. -/
def Decides (c : Casting) (t : TypeId) (n : NodeId) (b : Bool) : Prop :=
  n ∈ if b then (c.mask t).inside else (c.mask t).outside

/-- **What is remembered is right**: it is what a cast gives that is decided from
scratch. -/
structure Sound (u : Universe) (h : Option Hierarchy) (c : Casting) : Prop where
  casts : ∀ src dst b, c.casts.get? (src, dst) = some b →
    u.Knows src ∧ u.Knows dst ∧ castNeverFails u h src dst = .ok b
  masks : ∀ t n b, c.Decides t n b →
    u.Knows t ∧ u.Knows (u.typeOf n) ∧ castNeverFails u h (u.typeOf n) t = .ok b

/-- The masks speak of allocations, and of all those that have been folded in. -/
structure UpToDate (u : Universe) (c : Casting) : Prop where
  allocs : ∀ t n b, c.Decides t n b → u.HasAlloc n
  folded_le : ∀ t, (c.mask t).folded ≤ u.allocs.length
  folded : ∀ t, ∀ n ∈ u.allocs.take (c.mask t).folded, ∃ b, c.Decides t n b

/-- Nothing has been decided at first. -/
theorem not_decides_empty {b : Bool} : ¬ empty.Decides t n b := by
  cases b <;> exact List.not_mem_nil

/-- **Nothing wrong has been decided then.** -/
theorem sound_empty (u : Universe) (h : Option Hierarchy) : empty.Sound u h where
  casts _ _ _ hb := by cases hb
  masks _ _ _ hb := absurd hb not_decides_empty

theorem upToDate_empty (u : Universe) : empty.UpToDate u where
  allocs _ _ _ hb := absurd hb not_decides_empty
  folded_le _ := Nat.zero_le _
  folded _ _ hn := absurd hn List.not_mem_nil

/-- **Growth leaves right what is remembered**, as long as the allocations it
speaks of keep their types. -/
theorem Sound.grows (hc : c.Sound u h) (hu : u.Grows u') (hh : Hierarchy.AgreeOn u h h')
    (htype : ∀ t n b, c.Decides t n b → u'.typeOf n = u.typeOf n) : c.Sound u' h' where
  casts src dst b hb := by
    obtain ⟨hsrc, hdst, hcast⟩ := hc.casts src dst b hb
    exact ⟨hu.knows hsrc, hu.knows hdst, (castNeverFails_grows hu hh hsrc hdst).trans hcast⟩
  masks t n b hb := by
    obtain ⟨ht, hn, hcast⟩ := hc.masks t n b hb
    rw [htype t n b hb]
    exact ⟨hu.knows ht, hu.knows hn, (castNeverFails_grows hu hh hn ht).trans hcast⟩

/-- Masks do not run ahead of a universe that grows. -/
theorem UpToDate.grows (hc : c.UpToDate u) (hu : u.Grows u') : c.UpToDate u' where
  allocs t n b hb := hu.hasAlloc (hc.allocs t n b hb)
  folded_le t := Nat.le_trans (hc.folded_le t) hu.allocs.length_le
  folded t n hn := by
    refine hc.folded t n ?_
    rwa [List.prefix_iff_eq_take.1 hu.allocs, List.take_take, Nat.min_eq_left (hc.folded_le t)]

/-! ## Changing a mask -/

/-- Only the mask of that type changes. -/
theorem mask_updateMask (f : Mask → Mask) :
    (c.updateMask t f).mask s = if s = t then f (c.mask t) else c.mask s := by
  unfold mask updateMask Assoc.getD
  split
  · next heq => rw [heq, Assoc.get?_set_self]; rfl
  · next hne => rw [Assoc.get?_set_ne _ _ hne]

/-- Remembers an allocation. -/
def decide (c : Casting) (t : TypeId) (n : NodeId) (b : Bool) : Casting :=
  c.updateMask t fun m =>
    if b then { m with inside := n :: m.inside } else { m with outside := n :: m.outside }

/-- **One decision more**, and those from before. -/
theorem decides_decide {b b' : Bool} :
    (c.decide t n b).Decides s m b' ↔ c.Decides s m b' ∨ s = t ∧ m = n ∧ b' = b := by
  unfold Decides decide
  rw [mask_updateMask]
  by_cases hs : s = t
  · subst hs
    cases b <;> cases b' <;> simp [or_comm]
  · simp [hs]

/-- A decision is not folded by itself. -/
theorem folded_decide {b : Bool} : ((c.decide t n b).mask s).folded = (c.mask s).folded := by
  rw [decide, mask_updateMask]
  split
  · next hs => rw [hs]; cases b <;> rfl
  · rfl

/-- **What deciding some allocations for a type does**: what was remembered stays,
and what is new is right and speaks of these allocations. -/
structure Extends (u : Universe) (h : Option Hierarchy) (t : TypeId) (ns : List NodeId)
    (c c' : Casting) : Prop where
  sound : c'.Sound u h
  keeps : ∀ s m b, c.Decides s m b → c'.Decides s m b
  new : ∀ s m b, c'.Decides s m b → c.Decides s m b ∨ s = t ∧ m ∈ ns
  folded : ∀ s, (c'.mask s).folded = (c.mask s).folded

/-- What is the same but for the casts extends it. -/
theorem Extends.of_masks (hc : c'.Sound u h) (hm : c'.masks = c.masks) :
    Extends u h t ns c c' := by
  have hmask : ∀ s, c'.mask s = c.mask s := fun s => by rw [mask, mask, hm]
  have hsame : ∀ s m b, c'.Decides s m b ↔ c.Decides s m b := fun s m b => by
    rw [Decides, Decides, hmask]
  exact ⟨hc, fun s m b => (hsame s m b).2, fun s m b hb => .inl ((hsame s m b).1 hb),
    fun s => by rw [hmask]⟩

theorem Extends.trans (hc : Extends u h t ns c c') (hc' : Extends u h t ms c' c'') :
    Extends u h t (ns ++ ms) c c'' where
  sound := hc'.sound
  keeps s m b hb := hc'.keeps s m b (hc.keeps s m b hb)
  new s m b hb := by
    rcases hc'.new s m b hb with hb | ⟨hs, hm⟩
    · exact (hc.new s m b hb).imp_right fun ⟨hs, hm⟩ => ⟨hs, List.mem_append_left _ hm⟩
    · exact .inr ⟨hs, List.mem_append_right _ hm⟩
  folded s := (hc'.folded s).trans (hc.folded s)

/-- Masks that are extended by allocations stay up to date. -/
theorem UpToDate.extends (hc : c.UpToDate u) (he : Extends u h t ns c c')
    (hns : ∀ n ∈ ns, u.HasAlloc n) : c'.UpToDate u where
  allocs s m b hb := by
    rcases he.new s m b hb with hb | ⟨-, hm⟩
    · exact hc.allocs s m b hb
    · exact hns m hm
  folded_le s := he.folded s ▸ hc.folded_le s
  folded s m hm := by
    rw [he.folded] at hm
    exact (hc.folded s m hm).imp fun b => he.keeps s m b

/-! ## The requests, one by one -/

/-- **A remembered cast answers as one from scratch**, or stops with the same
fault. -/
theorem go_cast (hc : c.Sound u h) {src dst : TypeId} (hsrc : u.Knows src) (hdst : u.Knows dst) :
    ((cast u h src dst).go c).1 = castNeverFails u h src dst ∧
      ((cast u h src dst).go c).2.Sound u h ∧ ((cast u h src dst).go c).2.masks = c.masks := by
  cases h with
  | none => exact ⟨rfl, hc, rfl⟩
  | some h =>
    unfold cast castNeverFails
    dsimp only
    by_cases hsame : dst = noType ∨ dst = src
    · rw [if_pos hsame, if_pos hsame]
      exact ⟨rfl, hc, rfl⟩
    rw [if_neg hsame, if_neg hsame]
    by_cases hnone : src = noType
    · rw [if_pos hnone, if_pos hnone]
      exact ⟨rfl, hc, rfl⟩
    rw [if_neg hnone, if_neg hnone, Attempt.go_bind, Attempt.go_get]
    dsimp only
    have hscratch : castNeverFails u (some h) src dst = decideCast u h src dst := by
      simp [castNeverFails, hsame, hnone]
    match hget : c.casts.get? (src, dst) with
    | some b =>
      have hb := (hc.casts src dst b hget).2.2
      rw [hscratch] at hb
      rw [hb]
      exact ⟨rfl, hc, rfl⟩
    | none =>
      dsimp only
      rw [Attempt.go_bind, Attempt.go_liftM]
      match hdecide : decideCast u h src dst with
      | .error f => exact ⟨rfl, hc, rfl⟩
      | .ok b =>
        have hlearn : Sound u (some h) { c with casts := c.casts.set (src, dst) b } := by
          refine ⟨fun src' dst' b' hb' => ?_, hc.masks⟩
          by_cases hkey : (src', dst') = (src, dst)
          · obtain ⟨rfl, rfl⟩ := Prod.mk.inj hkey
            have hb : b = b' := by simpa using hb'
            exact ⟨hsrc, hdst, by rw [hscratch, hdecide, hb]⟩
          · exact hc.casts src' dst' b' (by simpa [Assoc.get?_set_ne _ _ hkey] using hb')
        exact ⟨rfl, hlearn, rfl⟩

/-- **Whether an allocation is admitted is what its cast says**, and it is
remembered. -/
theorem go_admits (hc : c.Sound u h) (ht : u.Knows t) (hn : u.Knows (u.typeOf n)) :
    ((admits u h t n).go c).1 = castNeverFails u h (u.typeOf n) t ∧
      Extends u h t [n] c ((admits u h t n).go c).2 ∧
      ∀ b, castNeverFails u h (u.typeOf n) t = .ok b → ((admits u h t n).go c).2.Decides t n b := by
  have hknown : ∀ b, c.Decides t n b → castNeverFails u h (u.typeOf n) t = .ok b :=
    fun b hb => (hc.masks t n b hb).2.2
  unfold admits
  rw [Attempt.go_bind, Attempt.go_get]
  dsimp only
  by_cases hin : n ∈ (c.mask t).inside
  · have hcast := hknown true hin
    rw [if_pos hin, hcast]
    refine ⟨rfl, .of_masks hc rfl, fun b hb => ?_⟩
    cases hb
    exact hin
  rw [if_neg hin]
  by_cases hout : n ∈ (c.mask t).outside
  · have hcast := hknown false hout
    rw [if_pos hout, hcast]
    refine ⟨rfl, .of_masks hc rfl, fun b hb => ?_⟩
    cases hb
    exact hout
  rw [if_neg hout, Attempt.go_bind]
  obtain ⟨hanswer, hsound, hmasks⟩ := go_cast hc hn ht
  generalize (cast u h (u.typeOf n) t).go c = run at hanswer hsound hmasks
  obtain ⟨r, c₁⟩ := run
  dsimp only at hanswer hsound hmasks
  subst hanswer
  match hcast : castNeverFails u h (u.typeOf n) t with
  | .error f => exact ⟨rfl, .of_masks hsound hmasks, fun b hb => by cases hb⟩
  | .ok b =>
    have hlearn : Extends u h t [n] c₁ (c₁.decide t n b) := by
      refine ⟨⟨hsound.casts, fun s m b' hb' => ?_⟩, fun s m b' hb' => decides_decide.2 (.inl hb'),
        fun s m b' hb' => ?_, fun s => folded_decide⟩
      · rcases decides_decide.1 hb' with hb' | ⟨rfl, rfl, rfl⟩
        · exact hsound.masks s m b' hb'
        · exact ⟨ht, hn, hcast⟩
      · exact (decides_decide.1 hb').imp_right fun ⟨hs, hm, _⟩ => ⟨hs, List.mem_singleton.2 hm⟩
    have hnew : (c₁.decide t n b).Decides t n b := decides_decide.2 (.inr ⟨rfl, rfl, rfl⟩)
    have hsame : Extends u h t [] c c₁ := .of_masks hsound hmasks
    have hend : Except.ok b = (Except.ok b : Except Fault Bool) ∧
        Extends u h t [n] c (c₁.decide t n b) ∧
        ∀ b', (Except.ok b : Except Fault Bool) = .ok b' → (c₁.decide t n b).Decides t n b' :=
      ⟨rfl, hsame.trans hlearn, fun b' hb' => by
        cases hb'
        exact hnew⟩
    cases b <;> exact hend

/-- **Deciding a list of allocations** comes to an end unless a cast of one of them
stops, and what is decided before that is remembered. -/
theorem go_decideAll (ht : u.Knows t) : ∀ (ns : List NodeId) (c : Casting), c.Sound u h →
    (∀ n ∈ ns, u.Knows (u.typeOf n)) →
    Extends u h t ns c ((decideAll u h t ns).go c).2 ∧
      (((decideAll u h t ns).go c).1 = .ok () ↔
        ∀ n ∈ ns, ∃ b, castNeverFails u h (u.typeOf n) t = .ok b) ∧
      (((decideAll u h t ns).go c).1 = .ok () →
        ∀ n ∈ ns, ∃ b, ((decideAll u h t ns).go c).2.Decides t n b) := by
  intro ns
  induction ns with
  | nil => exact fun c hc _ => ⟨.of_masks hc rfl, by simp [decideAll], by simp⟩
  | cons n ns ih =>
    intro c hc hns
    obtain ⟨hanswer, hextends, hdecides⟩ := go_admits hc ht (hns n (List.mem_cons_self ..))
    rw [decideAll, Attempt.go_bind]
    generalize (admits u h t n).go c = run at hanswer hextends hdecides
    obtain ⟨r, c₁⟩ := run
    dsimp only at hanswer hextends hdecides
    subst hanswer
    match hcast : castNeverFails u h (u.typeOf n) t with
    | .error f =>
      refine ⟨?_, by simp [hcast], by simp⟩
      exact ⟨hextends.sound, hextends.keeps, fun s m b hb =>
        (hextends.new s m b hb).imp_right fun ⟨hs, hm⟩ => ⟨hs, by simp_all⟩, hextends.folded⟩
    | .ok b =>
      obtain ⟨hrest, hok, hall⟩ :=
        ih c₁ hextends.sound fun m hm => hns m (List.mem_cons_of_mem _ hm)
      refine ⟨hextends.trans hrest, ?_, fun hend m hm => ?_⟩
      · rw [hok, List.forall_mem_cons, hcast]
        simp
      · rcases List.mem_cons.1 hm with rfl | hm
        · exact ⟨b, hrest.keeps _ _ b (hdecides b hcast)⟩
        · exact hall hend m hm

/-- The known allocations are those the cast to which was decided to be fine. -/
theorem mem_known : n ∈ c.known t ↔ c.Decides t n true := by simp [known, Decides]

/-- The mask says of an allocation that has been decided what its cast says. -/
theorem mem_known_iff (hc : c.Sound u h) (hdecided : ∃ b, c.Decides t n b) :
    n ∈ c.known t ↔ castNeverFails u h (u.typeOf n) t = .ok true := by
  rw [mem_known]
  refine ⟨fun hin => (hc.masks t n true hin).2.2, fun hcast => ?_⟩
  obtain ⟨b, hb⟩ := hdecided
  have hb' := (hc.masks t n b hb).2.2
  rw [hcast] at hb'
  cases hb'
  exact hb

/-- Notes that that many allocations more are folded in. -/
def fold (c : Casting) (t : TypeId) (k : Nat) : Casting :=
  c.updateMask t fun m => { m with folded := m.folded + k }

/-- Folding decides nothing. -/
theorem decides_fold {k : Nat} {b : Bool} : (c.fold t k).Decides s n b ↔ c.Decides s n b := by
  unfold Decides fold
  rw [mask_updateMask]
  by_cases hs : s = t
  · subst hs
    cases b <;> simp
  · rw [if_neg hs]

theorem folded_fold {k : Nat} : ((c.fold t k).mask s).folded =
    if s = t then (c.mask t).folded + k else (c.mask s).folded := by
  rw [fold, mask_updateMask]
  split <;> rfl

theorem Sound.fold (hc : c.Sound u h) (t : TypeId) (k : Nat) : (c.fold t k).Sound u h :=
  ⟨hc.casts, fun s n b hb => hc.masks s n b (decides_fold.1 hb)⟩

/-- Folding in the rest keeps a memory up to date, if all of it has been decided. -/
theorem UpToDate.fold (hd : c.UpToDate u) {t : TypeId} {k : Nat}
    (hlength : (c.mask t).folded + k = u.allocs.length)
    (hdecided : ∀ n ∈ u.allocs, ∃ b, c.Decides t n b) : (c.fold t k).UpToDate u := by
  refine ⟨fun s n b hb => hd.allocs s n b (decides_fold.1 hb), fun s => ?_, fun s n hn => ?_⟩
  · rw [folded_fold]
    split
    · exact Nat.le_of_eq hlength
    · exact hd.folded_le s
  · simp only [decides_fold]
    rw [folded_fold] at hn
    split at hn
    · next hs => exact hs ▸ hdecided n (List.mem_of_mem_take hn)
    · exact hd.folded s n hn

/-- What is not folded in yet is all that may be left to decide. -/
theorem UpToDate.decides_or_mem_drop (hd : c.UpToDate u) (t : TypeId) (hn : n ∈ u.allocs) :
    (∃ b, c.Decides t n b) ∨ n ∈ u.allocs.drop (c.mask t).folded := by
  rw [← List.take_append_drop (c.mask t).folded u.allocs, List.mem_append] at hn
  exact hn.imp (hd.folded t n) id

theorem known_fold {k : Nat} : (c.fold t k).known t = c.known t := by
  rw [known, known, fold, mask_updateMask, if_pos rfl]

/-- A mask is computed by deciding the allocations that are not folded in yet. -/
theorem go_typeMask_eq (u : Universe) (h : Option Hierarchy) (t : TypeId) (c : Casting) :
    let fresh := u.allocs.drop (c.mask t).folded
    (typeMask u h t).go c = match (decideAll u h t fresh).go c with
      | (.ok _, c') => (.ok (c'.known t), c'.fold t fresh.length)
      | (.error f, c') => (.error f, c') := by
  intro fresh
  unfold typeMask
  rw [Attempt.go_bind, Attempt.go_get]
  change ((decideAll u h t fresh >>= fun _ => _).go c) = _
  rw [Attempt.go_bind]
  match (decideAll u h t fresh).go c with
  | (.error f, c') => rfl
  | (.ok _, c') =>
    change (Except.ok ((c'.fold t fresh.length).known t), c'.fold t fresh.length) = _
    rw [known_fold]

/-- **The mask of a type** holds the allocations whose casts say so, all of them. It
is computed unless one of these casts stops, and the next time only later
allocations are left to decide. -/
theorem go_typeMask (hu : u.InOrder) (htyped : u.AllocsTyped) (hc : c.Sound u h)
    (hd : c.UpToDate u) (ht : u.Knows t) :
    ((typeMask u h t).go c).2.Sound u h ∧ ((typeMask u h t).go c).2.UpToDate u ∧
      (∀ ns, ((typeMask u h t).go c).1 = .ok ns →
        ∀ n, n ∈ ns ↔ n ∈ u.allocs ∧ castNeverFails u h (u.typeOf n) t = .ok true) ∧
      ((∃ ns, ((typeMask u h t).go c).1 = .ok ns) ↔
        ∀ n ∈ u.allocs, ∃ b, castNeverFails u h (u.typeOf n) t = .ok b) := by
  rw [go_typeMask_eq]
  generalize hfresh : u.allocs.drop (c.mask t).folded = fresh
  have hmem : ∀ n ∈ fresh, n ∈ u.allocs := fun n hn => List.mem_of_mem_drop (hfresh ▸ hn)
  have halloc : ∀ n ∈ fresh, u.HasAlloc n := fun n hn => hu.mem_allocs.1 (hmem n hn)
  obtain ⟨hextends, hok, hall⟩ := go_decideAll ht fresh c hc fun n hn => htyped n (halloc n hn)
  have hcasts : (∀ n ∈ u.allocs, ∃ b, castNeverFails u h (u.typeOf n) t = .ok b) ↔
      ∀ n ∈ fresh, ∃ b, castNeverFails u h (u.typeOf n) t = .ok b := by
    refine ⟨fun h n hn => h n (hmem n hn), fun h n hn => ?_⟩
    obtain ⟨b, hb⟩ | hn := hd.decides_or_mem_drop t hn
    · exact ⟨b, (hc.masks t n b hb).2.2⟩
    · exact h n (hfresh ▸ hn)
  rw [hcasts, ← hok]
  have hupToDate := hd.extends hextends halloc
  generalize (decideAll u h t fresh).go c = run at hextends hall hupToDate
  obtain ⟨r, c'⟩ := run
  match r with
  | .error f => exact ⟨hextends.sound, hupToDate, by simp, by simp⟩
  | .ok _ =>
    have hdecided : ∀ n ∈ u.allocs, ∃ b, c'.Decides t n b := by
      intro n hn
      obtain hb | hn := hd.decides_or_mem_drop t hn
      · exact hb.imp fun b => hextends.keeps t n b
      · exact hall rfl n (hfresh ▸ hn)
    have hlength : (c'.mask t).folded + fresh.length = u.allocs.length := by
      have hle := hd.folded_le t
      have hdrop := List.length_drop (l := u.allocs) (i := (c.mask t).folded)
      rw [hextends.folded]
      rw [hfresh] at hdrop
      omega
    refine ⟨hextends.sound.fold t _, hupToDate.fold hlength hdecided, fun ns hns n => ?_, by simp⟩
    cases hns
    constructor
    · intro hn
      have hin := mem_known.1 hn
      exact ⟨hu.mem_allocs.2 (hupToDate.allocs t n true hin),
        (hextends.sound.masks t n true hin).2.2⟩
    · exact fun ⟨hn, hcast⟩ => (mem_known_iff hextends.sound (hdecided n hn)).2 hcast

/-- **A mask that is asked for some allocations** says of these what their casts say. -/
theorem go_typeMaskOf (hu : u.InOrder) (htyped : u.AllocsTyped) (hc : c.Sound u h)
    (hd : c.UpToDate u) (ht : u.Knows t) (cands : List NodeId) :
    ((typeMaskOf u h t cands).go c).2.Sound u h ∧
      ((typeMaskOf u h t cands).go c).2.UpToDate u ∧
      (∀ ns, ((typeMaskOf u h t cands).go c).1 = .ok ns → ∀ n ∈ cands, n ∈ u.allocs →
        (n ∈ ns ↔ castNeverFails u h (u.typeOf n) t = .ok true)) ∧
      ((∃ ns, ((typeMaskOf u h t cands).go c).1 = .ok ns) ↔
        ∀ n ∈ cands, n ∈ u.allocs → ∃ b, castNeverFails u h (u.typeOf n) t = .ok b) := by
  unfold typeMaskOf
  dsimp only
  generalize hasked : (cands.eraseDups.mergeSort _).filter _ = asked
  have hmem : ∀ n, n ∈ asked ↔ n ∈ cands ∧ n ∈ u.allocs := fun n => by
    rw [← hasked, List.mem_filter, List.mem_mergeSort, List.mem_eraseDups, hu.mem_allocs,
      Universe.hasAlloc_iff]
  have halloc : ∀ n ∈ asked, u.HasAlloc n := fun n hn => hu.mem_allocs.1 ((hmem n).1 hn).2
  obtain ⟨hextends, hok, hall⟩ := go_decideAll ht asked c hc fun n hn => htyped n (halloc n hn)
  have hcasts : (∀ n ∈ cands, n ∈ u.allocs → ∃ b, castNeverFails u h (u.typeOf n) t = .ok b) ↔
      ∀ n ∈ asked, ∃ b, castNeverFails u h (u.typeOf n) t = .ok b :=
    ⟨fun h n hn => h n ((hmem n).1 hn).1 ((hmem n).1 hn).2,
      fun h n hn hn' => h n ((hmem n).2 ⟨hn, hn'⟩)⟩
  rw [hcasts, ← hok, Attempt.go_bind]
  have hupToDate := hd.extends hextends halloc
  generalize (decideAll u h t asked).go c = run at hextends hall hupToDate
  obtain ⟨r, c'⟩ := run
  match r with
  | .error f => exact ⟨hextends.sound, hupToDate, by simp, by simp⟩
  | .ok _ =>
    refine ⟨hextends.sound, hupToDate, fun ns hns n hn hn' => ?_, iff_of_true ⟨_, rfl⟩ rfl⟩
    cases hns
    exact mem_known_iff hextends.sound (hall rfl n ((hmem n).2 ⟨hn, hn'⟩))

/-- **A fact passes the filter of a type if its object is admitted.** -/
theorem go_filter (u : Universe) (h : Option Hierarchy) (t : TypeId) (f : Fact) (c : Casting) :
    (filter u h t f).go c = (((admits u h t f.obj).go c).1.map fun b => if b then some f else none,
      ((admits u h t f.obj).go c).2) := by
  unfold filter
  rw [Attempt.go_bind]
  match (admits u h t f.obj).go c with
  | (.ok b, c') => rfl
  | (.error e, c') => rfl

/-- **Cleared masks decide nothing.** -/
theorem not_decides_clearMasks {b : Bool} : ¬ c.clearMasks.Decides t n b := by
  cases b <;> exact List.not_mem_nil

/-! ## Runs -/

/-- What casts are decided with: the universe and the hierarchy as they are, and
what is remembered. -/
structure Stage where
  nodes : Universe := .empty
  hierarchy : Option Hierarchy
  casting : Casting := .empty

namespace Stage

/-- **One step of a run.** The universe grows, the hierarchy may change its answers
about types that are not there yet, and requests are made about types and
allocations that are; what a request leaves behind counts whether it came
to its end or was stopped. -/
inductive Step : Stage → Stage → Prop
  | add {s : Stage} (a : Universe.Addition) (ha : a.Typed s.nodes) :
      Step s { s with nodes := a.apply s.nodes }
  | learn {s : Stage} (h : Option Hierarchy) (hh : Hierarchy.AgreeOn s.nodes s.hierarchy h) :
      Step s { s with hierarchy := h }
  | cast {s : Stage} {src dst : TypeId} (hsrc : s.nodes.Knows src) (hdst : s.nodes.Knows dst) :
      Step s { s with casting := ((cast s.nodes s.hierarchy src dst).go s.casting).2 }
  | admits {s : Stage} {t : TypeId} {n : NodeId} (ht : s.nodes.Knows t) (hn : s.nodes.HasAlloc n) :
      Step s { s with casting := ((admits s.nodes s.hierarchy t n).go s.casting).2 }
  | filter {s : Stage} {t : TypeId} {f : Fact} (ht : s.nodes.Knows t)
      (hf : s.nodes.HasAlloc f.obj) :
      Step s { s with casting := ((filter s.nodes s.hierarchy t f).go s.casting).2 }
  | typeMaskOf {s : Stage} {t : TypeId} (ht : s.nodes.Knows t) (cands : List NodeId) :
      Step s { s with casting := ((typeMaskOf s.nodes s.hierarchy t cands).go s.casting).2 }
  | typeMask {s : Stage} {t : TypeId} (ht : s.nodes.Knows t) :
      Step s { s with casting := ((typeMask s.nodes s.hierarchy t).go s.casting).2 }
  | clearMasks {s : Stage} : Step s { s with casting := s.casting.clearMasks }
  | setHierarchy {s : Stage} (h : Option Hierarchy) :
      Step s { s with hierarchy := h, casting := .empty }

/-- There is a run from one stage to the other. -/
abbrev Leads : Stage → Stage → Prop := Relation.ReflTransGen Step

/-- **What holds at any point of a run.** -/
structure Right (s : Stage) : Prop where
  inOrder : s.nodes.InOrder
  typed : s.nodes.AllocsTyped
  sound : s.casting.Sound s.nodes s.hierarchy
  upToDate : s.casting.UpToDate s.nodes

theorem right_start (h : Option Hierarchy) : Right { hierarchy := h } :=
  ⟨Universe.inOrder_empty, Universe.allocsTyped_empty, sound_empty _ _, upToDate_empty _⟩

variable {s s' : Stage}

/-- **Every step leaves right what is remembered.** -/
theorem Right.step (hs : s.Right) (hstep : Step s s') : s'.Right := by
  have hadmits : ∀ {t n}, s.nodes.Knows t → s.nodes.HasAlloc n →
      Right { s with casting := ((Casting.admits s.nodes s.hierarchy t n).go s.casting).2 } := by
    intro t n ht hn
    obtain ⟨-, hextends, -⟩ := go_admits hs.sound ht (hs.typed n hn)
    exact ⟨hs.inOrder, hs.typed, hextends.sound,
      hs.upToDate.extends hextends fun m hm => List.mem_singleton.1 hm ▸ hn⟩
  cases hstep with
  | add a ha =>
    have hchange := a.change ha
    exact ⟨hchange.inOrder hs.inOrder, hchange.allocsTyped hs.typed,
      hs.sound.grows hchange.grows (.refl ..) fun t n b hb =>
        hchange.grows.typeOf (hs.upToDate.allocs t n b hb),
      hs.upToDate.grows hchange.grows⟩
  | learn h hh =>
    exact ⟨hs.inOrder, hs.typed, hs.sound.grows (.refl _) hh fun _ _ _ _ => rfl, hs.upToDate⟩
  | cast hsrc hdst =>
    obtain ⟨-, hsound, hmasks⟩ := go_cast hs.sound hsrc hdst
    have hextends : Extends s.nodes s.hierarchy noType [] s.casting _ := .of_masks hsound hmasks
    exact ⟨hs.inOrder, hs.typed, hsound, hs.upToDate.extends hextends (by simp)⟩
  | admits ht hn => exact hadmits ht hn
  | filter ht hf =>
    rw [go_filter]
    exact hadmits ht hf
  | typeMaskOf ht cands =>
    obtain ⟨hsound, hupToDate, -⟩ :=
      go_typeMaskOf hs.inOrder hs.typed hs.sound hs.upToDate ht cands
    exact ⟨hs.inOrder, hs.typed, hsound, hupToDate⟩
  | typeMask ht =>
    obtain ⟨hsound, hupToDate, -⟩ := go_typeMask hs.inOrder hs.typed hs.sound hs.upToDate ht
    exact ⟨hs.inOrder, hs.typed, hsound, hupToDate⟩
  | clearMasks =>
    exact ⟨hs.inOrder, hs.typed,
      ⟨hs.sound.casts, fun _ _ _ hb => absurd hb not_decides_clearMasks⟩,
      ⟨fun _ _ _ hb => absurd hb not_decides_clearMasks, fun _ => Nat.zero_le _,
        fun _ _ hn => absurd hn List.not_mem_nil⟩⟩
  | setHierarchy h =>
    exact ⟨hs.inOrder, hs.typed, sound_empty _ _, upToDate_empty _⟩

/-- **What is remembered is right at any point of a run.** -/
theorem Right.leads (hs : s.Right) (hrun : s.Leads s') : s'.Right := by
  induction hrun with
  | refl => exact hs
  | tail _ hstep ih => exact ih.step hstep

/-- **Any additions are such a run**, if they are typed. -/
theorem leads_applyAll : ∀ (as : List Universe.Addition) {s : Stage},
    Universe.Addition.AllTyped s.nodes as →
      Leads s { s with nodes := Universe.Addition.applyAll s.nodes as }
  | [], _, _ => .refl
  | a :: as, _, ⟨ha, has⟩ => .head (.add a ha) (leads_applyAll as has)

/-- **Nobody can tell what is remembered.** At any point of a run from an empty
universe, a cast answers as it does from scratch or stops with the same
fault; an allocation is admitted, and a fact let through, if the cast of
its type says so; and masks hold the allocations whose casts say so, all
that there are or those that were asked for. A mask is computed unless one
of these casts stops. -/
theorem answers_from_scratch {h₀ : Option Hierarchy} (hrun : Leads { hierarchy := h₀ } s) :
    (∀ src dst, s.nodes.Knows src → s.nodes.Knows dst →
      ((Casting.cast s.nodes s.hierarchy src dst).go s.casting).1 =
        castNeverFails s.nodes s.hierarchy src dst) ∧
    (∀ t n, s.nodes.Knows t → s.nodes.HasAlloc n →
      ((Casting.admits s.nodes s.hierarchy t n).go s.casting).1 =
        castNeverFails s.nodes s.hierarchy (s.nodes.typeOf n) t) ∧
    (∀ t f, s.nodes.Knows t → s.nodes.HasAlloc f.obj →
      ((Casting.filter s.nodes s.hierarchy t f).go s.casting).1 =
        (castNeverFails s.nodes s.hierarchy (s.nodes.typeOf f.obj) t).map
          fun b => if b then some f else none) ∧
    (∀ t, s.nodes.Knows t →
      let mask := ((Casting.typeMask s.nodes s.hierarchy t).go s.casting).1
      (∀ ns, mask = .ok ns → ∀ n, n ∈ ns ↔ n ∈ s.nodes.allocs ∧
        castNeverFails s.nodes s.hierarchy (s.nodes.typeOf n) t = .ok true) ∧
      ((∃ ns, mask = .ok ns) ↔ ∀ n ∈ s.nodes.allocs, ∃ b,
        castNeverFails s.nodes s.hierarchy (s.nodes.typeOf n) t = .ok b)) ∧
    (∀ t cands, s.nodes.Knows t →
      let mask := ((Casting.typeMaskOf s.nodes s.hierarchy t cands).go s.casting).1
      (∀ ns, mask = .ok ns → ∀ n ∈ cands, n ∈ s.nodes.allocs →
        (n ∈ ns ↔ castNeverFails s.nodes s.hierarchy (s.nodes.typeOf n) t = .ok true)) ∧
      ((∃ ns, mask = .ok ns) ↔ ∀ n ∈ cands, n ∈ s.nodes.allocs → ∃ b,
        castNeverFails s.nodes s.hierarchy (s.nodes.typeOf n) t = .ok b)) := by
  have hs := (right_start h₀).leads hrun
  refine ⟨fun src dst hsrc hdst => (go_cast hs.sound hsrc hdst).1,
    fun t n ht hn => (go_admits hs.sound ht (hs.typed n hn)).1, fun t f ht hf => ?_,
    fun t ht => ?_, fun t cands ht => ?_⟩
  · rw [go_filter, (go_admits hs.sound ht (hs.typed f.obj hf)).1]
  · exact (go_typeMask hs.inOrder hs.typed hs.sound hs.upToDate ht).2.2
  · exact (go_typeMaskOf hs.inOrder hs.typed hs.sound hs.upToDate ht cands).2.2

/-- A list of the allocations that are cast to a type, checked one by one. -/
theorem cast_iff_mem {u : Universe} {h : Option Hierarchy} {t : TypeId} {ns : List NodeId}
    (hcasts : ∀ n ∈ u.allocs, castNeverFails u h (u.typeOf n) t = .ok (ns.contains n))
    (hns : ∀ n ∈ ns, n ∈ u.allocs) (n : NodeId) :
    n ∈ u.allocs ∧ castNeverFails u h (u.typeOf n) t = .ok true ↔ n ∈ ns := by
  constructor
  · rintro ⟨hn, hcast⟩
    rw [hcasts n hn] at hcast
    simpa using hcast
  · intro hn
    exact ⟨hns n hn, by rw [hcasts n (hns n hn), List.contains_iff_mem.2 hn]⟩

/-- Some shape, a circle, an array of circles and an object that is neither. Shapes
can be drawn; of the first allocation nothing else is known. -/
def shapes : List Universe.Addition :=
  [.type "Object" .ref, .type "Drawable" .ref, .type "Shape" .ref, .type "Circle" .ref,
    .type "Named" .ref, .arrayType 5, .anySubtype 4, .alloc "shape" 8 0, .alloc "circle" 5 0,
    .alloc "circles" 7 0, .alloc "object" 2 0]

/-- The hierarchy of `shapes`. Nothing has a name. -/
def shapeHierarchy : ClassHierarchy where
  root := 2
  extensions := [(4, 2), (5, 4)]
  interfaceLists := [(2, []), (3, []), (4, [3]), (5, []), (6, [])]
  interfaces := [3, 6]
  abstracts := [4]

/-- All of `shapes` are there, and nothing has been asked. -/
def shapesMade : Stage :=
  let u := Universe.Addition.applyAll .empty shapes
  { nodes := u, hierarchy := some (shapeHierarchy.view u) }

/-- The shapes are added first, and then a hierarchy is given. -/
theorem leads_shapesMade : Leads { hierarchy := shapesMade.hierarchy } shapesMade :=
  leads_applyAll shapes (by decide +kernel)

/-- After a request for the mask of a type. -/
def masked (s : Stage) (t : TypeId) : Stage :=
  { s with casting := ((Casting.typeMask s.nodes s.hierarchy t).go s.casting).2 }

/-- The mask of circles has been computed, that of any shape has stopped at its
second allocation, and another circle has been made. -/
def lateCircle : Stage :=
  let s := (shapesMade.masked 5).masked 8
  { s with nodes := (Universe.Addition.alloc "late" 5 0).apply s.nodes }

theorem answers_from_scratch_shapes :
    Leads { hierarchy := shapesMade.hierarchy } lateCircle ∧
      lateCircle.casting.Decides 8 1 true ∧
      (∃ ns, ((Casting.typeMask lateCircle.nodes lateCircle.hierarchy 5).go
        lateCircle.casting).1 = .ok ns ∧ ∀ n, n ∈ ns ↔ n ∈ [1, 2, 5]) ∧
      ¬ ∃ ns, ((Casting.typeMask lateCircle.nodes lateCircle.hierarchy 8).go
        lateCircle.casting).1 = .ok ns := by
  have hcircles : Step shapesMade (shapesMade.masked 5) := .typeMask (by decide +kernel)
  have hstopped : Step (shapesMade.masked 5) ((shapesMade.masked 5).masked 8) :=
    .typeMask (by decide +kernel)
  have hadded : Step ((shapesMade.masked 5).masked 8) lateCircle := .add _ (by decide +kernel)
  have hlate := ((leads_shapesMade.tail hcircles).tail hstopped).tail hadded
  obtain ⟨-, -, -, hmask, -⟩ := answers_from_scratch hlate
  have hcasts : ∀ n ∈ lateCircle.nodes.allocs,
      castNeverFails lateCircle.nodes lateCircle.hierarchy (lateCircle.nodes.typeOf n) 5 =
        .ok ([1, 2, 5].contains n) := by decide +kernel
  have hstop : castNeverFails lateCircle.nodes lateCircle.hierarchy (lateCircle.nodes.typeOf 2) 8 =
      .error (.anySubtypeTarget "Circle" "Any_subtype_of_Shape") := by decide +kernel
  have hfive : lateCircle.nodes.Knows 5 := by decide +kernel
  have height : lateCircle.nodes.Knows 8 := by decide +kernel
  have hdecided : lateCircle.casting.Decides 8 1 true := by
    have hinside : (lateCircle.casting.mask 8).inside = [1] := by decide +kernel
    rw [Decides, if_pos rfl, hinside]
    exact List.mem_singleton.2 rfl
  obtain ⟨hmem, hok⟩ := hmask 5 hfive
  obtain ⟨ns, hns⟩ := hok.2 fun n hn => ⟨_, hcasts n hn⟩
  refine ⟨hlate, hdecided, ⟨ns, hns, fun n => ?_⟩, fun hall => ?_⟩
  · exact (hmem ns hns n).trans (cast_iff_mem hcasts (by decide +kernel) n)
  · obtain ⟨b, hb⟩ := (hmask 8 height).2.1 hall 2 (by decide +kernel)
    rw [hstop] at hb
    cases hb

end Stage

end Casting

end PointsTo
