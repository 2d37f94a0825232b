import Mathlib.Data.Int.Order.Basic
import Mathlib.Data.List.Sort
import Mathlib.Data.Prod.Lex
import PointsTo.Proofs.Answers
/-!
# Expected answers

A query lists the facts it expects, by the names of their objects, and a search
delivers what it finds as often as it comes across it. Either side is sorted
and loses its repetitions before the two are compared. Facts are linearly
ordered, so what is left determines the facts and nothing else
(`dropRepeats_sorted_eq_iff`), and the comparison is one of sets
(`check_eq_ok_iff`).
-/

namespace PointsTo

namespace Fact

/-! ## The order of facts -/

/-- The object, the start and the end of a fact, in the order that counts. -/
def key (f : Fact) : ℤ ×ₗ ℤ ×ₗ ℤ := toLex (f.obj, toLex (f.lo.toInt, f.hi.toInt))

/-- A fact is its object and its ends. -/
theorem key_injective : Function.Injective key := by
  rintro ⟨o, l, r⟩ ⟨o', l', r'⟩ h
  simp only [key, EmbeddingLike.apply_eq_iff_eq, Prod.mk.injEq, Int64.toInt_inj] at h
  simp [h]

instance : LinearOrder Fact := .lift' key key_injective

/-- **The order that facts are sorted by is a linear one.** -/
theorem le_iff {a b : Fact} : a.le b ↔ a ≤ b := by
  change a.le b ↔ a.key ≤ b.key
  simp only [le, key, Prod.Lex.toLex_le_toLex, Int64.toInt_inj, ← Int64.lt_iff_toInt_lt,
    ← Int64.le_iff_toInt_le]
  by_cases hobj : a.obj = b.obj <;> by_cases hlo : a.lo = b.lo <;> simp [hobj, hlo]

/-- Sorting sorts. -/
theorem sortedLE_sorted (fs : List Fact) : (sorted fs).SortedLE := by
  refine List.Pairwise.sortedLE ?_
  simpa only [sorted, le_iff] using @List.pairwise_mergeSort _ le
    (by simpa only [le_iff] using fun _ _ _ => le_trans)
    (by simpa only [Bool.or_eq_true, le_iff] using le_total) fs

@[simp] theorem mem_sorted {fs : List Fact} {f : Fact} : f ∈ sorted fs ↔ f ∈ fs :=
  List.mem_mergeSort

end Fact

namespace Program

/-! ## Lists without repetitions -/

@[simp] theorem mem_dropRepeats {fs : List Fact} {f : Fact} : f ∈ dropRepeats fs ↔ f ∈ fs := by
  induction fs with
  | nil => rfl
  | cons g fs ih =>
    rw [dropRepeats, List.mem_cons, ← ih]
    split
    · next hnil => simp [hnil]
    · next h gs hcons =>
      rw [hcons]
      split
      · next heq => simp [heq]
      · rw [List.mem_cons]

/-- **Facts in order lose all their repetitions**, since equal ones stand together. -/
theorem sortedLT_dropRepeats {fs : List Fact} (h : fs.SortedLE) : (dropRepeats fs).SortedLT := by
  refine List.Pairwise.sortedLT ?_
  replace h := h.pairwise
  induction fs with
  | nil => exact .nil
  | cons f fs ih =>
    obtain ⟨hle, hfs⟩ := List.pairwise_cons.1 h
    have hrest := ih hfs
    rw [dropRepeats]
    split
    · exact List.pairwise_singleton _ _
    · next g gs hcons =>
      have hfg : f ≤ g := hle g (mem_dropRepeats.1 (hcons ▸ List.mem_cons_self))
      rw [hcons] at hrest
      split
      · exact hrest
      · next hne =>
        have hlt : f < g := lt_of_le_of_ne hfg hne
        refine List.pairwise_cons.2 ⟨fun x hx => ?_, hrest⟩
        obtain rfl | hx := List.mem_cons.1 hx
        · exact hlt
        · exact hlt.trans ((List.pairwise_cons.1 hrest).1 x hx)

/-- **What is left of facts that are sorted and lose their repetitions are the facts as a
set.** -/
theorem dropRepeats_sorted_eq_iff {fs gs : List Fact} :
    dropRepeats (Fact.sorted fs) = dropRepeats (Fact.sorted gs) ↔ ∀ f, f ∈ fs ↔ f ∈ gs := by
  constructor
  · intro h f
    rw [← Fact.mem_sorted, ← mem_dropRepeats, h, mem_dropRepeats, Fact.mem_sorted]
  · intro h
    have hsorted := fun fs => sortedLT_dropRepeats (Fact.sortedLE_sorted fs)
    refine (hsorted fs).eq_of_mem_iff (hsorted gs) fun f => ?_
    simpa using h f

/-! ## Queries give no names -/

open Steps

variable {p p' later : Program} {b : BuiltProgram} {q : QueryDecl} {own : Querier}
  {r : QueryOutcome}

section Names

variable {names : Assoc String NodeId}

/-- Naming a type names no node. -/
theorem keeps_names_typeWithin : ∀ (fuel : Nat) (name : String),
    Keeps (fun p => p.names = names) (typeWithin fuel name) := by
  have honNodes : ∀ f : Universe → Except Fault (TypeId × Universe),
      Keeps (fun p => p.names = names) (onNodes f) := fun f =>
    meets_onNodes (fun _ hp => hp) fun _ _ _ hp _ => hp
  intro fuel
  induction fuel with
  | zero => exact fun _ => keeps_pure _
  | succ fuel ih =>
    intro name
    unfold typeWithin
    split
    · exact keeps_pure _
    split
    · exact keeps_pure _
    split
    · exact (ih _).bind fun _ => honNodes _
    · exact (ih _).bind fun _ => honNodes _
    · exact meets_read fun _ => keeps_orFail _ _

/-- Nor does asking a query. -/
theorem keeps_names_task (b : BuiltProgram) (q : QueryDecl) :
    Keeps (fun p => p.names = names) (task b q) := by
  have htype : Keeps (fun p => p.names = names) (typeOf q) := by
    unfold typeOf
    split
    · exact keeps_pure _
    · rw [map_eq_pure_bind]
      exact (keeps_names_typeWithin _ _).bind fun _ => keeps_pure _
  have hfield : Keeps (fun p => p.names = names) (fieldOf q) := by
    unfold fieldOf
    split
    · exact keeps_pure _
    · simp only [map_eq_pure_bind]
      exact meets_read fun _ => (keeps_orFail _ _).bind fun _ => keeps_pure _
  have hhow : Keeps (fun p => p.names = names) (approach q) := by
    unfold approach
    split
    · exact (keeps_callSite _).bind fun _ => keeps_pure _
    · exact (keeps_mapM keeps_callSite).bind fun _ => keeps_pure _
    · exact keeps_throw _
  rw [task_eq]
  exact (keeps_node _).bind fun _ => htype.bind fun _ => hfield.bind fun _ =>
    hhow.bind fun _ => meets_read fun _ => keeps_pure _

/-- **A query leaves the names of nodes alone**, however it ends. -/
theorem names_run (b : BuiltProgram) (q : QueryDecl) (own : Querier) (p : Program) :
    (run b q own p).2.2.names = p.names := by
  have htask := (keeps_names_task b q).run (fun _ _ h => h) (rfl : p.names = p.names)
  unfold run
  split <;> simp_all [Step.go]

end Names

/-- **Queries have been run since**, of whatever was built and by whatever queriers. -/
inductive Asked (p : Program) : Program → Prop
  | start : Asked p p
  | next {p' : Program} (h : Asked p p') (b : BuiltProgram) (q : QueryDecl) (own : Querier) :
      Asked p (run b q own p').2.2

/-- So do any queries before. -/
theorem Asked.names_eq (h : Asked p p') : p'.names = p.names := by
  induction h with
  | start => rfl
  | next _ b q own ih => exact (names_run b q own _).trans ih

/-! ## What a query expects, and what it gets -/

/-- **The fact is listed**: under some name of its object. -/
def Lists (p : Program) (q : QueryDecl) (f : Fact) : Prop :=
  ∃ e ∈ q.expect, p.names.get? e.object = some f.obj ∧ e.lo = f.lo ∧ e.hi = f.hi

/-- **What the search of a query delivers to its collector**, in that order and as often as it
comes across it. -/
def delivered (b : BuiltProgram) (q : QueryDecl) (own : Querier) (p : Program) : List Fact :=
  match (task b q).go p with
  | (.ok attempt, p') => (attempt.go (own, p'.casting, [])).2.2.2
  | (.error _, _) => []

/-- A query that has been run is answered with what has been delivered to it. -/
theorem outcome_of_run (hrun : (run b q own p).1 = .ok r) (herror : r.error = none) :
    r.query = q ∧ r.objects = Fact.sorted (delivered b q own p) := by
  unfold run at hrun
  unfold delivered
  split at hrun
  · cases hrun
  · cases hrun
    cases herror
  · next attempt p' hgo =>
    rw [hgo]
    replace hrun : (attempt.go (own, p'.casting, [])).1.map _ = .ok r := hrun
    cases hanswer : (attempt.go (own, p'.casting, [])).1 with
    | error f =>
      rw [hanswer] at hrun
      cases hrun
    | ok answer =>
      rw [hanswer] at hrun
      cases hrun
      exact ⟨rfl, rfl⟩

/-- Where all names that a query expects are known, they are looked up. -/
theorem exists_expectedFacts (hnames : ∀ e ∈ q.expect, (p.names.get? e.object).isSome) :
    ∃ fs, p.expectedFacts q = .ok fs ∧ ∀ f, f ∈ fs ↔ p.Lists q f := by
  unfold expectedFacts Lists
  generalize q.expect = expected at hnames ⊢
  induction expected with
  | nil => exact ⟨[], rfl, by simp⟩
  | cons e es ih =>
    obtain ⟨fs, hfs, hmem⟩ := ih fun e' he' => hnames e' (List.mem_cons_of_mem _ he')
    obtain ⟨n, hn⟩ := Option.isSome_iff_exists.1 (hnames e List.mem_cons_self)
    refine ⟨⟨n, e.lo, e.hi⟩ :: fs, ?_, fun f => ?_⟩
    · rw [List.mapM_cons, hfs, hn]
      rfl
    · rw [List.mem_cons, hmem, List.exists_mem_cons_iff, hn, Option.some.injEq]
      refine or_congr_left ?_
      cases f
      simp [eq_comm]

/-- **An answer is compared with the expected one as a set of facts.** It is accepted exactly
if it is yes or no as expected and, unless it is no and no facts are listed, what is
listed is what has been delivered. -/
theorem check_eq_ok_iff (hrun : (run b q own p).1 = .ok r) (herror : r.error = none)
    (hnames : ∀ e ∈ q.expect, (p.names.get? e.object).isSome)
    (hlater : Asked (run b q own p).2.2 later) :
    later.check r = .ok () ↔ r.ok ≠ q.fails ∧
      ((q.fails ∧ q.expect = []) ∨ ∀ f, p.Lists q f ↔ f ∈ delivered b q own p) := by
  obtain ⟨hquery, hobjects⟩ := outcome_of_run hrun herror
  obtain ⟨fs, hfs, hmem⟩ := exists_expectedFacts hnames
  have hexpected : later.expectedFacts q = .ok fs := by
    rw [← hfs, expectedFacts, expectedFacts, hlater.names_eq, names_run]
  unfold check
  rw [herror, hquery, hobjects]
  dsimp only
  split
  · next hsame => exact iff_of_false (by rintro ⟨⟩) fun h => h.1 hsame
  next hne =>
  rw [and_iff_right hne]
  split
  · next hnone =>
    rw [List.isEmpty_iff] at hnone
    exact iff_of_true rfl (.inl hnone)
  next hlisted =>
  rw [List.isEmpty_iff] at hlisted
  rw [or_iff_right hlisted, hexpected]
  simp only [← hmem, ← dropRepeats_sorted_eq_iff]
  split
  · next heq => exact iff_of_true rfl heq
  · next hdiffer => exact iff_of_false (by rintro ⟨⟩) hdiffer

/-- A variable points to an object in two ways that meet under its only context, and to another
one. The first object has two names, and both are listed. -/
def twiceNamed : Description where
  methods := ["f", "g"]
  entryPoints := ["f"]
  edges := [{ caller := "f", callee := "g", site := 1 }]
  vars := [{ name := "v", method := "g" }]
  allocs := [{ name := "a", method := "f" }, { name := "c", method := "f" }]
  heapContexts := [{ name := "again", base := "a" }]
  facts := [{ pointer := "v", object := "c", lo := 1, hi := 2 },
    { pointer := "v", object := "a", lo := 1, hi := 3 },
    { pointer := "v", object := "a", lo := 0, hi := 2 }]

/-- What the variable points to after the call. -/
def twiceNamedQuery : QueryDecl where
  pointer := "v"
  edge := some { caller := "f", callee := "g", site := 1 }
  expect := [⟨"again", 1, 2⟩, ⟨"c", 1, 2⟩, ⟨"a", 1, 2⟩]

/-- The program of `twiceNamed`, built. -/
def twiceNamedProgram : Program :=
  ((Workbench.build {}).go
    ⟨(declare.go { name := "p.yaml", description := twiceNamed }).2, {}, {}⟩).2.program

theorem isSome_built_twiceNamed : twiceNamedProgram.built.isSome := by decide +kernel

theorem check_eq_ok_iff_twiceNamed :
    let p := twiceNamedProgram
    let b := p.built.get isSome_built_twiceNamed
    let q := twiceNamedQuery
    let p' := (run b q (querier b) p).2.2
    ¬ (delivered b q (querier b) p).Nodup ∧ ∃ r, (run b q (querier b) p).1 = .ok r ∧
      r.error = none ∧ (∀ e ∈ q.expect, (p.names.get? e.object).isSome) ∧ Asked p' p' ∧
      p'.check r = .ok () := by
  intro p b q p'
  have hdelivered : delivered b q (querier b) p = [⟨3, 1, 2⟩, ⟨2, 1, 2⟩, ⟨2, 1, 2⟩] := by
    decide +kernel
  have hnames : ∀ e ∈ q.expect, (p.names.get? e.object).isSome := by decide +kernel
  have hlists : ∀ f, p.Lists q f ↔ f ∈ [(⟨3, 1, 2⟩ : Fact), ⟨2, 1, 2⟩, ⟨2, 1, 2⟩] := by
    have hagain : p.names.get? "again" = some 2 := by decide +kernel
    have ha : p.names.get? "a" = some 2 := by decide +kernel
    have hc : p.names.get? "c" = some 3 := by decide +kernel
    rintro ⟨n, l, r⟩
    have hlisted : p.Lists q ⟨n, l, r⟩ ↔ 2 = n ∧ 1 = l ∧ 2 = r ∨ 3 = n ∧ 1 = l ∧ 2 = r ∨
        2 = n ∧ 1 = l ∧ 2 = r := by
      simp [Lists, q, twiceNamedQuery, hagain, ha, hc]
    rw [hlisted]
    grind
  have hrun : (run b q (querier b) p).1.map (fun r => (r.ok, r.error)) = .ok (true, none) := by
    decide +kernel
  cases hr : (run b q (querier b) p).1 with
  | error f =>
    rw [hr] at hrun
    cases hrun
  | ok r =>
    rw [hr] at hrun
    obtain ⟨hok, herror⟩ := Prod.mk.inj (Except.ok.inj hrun)
    refine ⟨by rw [hdelivered]; decide, r, rfl, herror, hnames, .start, ?_⟩
    refine (check_eq_ok_iff hr herror hnames .start).2 ⟨by rw [hok]; decide, .inr fun f => ?_⟩
    rw [hlists, hdelivered]

end Program

end PointsTo
