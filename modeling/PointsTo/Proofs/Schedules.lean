import PointsTo.Proofs.Answers
/-!
# Workers that share out tasks

Tasks are handed out by a counter, and each worker runs the task it has
taken when its turn comes, with what it keeps and what all workers see. A
`Schedule` is any order in which this can happen. If the result of a task
does not depend on what workers keep and see, every schedule gives the
same results (`settles`). Dealing the tasks out in turn is one of them
(`exists_schedule_map`). For queries of a program this means that neither
the number of queriers nor their schedule shows in the outcomes.
-/

namespace PointsTo

namespace Workers

variable {α β σ τ : Type}

/-! ## Schedules -/

/-- A worker: what it keeps, and the number of the task it has taken. -/
structure Worker (σ : Type) where
  own : σ
  taken : Option Nat := none

/-- The workers at work: the number of the next task, the workers, what all of them
see, and the results by the numbers of the tasks. -/
structure Floor (β σ τ : Type) where
  next : Nat
  workers : List (Worker σ)
  shared : τ
  results : List (Option β)

namespace Floor

/-- The start: each of the workers keeps `own`, and there is no result. -/
def start (workers : Nat) (own : σ) (tasks : Nat) (shared : τ) : Floor β σ τ where
  next := 0
  workers := List.replicate workers { own }
  shared
  results := List.replicate tasks none

/-- How many workers have taken a task. -/
def busy (s : Floor β σ τ) : Nat := s.workers.countP (·.taken.isSome)

/-- All tasks have been taken, and run. -/
def Finished (s : Floor β σ τ) (tasks : Nat) : Prop := s.next = tasks ∧ s.busy = 0

end Floor

variable (run : α → σ → τ → β × σ × τ) (tasks : List α)

/-- **What can happen next**: a worker without a task takes the next one, or a worker
runs the task it has taken. -/
inductive Step : Floor β σ τ → Floor β σ τ → Prop
  | take {s : Floor β σ τ} {w : Nat} {own : σ} (hw : s.workers[w]? = some ⟨own, none⟩)
      (hnext : s.next < tasks.length) :
      Step s { s with next := s.next + 1, workers := s.workers.set w ⟨own, some s.next⟩ }
  | run {s : Floor β σ τ} {w i : Nat} {own : σ} {a : α}
      (hw : s.workers[w]? = some ⟨own, some i⟩) (ha : tasks[i]? = some a) :
      Step s { s with
        workers := s.workers.set w ⟨(run a own s.shared).2.1, none⟩
        shared := (run a own s.shared).2.2
        results := s.results.set i (some (run a own s.shared).1) }

/-- The state has been reached from the start in that many steps. -/
inductive Schedule (start : Floor β σ τ) : Nat → Floor β σ τ → Prop
  | start : Schedule start 0 start
  | step {k : Nat} {s s' : Floor β σ τ} (h : Schedule start k s) (hs : Step run tasks s s') :
      Schedule start (k + 1) s'

/-- **However the workers are scheduled, the results are the expected ones**: the work
comes to an end, it does not stop before all tasks are run, and then there
is one result for each task, in their order. -/
def Settles (start : Floor β σ τ) (expected : α → β) : Prop :=
  ∀ k s, Schedule run tasks start k s → k ≤ 2 * tasks.length ∧
    (s.Finished tasks.length ∨ ∃ s', Step run tasks s s') ∧
    (s.Finished tasks.length → s.results = tasks.map fun a => some (expected a))

/-! ## Invariants of a schedule -/

variable {run tasks} {Own : σ → Prop} {Shared : τ → Prop} {expected : α → β}
  {s s' : Floor β σ τ} {k n : Nat}

/-- What holds after `k` steps of `n` workers. -/
structure Going (run : α → σ → τ → β × σ × τ) (tasks : List α) (Own : σ → Prop)
    (Shared : τ → Prop) (expected : α → β) (n k : Nat) (s : Floor β σ τ) : Prop where
  own : ∀ w ∈ s.workers, Own w.own
  shared : Shared s.shared
  workers : s.workers.length = n
  next_le : s.next ≤ tasks.length
  taken_lt : ∀ w ∈ s.workers, ∀ i ∈ w.taken, i < s.next
  -- a task is two steps, of which a busy worker has made the first
  steps : k + s.busy = 2 * s.next
  results : s.results.length = tasks.length
  done : ∀ i < s.next, (∃ w ∈ s.workers, w.taken = some i) ∨
    s.results[i]? = tasks[i]?.map fun a => some (expected a)

theorem going_start {own : σ} {shared : τ} (hown : Own own) (hshared : Shared shared) :
    Going run tasks Own Shared expected n 0 (.start n own tasks.length shared) where
  own w hw := by
    rw [List.eq_of_mem_replicate hw]
    exact hown
  shared := hshared
  workers := List.length_replicate
  next_le := Nat.zero_le _
  taken_lt w hw := by
    rw [List.eq_of_mem_replicate hw]
    simp
  steps := by simp [Floor.start, Floor.busy, List.countP_replicate]
  results := List.length_replicate
  done i hi := absurd hi (Nat.not_lt_zero i)

/-- The number of busy workers after one of them has changed. -/
theorem countP_set {l : List (Worker σ)} {w : Nat} {old : Worker σ} (hw : l[w]? = some old)
    (new : Worker σ) : (l.set w new).countP (·.taken.isSome) + (if old.taken.isSome then 1 else 0) =
      l.countP (·.taken.isSome) + if new.taken.isSome then 1 else 0 := by
  induction l generalizing w with
  | nil => simp at hw
  | cons x l ih =>
    cases w with
    | zero =>
      obtain rfl : x = old := by simpa using hw
      simp only [List.set_cons_zero, List.countP_cons]
      omega
    | succ w =>
      have hrest := ih (w := w) (by simpa using hw)
      simp only [List.set_cons_succ, List.countP_cons]
      omega

theorem mem_set_of_ne {l : List (Worker σ)} {w : Nat} {old new x : Worker σ}
    (hw : l[w]? = some old) (hx : x ∈ l) (hne : x.taken ≠ old.taken) : x ∈ l.set w new := by
  obtain ⟨j, hj⟩ := List.getElem?_of_mem hx
  have hjw : w ≠ j := by
    rintro rfl
    rw [hj] at hw
    cases hw
    exact hne rfl
  exact List.mem_of_getElem? ((List.getElem?_set_ne hjw).trans hj)

section Going

variable (hrun : ∀ a ∈ tasks, ∀ own shared, Own own → Shared shared →
  (run a own shared).1 = expected a ∧ Own (run a own shared).2.1 ∧ Shared (run a own shared).2.2)

include hrun

/-- **Every step keeps the invariant.** -/
theorem Going.step (h : Going run tasks Own Shared expected n k s) (hs : Step run tasks s s') :
    Going run tasks Own Shared expected n (k + 1) s' := by
  cases hs with
  | @take w own hw hnext =>
    have hmem := List.mem_of_getElem? hw
    have hbusy := countP_set hw ⟨own, some s.next⟩
    have hsteps := h.steps
    have hlt := (List.getElem?_eq_some_iff.1 hw).1
    refine ⟨fun w' hw' => ?_, h.shared, List.length_set.trans h.workers, hnext,
      fun w' hw' i hi => ?_, ?_, h.results, fun i hi => ?_⟩
    · rcases List.mem_or_eq_of_mem_set hw' with hw' | rfl
      · exact h.own w' hw'
      · exact h.own ⟨own, none⟩ hmem
    · rcases List.mem_or_eq_of_mem_set hw' with hw' | rfl
      · exact Nat.lt_succ_of_lt (h.taken_lt w' hw' i hi)
      · cases hi
        exact Nat.lt_succ_self _
    · simp only [Floor.busy, Option.isSome_none, Option.isSome_some, Bool.false_eq_true, if_false,
        if_true] at hbusy hsteps ⊢
      omega
    -- whoever has a task is not the one that takes this one
    · rcases Nat.lt_succ_iff_lt_or_eq.1 hi with hi | rfl
      · refine (h.done i hi).imp_left fun ⟨w', hw', htaken⟩ => ⟨w', ?_, htaken⟩
        exact mem_set_of_ne hw hw' (by simp [htaken])
      · exact .inl ⟨_, List.mem_set hlt _, rfl⟩
  | @run w i own a hw ha =>
    have hmem := List.mem_of_getElem? hw
    obtain ⟨hresult, hown, hshared⟩ :=
      hrun a (List.mem_of_getElem? ha) own s.shared (h.own _ hmem) h.shared
    have hbusy := countP_set hw ⟨(run a own s.shared).2.1, none⟩
    have hsteps := h.steps
    have hlt : i < s.results.length := h.results ▸ (List.getElem?_eq_some_iff.1 ha).1
    have hself : (s.results.set i (some (run a own s.shared).1))[i]? =
        tasks[i]?.map fun a => some (expected a) := by
      rw [List.getElem?_set_self hlt, ha, hresult]
      rfl
    refine ⟨fun w' hw' => ?_, hshared, List.length_set.trans h.workers, h.next_le,
      fun w' hw' j hj => ?_, ?_, List.length_set.trans h.results, fun j hj => ?_⟩
    · rcases List.mem_or_eq_of_mem_set hw' with hw' | rfl
      · exact h.own w' hw'
      · exact hown
    · rcases List.mem_or_eq_of_mem_set hw' with hw' | rfl
      · exact h.taken_lt w' hw' j hj
      · cases hj
    · simp only [Floor.busy, Option.isSome_none, Option.isSome_some, Bool.false_eq_true, if_false,
        if_true] at hbusy hsteps ⊢
      omega
    -- two workers with one task would do no harm, since both enter what is expected
    · by_cases hij : i = j
      · subst hij
        exact .inr hself
      · rcases h.done j hj with ⟨w', hw', htaken⟩ | hdone
        · exact .inl ⟨w', mem_set_of_ne hw hw' (by simpa [htaken] using Ne.symm hij), htaken⟩
        · exact .inr ((List.getElem?_set_ne hij).trans hdone)

/-- **A schedule keeps the invariant.** -/
theorem Going.schedule {start : Floor β σ τ} (h : Going run tasks Own Shared expected n 0 start)
    (hs : Schedule run tasks start k s) : Going run tasks Own Shared expected n k s := by
  induction hs with
  | start => exact h
  | step _ hstep ih => exact ih.step hrun hstep

end Going

theorem busy_eq_zero : s.busy = 0 ↔ ∀ w ∈ s.workers, w.taken = none := by
  simp [Floor.busy, List.countP_eq_zero]

/-- **Work goes on until it is finished.** -/
theorem Going.progress (h : Going run tasks Own Shared expected n k s)
    (hn : tasks ≠ [] → 0 < n) : s.Finished tasks.length ∨ ∃ s', Step run tasks s s' := by
  by_cases hbusy : s.busy = 0
  · by_cases hnext : s.next < tasks.length
    · have hidle := busy_eq_zero.1 hbusy
      have hpos : 0 < s.workers.length := by
        rw [h.workers]
        exact hn fun hempty => by simp [hempty] at hnext
      have hfirst : s.workers[0]? = some ⟨s.workers[0].own, none⟩ := by
        rw [List.getElem?_eq_getElem hpos, ← hidle _ (List.getElem_mem hpos)]
      exact .inr ⟨_, .take hfirst hnext⟩
    · exact .inl ⟨Nat.le_antisymm h.next_le (Nat.le_of_not_lt hnext), hbusy⟩
  · simp only [busy_eq_zero, not_forall] at hbusy
    obtain ⟨⟨own, taken⟩, hmem, htaken⟩ := hbusy
    obtain ⟨i, rfl⟩ := Option.ne_none_iff_exists'.1 htaken
    obtain ⟨w, hw⟩ := List.getElem?_of_mem hmem
    have hi : i < tasks.length := Nat.lt_of_lt_of_le (h.taken_lt _ hmem i rfl) h.next_le
    exact .inr ⟨_, .run hw (List.getElem?_eq_getElem hi)⟩

/-- A finished schedule has run every task. -/
theorem Going.finished (h : Going run tasks Own Shared expected n k s)
    (hs : s.Finished tasks.length) : s.results = tasks.map fun a => some (expected a) := by
  obtain ⟨hnext, hbusy⟩ := hs
  refine List.ext_getElem? fun i => ?_
  rw [List.getElem?_map]
  by_cases hi : i < tasks.length
  · refine (h.done i (hnext ▸ hi)).resolve_left ?_
    rintro ⟨w, hw, htaken⟩
    simp [busy_eq_zero.1 hbusy w hw] at htaken
  · rw [List.getElem?_eq_none (by rw [h.results]; omega), List.getElem?_eq_none (by omega)]
    rfl

/-- **Results that do not depend on what workers keep and see do not depend on the
schedule.** -/
theorem settles (Own : σ → Prop) (Shared : τ → Prop) (hn : tasks ≠ [] → 0 < n) {own : σ}
    {shared : τ} (hown : Own own) (hshared : Shared shared)
    (hrun : ∀ a ∈ tasks, ∀ own shared, Own own → Shared shared →
      (run a own shared).1 = expected a ∧ Own (run a own shared).2.1 ∧
        Shared (run a own shared).2.2) :
    Settles run tasks (.start n own tasks.length shared) expected := by
  intro k s hs
  have h : Going run tasks Own Shared expected n k s :=
    (going_start hown hshared).schedule hrun hs
  have hsteps := h.steps
  have hnext := h.next_le
  exact ⟨by omega, h.progress hn, h.finished⟩

/-! ## Dealing in turn -/

/-- There is a worker if there is a task. -/
theorem count_pos (asked : Int) {tasks : Nat} (h : 0 < tasks) : 0 < count asked tasks := by
  unfold count
  omega

/-- The workers without tasks that keep these. -/
def idle (own : Array σ) : List (Worker σ) := own.toList.map ({ own := · })

theorem getElem?_idle (own : Array σ) (j : Nat) :
    (idle own)[j]? = own[j]?.map fun keeps => { own := keeps } := by
  rw [idle, List.getElem?_map, Array.getElem?_toList]

/-- A worker takes the next task and runs it at once. -/
theorem Schedule.deal_one {start : Floor β σ τ} {a : α} {done rest : List α} {bs : List β}
    {own : Array σ} {shared : τ} {w : Nat} {keeps : σ} (htasks : tasks = done ++ a :: rest)
    (hbs : bs.length = done.length) (hw : own[w]? = some keeps)
    (h : Schedule run tasks start k ⟨done.length, idle own, shared,
      bs.map some ++ List.replicate (rest.length + 1) none⟩) :
    let out := run a keeps shared
    Schedule run tasks start (k + 2) ⟨done.length + 1, idle (own.modify w fun _ => out.2.1),
      out.2.2, (bs ++ [out.1]).map some ++ List.replicate rest.length none⟩ := by
  intro out
  have hworker : (idle own)[w]? = some ⟨keeps, none⟩ := by
    rw [getElem?_idle, hw]
    rfl
  have hlt : w < (idle own).length := (List.getElem?_eq_some_iff.1 hworker).1
  have hnext : done.length < tasks.length := by
    rw [htasks, List.length_append, List.length_cons]
    omega
  have hstep := (h.step (.take hworker hnext)).step (.run (w := w) (i := done.length) (a := a)
    (List.getElem?_set_self hlt) (by simp [htasks]))
  have hworkers : ((idle own).set w ⟨keeps, some done.length⟩).set w ⟨out.2.1, none⟩ =
      idle (own.modify w fun _ => out.2.1) := by
    rw [List.set_set]
    refine List.ext_getElem? fun j => ?_
    rw [getElem?_idle, Array.getElem?_modify]
    by_cases hj : w = j
    · subst hj
      rw [List.getElem?_set_self hlt, if_pos rfl, hw]
      rfl
    · rw [List.getElem?_set_ne hj, if_neg hj, getElem?_idle]
  have hresults : (bs.map some ++ List.replicate (rest.length + 1) none).set done.length
      (some out.1) = (bs ++ [out.1]).map some ++ List.replicate rest.length none := by
    rw [List.set_append_right _ _ (by simp [hbs]), List.length_map, hbs, Nat.sub_self,
      List.replicate_succ, List.set_cons_zero]
    simp
  dsimp only at hstep
  rw [hworkers, hresults] at hstep
  exact hstep

/-- Dealing the tasks that are left. -/
theorem exists_schedule_deal {start : Floor β σ τ} : ∀ (rest done : List α) (bs : List β)
    (next k : Nat) (own : Array σ) (shared : τ), tasks = done ++ rest → bs.length = done.length →
    (rest ≠ [] → next < own.size) →
    Schedule run tasks start k ⟨done.length, idle own, shared,
      bs.map some ++ List.replicate rest.length none⟩ →
    ∃ s, Schedule run tasks start (k + 2 * rest.length) s ∧
      s.results = (bs ++ (deal run rest next own shared).1).map some ∧
      s.shared = (deal run rest next own shared).2 := by
  intro rest
  induction rest with
  | nil =>
    intro done bs next k own shared _ _ _ h
    exact ⟨_, h, by simp [deal], rfl⟩
  | cons a rest ih =>
    intro done bs next k own shared htasks hbs hnext h
    have hlt := hnext (List.cons_ne_nil _ _)
    have hw : own[next]? = some own[next] := Array.getElem?_eq_getElem hlt
    have hone := Schedule.deal_one htasks hbs hw h
    have hdeal : deal run (a :: rest) next own shared =
        let out := run a own[next] shared
        let more := deal run rest ((next + 1) % own.size) (own.modify next fun _ => out.2.1) out.2.2
        (out.1 :: more.1, more.2) := by
      simp only [deal, hw]
    rw [hdeal]
    generalize run a own[next] shared = out at hone ⊢
    dsimp only at hone ⊢
    have hsize : (next + 1) % own.size < (own.modify next fun _ => out.2.1).size := by
      rw [Array.size_modify]
      exact Nat.mod_lt _ (Nat.lt_of_le_of_lt (Nat.zero_le _) hlt)
    obtain ⟨s, hs, hresults, hshared⟩ := ih (done ++ [a]) (bs ++ [out.1]) ((next + 1) % own.size)
      (k + 2) (own.modify next fun _ => out.2.1) out.2.2 (by simp [htasks]) (by simp [hbs])
      (fun _ => hsize) (by simpa using hone)
    refine ⟨s, ?_, by simpa using hresults, hshared⟩
    rw [List.length_cons, Nat.mul_add, ← Nat.add_assoc, Nat.add_right_comm]
    exact hs

/-- **Dealing tasks out in turn is one of the schedules.** -/
theorem exists_schedule_map (run : α → σ → τ → β × σ × τ) (tasks : List α) (workers : Int)
    (own : σ) (shared : τ) :
    ∃ s, Schedule run tasks (.start (count workers tasks.length) own tasks.length shared)
        (2 * tasks.length) s ∧
      s.results = (map run workers own tasks shared).1.map some ∧
      s.shared = (map run workers own tasks shared).2 := by
  have hworkers : tasks ≠ [] → 0 < (Array.replicate (count workers tasks.length) own).size := by
    intro hne
    rw [Array.size_replicate]
    exact count_pos workers (List.length_pos_iff.2 hne)
  generalize hstart : (Floor.start (count workers tasks.length) own tasks.length shared :
    Floor β σ τ) = start
  have hsame : start = ⟨([] : List α).length,
      idle (Array.replicate (count workers tasks.length) own), shared,
      ([] : List β).map some ++ List.replicate tasks.length none⟩ := by
    simp [← hstart, Floor.start, idle]
  have hbegin : Schedule run tasks start 0 ⟨([] : List α).length,
      idle (Array.replicate (count workers tasks.length) own), shared,
      ([] : List β).map some ++ List.replicate tasks.length none⟩ := by
    rw [← hsame]
    exact .start
  have hdeal := exists_schedule_deal tasks [] ([] : List β) 0 0 _ shared
    (List.nil_append tasks).symm rfl hworkers hbegin
  simpa [map] using hdeal

/-- **Dealing tasks out in turn gives the expected results** where schedules do not
matter. -/
theorem Settles.map {workers : Int} {own : σ} {shared : τ}
    (h : Settles run tasks (.start (count workers tasks.length) own tasks.length shared) expected) :
    ∃ s, Schedule run tasks (.start (count workers tasks.length) own tasks.length shared)
        (2 * tasks.length) s ∧ s.Finished tasks.length ∧
      Workers.map run workers own tasks shared = (tasks.map expected, s.shared) := by
  obtain ⟨s, hs, hresults, hshared⟩ := exists_schedule_map run tasks workers own shared
  obtain ⟨-, hgoes, hends⟩ := h _ s hs
  -- one more step would be one too many
  have hfinished : s.Finished tasks.length := by
    refine hgoes.resolve_right ?_
    rintro ⟨s', hs'⟩
    have := (h _ s' (hs.step hs')).1
    omega
  have hsome : ((Workers.map run workers own tasks shared).1).map some =
      (tasks.map expected).map some := by
    rw [← hresults, hends hfinished, List.map_map]
    rfl
  have hlist := List.map_injective_iff.2 (Option.some_injective β) hsome
  exact ⟨s, hs, hfinished, Prod.ext hlist hshared.symm⟩

end Workers

/-! ## Queries -/

namespace Program

open Workers

variable {p : Program} {b : BuiltProgram}

/-- **Neither the number of queriers nor their schedule shows in the outcomes.** Where
the types that queries name can be found, and no query is stopped by a
fault when it is run alone, every schedule of any number of queriers comes
to an end with one outcome for each query, in their order, which is the
one the query has alone, with a new querier, on the program as it was
built. Running all queries is one of these schedules. -/
theorem runAll_eq_alone (hp : p.Prepared) (hb : p.built = some b)
    (htypes : ∀ q ∈ p.description.queries, ∃ t, ((type q.type).go p).1 = .ok t)
    (hok : ∀ q ∈ p.description.queries, ∃ o, (run b q (querier b) p).1 = .ok o) (workers : Int) :
    let queries := p.description.queries
    let alone := fun q => (run b q (querier b) p).1
    let start := Floor.start (count workers queries.length) (querier b) queries.length p
    Settles (run b) queries start alone ∧
      ∃ s, Schedule (run b) queries start (2 * queries.length) s ∧
        runAll workers p = .ok (queries.map alone, s.shared) := by
  intro queries alone start
  have hsettles : Settles (run b) queries start alone := by
    refine settles (fun own => own.Ready b.frozen.encoding.graph.size) (Queried p)
      (fun hne => count_pos workers (List.length_pos_iff.2 hne)) (Querier.ready_new _)
      (.start hp.orderly) fun q hq own p' hown hp' => ?_
    obtain ⟨hqueried, hready, -⟩ := run_spec (b := b) hp' (htypes q hq) hown
    have hsame := run_eq_alone hp.orderly hp' (htypes q hq) hown
    refine ⟨hsame, hready ?_, hqueried⟩
    obtain ⟨o, ho⟩ := hok q hq
    rw [hsame, ho]
    rfl
  obtain ⟨s, hs, -, hmap⟩ := hsettles.map
  refine ⟨hsettles, s, hs, ?_⟩
  rw [runAll, hb]
  exact congrArg Except.ok hmap

/-! ## Two queries that make types -/

/-- Two classes, and an array of the one below. The queries name two more array
types. -/
def arraysDescription : Description where
  classes := [{ name := "T" }, { name := "S", super := "T" }]
  methods := ["f", "g"]
  entryPoints := ["f"]
  edges := [{ caller := "f", callee := "g", site := 1 }]
  vars := [{ name := "v", method := "g" }]
  allocs := [{ name := "a", type := "S[]", method := "f" }]
  facts := [{ pointer := "v", object := "a", lo := 1, hi := 2 }]
  queries := [
    { pointer := "v", type := "S[][]", edge := some { caller := "f", callee := "g", site := 1 } },
    { pointer := "v", type := "T[]", edge := some { caller := "f", callee := "g", site := 1 } }]

/-- The program of `arraysDescription`, before it is built. -/
def arraysDeclared : Program :=
  (declare.go { name := "arrays", description := arraysDescription }).2

/-- The program of `arraysDescription`, built. -/
def arrays : Program := ((Workbench.build { }).go ⟨arraysDeclared, { }, { }⟩).2.program

theorem prepared_arrays : arrays.Prepared :=
  .build (prepared_of_isOk (by decide +kernel)) _ _ _

theorem isSome_built_arrays : arrays.built.isSome := by decide +kernel

/-- What building `arrays` gave. -/
def arraysBuilt : BuiltProgram := arrays.built.get isSome_built_arrays

theorem exists_of_all_isOk {α ε γ : Type} {l : List α} {f : α → Except ε γ}
    (h : l.all fun a => (f a).isOk) : ∀ a ∈ l, ∃ c, f a = .ok c := fun a ha =>
  Steps.isOk_iff.1 (List.all_eq_true.1 h a ha)

theorem runAll_eq_alone_arrays :
    let alone := fun q => (run arraysBuilt q (querier arraysBuilt) arrays).1
    arrays.Prepared ∧ arrays.built = some arraysBuilt ∧
      (∀ q ∈ arrays.description.queries, ∃ t, ((type q.type).go arrays).1 = .ok t) ∧
      (∀ q ∈ arrays.description.queries, ∃ o, alone q = .ok o) ∧
      ∃ p, runAll 2 arrays = .ok (arrays.description.queries.map alone, p) := by
  intro alone
  have hbuilt : arrays.built = some arraysBuilt := (Option.some_get _).symm
  have htypes : ∀ q ∈ arrays.description.queries, ∃ t, ((type q.type).go arrays).1 = .ok t :=
    exists_of_all_isOk (by decide +kernel)
  have hok : ∀ q ∈ arrays.description.queries, ∃ o, alone q = .ok o :=
    exists_of_all_isOk (by decide +kernel)
  obtain ⟨-, s, -, hrun⟩ := runAll_eq_alone prepared_arrays hbuilt htypes hok 2
  exact ⟨prepared_arrays, hbuilt, htypes, hok, s.shared, hrun⟩

/-- Either query gives its type the same number if it is run first. -/
example : arraysDescription.queries.map (fun q => ((type q.type).go arrays).1.toOption) =
    [some 5, some 5] := by
  decide +kernel

end Program

end PointsTo
