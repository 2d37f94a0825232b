import PointsTo.Proofs.Accesses
import PointsTo.Proofs.Condensation
/-!
# Condensing by any representatives

Representatives need not come from the graph. Condensing accepts every list in
which the representative of a method is a method and represents itself
(`Accepts`). What is left after collapsing may then have cycles: the root
can be met again, and a component can be waited for less than zero times.
Layers, on which the order and the ranks rest, are no longer there.

`CondenseRun` is the computation with its accesses checked and its loops
without fuel. `accepts_iff_exists_condenseRun` shows that it ends for every
list that is accepted. A component is queued when its counter goes to
zero, and counters only go down, so `Bounded` allows every
component one place in the queue, and the root, which is there from the
start, two.
-/

namespace PointsTo

namespace CallGraph

variable {g : CallGraph} {rep : Array MethodId} {reachable : Array Bool}

/-! ## The computation with its accesses -/

/-- Lists a method at its representative, which has to represent itself. -/
def groupMethod (rep : Array MethodId) (members : Array (List MethodId)) (m : MethodId) :
    Except Fault (Array (List MethodId)) := do
  let r ← entryAt rep m
  if slot? rep r = some r then changeAt members r (· ++ [m])
  else .error (.notRepresentative r m)

/-- Lists the methods at their representatives. -/
def groupMethods (g : CallGraph) (rep : Array MethodId) : Except Fault (Array (List MethodId)) :=
  g.methods.foldlM (groupMethod rep) (Array.replicate g.size [])

/-- The search for what the root reaches. -/
structure Visit where
  queue : List MethodId
  visited : Array Bool

/-- Meets a callee, which is queued the first time. -/
def Visit.meet (s : Visit) (t : MethodId) : Except Fault Visit := do
  if ← entryAt s.visited t then .ok s
  else
    let visited ← changeAt s.visited t fun _ => true
    .ok { queue := s.queue ++ [t], visited }

/-- The search starts at the root, if there is one. -/
def startVisit (g : CallGraph) : Except Fault Visit := do
  if g.size = 0 then .ok { queue := [], visited := #[] }
  else
    let visited ← changeAt (Array.replicate g.size false) rootMethod fun _ => true
    .ok { queue := [rootMethod], visited }

/-- A round of the search meets the callees of the first method of the queue. -/
def visitRound (g : CallGraph) (s : Visit) : Except Fault (Option Visit) :=
  match s.queue with
  | [] => .ok none
  | m :: queue => do
    let callees ← entryAt (g.methods.map g.successors).toArray m
    let s' ← callees.foldlM Visit.meet { s with queue }
    .ok (some s')

/-- What is made ready for the traversal: the edges with their marks, those that leave
each component, and how many lead to each. -/
structure SetUp where
  edges : Array Edge
  out : Array (List Nat)
  waiting : Array Int

/-- Files an edge of a method that is represented by `r`. -/
def SetUp.file (rep : Array MethodId) (r : MethodId) (s : SetUp) (i : Nat) :
    Except Fault SetUp := do
  let e ← entryAt s.edges i
  let t ← entryAt rep e.callee
  if t = r then
    let edges ← changeAt s.edges i fun e => { e with inComponent := true }
    .ok { s with edges }
  else if e.inComponent then .ok s
  else
    let out ← changeAt s.out r (· ++ [i])
    let waiting ← changeAt s.waiting t (· + 1)
    .ok { s with out, waiting }

/-- Files the edges of a method that the root reaches. -/
def SetUp.fileMethod (g : CallGraph) (rep : Array MethodId) (reachable : Array Bool) (s : SetUp)
    (m : MethodId) : Except Fault SetUp := do
  if ← entryAt reachable m then
    let r ← entryAt rep m
    (g.outPositions m).foldlM (SetUp.file rep r) s
  else .ok s

/-- Files the edges of the graph. -/
def setUp (g : CallGraph) (rep : Array MethodId) (reachable : Array Bool) : Except Fault SetUp :=
  g.methods.foldlM (SetUp.fileMethod g rep reachable)
    { edges := g.edges
      out := Array.replicate g.size []
      waiting := Array.replicate g.size 0 }

/-- Follows an edge out of the component of `m`, which has been finalized. -/
def follow (g : CallGraph) (rep : Array MethodId) (m : MethodId) (s : Condensation.Traversal)
    (i : Nat) : Except Fault Condensation.Traversal := do
  let e ← entryAt g.edges i
  let t ← entryAt rep e.callee
  let rank ← entryAt s.rank m
  let ranks ← changeAt s.rank t (max · (rank + 1))
  let waiting ← changeAt s.waiting t (· - 1)
  let left ← entryAt waiting t
  .ok { s with
    rank := ranks, waiting
    queue := if left = 0 then s.queue ++ [t] else s.queue }

/-- A round of the traversal finalizes the first component of the queue. -/
def traverseRound (g : CallGraph) (rep : Array MethodId) (out : Array (List Nat))
    (s : Condensation.Traversal) : Except Fault (Option Condensation.Traversal) :=
  match s.queue with
  | [] => .ok none
  | m :: queue => do
    let positions ← entryAt out m
    let s' ← positions.foldlM (follow g rep m) { s with queue, order := s.order ++ [m] }
    .ok (some s')

/-- **A run of the computation that gives `g'` and `c`.** No access fails, and both loops
are left, the search after no more than one round per method and the
traversal after no more than one round in addition. -/
structure CondenseRun (g : CallGraph) (reps : List MethodId) (g' : CallGraph) (c : Condensation) :
    Prop where
  rep : c.rep = g.repTable reps
  members : g.groupMethods c.rep = .ok c.members
  search : ∃ s n, g.startVisit = .ok s ∧ n ≤ g.size ∧
    Loops g.visitRound n s { queue := [], visited := c.reachable }
  size : g'.size = g.size
  traversal : ∃ (waiting : Array Int) (n : Nat) (left : Array Int),
    g.setUp c.rep c.reachable = .ok { edges := g'.edges, out := c.out, waiting } ∧
    n ≤ g.size + 1 ∧ Loops (g'.traverseRound c.rep c.out) n
      { queue := if g.size = 0 then [] else [rootMethod]
        rank := Array.replicate g.size 0
        waiting }
      { queue := [], rank := c.rank, waiting := left, order := c.order }

/-- Representatives that are accepted: each is a method that represents itself. -/
def Accepts (g : CallGraph) (reps : List MethodId) : Prop :=
  ∀ m : MethodId, g.hasMethod m → ∃ r : MethodId, reps.getD m.toNat m = r ∧
    g.hasMethod r ∧ reps.getD r.toNat r = r

theorem accepts_iff {reps : List MethodId} :
    g.Accepts reps ↔ checkReps (g.repTable reps) = .ok () := by
  have hslot : ∀ m r : Int, slot? (g.repTable reps) m = some r ↔
      g.hasMethod m ∧ reps.getD m.toNat m = r := by
    intro m r
    by_cases hm : g.hasMethod m
    · simp [slot?_repTable hm, hm]
    · have hnone : slot? (g.repTable reps) m = none := by
        rwa [slot?_eq_none, size_repTable, ← hasMethod_iff]
      simp [hnone, hm]
  simp only [checkReps_eq_ok_iff, hslot]
  constructor
  · rintro h m r ⟨hm, hr⟩
    obtain ⟨r', hr', hmethod, hself⟩ := h m hm
    obtain rfl : r' = r := hr'.symm.trans hr
    exact ⟨hmethod, hself⟩
  · exact fun h m hm => ⟨_, rfl, h m _ ⟨hm, rfl⟩⟩

/-- Representatives in a table: those of methods are methods that represent themselves. -/
def Represents (g : CallGraph) (rep : Array MethodId) : Prop :=
  ∀ m : Int, g.hasMethod m → ∃ r : Int, slot? rep m = some r ∧ g.hasMethod r ∧
    slot? rep r = some r

theorem Accepts.represents {reps : List MethodId} (h : g.Accepts reps) :
    g.Represents (g.repTable reps) := by
  intro m hm
  obtain ⟨r, hr, hmethod, hself⟩ := h m hm
  exact ⟨r, by rw [slot?_repTable hm, hr], hmethod, by rw [slot?_repTable hmethod, hself]⟩

/-! ## Grouping -/

/-- **Grouping lists at each representative the methods it represents.** -/
theorem groupMethods_eq (h : g.Represents rep) : g.groupMethods rep = .ok
    (g.methods.map fun r => g.methods.filter fun m => slot? rep m == some r).toArray := by
  have hloop := foldlM_run (l := g.methods) (f := groupMethod rep)
    (b := Array.replicate g.size [])
    (fun done members => ∀ r : Int, slot? members r =
      if g.hasMethod r then some (done.filter fun m => slot? rep m == some r) else none)
    (fun r => by rw [slot?_replicate]; exact if_congr hasMethod_iff.symm rfl rfl) ?_
  · obtain ⟨members, hmembers, hslot⟩ := hloop
    rw [groupMethods, hmembers]
    refine congrArg _ (eq_of_slot? fun r => ?_)
    rw [hslot, slot?_methods]
  · rintro done m members ⟨rest, hl⟩ hslot
    have hm : g.hasMethod m := mem_methods.1 (hl ▸ by simp)
    obtain ⟨r, hr, hrm, hself⟩ := h m hm
    have hold := hslot r
    rw [if_pos hrm] at hold
    refine ⟨members.modify r.toNat (· ++ [m]), ?_, fun x => ?_⟩
    · simp only [groupMethod, entryAt_eq hr, bind, Except.bind, if_pos hself, changeAt_eq _ hold]
    · rw [slot?_changed _ hold, List.filter_append]
      by_cases hx : x = r
      · simp [hx, hrm, hr]
      · have hne : ¬ r = x := fun h => hx h.symm
        simp [hx, hslot, hr, hne]

/-! ## The search for what the root reaches -/

/-- The search once the callees `met` have been met and the methods `done` have been
through the queue. -/
structure Frontier (g : CallGraph) (done met : List MethodId) (s : Visit) : Prop where
  nodup : (done ++ s.queue).Nodup
  visited : ∀ t : Int, slot? s.visited t =
    if g.hasMethod t then some (decide (t ∈ done ++ s.queue)) else none
  reaches : ∀ t ∈ done ++ s.queue, g.hasMethod t ∧ g.Reaches rootMethod t
  met : ∀ t ∈ met, t ∈ done ++ s.queue

namespace Frontier

variable {done met : List MethodId} {s : Visit}

theorem done_mem (h : Frontier g done met s) : ∀ m ∈ done, m ∈ g.methods :=
  fun m hm => mem_methods.2 (h.reaches m (List.mem_append_left _ hm)).1

/-- No more methods go through the queue than there are. -/
theorem length_le (h : Frontier g done met s) : done.length ≤ g.size := by
  have hsub := ((List.nodup_append.1 h.nodup).1.subperm h.done_mem).length_le
  rwa [length_methods] at hsub

/-- Meeting a callee that the root reaches. -/
theorem meet (h : Frontier g done met s) {t : Int} (ht : g.hasMethod t)
    (hreach : g.Reaches rootMethod t) :
    ∃ s', s.meet t = .ok s' ∧ Frontier g done (met ++ [t]) s' := by
  have hslot := h.visited t
  rw [if_pos ht] at hslot
  by_cases hmem : t ∈ done ++ s.queue
  · refine ⟨s, ?_, h.nodup, h.visited, h.reaches, fun x hx => ?_⟩
    · rw [decide_eq_true hmem] at hslot
      rw [Visit.meet, entryAt_eq hslot]
      rfl
    · rcases List.mem_append.1 hx with hx | hx
      · exact h.met x hx
      · exact List.mem_singleton.1 hx ▸ hmem
  · rw [decide_eq_false hmem] at hslot
    refine ⟨{ queue := s.queue ++ [t], visited := s.visited.modify t.toNat fun _ => true },
      ?_, ?_, fun x => ?_, fun x hx => ?_, fun x hx => ?_⟩
    · simp only [Visit.meet, entryAt_eq hslot, bind, Except.bind, changeAt_eq _ hslot]
      rfl
    · rw [← List.append_assoc]
      exact List.nodup_append.2 ⟨h.nodup, by simp, by rintro a ha b hb rfl; simp_all⟩
    · rw [slot?_changed _ hslot, h.visited x]
      by_cases hx : x = t
      · simp [hx, ht]
      · have hsame : x ∈ done ++ (s.queue ++ [t]) ↔ x ∈ done ++ s.queue := by
          rw [← List.append_assoc, List.mem_append, List.mem_singleton, or_iff_left hx]
        simp only [if_neg hx, hsame]
    · rw [← List.append_assoc] at hx
      rcases List.mem_append.1 hx with hx | hx
      · exact h.reaches x hx
      · exact List.mem_singleton.1 hx ▸ ⟨ht, hreach⟩
    · rw [← List.append_assoc]
      rcases List.mem_append.1 hx with hx | hx
      · exact List.mem_append_left _ (h.met x hx)
      · exact List.mem_append_right _ hx

/-- The first of the queue goes through; its callees are still to be met. -/
theorem pop (h : Frontier g done met s) {m : MethodId} {queue : List MethodId}
    (hq : s.queue = m :: queue) : Frontier g (done ++ [m]) met { s with queue } := by
  have hsame : (done ++ [m]) ++ queue = done ++ s.queue := by rw [hq]; simp
  exact ⟨by rw [hsame]; exact h.nodup, by rw [hsame]; exact h.visited,
    by rw [hsame]; exact h.reaches, by rw [hsame]; exact h.met⟩

/-- **A round of the search** does not fail, and meets the callees of one more
method. -/
theorem round (h : Frontier g done met s) (hids : ∀ e ∈ g.edges, g.hasMethod e.callee)
    {m : Int} {queue : List MethodId} (hq : s.queue = m :: queue) :
    ∃ s', g.visitRound s = .ok (some s') ∧
      Frontier g (done ++ [m]) (met ++ g.successors m) s' := by
  obtain ⟨hm, hreach⟩ := h.reaches m (by rw [hq]; simp)
  have hloop := foldlM_run (l := g.successors m) (f := Visit.meet)
    (b := { s with queue })
    (fun seen s' => Frontier g (done ++ [m]) (met ++ seen) s') (by simpa using h.pop hq) ?_
  · obtain ⟨s', hs', hs⟩ := hloop
    refine ⟨s', ?_, hs⟩
    have hrow : slot? (g.methods.map g.successors).toArray m = some (g.successors m) := by
      rw [slot?_methods, if_pos hm]
    simp only [visitRound, hq, entryAt_eq hrow, bind, Except.bind, hs']
  · rintro seen t r ⟨rest, hl⟩ hr
    have ht : t ∈ g.successors m := hl ▸ by simp
    obtain ⟨e, he, -, rfl⟩ := mem_successors.1 ht
    rw [← List.append_assoc]
    exact hr.meet (hids e he) (hreach.tail ht)

/-- **When the queue is empty the root reaches what has been through it.** -/
theorem mem_iff (h : Frontier g done (rootMethod :: done.flatMap g.successors) s)
    (hq : s.queue = []) {t : MethodId} : t ∈ done ↔ g.Reaches rootMethod t := by
  have hmet := h.met
  rw [hq, List.append_nil] at hmet
  constructor
  · exact fun ht => (h.reaches t (List.mem_append_left _ ht)).2
  · intro ht
    refine ht.mem_of_closed (S := (· ∈ done)) (fun x y hx hy => ?_) (hmet _ List.mem_cons_self)
    exact hmet y (List.mem_cons_of_mem _ (List.mem_flatMap.2 ⟨x, hx, hy⟩))

end Frontier

/-- The search has started: the root is met. -/
theorem frontier_start (hsize : g.size ≠ 0) :
    ∃ s, g.startVisit = .ok s ∧ Frontier g [] [rootMethod] s := by
  have hroot : g.hasMethod rootMethod := hasMethod_iff.2 ⟨Int.le_refl 0, by
    rw [rootMethod]; omega⟩
  have hslot : ∀ t : Int, slot? (Array.replicate g.size false) t =
      if g.hasMethod t then some false else none := fun t => by
    rw [slot?_replicate]
    exact if_congr hasMethod_iff.symm rfl rfl
  have hold : slot? (Array.replicate g.size false) rootMethod = some false := by
    rw [hslot, if_pos hroot]
  refine ⟨_, by simp only [startVisit, if_neg hsize, changeAt_eq _ hold]; rfl,
    by simp, fun t => ?_, fun t ht => ?_, by simp⟩
  · rw [slot?_changed _ hold, hslot]
    by_cases ht : t = rootMethod
    · simp [ht, hroot]
    · simp [ht]
  · obtain rfl : t = rootMethod := by simpa using ht
    exact ⟨hroot, .refl⟩

/-- The table of what the root reaches has one entry per method. -/
theorem slot?_reachable (h : g.reachable = .ok reachable) (t : Int) : slot? reachable t =
    if g.hasMethod t then some (decide (t ∈ explore g.successors g.edges.size [rootMethod]))
    else none := by
  unfold CallGraph.reachable at h
  by_cases hsize : g.size = 0
  · rw [if_pos hsize, Except.ok.injEq] at h
    have ht : ¬ g.hasMethod t := fun ht => by have := hasMethod_iff.1 ht; omega
    simp [← h, ht, slot?]
  · rw [if_neg hsize] at h
    simp only at h
    split at h
    · rw [Except.ok.injEq] at h
      rw [← h, slot?_methods]
      simp only [List.contains_eq_mem]
    · cases h

/-- **The search ends with the table of what the root reaches**, after a round
for each method it reaches. -/
theorem exists_search (hids : ∀ e ∈ g.edges, g.hasMethod e.callee)
    (hreach : g.reachable = .ok reachable) :
    ∃ s n, g.startVisit = .ok s ∧ n ≤ g.size ∧
      Loops g.visitRound n s { queue := [], visited := reachable } := by
  by_cases hsize : g.size = 0
  · have hempty : reachable = #[] := by
      rw [CallGraph.reachable, if_pos hsize, Except.ok.injEq] at hreach
      exact hreach.symm
    rw [hempty]
    exact ⟨_, 0, by rw [startVisit, if_pos hsize], Nat.zero_le _, Loops.leave rfl⟩
  · obtain ⟨s, hs, hstart⟩ := frontier_start hsize
    have hloop := exists_loops g.visitRound (fun k s => ∃ done, done.length = k ∧
        Frontier g done (rootMethod :: done.flatMap g.successors) s) g.size
      (by rintro k s ⟨done, rfl, h⟩; exact h.length_le) ?_ (k := 0) ⟨[], rfl, hstart⟩
    · obtain ⟨n, t, hrun, hleave, done, hn, ht⟩ := hloop
      have hq : t.queue = [] := by
        cases hq : t.queue with
        | nil => rfl
        | cons m queue =>
          obtain ⟨t', ht', -⟩ := ht.round hids hq
          rw [hleave] at ht'
          cases ht'
      have htable : t.visited = reachable := by
        refine eq_of_slot? fun x => ?_
        have hmem : x ∈ done ++ t.queue ↔ x ∈ explore g.successors g.edges.size [rootMethod] := by
          rw [hq, List.append_nil, ht.mem_iff hq, mem_explore_successors]
        rw [ht.visited, slot?_reachable hreach]
        simp only [hmem]
      refine ⟨s, n, hs, by have := ht.length_le; omega, ?_⟩
      obtain ⟨queue, visited⟩ := t
      simp only at hq htable
      rw [← hq, ← htable]
      exact hrun
    · rintro k s ⟨done, rfl, h⟩
      cases hq : s.queue with
      | nil => exact .inl (by rw [visitRound, hq])
      | cons m queue =>
        obtain ⟨s', hs', h'⟩ := h.round hids hq
        exact .inr ⟨s', hs', done ++ [m], by simp, by simpa using h'⟩

/-! ## Filing the edges -/

/-- Whether an edge leaves the component of `r`, by its position. -/
def leaves (g : CallGraph) (rep : Array MethodId) (r : MethodId) (i : Nat) : Bool :=
  (g.edges[i]?).any fun e =>
    slot? rep e.caller == some r && slot? rep e.callee != some r && !e.inComponent

/-- The positions of the edges out of those of the methods that the root reaches. -/
def positionsOf (g : CallGraph) (reachable : Array Bool) (ms : List MethodId) : List Nat :=
  (ms.filter fun m => (slot? reachable m).getD false).flatMap g.outPositions

theorem mem_outPositions {m : MethodId} {i : Nat} :
    i ∈ g.outPositions m ↔ ∃ e, g.edges[i]? = some e ∧ e.caller = m := by
  simp only [outPositions, List.mem_filter, List.mem_range, Option.any_eq_true, beq_iff_eq]
  refine and_iff_right_of_imp ?_
  rintro ⟨e, he, -⟩
  exact (Array.getElem?_eq_some_iff.1 he).1

/-- The set-up once the edges at `ps` have been filed. -/
structure Filed (g : CallGraph) (rep : Array MethodId) (ps : List Nat) (s : SetUp) : Prop where
  edges : ∀ j : Nat, s.edges[j]? = (g.edges[j]?).map fun e =>
    if j ∈ ps ∧ slot? rep e.caller = slot? rep e.callee then { e with inComponent := true } else e
  out : ∀ r : Int, slot? s.out r =
    if g.hasMethod r then some (ps.filter (g.leaves rep r)) else none
  waiting : ∀ t : Int, slot? s.waiting t = if g.hasMethod t then
    some ((g.methods.flatMap (g.calleesOf rep s.out)).count t : Int) else none

/-- If one of the lists is longer by an element, so are the lists together. -/
theorem count_flatMap_append {α β : Type} [DecidableEq α] [DecidableEq β] {l : List α}
    (hl : l.Nodup) {r : α} (hr : r ∈ l) {f f' : α → List β} {b : β} (hself : f' r = f r ++ [b])
    (hother : ∀ x, x ≠ r → f' x = f x) (t : β) :
    (l.flatMap f').count t = (l.flatMap f).count t + [b].count t := by
  have hperm := List.perm_cons_erase hr
  have hrest : (l.erase r).flatMap f' = (l.erase r).flatMap f :=
    List.flatMap_congr fun x hx => hother x (hl.mem_erase_iff.1 hx).1
  rw [(hperm.flatMap_right f').count_eq, (hperm.flatMap_right f).count_eq, List.flatMap_cons,
    List.flatMap_cons, hself, hrest]
  simp only [List.count_append]
  omega

namespace Filed

variable {ps : List Nat} {s : SetUp} {i : Nat} {e : Edge} {r t : Int}

/-- Filing an edge that stays inside a component marks it. -/
theorem mark (h : Filed g rep ps s) (he : g.edges[i]? = some e)
    (hr : slot? rep e.caller = some r) (ht : slot? rep e.callee = some r) :
    Filed g rep (ps ++ [i])
      { s with edges := s.edges.modify i fun e => { e with inComponent := true } } := by
  refine ⟨fun j => ?_, fun x => ?_, h.waiting⟩
  · rw [Array.getElem?_modify, h.edges]
    by_cases hj : i = j
    · subst hj
      simp only [he, hr, ht, Option.map_some, if_true, List.mem_append, List.mem_singleton,
        or_true, and_true]
      split <;> rfl
    · have hsame : j ∈ ps ++ [i] ↔ j ∈ ps := by simp [Ne.symm hj]
      simp only [if_neg hj, hsame]
  · rw [h.out]
    have hno : g.leaves rep x i = false := by
      simp only [leaves, he, hr, ht, Option.any_some]
      by_cases hx : r = x <;> simp [hx]
    simp [hno]

/-- Nothing is changed by an edge that has a mark already. -/
theorem skip (h : Filed g rep ps s) (he : g.edges[i]? = some e)
    (hne : slot? rep e.caller ≠ slot? rep e.callee) (hin : e.inComponent) :
    Filed g rep (ps ++ [i]) s := by
  refine ⟨fun j => ?_, fun x => ?_, h.waiting⟩
  · rw [h.edges]
    by_cases hj : j = i
    · simp [hj, he, hne]
    · have hsame : j ∈ ps ++ [i] ↔ j ∈ ps := by simp [hj]
      simp only [hsame]
  · rw [h.out]
    have hno : g.leaves rep x i = false := by simp [leaves, he, hin]
    simp [hno]

/-- **Filing an edge between two components** keeps it at the first, and the second
waits for one more. -/
theorem leave (h : Filed g rep ps s) (he : g.edges[i]? = some e)
    (hr : slot? rep e.caller = some r) (ht : slot? rep e.callee = some t) (hne : t ≠ r)
    (hin : ¬ e.inComponent) (hrm : g.hasMethod r) (htm : g.hasMethod t) :
    Filed g rep (ps ++ [i])
      { s with out := s.out.modify r.toNat (· ++ [i])
               waiting := s.waiting.modify t.toNat (· + 1) } := by
  have hout := h.out r
  rw [if_pos hrm] at hout
  have hwait := h.waiting t
  rw [if_pos htm] at hwait
  refine ⟨fun j => ?_, fun x => ?_, fun x => ?_⟩
  · rw [h.edges]
    by_cases hj : j = i
    · simp [hj, he, hr, ht, Ne.symm hne]
    · have hsame : j ∈ ps ++ [i] ↔ j ∈ ps := by simp [hj]
      simp only [hsame]
  · rw [slot?_changed _ hout, h.out, List.filter_append]
    by_cases hx : x = r
    · have hyes : g.leaves rep r i = true := by simp [leaves, he, hr, ht, hne, hin]
      simp [hx, hrm, hyes]
    · have hno : g.leaves rep x i = false := by simp [leaves, he, hr, Ne.symm hx]
      simp [hx, hno]
  · have hself : g.calleesOf rep (s.out.modify r.toNat (· ++ [i])) r =
        g.calleesOf rep s.out r ++ [t] := by
      simp [calleesOf, slot?_changed _ hout, hout, he, ht]
    have hother : ∀ m, m ≠ r → g.calleesOf rep (s.out.modify r.toNat (· ++ [i])) m =
        g.calleesOf rep s.out m := fun m hm => by
      simp only [calleesOf, slot?_changed _ hout, if_neg hm]
    rw [slot?_changed _ hwait, h.waiting,
      count_flatMap_append nodup_methods (mem_methods.2 hrm) hself hother]
    by_cases hx : x = t
    · simp [hx, htm]
    · simp [hx, Ne.symm hx]

/-- **Filing an edge does not fail.** -/
theorem file (h : Filed g rep ps s) (hrep : g.Represents rep) (he : g.edges[i]? = some e)
    (hcaller : g.hasMethod e.caller) (hcallee : g.hasMethod e.callee)
    (hr : slot? rep e.caller = some r) :
    ∃ s', s.file rep r i = .ok s' ∧ Filed g rep (ps ++ [i]) s' := by
  obtain ⟨r', hr', hrm, -⟩ := hrep _ hcaller
  obtain rfl : r' = r := Option.some.inj (hr'.symm.trans hr)
  obtain ⟨t, ht, htm, -⟩ := hrep _ hcallee
  -- the edge as it is now may have got its mark already
  obtain ⟨e', he', hcall, hmark⟩ : ∃ e', slot? s.edges i = some e' ∧ e'.callee = e.callee ∧
      (t ≠ r' → e' = e) := by
    refine ⟨_, slot?_eq_some.2 ⟨by omega, by rw [Int.toNat_natCast, h.edges, he]; rfl⟩, ?_, ?_⟩
    · beta_reduce
      split <;> rfl
    · intro hne
      refine if_neg fun hsame => hne ?_
      exact Option.some.inj (ht.symm.trans (hsame.2.symm.trans hr))
  have hentry : entryAt rep e'.callee = .ok t := entryAt_eq (hcall ▸ ht)
  by_cases hsame : t = r'
  · refine ⟨_, ?_, h.mark he hr (hsame ▸ ht)⟩
    simp only [SetUp.file, entryAt_eq he', hentry, bind, Except.bind, if_pos hsame,
      changeAt_eq _ he', Int.toNat_natCast]
  · obtain rfl : e' = e := hmark hsame
    by_cases hin : e'.inComponent
    · refine ⟨s, ?_, h.skip he ?_ hin⟩
      · simp only [SetUp.file, entryAt_eq he', hentry, bind, Except.bind, if_neg hsame, if_pos hin]
      · rw [hr, ht]
        exact fun heq => hsame (Option.some.inj heq).symm
    · have hout := h.out r'
      rw [if_pos hrm] at hout
      have hwait := h.waiting t
      rw [if_pos htm] at hwait
      refine ⟨_, ?_, h.leave he hr ht hsame hin hrm htm⟩
      simp only [SetUp.file, entryAt_eq he', hentry, bind, Except.bind, if_neg hsame, if_neg hin,
        changeAt_eq _ hout, changeAt_eq _ hwait]

end Filed

/-- The positions filed in the end are those of edges whose caller the root reaches. -/
theorem mem_positionsOf {i : Nat} (hcallers : ∀ e ∈ g.edges, g.hasMethod e.caller) :
    i ∈ g.positionsOf reachable g.methods ↔
      ∃ e, g.edges[i]? = some e ∧ (slot? reachable e.caller).getD false := by
  simp only [positionsOf, List.mem_flatMap, List.mem_filter, mem_outPositions]
  constructor
  · rintro ⟨_, ⟨-, hreach⟩, e, he, rfl⟩
    exact ⟨e, he, hreach⟩
  · rintro ⟨e, he, hreach⟩
    exact ⟨_, ⟨mem_methods.2 (hcallers e (Array.mem_of_getElem? he)), hreach⟩, e, he, rfl⟩

theorem outPositions_markComponents (m : MethodId) :
    (g.markComponents rep reachable).outPositions m = g.outPositions m := by
  have hsize : (g.markComponents rep reachable).edges.size = g.edges.size := by
    simp [markComponents]
  rw [outPositions, outPositions, hsize]
  refine List.filter_congr fun i _ => ?_
  rw [markComponents, Array.getElem?_map, Option.any_map]
  refine congrArg (fun p => Option.any p _) (funext fun e => ?_)
  split <;> rfl

/-- Elements that a filter leaves out add nothing. -/
theorem flatMap_eq_of_filter {α β : Type} {p : α → Bool} {f f' : α → List β} {l : List α}
    (hin : ∀ x ∈ l, p x → f' x = f x) (hout : ∀ x ∈ l, ¬ p x → f' x = []) :
    l.flatMap f' = (l.filter p).flatMap f := by
  induction l with
  | nil => rfl
  | cons x l ih =>
    have htail := ih (fun y hy => hin y (List.mem_cons_of_mem _ hy))
      fun y hy => hout y (List.mem_cons_of_mem _ hy)
    by_cases hx : p x
    · rw [List.filter_cons_of_pos hx, List.flatMap_cons, List.flatMap_cons, htail,
        hin x List.mem_cons_self hx]
    · rw [List.filter_cons_of_neg hx, List.flatMap_cons, htail, hout x List.mem_cons_self hx,
        List.nil_append]

/-- The edges kept at a representative are those filed there. -/
theorem leaving_markComponents (r : MethodId) :
    (g.markComponents rep reachable).leaving rep reachable r =
      (g.positionsOf reachable g.methods).filter (g.leaves rep r) := by
  have hmethods : (g.markComponents rep reachable).methods = g.methods := rfl
  rw [leaving, hmethods, positionsOf, List.filter_flatMap, ← List.filter_filter]
  symm
  refine flatMap_eq_of_filter (fun m hm hrep => ?_) fun m _ hrep => ?_
  · rw [outPositions_markComponents]
    refine List.filter_congr fun i hi => ?_
    obtain ⟨e, he, rfl⟩ := mem_outPositions.1 hi
    have hreach : (slot? reachable e.caller).getD false := (List.mem_filter.1 hm).2
    rw [beq_iff_eq] at hrep
    rw [leaves, he, markComponents, Array.getElem?_map, he, Option.map_some, Option.any_some,
      Option.any_some, hrep, hreach]
    by_cases hsame : slot? rep e.callee = some r
    · simp [hsame]
    · have hne : ¬ some r = slot? rep e.callee := fun h => hsame h.symm
      simp [hsame, hne]
  · rw [List.filter_eq_nil_iff]
    intro i hi
    obtain ⟨e, he, rfl⟩ := mem_outPositions.1 hi
    simp only [beq_iff_eq] at hrep
    simp [leaves, he, hrep]

theorem calleesOf_markComponents (out : Array (List Nat)) :
    (g.markComponents rep reachable).calleesOf rep out = g.calleesOf rep out := by
  funext m
  refine List.filterMap_congr fun i _ => ?_
  rw [markComponents, Array.getElem?_map, Option.bind_map]
  refine congrArg (Option.bind _) (funext fun e => ?_)
  simp only [Function.comp_apply]
  split <;> rfl

/-- **Filing the edges** marks those inside components, keeps the others at their
representatives and counts how many lead to each. -/
theorem exists_setUp (hrep : g.Represents rep)
    (hids : ∀ e ∈ g.edges, g.hasMethod e.caller ∧ g.hasMethod e.callee)
    (hreach : ∀ m : Int, g.hasMethod m → (slot? reachable m).isSome) :
    ∃ s, g.setUp rep reachable = .ok s ∧
      Filed g rep (g.positionsOf reachable g.methods) s := by
  refine foldlM_run (fun done s => Filed g rep (g.positionsOf reachable done) s) ?_ ?_
  · refine ⟨fun j => by simp [positionsOf], fun r => ?_, fun t => ?_⟩
    · rw [slot?_replicate]
      exact if_congr hasMethod_iff.symm rfl rfl
    · have hnone : g.calleesOf rep (Array.replicate g.size []) = fun _ => [] := by
        funext m
        rw [calleesOf, slot?_replicate]
        split <;> rfl
      have hnil : g.methods.flatMap (fun _ => ([] : List MethodId)) = [] :=
        List.flatMap_eq_nil_iff.2 fun _ _ => rfl
      rw [slot?_replicate, hnone, hnil]
      exact if_congr hasMethod_iff.symm rfl rfl
  · rintro done m s ⟨rest, hl⟩ hs
    have hm : g.hasMethod m := mem_methods.1 (hl ▸ by simp)
    obtain ⟨reached, hreached⟩ := Option.isSome_iff_exists.1 (hreach m hm)
    obtain ⟨r, hr, -⟩ := hrep m hm
    cases reached with
    | false =>
      refine ⟨s, ?_, ?_⟩
      · simp only [SetUp.fileMethod, entryAt_eq hreached, bind, Except.bind]
        rfl
      · simpa [positionsOf, List.filter_append, hreached] using hs
    | true =>
      have hloop := foldlM_run (l := g.outPositions m) (f := SetUp.file rep r) (b := s)
        (fun filed s => Filed g rep (g.positionsOf reachable done ++ filed) s)
        (by simpa using hs) ?_
      · obtain ⟨s', hs', hfiled⟩ := hloop
        refine ⟨s', ?_, ?_⟩
        · simp only [SetUp.fileMethod, entryAt_eq hreached, entryAt_eq hr, bind, Except.bind,
            if_true]
          exact hs'
        · simpa [positionsOf, List.filter_append, hreached] using hfiled
      · rintro filed i s ⟨rest, hl⟩ hs
        obtain ⟨e, he, rfl⟩ := mem_outPositions.1 (show i ∈ g.outPositions m from hl ▸ by simp)
        obtain ⟨hcaller, hcallee⟩ := hids e (Array.mem_of_getElem? he)
        rw [← List.append_assoc]
        exact hs.file hrep he hcaller hcallee hr

/-- **What filing the edges gives is what the graph is condensed with.** -/
theorem setUp_eq (hrep : g.Represents rep)
    (hids : ∀ e ∈ g.edges, g.hasMethod e.caller ∧ g.hasMethod e.callee)
    (hreach : ∀ m : Int, g.hasMethod m → (slot? reachable m).isSome) {g' : CallGraph}
    {out : Array (List Nat)} (hg' : g' = g.markComponents rep reachable)
    (hout : out = (g'.methods.map (g'.leaving rep reachable)).toArray) :
    g.setUp rep reachable = .ok
      { edges := g'.edges, out
        waiting := (g'.methods.map fun m =>
          ((g'.methods.flatMap (g'.calleesOf rep out)).count m : Int)).toArray } := by
  obtain ⟨s, hs, hfiled⟩ := exists_setUp hrep hids hreach
  have hmethods : g'.methods = g.methods := by rw [hg']; rfl
  have hedges : s.edges = g'.edges := by
    refine Array.ext_getElem? fun j => ?_
    rw [hfiled.edges, hg', markComponents, Array.getElem?_map]
    refine Option.map_congr fun e he => ?_
    have hmem : j ∈ g.positionsOf reachable g.methods ↔ (slot? reachable e.caller).getD false := by
      rw [mem_positionsOf fun e he => (hids e he).1]
      constructor
      · rintro ⟨e', he', h⟩
        exact Option.some.inj (he.symm.trans he') ▸ h
      · exact fun h => ⟨e, he, h⟩
    simp only [hmem, Bool.and_eq_true, beq_iff_eq]
  have hout' : s.out = out := by
    refine eq_of_slot? fun r => ?_
    rw [hfiled.out, hout, hmethods, slot?_methods, hg', leaving_markComponents]
  have hwaiting : s.waiting = (g'.methods.map fun m =>
      ((g'.methods.flatMap (g'.calleesOf rep out)).count m : Int)).toArray := by
    refine eq_of_slot? fun t => ?_
    rw [hfiled.waiting, hout', hmethods, slot?_methods, hg', calleesOf_markComponents]
  rw [hs, ← hwaiting, ← hedges, ← hout']

/-! ## The traversal -/

/-- How often a component may have been queued when it waits for `w` edges: the root
once from the start, and each once when it waits for no more. -/
def places (t : MethodId) (w : Int) : Nat :=
  (if t = rootMethod then 1 else 0) + if w ≤ 0 then 1 else 0

/-- There is one more place once the last edge is followed. -/
theorem places_sub_one (t : MethodId) (w : Int) :
    places t w + (if w = 1 then 1 else 0) ≤ places t (w - 1) := by
  unfold places
  by_cases hone : w = 1
  · rw [if_pos hone, if_neg (by omega : ¬ w ≤ 0), if_pos (by omega : w - 1 ≤ 0)]
  · by_cases hpos : w ≤ 0
    · rw [if_neg hone, if_pos hpos, if_pos (by omega : w - 1 ≤ 0)]
    · rw [if_neg hone, if_neg hpos]
      omega

/-- **What bounds the traversal.** The counter of a component is above zero until
the component is queued, and at most zero from then on. -/
structure Bounded (g : CallGraph) (s : Condensation.Traversal) : Prop where
  queued : ∀ t ∈ s.order ++ s.queue, g.hasMethod t
  rank : ∀ t : Int, g.hasMethod t → ∃ k, slot? s.rank t = some k
  waiting : ∀ t : Int, g.hasMethod t → ∃ w, slot? s.waiting t = some w ∧
    (s.order ++ s.queue).count t ≤ places t w

/-- Every component has its edges, which lead to other components. -/
def Leads (g : CallGraph) (rep : Array MethodId) (out : Array (List Nat)) : Prop :=
  ∀ m : Int, g.hasMethod m → ∃ l, slot? out m = some l ∧ ∀ i ∈ l, ∃ (e : Edge) (t : Int),
    g.edges[i]? = some e ∧ slot? rep e.callee = some t ∧ g.hasMethod t ∧ t ≠ m

namespace Bounded

open Condensation (Traversal)

variable {s : Traversal} {out : Array (List Nat)} {m t : Int} {k : Nat}

/-- **Letting a component know keeps the bound**: it is queued when its counter
goes from one to zero, which happens once. -/
theorem relax (h : Bounded g s) (ht : g.hasMethod t) (k : Nat) : Bounded g (s.relax k t) := by
  obtain ⟨w, hw, hcount⟩ := h.waiting t ht
  obtain ⟨k₀, hk₀⟩ := h.rank t ht
  have hmet : s.order ++ (s.relax k t).queue =
      (s.order ++ s.queue) ++ if w = 1 then [t] else [] := by
    rw [Traversal.queue_relax_of_waiting hw]
    split <;> simp
  refine ⟨fun x hx => ?_, fun x hx => ?_, fun x hx => ?_⟩
  · change x ∈ s.order ++ (s.relax k t).queue at hx
    rw [hmet, List.mem_append] at hx
    rcases hx with hx | hx
    · exact h.queued x hx
    · split at hx
      · exact List.mem_singleton.1 hx ▸ ht
      · cases hx
  · rw [Traversal.relax, slot?_changed _ hk₀]
    split
    · exact ⟨_, rfl⟩
    · exact h.rank x hx
  · change ∃ v, slot? (s.waiting.modify t.toNat (· - 1)) x = some v ∧
      (s.order ++ (s.relax k t).queue).count x ≤ places x v
    rw [slot?_changed _ hw, hmet, List.count_append]
    by_cases hxt : x = t
    · subst hxt
      have hlast : (if w = 1 then [x] else []).count x = if w = 1 then 1 else 0 := by
        split <;> simp
      rw [hlast]
      exact ⟨w - 1, if_pos rfl, (Nat.add_le_add_right hcount _).trans (places_sub_one x w)⟩
    · have hnone : (if w = 1 then [t] else []).count x = 0 := by
        split <;> simp [Ne.symm hxt]
      obtain ⟨v, hv, hle⟩ := h.waiting x hx
      rw [hnone]
      exact ⟨v, by rw [if_neg hxt, hv], hle⟩

/-- Following an edge does not fail. -/
theorem follow_eq (h : Bounded g s) {i : Nat} {e : Edge} (he : g.edges[i]? = some e)
    (ht : slot? rep e.callee = some t) (htm : g.hasMethod t) (hk : slot? s.rank m = some k) :
    g.follow rep m s i = .ok (s.relax k t) := by
  obtain ⟨w, hw, -⟩ := h.waiting t htm
  obtain ⟨k₀, hk₀⟩ := h.rank t htm
  have hedge : slot? g.edges i = some e := slot?_eq_some.2 ⟨by omega, by simpa using he⟩
  have hself := slot?_changed (· - 1) hw t
  rw [if_pos rfl] at hself
  simp only [follow, entryAt_eq hedge, entryAt_eq ht, entryAt_eq hk, bind, Except.bind,
    changeAt_eq _ hk₀, changeAt_eq _ hw, entryAt_eq hself, Traversal.relax,
    (slot?_eq_some.1 hself).2, Option.some.injEq]

/-- **A round of the traversal** does not fail, and does what the traversal with fuel
does. -/
theorem round (h : Bounded g s) (hout : g.Leads rep out) {queue : List MethodId}
    (hq : s.queue = m :: queue) :
    ∃ s', g.traverseRound rep out s = .ok (some s') ∧
      s' = (g.calleesOf rep out m).foldl (Traversal.relax (s.rankAt m))
        { s with queue, order := s.order ++ [m] } ∧
      s'.order = s.order ++ [m] ∧ Bounded g s' := by
  have hm : g.hasMethod m := h.queued m (by rw [hq]; simp)
  obtain ⟨k, hk⟩ := h.rank m hm
  have hrank : s.rankAt m = k := by rw [Traversal.rankAt, hk, Option.getD_some]
  obtain ⟨l, hl, hleads⟩ := hout m hm
  have hpop : Bounded g { s with queue, order := s.order ++ [m] } := by
    have hsame : (s.order ++ [m]) ++ queue = s.order ++ s.queue := by rw [hq]; simp
    exact ⟨by rw [hsame]; exact h.queued, h.rank, by rw [hsame]; exact h.waiting⟩
  have hloop := foldlM_run (l := l) (f := g.follow rep m)
    (b := { s with queue, order := s.order ++ [m] })
    (fun done r => r = ((done.filterMap fun i =>
        (g.edges[i]?).bind fun e => slot? rep e.callee).foldl (Traversal.relax k)
          { s with queue, order := s.order ++ [m] }) ∧
      r.order = s.order ++ [m] ∧ slot? r.rank m = some k ∧ Bounded g r)
    ⟨rfl, rfl, hk, hpop⟩ ?_
  · obtain ⟨s', hs', heq, horder, -, hbounded⟩ := hloop
    refine ⟨s', ?_, ?_, horder, hbounded⟩
    · simp only [traverseRound, hq, entryAt_eq hl, bind, Except.bind, hs']
    · rw [calleesOf, hl, Option.getD_some, hrank]
      exact heq
  · rintro done i r ⟨rest, hl⟩ ⟨heq, horder, hkr, hr⟩
    obtain ⟨e, t, he, ht, htm, hne⟩ := hleads i (hl ▸ by simp)
    refine ⟨r.relax k t, hr.follow_eq he ht htm hkr, ?_, horder, ?_, hr.relax htm k⟩
    · rw [List.filterMap_append, List.foldl_append, ← heq]
      simp [he, ht]
    · obtain ⟨k₀, hk₀⟩ := hr.rank t htm
      rw [Traversal.relax, slot?_changed _ hk₀, if_neg (Ne.symm hne), hkr]

/-- The loop is left when the queue is empty. -/
theorem queue_eq_nil (h : Bounded g s) (hout : g.Leads rep out)
    (hleave : g.traverseRound rep out s = .ok none) : s.queue = [] := by
  cases hq : s.queue with
  | nil => rfl
  | cons m queue =>
    obtain ⟨s', hs', -⟩ := h.round hout hq
    rw [hleave] at hs'
    cases hs'

/-- **The traversal with fuel runs the loop**, if the fuel is enough. -/
theorem run_eq (h : Bounded g s) (hout : g.Leads rep out) {n : Nat} {s' : Traversal}
    (hloop : Loops (g.traverseRound rep out) n s s') {fuel : Nat} (hfuel : n ≤ fuel) :
    Traversal.run (g.calleesOf rep out) fuel s = s' := by
  induction hloop generalizing fuel with
  | leave hleave =>
    have hq := h.queue_eq_nil hout hleave
    cases fuel with
    | zero => rfl
    | succ fuel => rw [Traversal.run, hq]
  | @next s r t n hround _ ih =>
    obtain ⟨fuel, rfl⟩ : ∃ f, fuel = f + 1 := ⟨fuel - 1, by omega⟩
    cases hq : s.queue with
    | nil => rw [traverseRound, hq] at hround; cases hround
    | cons m queue =>
      obtain ⟨r', hr', heq, -, hbounded⟩ := h.round hout hq
      obtain rfl : r = r' := Option.some.inj (Except.ok.inj (hround.symm.trans hr'))
      rw [← ih hbounded (by omega : n ≤ fuel), heq, Traversal.run, hq]
      rfl

theorem count_order_le (h : Bounded g s) (t : MethodId) :
    s.order.count t ≤ if t = rootMethod then 2 else 1 := by
  by_cases ht : g.hasMethod t
  · obtain ⟨w, -, hle⟩ := h.waiting t ht
    have hsub : s.order.count t ≤ (s.order ++ s.queue).count t := by
      rw [List.count_append]; omega
    unfold places at hle
    split at hle <;> split at hle <;> split <;> omega
  · have hnot : t ∉ s.order := fun hmem => ht (h.queued t (List.mem_append_left _ hmem))
    rw [List.count_eq_zero_of_not_mem hnot]
    omega

/-- **There are no more rounds than methods, and one.** -/
theorem length_order_le (h : Bounded g s) : s.order.length ≤ g.size + 1 := by
  have hnodup : (s.order.erase rootMethod).Nodup := by
    refine List.nodup_iff_count_le_one.2 fun t => ?_
    have hle := h.count_order_le t
    rw [List.count_erase]
    by_cases ht : t = rootMethod
    · rw [if_pos ht] at hle
      rw [if_pos (by simp [ht])]
      omega
    · rw [if_neg ht] at hle
      omega
  have hsub : ∀ t ∈ s.order.erase rootMethod, t ∈ g.methods := fun t ht =>
    mem_methods.2 (h.queued t (List.mem_append_left _ (List.mem_of_mem_erase ht)))
  have hle := (hnodup.subperm hsub).length_le
  have := List.le_length_erase (l := s.order) (a := rootMethod)
  rw [length_methods] at hle
  omega

/-- **The traversal ends**, and the fuel is enough. -/
theorem exists_traversal (h : Bounded g s) (hstart : s.order = []) (hout : g.Leads rep out) :
    ∃ n s', n ≤ g.size + 1 ∧ Loops (g.traverseRound rep out) n s s' ∧ s'.queue = [] ∧
      Bounded g s' ∧ Traversal.run (g.calleesOf rep out) (g.size + 1) s = s' := by
  have hloop := exists_loops (g.traverseRound rep out)
    (fun k s => s.order.length = k ∧ Bounded g s) (g.size + 1)
    (by rintro k s ⟨rfl, h⟩; exact h.length_order_le) ?_ (k := 0) ⟨by rw [hstart]; rfl, h⟩
  · obtain ⟨n, s', hrun, hleave, hn, hs'⟩ := hloop
    have hle : n ≤ g.size + 1 := by have := hs'.length_order_le; omega
    exact ⟨n, s', hle, hrun, hs'.queue_eq_nil hout hleave, hs', h.run_eq hout hrun hle⟩
  · rintro k s ⟨rfl, h⟩
    cases hq : s.queue with
    | nil => exact .inl (by rw [traverseRound, hq])
    | cons m queue =>
      obtain ⟨s', hs', -, horder, h'⟩ := h.round hout hq
      exact .inr ⟨s', hs', by rw [horder]; simp, h'⟩

end Bounded

/-! ## Any representatives -/

/-- The traversal starts within its bounds. -/
theorem bounded_start (g : CallGraph) (waiting : Array Int)
    (hwaiting : ∀ t : Int, g.hasMethod t → ∃ w, slot? waiting t = some w) :
    Bounded g
      { queue := if g.size = 0 then [] else [rootMethod]
        rank := Array.replicate g.size 0
        waiting } := by
  have hqueue : ∀ t ∈ (if g.size = 0 then [] else [rootMethod]), t = rootMethod ∧
      g.size ≠ 0 := by
    intro t ht
    split at ht
    · cases ht
    · next hsize => exact ⟨List.mem_singleton.1 ht, hsize⟩
  refine ⟨fun t ht => ?_, fun t ht => ?_, fun t ht => ?_⟩
  · obtain ⟨rfl, hsize⟩ := hqueue t ht
    exact hasMethod_iff.2 ⟨Int.le_refl 0, by rw [rootMethod]; omega⟩
  · exact ⟨0, by rw [slot?_replicate, if_pos (hasMethod_iff.1 ht)]⟩
  · obtain ⟨w, hw⟩ := hwaiting t ht
    refine ⟨w, hw, ?_⟩
    have hcount : (if g.size = 0 then [] else [rootMethod]).count t ≤
        if t = rootMethod then 1 else 0 := by
      by_cases hroot : t = rootMethod
      · split <;> simp [hroot]
      · rw [List.count_eq_zero_of_not_mem fun hmem => hroot (hqueue t hmem).1]
        omega
    exact hcount.trans (Nat.le_add_right _ _)

section Condense

variable {reps : List MethodId} {g' : CallGraph} {c : Condensation}
  (hids : ∀ e ∈ g.edges, g.hasMethod e.caller ∧ g.hasMethod e.callee)
  (haccepts : g.Accepts reps) (h : g.condense reps = .ok (g', c))

include hids haccepts h

/-- The edges kept at a representative lead to others: those that do not have a mark. -/
theorem leads_of_condense : g'.Leads c.rep c.out := by
  have hrep := haccepts.represents
  obtain ⟨reachable, -, hg', hc, -, hout, -⟩ := condense_eq_ok h
  have hmethod : g'.hasMethod = g.hasMethod := by rw [hg']; rfl
  intro m hm
  refine ⟨_, by rw [hout, slot?_methods, if_pos hm], fun i hi => ?_⟩
  obtain ⟨e, he, -, hr, hreach, hin⟩ := mem_leaving.1 hi
  obtain ⟨e₀, he₀, hcall, hmark⟩ := mem_markComponents (hg' ▸ Array.mem_of_getElem? he)
  obtain ⟨t, ht, htm, -⟩ := hrep _ (hids e₀ he₀).2
  rw [← hcall] at ht
  refine ⟨e, t, he, hc ▸ ht, hmethod ▸ htm, fun htm => hin (hmark.2 (.inr ⟨hreach, ?_⟩))⟩
  rw [hr, ht, htm]

/-- **Condensing is a run of the computation with its accesses checked**, and the order
has no method twice but the root. -/
theorem condenseRun_of_condense : g.CondenseRun reps g' c ∧
    ∀ m, c.order.count m ≤ if m = rootMethod then 2 else 1 := by
  have hrep := haccepts.represents
  have hleads := leads_of_condense hids haccepts h
  obtain ⟨reachable, hreach, hg', hc, rfl, hout, hmembers, hrank, horder⟩ := condense_eq_ok h
  have hsize : g'.size = g.size := by rw [hg']; rfl
  have hmethods : g'.methods = g.methods := by rw [hg']; rfl
  have hset := setUp_eq hrep hids (fun m hm => by rw [slot?_reachable hreach, if_pos hm]; rfl)
    hg' hout
  rw [← hc] at hset
  have hstart := bounded_start g' (g'.methods.map fun m =>
      ((g'.methods.flatMap (g'.calleesOf c.rep c.out)).count m : Int)).toArray
    fun t ht => ⟨_, by rw [slot?_methods, if_pos ht]⟩
  obtain ⟨n, s, hn, hloop, hqueue, hbounded, hrun⟩ := hstart.exists_traversal rfl hleads
  have hs : g'.traverse c.rep c.out = s := hrun
  rw [hs] at hrank horder
  refine ⟨⟨hc, ?_, exists_search (fun e he => (hids e he).2) hreach, hsize, _, n, s.waiting, hset,
    hsize ▸ hn, ?_⟩, horder ▸ hbounded.count_order_le⟩
  · rw [hmembers, hmethods, hc]
    exact groupMethods_eq hrep
  · have hend : s = { queue := [], rank := c.rank, waiting := s.waiting, order := c.order } := by
      rw [hrank, horder, ← hqueue]
    rw [← hend, ← hsize]
    exact hloop

end Condense

/-- **Condensing ends for all representatives that it accepts.** It accepts those that are
methods and represent themselves, also where they leave cycles or put the root
into the component of another method, and then every access is to an entry that is there and
both loops are left. A method is finalized at most once, and the root at most
twice. -/
theorem accepts_iff_exists_condenseRun {g : CallGraph} {reps : List MethodId}
    (hids : ∀ e ∈ g.edges, g.hasMethod e.caller ∧ g.hasMethod e.callee) :
    g.Accepts reps ↔ ∃ g' c, g.condense reps = .ok (g', c) ∧ g.CondenseRun reps g' c ∧
      ∀ m, c.order.count m ≤ if m = rootMethod then 2 else 1 := by
  constructor
  · intro haccepts
    obtain ⟨reachable, hreach⟩ := exists_reachable fun e he => (hids e he).2
    obtain ⟨g', c, h⟩ : ∃ g' c, g.condense reps = .ok (g', c) := by
      simp only [condense, accepts_iff.1 haccepts, hreach]
      exact ⟨_, _, rfl⟩
    exact ⟨g', c, h, condenseRun_of_condense hids haccepts h⟩
  · rintro ⟨g', c, h, -⟩
    rw [accepts_iff]
    cases hcheck : checkReps (g.repTable reps) with
    | ok u => rfl
    | error f => simp [condense, hcheck, bind, Except.bind] at h

/-- The root and a method call each other. -/
def mutualCalls : CallGraph where
  size := 2
  edges := #[⟨⟨0, 1, 1⟩, false, 0⟩, ⟨⟨1, 0, 2⟩, false, 0⟩]

/-- If the cycle is not collapsed, the root is met again. -/
theorem accepts_iff_exists_condenseRun_mutualCalls : ∃ g' c,
    mutualCalls.condense [] = .ok (g', c) ∧ mutualCalls.CondenseRun [] g' c ∧
      c.order = [0, 1, 0] := by
  have hids : ∀ e ∈ mutualCalls.edges,
      mutualCalls.hasMethod e.caller ∧ mutualCalls.hasMethod e.callee := by decide
  have haccepts : mutualCalls.Accepts [] := accepts_iff.2 (by decide)
  obtain ⟨g', c, h, hrun, -⟩ := (accepts_iff_exists_condenseRun hids).1 haccepts
  have horder : (mutualCalls.condense []).map (·.2.order) = .ok [0, 1, 0] := by cbv
  rw [h] at horder
  exact ⟨g', c, h, hrun, Except.ok.inj horder⟩

/-- The root can be represented by the method it calls. -/
example : (mutualCalls.condense [1, 1]).map (·.2.order) = .ok [0] := by cbv

end CallGraph

end PointsTo
