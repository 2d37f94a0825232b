import PointsTo.CallGraph.Query
import PointsTo.Proofs.Attempts
import PointsTo.Proofs.Search
/-!
# Queries by one edge

A querier keeps its labels from query to query. `Ready` is what every
completed query leaves behind: all labels have been used up, so that none
of them is one of the next search. A search therefore starts from honest
marks (`searchFrom_searched`), and the query visits what the
plain enumeration of all paths from the edge requests.
-/

namespace PointsTo

/-! ## The labels of one search -/

namespace SearchState

/-- Components are marked with the two labels of the search alone. -/
def MarksWith (goal : SearchGoal) (s : SearchState) : Prop :=
  ∀ r label, .mark r label ∈ s.events → label = goal.failed ∨ label = goal.success

variable {goal : SearchGoal} {s : SearchState}

/-- A label of the search itself may be put anywhere. -/
theorem MarksWith.mark (h : s.MarksWith goal) (r : MethodId) {v : Nat}
    (hv : v = goal.failed ∨ v = goal.success) : (s.mark r v).MarksWith goal := by
  intro r' label hmem
  rcases List.mem_append.1 hmem with hmem | hmem
  · exact h r' label hmem
  · cases List.mem_singleton.1 hmem
    exact hv

/-- Requests put no labels. -/
theorem MarksWith.request (h : s.MarksWith goal) (is : List (Int64 × Int64)) :
    (s.request is).MarksWith goal := by
  intro r' label hmem
  rcases List.mem_append.1 hmem with hmem | hmem
  · exact h r' label hmem
  · simp at hmem

end SearchState

namespace Encoding

variable {enc : Encoding} {g : CallGraph} {goal : SearchGoal}

/-- **A search marks with its own labels**, whatever graph it runs on. -/
theorem search_marksWith : ∀ (fuel : Nat) (m : MethodId) (l : Int64) (s : SearchState),
    s.MarksWith goal → (enc.search g goal fuel m l s).MarksWith goal := by
  intro fuel
  induction fuel with
  | zero =>
    intro m l s hs
    obtain ⟨f, h⟩ | ⟨is, h⟩ | ⟨r, f, h⟩ | ⟨n, r, t, place, hn, -⟩ :=
      search_cases enc g goal.target goal.length 0 m l
    · rw [h]; exact hs
    · rw [h]; exact hs.request is
    · rw [h]; exact hs.mark r (.inl rfl)
    · omega
  | succ fuel ih =>
    intro m l s hs
    obtain ⟨f, h⟩ | ⟨is, h⟩ | ⟨r, f, h⟩ | ⟨n, r, t, place, hn, h⟩ :=
      search_cases enc g goal.target goal.length (fuel + 1) m l
    · rw [h]; exact hs
    · rw [h]; exact hs.request is
    · rw [h]; exact hs.mark r (.inl rfl)
    · obtain rfl : fuel = n := by omega
      -- an edge adds the marks of a search of its own, and perhaps that of success
      have hround : ∀ s i, s.MarksWith goal →
          (enc.tryEdge g goal fuel r t place s i).MarksWith goal := by
        intro s i hs
        unfold tryEdge
        split
        · exact hs
        · exact hs
        · dsimp only
          repeat' split
          · exact hs
          · exact ih _ _ _ hs
          · exact (ih _ _ _ hs).mark r (.inr rfl)
          · exact ih _ _ _ hs
          · exact hs
      have hloop := foldl_run (l := enc.graph.outOf r) (f := enc.tryEdge g goal fuel r t place)
        (b := { s.mark r goal.failed with outcome := .ok false })
        (fun _ s => s.MarksWith goal) (hs.mark r (.inl rfl))
        fun _ i s _ hs => hround s i hs
      rw [h]
      unfold answer
      split
      · exact hloop
      · exact hloop

end Encoding

/-! ## The labels of a querier -/

namespace Querier

/-- The querier has one label for each of `n` methods, and none above `k`. -/
structure Within (n k : Nat) (q : Querier) : Prop where
  size : q.marks.size = n
  le : ∀ x ∈ q.marks, x ≤ k

/-- **A querier between two queries**: its labels have been used up, and the
next ones fit in 32 bits. -/
structure Ready (n : Nat) (q : Querier) : Prop extends Within n q.generation q where
  fits : q.generation ≤ lastGeneration + 1

/-- **A querier after a query that may have been cut short**: the labels of that
search may be left on it, and will be those of the next one. -/
structure Spent (n : Nat) (q : Querier) : Prop extends Within n (q.generation + 2) q where
  fits : q.generation ≤ lastGeneration + 1

variable {n k : Nat} {q : Querier}

/-- A label within the bound may be put anywhere. -/
theorem Within.mark (h : q.Within n k) (r : MethodId) {label : Nat} (hle : label ≤ k) :
    (q.mark r label).Within n k where
  size := by simpa [Querier.mark] using h.size
  le x hx := by
    obtain rfl | hold := eq_or_mem_of_mem_modify hx
    · exact hle
    · exact h.le x hold

/-- **A new querier is ready.** -/
theorem ready_new (n : Nat) : (new n).Ready n where
  size := by simp [new]
  le x hx := by
    obtain ⟨-, rfl⟩ := Array.mem_replicate.1 hx
    exact Nat.zero_le _
  fits := Nat.le_succ _

/-- Labels that start over are all used up. -/
theorem within_cleared (h : q.marks.size = n) (k : Nat) :
    Within n k ⟨q.marks.map fun _ => 0, 0⟩ where
  size := by simpa using h
  le x hx := by
    obtain ⟨_, -, rfl⟩ := Array.mem_map.1 hx
    exact Nat.zero_le k

/-- Starting over leaves room for the labels of a search. -/
theorem Ready.renew (h : q.Ready n) :
    q.renew.Ready n ∧ q.renew.generation < lastGeneration := by
  by_cases hgen : lastGeneration ≤ q.generation
  · rw [Querier.renew, if_pos hgen]
    exact ⟨⟨within_cleared h.size 0, Nat.zero_le _⟩, Nat.zero_lt_succ _⟩
  · rw [Querier.renew, if_neg hgen]
    exact ⟨h, Nat.lt_of_not_le hgen⟩

/-- A querier that is ready may be used as if the last query had been cut short. -/
theorem Ready.spent (h : q.Ready n) : q.Spent n where
  size := h.size
  le x hx := Nat.le_trans (h.le x hx) (Nat.le_add_right _ 2)
  fits := h.fits

/-- **There is room for the labels of the next search**, but they may have been put
somewhere already. -/
theorem Spent.renew (h : q.Spent n) :
    q.renew.Within n (q.renew.generation + 2) ∧ q.renew.generation < lastGeneration := by
  by_cases hgen : lastGeneration ≤ q.generation
  · rw [Querier.renew, if_pos hgen]
    exact ⟨within_cleared h.size 2, Nat.zero_lt_succ _⟩
  · rw [Querier.renew, if_neg hgen]
    exact ⟨h.toWithin, Nat.lt_of_not_le hgen⟩

end Querier

/-! ## Runs of queries -/

/-- A visitor takes one list after the other. -/
theorem Visitor.takeAll_append {σ : Type} (v : Visitor σ) (xs ys : List Fact) :
    v.takeAll (xs ++ ys) = v.takeAll xs >>= fun _ => v.takeAll ys := by
  induction xs with
  | nil => simp [takeAll]
  | cons f fs ih => simp [takeAll, ih]

namespace Query

variable {σ : Type} {n : Nat}

@[simp] theorem go_visiting {α : Type} (a : Attempt σ α) (q : Querier) (s : σ) :
    (visiting a).go (q, s) = ((a.go s).1, q, (a.go s).2) := rfl

/-- The facts of a node under some intervals of contexts. -/
def objectsUnder (facts : FactStore) (node : NodeId) (is : List (Int64 × Int64)) : List Fact :=
  is.flatMap fun (l, r) => facts.contextObjects node l r

/-- **Performing events hands the requested facts to the visitor**, and
marks nothing but what the events mark. -/
theorem perform_visits (facts : FactStore) (node : NodeId) (v : Visitor σ) {k : Nat} :
    ∀ (events : List SearchEvent) (q : Querier) (s : σ), q.Within n k →
      (∀ r label, .mark r label ∈ events → label ≤ k) →
      ∃ q' : Querier, q'.Within n k ∧ q'.generation = q.generation ∧
        (perform facts node v events).go (q, s) =
          let visit := (v.takeAll (objectsUnder facts node (SearchEvent.requests events))).go s
          (visit.1, q', visit.2) := by
  intro events
  induction events with
  | nil =>
    intro q s hq _
    exact ⟨q, hq, rfl, rfl⟩
  | cons ev events ih =>
    intro q s hq hle
    have hle' : ∀ r label, .mark r label ∈ events → label ≤ k :=
      fun r label hmem => hle r label (List.mem_cons_of_mem _ hmem)
    cases ev with
    | mark r label =>
      obtain ⟨q', hq', hgen, hgo⟩ :=
        ih (q.mark r label) s (hq.mark r (hle r label List.mem_cons_self)) hle'
      exact ⟨q', hq', hgen, hgo⟩
    | request l r =>
      have hsplit : objectsUnder facts node (SearchEvent.requests (.request l r :: events)) =
          facts.contextObjects node l r ++
            objectsUnder facts node (SearchEvent.requests events) := rfl
      rw [perform, hsplit, Attempt.go_bind, go_visiting, Visitor.takeAll_append, Attempt.go_bind]
      match (v.takeAll (facts.contextObjects node l r)).go s with
      | (.ok (), s') => exact ih q s' hq hle'
      | (.error f, s') => exact ⟨q, hq, rfl, rfl⟩

/-- **A query by one edge, run**: the visitor takes what the search requests,
and the labels are used up if the query comes through. Otherwise they are
left behind. -/
theorem go_byAnyEdge {sc : Scene} {cs : CallSite} {ptr node : NodeId} {e : Edge} {b : Block}
    (hnode : sc.facts.representative ptr = some node) (hedge : sc.graph.edge? cs = some e)
    (hmapped : e.mapped) (htarget : (sc.encoding.graph.rep? (sc.nodes.methodOf ptr)).isSome)
    (hblock : sc.encoding.block e.caller = .ok b) (v : Visitor σ) {q : Querier} (hq : q.Spent n)
    (s : σ) :
    let found := searchFrom sc e (sc.nodes.methodOf ptr) b.size q.renew
    let visit := (v.takeAll (objectsUnder sc.facts node found.requests)).go s
    ∃ q' : Querier, (byAnyEdge sc cs ptr v).go (q, s) =
        (visit.1.bind fun _ => found.outcome.map fun _ => true, q', visit.2) ∧
      q'.Spent n ∧ (((byAnyEdge sc cs ptr v).go (q, s)).1.isOk → q'.Ready n) := by
  intro found visit
  obtain ⟨hwithin, hgen⟩ := hq.renew
  have hmarks : found.MarksWith ⟨sc.nodes.methodOf ptr, b.size, q.renew.generation + 1,
      q.renew.generation + 2⟩ := Encoding.search_marksWith _ _ _ _ fun _ _ hmem =>
    absurd hmem List.not_mem_nil
  -- the labels of the search are the next two, and are used up by it
  obtain ⟨q', hq', hgen', hgo⟩ := perform_visits sc.facts node v found.events q.renew s hwithin
    fun r label hmem => by
      rcases hmarks r label hmem with rfl | rfl
      · exact Nat.le_succ _
      · exact Nat.le_refl _
  change _ = (visit.1, q', visit.2) at hgo
  have hspent : q'.Spent n :=
    ⟨hgen' ▸ hq', by simp only [Querier.lastGeneration] at hgen ⊢; omega⟩
  have hadvance : q'.advance.Ready n := by
    rw [Querier.advance, hgen']
    exact ⟨⟨hq'.size, hq'.le⟩, by simp only [Querier.lastGeneration] at hgen ⊢; omega⟩
  have hnone : (sc.encoding.graph.rep? (sc.nodes.methodOf ptr)).isNone = false := by
    rw [← Option.not_isSome, htarget]
    rfl
  rw [byAnyEdge]
  simp only [hnode, hedge, hmapped, hnone, Bool.not_true, Bool.or_self, Bool.false_eq_true,
    if_false, Attempt.go_bind, Attempt.go_liftM, hblock, Attempt.go_modify, Attempt.go_get]
  rw [show searchFrom sc e (sc.nodes.methodOf ptr) b.size q.renew = found from rfl, hgo]
  clear_value visit
  obtain ⟨visited, s'⟩ := visit
  match visited, found.outcome with
  | .error f, _ => exact ⟨q', rfl, hspent, by simp [Except.isOk, Except.toBool]⟩
  | .ok (), .error f => exact ⟨q', rfl, hspent, by simp [Except.isOk, Except.toBool]⟩
  | .ok (), .ok hit => exact ⟨q'.advance, rfl, hadvance.spent, fun _ => hadvance⟩

/-! ## The history of a querier -/

/-- The four queries. -/
inductive Question where
  | anyEdge (cs : CallSite) (ptr : NodeId)
  | chain (chain : List CallSite) (ptr : NodeId)
  | fieldAnyEdge (cs : CallSite) (ptr : NodeId) (f : FieldId)
  | fieldChain (chain : List CallSite) (ptr : NodeId) (f : FieldId)
  deriving Repr

/-- Asks a question. -/
def ask (sc : Scene) (v : Visitor σ) : Question → Attempt (State σ) Bool
  | .anyEdge cs ptr => byAnyEdge sc cs ptr v
  | .chain chain ptr => byChain sc chain ptr v
  | .fieldAnyEdge cs ptr f => fieldByAnyEdge sc cs ptr f v
  | .fieldChain chain ptr f => fieldByChain sc chain ptr f v

end Query

/-- The querier has been made for `n` methods and has completed any number
of queries since, whatever they were about and whoever took the results. -/
inductive Querier.Reached (n : Nat) : Querier → Prop
  | new : Reached n (Querier.new n)
  | ask {q q' : Querier} {σ : Type} {s s' : σ} {answer : Bool} (sc : Query.Scene) (v : Visitor σ)
      (question : Query.Question) (hq : Reached n q)
      (h : (Query.ask sc v question).go (q, s) = (.ok answer, q', s')) : Reached n q'

namespace Query

/-- A query by one edge that makes no search answers, or fails, before any
label is looked at. -/
theorem byAnyEdge_cases (sc : Scene) (cs : CallSite) (ptr : NodeId) :
    (∃ r : Except Fault Bool, r ≠ .ok true ∧ ∀ (σ : Type) (v : Visitor σ) (q : Querier) (s : σ),
      (byAnyEdge sc cs ptr v).go (q, s) = (r, q, s)) ∨
    ∃ node e b, sc.facts.representative ptr = some node ∧ sc.graph.edge? cs = some e ∧
      e.mapped ∧ (sc.encoding.graph.rep? (sc.nodes.methodOf ptr)).isSome ∧
      sc.encoding.block e.caller = .ok b := by
  match hnode : sc.facts.representative ptr, hedge : sc.graph.edge? cs with
  | none, _ | some _, none =>
    refine .inl ⟨.ok false, by simp, fun σ v q s => ?_⟩
    simp only [byAnyEdge, hnode, hedge, Attempt.go_pure]
  | some node, some e =>
    by_cases hskip : (!e.mapped || (sc.encoding.graph.rep? (sc.nodes.methodOf ptr)).isNone) = true
    · refine .inl ⟨.ok false, by simp, fun σ v q s => ?_⟩
      simp only [byAnyEdge, hnode, hedge, hskip, if_true, Attempt.go_pure]
    · match hblock : sc.encoding.block e.caller with
      | .error f =>
        refine .inl ⟨.error f, by simp, fun σ v q s => ?_⟩
        simp [byAnyEdge, hnode, hedge, hskip, hblock, Attempt.go_bind]
      | .ok b =>
        simp only [Bool.or_eq_true, Bool.not_eq_true', Option.isNone_iff_eq_none, not_or,
          Bool.not_eq_false] at hskip
        exact .inr ⟨node, e, b, rfl, rfl, hskip.1, Option.isSome_iff_ne_none.2 hskip.2, hblock⟩

/-- **What a query by one edge does to the labels**: they are used up if a
search comes through, and untouched if none is made. -/
theorem labels_of_byAnyEdge {sc : Scene} {cs : CallSite} {ptr : NodeId} {v : Visitor σ}
    {q q' : Querier} {s s' : σ} {r : Except Fault Bool} (hq : q.Spent n)
    (h : (byAnyEdge sc cs ptr v).go (q, s) = (r, q', s')) :
    q'.Spent n ∧ (r = .ok true → q'.Ready n) ∧ (r = .ok false → q' = q) := by
  obtain ⟨r', hne, hgo⟩ | ⟨node, e, b, hnode, hedge, hmapped, htarget, hblock⟩ :=
    byAnyEdge_cases sc cs ptr
  · rw [hgo, Prod.mk.injEq, Prod.mk.injEq] at h
    obtain ⟨rfl, rfl, -⟩ := h
    exact ⟨hq, fun hr => absurd hr hne, fun _ => rfl⟩
  · obtain ⟨q₁, hgo, hspent, hready⟩ := go_byAnyEdge hnode hedge hmapped htarget hblock v hq s
    rw [h] at hready
    rw [h, Prod.mk.injEq, Prod.mk.injEq] at hgo
    obtain ⟨hr, rfl, -⟩ := hgo
    refine ⟨hspent, fun hr => hready (by rw [hr]; rfl), fun hfalse => ?_⟩
    -- a search that comes through is answered with yes
    rw [hfalse] at hr
    generalize (v.takeAll _).go s = visit at hr
    obtain ⟨visited, _⟩ := visit
    generalize SearchState.outcome _ = outcome at hr
    cases visited <;> cases outcome <;> simp [Except.bind, Except.map] at hr

/-- A completed query by one edge uses its labels up. -/
theorem ready_of_byAnyEdge {sc : Scene} {cs : CallSite} {ptr : NodeId} {v : Visitor σ}
    {q q' : Querier} {s s' : σ} {answer : Bool} (hq : q.Ready n)
    (h : (byAnyEdge sc cs ptr v).go (q, s) = (.ok answer, q', s')) : q'.Ready n := by
  obtain ⟨-, hready, hsame⟩ := labels_of_byAnyEdge hq.spent h
  cases answer with
  | true => exact hready rfl
  | false => exact hsame rfl ▸ hq

/-- The attempt is one of the visitor alone: it neither reads nor changes the
labels. -/
def Blind {α : Type} (a : Attempt (State σ) α) : Prop := ∃ b : Attempt σ α, a = visiting b

section Blind

variable {α β : Type}

theorem blind_pure (a : α) : Blind (pure a : Attempt (State σ) α) := ⟨pure a, rfl⟩

theorem blind_liftM (x : Except Fault α) : Blind (liftM x : Attempt (State σ) α) :=
  ⟨liftM x, rfl⟩

theorem blind_visiting (a : Attempt σ α) : Blind (visiting a) := ⟨a, rfl⟩

/-- What does not see the querier leaves it as it is. -/
theorem Blind.eq {a : Attempt (State σ) α} (ha : Blind a) {q q' : Querier} {s s' : σ}
    {r : Except Fault α} (h : a.go (q, s) = (r, q', s')) : q' = q := by
  obtain ⟨b, rfl⟩ := ha
  rw [go_visiting, Prod.mk.injEq, Prod.mk.injEq] at h
  exact h.2.1.symm

/-- **Blind attempts one after the other are blind.** -/
theorem Blind.bind {a : Attempt (State σ) α} {f : α → Attempt (State σ) β} (ha : Blind a)
    (hf : ∀ x, Blind (f x)) : Blind (a >>= f) := by
  obtain ⟨b, rfl⟩ := ha
  choose c hc using hf
  refine ⟨b >>= c, funext fun ⟨q, s⟩ => ?_⟩
  change (visiting b >>= f).go (q, s) = (visiting (b >>= c)).go (q, s)
  rw [go_visiting, Attempt.go_bind, go_visiting, Attempt.go_bind]
  match b.go s with
  | (.ok x, s') => exact (congrArg (·.go (q, s')) (hc x)).trans (go_visiting _ _ _)
  | (.error e, s') => rfl

/-- A query by a chain needs no labels. -/
theorem blind_byChain (sc : Scene) (chain : List CallSite) (ptr : NodeId) (v : Visitor σ) :
    Blind (byChain sc chain ptr v) := by
  unfold byChain
  split
  · exact blind_pure _
  · dsimp only
    split
    · split
      · exact blind_pure _
      · refine (blind_liftM _).bind fun l => ?_
        split
        · exact blind_pure _
        · exact (blind_liftM _).bind fun _ => (blind_visiting _).bind fun _ => blind_pure _
    · exact blind_pure _

theorem blind_fieldOfAll (sc : Scene) (f : FieldId) (v : Visitor σ) (os : List Fact) :
    Blind (fieldOfAll sc f v os) := by
  induction os with
  | nil => exact blind_pure _
  | cons o os ih =>
    unfold fieldOfAll
    split
    · exact blind_pure _
    · exact (blind_visiting _).bind fun _ => ih

end Blind

/-- What a collecting query does to the labels, the query itself does. -/
theorem go_collecting (query : Attempt (State (List Fact)) Bool) (q : Querier) (s : σ) :
    (collecting query).go (q, s) = ((query.go (q, [])).1.map fun ok =>
      (ok, (query.go (q, [])).2.2), (query.go (q, [])).2.1, s) := rfl

/-- Collecting what a blind query finds is blind. -/
theorem Blind.collecting {query : Attempt (State (List Fact)) Bool} (h : Blind query) :
    Blind (collecting query : Attempt (State σ) (Bool × List Fact)) := by
  obtain ⟨b, rfl⟩ := h
  exact ⟨liftM ((b.go []).1.map fun ok => (ok, (b.go []).2)), rfl⟩

theorem blind_fieldByChain (sc : Scene) (chain : List CallSite) (ptr : NodeId) (f : FieldId)
    (v : Visitor σ) : Blind (fieldByChain sc chain ptr f v) := by
  refine (blind_byChain sc chain ptr Visitor.collect).collecting.bind ?_
  rintro ⟨ok, objs⟩
  dsimp only
  split
  · exact blind_fieldOfAll sc f v objs
  · exact blind_pure _

/-- What a query on fields by one edge does with the objects it has collected. -/
def visitFields (sc : Scene) (f : FieldId) (v : Visitor σ) (answer : Except Fault Bool)
    (objs : List Fact) : Attempt σ Bool := do
  if ← answer then
    v.takeAll (objs.flatMap fun o => (fieldObjects sc f o).getD [])
    pure true
  else pure false

/-- **A query on fields by one edge, run**: the objects are collected first, and
the fields need no labels. -/
theorem go_fieldByAnyEdge (sc : Scene) (cs : CallSite) (ptr : NodeId) (f : FieldId)
    (v : Visitor σ) (q : Querier) (s : σ) :
    let inner := (byAnyEdge sc cs ptr Visitor.collect).go (q, [])
    let last := (visitFields sc f v inner.1 inner.2.2).go s
    (fieldByAnyEdge sc cs ptr f v).go (q, s) = (last.1, inner.2.1, last.2) := by
  rw [fieldByAnyEdge, Attempt.go_bind, go_collecting]
  generalize (byAnyEdge sc cs ptr Visitor.collect).go (q, []) = inner
  match inner with
  | (.error e, q', objs) => rfl
  | (.ok false, q', objs) => rfl
  | (.ok true, q', objs) =>
    change (visiting (v.takeAll _) >>= fun _ => pure true).go (q', s) =
      (((v.takeAll _ >>= fun _ => pure true).go s).1, q',
        ((v.takeAll _ >>= fun _ => pure true).go s).2)
    rw [Attempt.go_bind, Attempt.go_bind, go_visiting]
    match (v.takeAll _).go s with
    | (.ok (), s') => rfl
    | (.error e, s') => rfl

/-- **Every completed query uses its labels up.** -/
theorem ready_of_ask {sc : Scene} {v : Visitor σ} {q q' : Querier} {s s' : σ} {answer : Bool}
    (hq : q.Ready n) (question : Question)
    (h : (ask sc v question).go (q, s) = (.ok answer, q', s')) : q'.Ready n := by
  cases question with
  | anyEdge cs ptr => exact ready_of_byAnyEdge hq h
  | chain chain ptr =>
    obtain rfl := (blind_byChain sc chain ptr v).eq h
    exact hq
  | fieldAnyEdge cs ptr f =>
    rw [ask, go_fieldByAnyEdge, Prod.mk.injEq, Prod.mk.injEq] at h
    obtain ⟨hok, rfl, -⟩ := h
    -- had the collecting query failed, so would this one have
    match hrun : (byAnyEdge sc cs ptr Visitor.collect).go (q, []) with
    | (.error f, _, _) => rw [hrun] at hok; cases hok
    | (.ok ok, q₂, found) => exact ready_of_byAnyEdge hq hrun
  | fieldChain chain ptr f =>
    obtain rfl := (blind_fieldByChain sc chain ptr f v).eq h
    exact hq

end Query

/-- **A querier is ready for the next query at any point of its history.** -/
theorem Querier.Reached.ready {n : Nat} {q : Querier} (h : q.Reached n) : q.Ready n := by
  induction h with
  | new => exact ready_new n
  | ask sc v question _ hgo ih => exact Query.ready_of_ask ih question hgo

/-! ## Nothing is lost -/

namespace Query

/-- The scene belongs to an encoding of a condensed graph: the offsets of
the edges are arbitrary, and so are the blocks, as long as they hold
contexts. -/
structure Scene.Encodes (sc : Scene) (g : CallGraph) (c : Condensation) : Prop where
  calls : sc.graph.unmapped = g.unmapped
  condensation : sc.encoding.graph = c
  blocks : sc.encoding.blocks.size = c.size
  positive : ∀ b ∈ sc.encoding.blocks, 0 < b.size

/-- No block is empty. -/
theorem Scene.Encodes.blockD_pos {sc : Scene} {g : CallGraph} {c : Condensation}
    (h : sc.Encodes g c) (m : MethodId) : 0 < (sc.encoding.blockD m).size := by
  rw [Encoding.blockD]
  cases hm : slot? sc.encoding.blocks m with
  | none => decide
  | some b => exact h.positive b (Array.mem_of_getElem? (slot?_eq_some.1 hm).2)

/-- **Every method has a block.** -/
theorem Scene.Encodes.block_eq {sc : Scene} {g : CallGraph} {c : Condensation}
    (h : sc.Encodes g c) (hc : Condensed g c) {m : MethodId} (hm : g.hasMethod m) :
    sc.encoding.block m = .ok (sc.encoding.blockD m) := by
  have hsome : (slot? sc.encoding.blocks m).isSome := by
    rw [slot?_isSome, h.blocks, hc.size]
    exact CallGraph.hasMethod_iff.1 hm
  obtain ⟨b, hb⟩ := Option.isSome_iff_exists.1 hsome
  rw [Encoding.block, Encoding.blockD, hb]
  rfl

/-- **A search with fresh labels loses nothing**: no label of an earlier
search is one of its own, so its marks are honest from the start. -/
theorem searchFrom_searched {sc : Scene} (hc : Condensed sc.graph sc.encoding.graph)
    (hpos : ∀ m, sc.graph.hasMethod m → 0 < (sc.encoding.blockD m).size) {e : Edge}
    {target : MethodId} {length : Int64} (htarget : sc.graph.hasMethod target)
    (hcallee : sc.graph.hasMethod e.callee) {q : Querier} (hq : q.Ready sc.encoding.graph.size) :
    Encoding.Searched sc.encoding sc.graph ⟨target, length, q.generation + 1, q.generation + 2⟩
      e.callee e.offset { marks := q.marks } (searchFrom sc e target length q) := by
  have hused : ∀ x, (slot? q.marks x).getD 0 ≤ q.generation := by
    intro x
    match hx : slot? q.marks x with
    | none => exact Nat.zero_le _
    | some label => exact hq.le label (Array.mem_of_getElem? (slot?_eq_some.1 hx).2)
  refine Encoding.search_searched hc hpos htarget (Nat.ne_of_lt (Nat.lt_succ_self _)) _ _ _ _
    hcallee (Encoding.height_lt_searchDepth hc _) (hq.size.trans hc.size) fun x _ hfailed => ?_
  change (slot? q.marks x).getD 0 = q.generation + 1 at hfailed
  have hle := hused x
  omega

/-- **A query by one edge hands over what all paths from the edge request.** -/
theorem byAnyEdge_visits {sc : Scene} (hc : Condensed sc.graph sc.encoding.graph)
    (hpos : ∀ m, sc.graph.hasMethod m → 0 < (sc.encoding.blockD m).size) {cs : CallSite} {e : Edge}
    (hedge : sc.graph.edge? cs = some e) (hmapped : e.mapped)
    (hblock : sc.encoding.block e.caller = .ok (sc.encoding.blockD e.caller))
    (hcallee : sc.graph.hasMethod e.callee) {ptr node : NodeId}
    (hnode : sc.facts.representative ptr = some node)
    (htarget : sc.graph.hasMethod (sc.nodes.methodOf ptr)) {q : Querier}
    (hq : q.Ready sc.encoding.graph.size) (v : Visitor σ) (s : σ) :
    let requests := sc.encoding.requestsFrom sc.graph (sc.nodes.methodOf ptr)
      (sc.encoding.blockD e.caller).size e.callee e.offset
    let visit := (v.takeAll (objectsUnder sc.facts node requests)).go s
    ∃ q' : Querier, (byAnyEdge sc cs ptr v).go (q, s) =
      (visit.1.map fun _ => true, q', visit.2) := by
  intro requests visit
  have hsearched : Encoding.Searched _ _ _ _ _ _
      (searchFrom sc e (sc.nodes.methodOf ptr) (sc.encoding.blockD e.caller).size q.renew) :=
    searchFrom_searched hc hpos htarget hcallee hq.renew.1
  obtain ⟨q', hgo, -⟩ :=
    go_byAnyEdge hnode hedge hmapped (hc.rep?_isSome.2 htarget) hblock v hq.spent s
  obtain ⟨hit, hhit, -⟩ := hsearched.outcome
  have hrequests : SearchState.requests _ = requests := hsearched.requests
  refine ⟨q', hgo.trans ?_⟩
  rw [hrequests, hhit]
  change (Except.bind visit.1 _, q', visit.2) = _
  cases visit.1 <;> rfl

/-- **A query by one edge makes the requests of all paths from the edge.**
The search of a query comes to an end, and its requests are those of the
plain enumeration: each path from the callee to the first method in the
component of the target, once and in depth-first order. What the visitor
takes is what lies under them. This holds whatever the querier was asked
before, and its labels stay 32-bit numbers. -/
theorem byAnyEdge_enumerates {g g' : CallGraph} {c : Condensation} (hw : g.WellFormed)
    (hids : ∀ e ∈ g.edges, g.hasMethod e.callee)
    (hcond : g.condense g.representatives = .ok (g', c)) {sc : Scene} (hsc : sc.Encodes g' c)
    {cs : CallSite} {e : Edge} (hedge : sc.graph.edge? cs = some e) (hmapped : e.mapped)
    {ptr node : NodeId} (hnode : sc.facts.representative ptr = some node)
    (htarget : g.hasMethod (sc.nodes.methodOf ptr)) {q : Querier} (hq : q.Reached c.size) :
    let target := sc.nodes.methodOf ptr
    let length := (sc.encoding.blockD e.caller).size
    let paths := c.allPaths sc.graph target e.callee
    let requests := sc.encoding.requestsFrom sc.graph target length e.callee e.offset
    let found := searchFrom sc e target length q.renew
    (∃ hit, found.outcome = .ok hit) ∧ found.requests = requests ∧
    (∀ p, p ∈ paths ↔ c.Leads sc.graph target e.callee p) ∧ paths.Nodup ∧
    q.renew.generation + 2 < 2 ^ 31 ∧
    ∀ (σ : Type) (v : Visitor σ) (s : σ),
      let visit := (v.takeAll (objectsUnder sc.facts node requests)).go s
      ∃ q' : Querier, (byAnyEdge sc cs ptr v).go (q, s) =
        (visit.1.map fun _ => true, q', visit.2) := by
  intro target length paths requests found
  have hg' : Condensed g' c := CallGraph.condensed_of_condense hw hcond
  have hc' : Condensed sc.graph c := CallGraph.condensed_of_unmapped hsc.calls hg'
  have hc : Condensed sc.graph sc.encoding.graph := hsc.condensation ▸ hc'
  have hmethod : ∀ m, sc.graph.hasMethod m = g.hasMethod m := fun m => by
    rw [CallGraph.hasMethod, CallGraph.size_of_unmapped hsc.calls,
      CallGraph.size_of_condense hcond, CallGraph.hasMethod]
  obtain ⟨hemem, -⟩ := CallGraph.edge?_eq_some hedge
  have hcaller : g'.hasMethod e.caller := by
    rw [CallGraph.hasMethod, ← CallGraph.size_of_unmapped hsc.calls]
    exact hc.wellFormed.caller e hemem
  have hcallee : sc.graph.hasMethod e.callee := by
    -- the edge is one of the graph that was condensed, whose callees are methods
    obtain ⟨e', he', hcall, -⟩ := CallGraph.mem_of_unmapped hsc.calls hemem
    obtain ⟨e₀, he₀, hcall₀⟩ := CallGraph.mem_of_condense hcond he'
    rw [hmethod, ← hcall, hcall₀]
    exact hids e₀ he₀
  have htarget' : sc.graph.hasMethod target := by rw [hmethod]; exact htarget
  obtain ⟨hready, hgen⟩ := hq.ready.renew
  have hsearched : Encoding.Searched _ _ _ _ _ _ found :=
    searchFrom_searched hc (fun m _ => hsc.blockD_pos m) htarget' hcallee
      (hsc.condensation ▸ hready)
  have houtcome : ∃ hit, found.outcome = .ok hit :=
    hsearched.outcome.imp fun _ hhit => hhit.1
  have hrequests : found.requests = requests := hsearched.requests
  refine ⟨houtcome, hrequests, fun p => hc'.mem_allPaths, hc'.allPaths_nodup _, ?_, ?_⟩
  · rw [Querier.lastGeneration] at hgen
    omega
  · intro σ v s
    exact byAnyEdge_visits hc (fun m _ => hsc.blockD_pos m) hedge hmapped
      (hsc.block_eq hg' hcaller) hcallee hnode htarget' (hsc.condensation ▸ hq.ready) v s

/-- The encoding of `CallGraph.twoEntries` with blocks of one context. The
pointer is one of the method called last, and points to itself under the
second context. -/
def twoEntriesScene : Scene where
  graph := (CallGraph.twoEntriesMarked.encode CallGraph.twoEntriesCondensed 1).1
  encoding := (CallGraph.twoEntriesMarked.encode CallGraph.twoEntriesCondensed 1).2
  nodes := { nodes := #[{}, { id := 1, method := 2 }] }
  facts := FactStore.empty.add 1 1 2 3

theorem byAnyEdge_enumerates_twoEntries :
    (searchFrom twoEntriesScene ⟨⟨0, 1, 1⟩, false, 1⟩ 2 1 (Querier.new 3).renew).requests =
        [(1, 2), (2, 3)] ∧
      ∃ q' : Querier, (byAnyEdge twoEntriesScene ⟨0, 1, 1⟩ 1 Visitor.collect).go
        (Querier.new 3, []) = (.ok true, q', [⟨1, 2, 3⟩]) := by
  have hsc : twoEntriesScene.Encodes CallGraph.twoEntriesMarked CallGraph.twoEntriesCondensed :=
    ⟨by cbv, rfl, by decide +kernel, by decide +kernel⟩
  have hedge : twoEntriesScene.graph.edge? ⟨0, 1, 1⟩ = some ⟨⟨0, 1, 1⟩, false, 1⟩ := by
    decide +kernel
  have hnode : twoEntriesScene.facts.representative 1 = some 1 := by decide
  obtain ⟨-, hrequests, -, -, -, hvisit⟩ := byAnyEdge_enumerates CallGraph.wellFormed_twoEntries
    (by decide) CallGraph.condense_twoEntries hsc hedge (by decide) hnode (by decide)
    (q := Querier.new 3) .new
  obtain ⟨q', hq'⟩ := hvisit _ Visitor.collect []
  exact ⟨hrequests.trans (by cbv), q', hq'.trans (by cbv)⟩

end Query

end PointsTo
