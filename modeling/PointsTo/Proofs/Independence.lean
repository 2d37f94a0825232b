import PointsTo.Proofs.Chains
/-!
# Queries of one querier

A querier keeps its labels from query to query, and a search reads the
labels that are there when it starts. Two searches do the same as soon as
the labels say the same to them (`search_alike`), which they do if all of
them have been used up: they then say nothing. A query that is cut short
has not used its labels up, and the next search takes what it left behind
for its own marks. It then leaves out what it should not, but asks for
nothing that it should not ask for (`search_asksWithin`). `Used` is the
history of a querier, with queries that are cut short, and with a note of
whether the last search was.
-/

namespace PointsTo

/-! ## What labels say to a search -/

namespace SearchGoal

/-- What a label says to the search about a component: whether the target has
been reached from it, or nothing. -/
def reads (goal : SearchGoal) (label : Nat) : Option Bool :=
  if label = goal.failed then some false
  else if label = goal.success then some true
  else none

/-- The two labels can be told apart, and from that of a new querier. -/
structure Distinct (goal : SearchGoal) : Prop where
  failed_pos : 0 < goal.failed
  failed_lt : goal.failed < goal.success

variable {goal : SearchGoal} {label : Nat}

/-- A label says that the search failed if it is that very label. -/
theorem reads_eq_false : goal.reads label = some false ↔ label = goal.failed := by
  unfold reads
  split
  · next heq => exact iff_of_true rfl heq
  · next hne => split <;> simpa using hne

/-- It says that the search succeeded if it is the other one. -/
theorem Distinct.reads_eq_true (h : goal.Distinct) :
    goal.reads label = some true ↔ label = goal.success := by
  have hlt := h.failed_lt
  unfold reads
  split
  · simp only [Option.some.injEq, Bool.false_eq_true, false_iff]
    omega
  · split <;> simpa

/-- **Labels of older searches say nothing.** -/
theorem Distinct.reads_of_lt (h : goal.Distinct) (hlt : label < goal.failed) :
    goal.reads label = none := by
  have := h.failed_lt
  rw [reads, if_neg (by omega), if_neg (by omega)]

end SearchGoal

namespace SearchState

/-- **Two states of one search that is run with different labels.** -/
structure Alike (goal goal' : SearchGoal) (s s' : SearchState) : Prop where
  marks : s.marks.map goal.reads = s'.marks.map goal'.reads
  requests : s.requests = s'.requests
  outcome : s.outcome = s'.outcome

variable {goal goal' : SearchGoal} {s s' : SearchState}

/-- A method that has no label is read like one with an older label. -/
theorem reads_label (h : goal.Distinct) (x : MethodId) :
    goal.reads (s.label x) = (slot? (s.marks.map goal.reads) x).getD none := by
  rw [slot?_map, label]
  cases slot? s.marks x with
  | none => exact h.reads_of_lt h.failed_pos
  | some label => rfl

namespace Alike

/-- **Searches with different labels see the same**: where the one has failed or
succeeded, so has the other. -/
theorem label (h : Alike goal goal' s s') (hg : goal.Distinct) (hg' : goal'.Distinct)
    (x : MethodId) : (s.label x = goal.failed ↔ s'.label x = goal'.failed) ∧
      (s.label x = goal.success ↔ s'.label x = goal'.success) := by
  have hsaid : goal.reads (s.label x) = goal'.reads (s'.label x) := by
    rw [reads_label hg, reads_label hg', h.marks]
  rw [← SearchGoal.reads_eq_false, ← SearchGoal.reads_eq_false, ← hg.reads_eq_true,
    ← hg'.reads_eq_true, hsaid]
  exact ⟨Iff.rfl, Iff.rfl⟩

/-- A label that says the same is put at the same place. -/
theorem mark (h : Alike goal goal' s s') (r : MethodId) {v v' : Nat}
    (hv : goal.reads v = goal'.reads v') : Alike goal goal' (s.mark r v) (s'.mark r v') where
  marks := by
    rw [SearchState.mark, SearchState.mark, map_modify_const, map_modify_const, h.marks, hv]
  requests := by simpa using h.requests
  outcome := h.outcome

theorem request (h : Alike goal goal' s s') (is : List (Int64 × Int64)) :
    Alike goal goal' (s.request is) (s'.request is) where
  marks := h.marks
  requests := by simp [h.requests]
  outcome := rfl

theorem ends (h : Alike goal goal' s s') (outcome : Except Fault Bool) :
    Alike goal goal' { s with outcome } { s' with outcome } where
  marks := h.marks
  requests := h.requests
  outcome := rfl

end Alike

end SearchState

namespace Encoding

open SearchState (Alike)

variable {enc : Encoding} {g : CallGraph} {goal goal' : SearchGoal} (hg : goal.Distinct)
  (hg' : goal'.Distinct) (htarget : goal'.target = goal.target)
  (hlength : goal'.length = goal.length)

include hg hg'

/-- What is done with an edge depends on what the labels say. -/
theorem tryEdge_alike {fuel : Nat} (ih : ∀ m l s s', Alike goal goal' s s' →
      Alike goal goal' (enc.search g goal fuel m l s) (enc.search g goal' fuel m l s'))
    (r t : MethodId) (place : Int64) (i : Nat) {s s' : SearchState} (h : Alike goal goal' s s') :
    Alike goal goal' (enc.tryEdge g goal fuel r t place s i)
      (enc.tryEdge g goal' fuel r t place s' i) := by
  unfold tryEdge
  rw [← h.outcome]
  match s.outcome, g.edges[i]? with
  | .error f, _ => exact h
  | .ok hit, none => exact h
  | .ok hit, some e =>
    obtain ⟨hfailed, hsuccess⟩ := h.label hg hg' (enc.graph.repD e.callee)
    simp only [hfailed, hsuccess]
    split
    · exact h
    split
    · have hnext := ih e.callee (e.offset + place) s s' h
      rw [hnext.outcome]
      match (enc.search g goal' fuel e.callee (e.offset + place) s').outcome with
      | .error f => exact hnext
      | .ok true =>
        refine (hnext.mark r ?_).ends (.ok true)
        rw [hg.reads_eq_true.2 rfl, hg'.reads_eq_true.2 rfl]
      | .ok false => exact hnext.ends (.ok hit)
    · exact h

/-- The answer is read off the same mark. -/
theorem answer_alike (r : MethodId) {s s' : SearchState} (h : Alike goal goal' s s') :
    Alike goal goal' (answer goal r s) (answer goal' r s') := by
  unfold answer
  rw [← h.outcome]
  match s.outcome with
  | .error f => exact h
  | .ok hit =>
    simp only [(h.label hg hg' r).2]
    exact h.ends _

include htarget hlength

/-- **A search does the same with any labels**, as long as the labels that are
there say the same to it. -/
theorem search_alike : ∀ (fuel : Nat) (m : MethodId) (l : Int64) (s s' : SearchState),
    Alike goal goal' s s' →
      Alike goal goal' (enc.search g goal fuel m l s) (enc.search g goal' fuel m l s') := by
  obtain ⟨_, _, failed, success⟩ := goal
  obtain ⟨target, length, failed', success'⟩ := goal'
  obtain rfl : target = _ := htarget
  obtain rfl : length = _ := hlength
  intro fuel
  induction fuel using Nat.strongRecOn with
  | ind fuel ih =>
    intro m l s s' h
    obtain ⟨f, hgo⟩ | ⟨is, hgo⟩ | ⟨r, f, hgo⟩ | ⟨n, r, t, place, hn, hgo⟩ :=
      search_cases enc g target length fuel m l
    · rw [hgo, hgo]
      exact h.ends _
    · rw [hgo, hgo]
      exact h.request is
    · rw [hgo, hgo]
      exact (h.mark r (by simp [SearchGoal.reads])).ends _
    · rw [hgo, hgo]
      refine answer_alike hg hg' r (List.foldl_rel ?_ ?_)
      · exact (h.mark r (by simp [SearchGoal.reads])).ends _
      · intro i _ s s' h
        exact tryEdge_alike hg hg' (ih n (by omega)) r t place i h

end Encoding

/-! ## Searches misled by labels -/

namespace SearchState

/-- The search has gone on from `s` to `s'` without a fault, and has asked for
some of the intervals, in their order. -/
structure AsksWithin (is : List (Int64 × Int64)) (s s' : SearchState) : Prop where
  outcome : ∃ hit, s'.outcome = .ok hit
  requests : ∃ found, s'.requests = s.requests ++ found ∧ found.Sublist is

variable {is js : List (Int64 × Int64)} {s s' s'' : SearchState}

theorem AsksWithin.trans (h : AsksWithin is s s') (h' : AsksWithin js s' s'') :
    AsksWithin (is ++ js) s s'' := by
  obtain ⟨found, hfound, hsub⟩ := h.requests
  obtain ⟨found', hfound', hsub'⟩ := h'.requests
  refine ⟨h'.outcome, found ++ found', ?_, hsub.append hsub'⟩
  rw [hfound', hfound, List.append_assoc]

end SearchState

namespace Encoding

open SearchState (AsksWithin)

variable {enc : Encoding} {g : CallGraph} {goal : SearchGoal}

/-- An edge is followed or left out. -/
theorem tryEdge_asksWithin {fuel : Nat} {i : Nat} {e : Edge} (he : g.edges[i]? = some e)
    {place : Int64} {is : List (Int64 × Int64)} {s : SearchState}
    (houtcome : ∃ hit, s.outcome = .ok hit)
    (hnext : AsksWithin is s (enc.search g goal fuel e.callee (e.offset + place) s))
    (r t : MethodId) : AsksWithin is s (enc.tryEdge g goal fuel r t place s i) := by
  have hskip : AsksWithin is s s := ⟨houtcome, [], by simp, List.nil_sublist is⟩
  obtain ⟨hit, hhit⟩ := houtcome
  obtain ⟨⟨hit', hhit'⟩, found, hfound, hsub⟩ := hnext
  unfold tryEdge
  simp only [hhit, he, hhit']
  split
  · exact hskip
  split
  · cases hit' with
    | true => exact ⟨⟨true, rfl⟩, found, SearchState.requests_mark.trans hfound, hsub⟩
    | false => exact ⟨⟨hit, rfl⟩, found, hfound, hsub⟩
  · exact hskip

/-- **Whatever the labels are, a search asks for nothing but what paths ask for.**
Labels that are not its own can only make it leave edges out. -/
theorem search_asksWithin (h : Condensed g enc.graph)
    (hpos : ∀ m, g.hasMethod m → 0 < (enc.blockD m).size) (htarget : g.hasMethod goal.target) :
    ∀ (fuel : Nat) (m : MethodId) (l : Int64) (s : SearchState),
      g.hasMethod m → enc.graph.height m < fuel →
      AsksWithin (enc.requestsFrom g goal.target goal.length m l) s
        (enc.search g goal fuel m l s) := by
  intro fuel
  induction fuel with
  | zero => intro m l s _ hfuel; omega
  | succ fuel ih =>
    intro m l s hm hfuel
    by_cases hrep : enc.graph.repD m = enc.graph.repD goal.target
    · rw [search_of_arrived h hpos htarget hm hrep, requestsFrom_of_arrived h hrep]
      exact ⟨⟨true, rfl⟩, _, SearchState.requests_request _, List.Sublist.refl _⟩
    rw [search_of_ne h hpos htarget hm hrep, requestsFrom_of_ne h hrep]
    generalize (l - 1) % (enc.blockD (enc.graph.repD m)).size = place
    -- asked for behind the edges that have been tried
    let asked (done : List Nat) := (done.filterMap (g.edges[·]?)).flatMap fun e =>
      enc.requestsFrom g goal.target goal.length e.callee (e.offset + place)
    have hloop := foldl_run (l := enc.graph.outOf (enc.graph.repD m))
      (f := enc.tryEdge g goal fuel (enc.graph.repD m) (enc.graph.repD goal.target) place)
      (b := { s.mark (enc.graph.repD m) goal.failed with outcome := .ok false })
      (fun done s' => AsksWithin (asked done) s s')
      ⟨⟨false, rfl⟩, [], SearchState.requests_mark.trans (List.append_nil _).symm,
        List.Sublist.refl _⟩
      fun done i s' hi hs' => by
        obtain ⟨rest, hrest⟩ := hi
        obtain ⟨e, he, hreach, hfrom, hto⟩ :=
          (h.mem_out (enc.graph.repD m) i).1 (by rw [hrest]; simp)
        have hemem := h.mem_edgesFrom.2 ⟨Array.mem_of_getElem? he, hreach, hfrom, hto⟩
        have hcallee := h.hasMethod _ (h.edgesFrom_spec hemem).2.2.1
        have hheight := h.height_lt hemem
        have hasked : asked (done ++ [i]) = asked done ++
            enc.requestsFrom g goal.target goal.length e.callee (e.offset + place) := by
          simp [asked, he]
        rw [hasked]
        exact hs'.trans (tryEdge_asksWithin he hs'.outcome (ih _ _ s' hcallee (by omega)) _ _)
    obtain ⟨⟨hit, hhit⟩, hrequests⟩ := hloop
    rw [answer, hhit]
    exact ⟨⟨_, rfl⟩, hrequests⟩

end Encoding

/-! ## Used-up labels say nothing -/

/-- **A querier that is ready has no label that says anything.** -/
theorem Querier.Ready.map_reads {n : Nat} {q : Querier} (h : q.Ready n) {goal : SearchGoal}
    (hg : goal.Distinct) (hfailed : goal.failed = q.generation + 1) :
    q.marks.map goal.reads = Array.replicate n none := by
  refine Array.eq_replicate_iff.2 ⟨by simpa using h.size, fun said hsaid => ?_⟩
  obtain ⟨label, hlabel, rfl⟩ := Array.mem_map.1 hsaid
  have hle := h.le label hlabel
  exact hg.reads_of_lt (by omega)

namespace Query

variable {σ : Type} {n : Nat} {q q' : Querier}

/-- Searches that find all labels used up do the same. -/
theorem searchFrom_alike (hq : q.Ready n) (hq' : q'.Ready n) (sc : Scene) (e : Edge)
    (target : MethodId) (length : Int64) :
    (searchFrom sc e target length q).requests = (searchFrom sc e target length q').requests ∧
      (searchFrom sc e target length q).outcome = (searchFrom sc e target length q').outcome := by
  have hdistinct : ∀ k, SearchGoal.Distinct ⟨target, length, k + 1, k + 2⟩ := fun k =>
    ⟨Nat.succ_pos _, Nat.lt_succ_self _⟩
  have hstart : SearchState.Alike ⟨target, length, q.generation + 1, q.generation + 2⟩
      ⟨target, length, q'.generation + 1, q'.generation + 2⟩ { marks := q.marks }
      { marks := q'.marks } :=
    ⟨(hq.map_reads (hdistinct _) rfl).trans (hq'.map_reads (hdistinct _) rfl).symm, rfl, rfl⟩
  have hend : SearchState.Alike _ _ (searchFrom sc e target length q)
      (searchFrom sc e target length q') :=
    Encoding.search_alike (hdistinct q.generation) (hdistinct q'.generation) rfl rfl _ _ _ _ _
      hstart
  exact ⟨hend.requests, hend.outcome⟩

/-- The attempt ends in the same way on both queriers, and leaves the visitor in
the same state. -/
def AgreesOn {α : Type} (a : Attempt (State σ) α) (q q' : Querier) : Prop :=
  ∀ s, (a.go (q, s)).1 = (a.go (q', s)).1 ∧ (a.go (q, s)).2.2 = (a.go (q', s)).2.2

theorem Blind.agreesOn {α : Type} {a : Attempt (State σ) α} (h : Blind a) (q q' : Querier) :
    AgreesOn a q q' := by
  obtain ⟨b, rfl⟩ := h
  intro s
  rw [go_visiting, go_visiting]
  exact ⟨rfl, rfl⟩

/-- **Queries by any edge do not tell ready queriers apart**, whatever these have
answered before. -/
theorem agreesOn_byAnyEdge (hq : q.Ready n) (hq' : q'.Ready n) (sc : Scene) (cs : CallSite)
    (ptr : NodeId) (v : Visitor σ) : AgreesOn (byAnyEdge sc cs ptr v) q q' := by
  intro s
  obtain ⟨r, -, hgo⟩ | ⟨node, e, b, hnode, hedge, hmapped, htarget, hblock⟩ :=
    byAnyEdge_cases sc cs ptr
  · rw [hgo, hgo]
    exact ⟨rfl, rfl⟩
  · obtain ⟨_, hgo, -⟩ := go_byAnyEdge hnode hedge hmapped htarget hblock v hq.spent s
    obtain ⟨_, hgo', -⟩ := go_byAnyEdge hnode hedge hmapped htarget hblock v hq'.spent s
    obtain ⟨hrequests, houtcome⟩ :=
      searchFrom_alike hq.renew.1 hq'.renew.1 sc e (sc.nodes.methodOf ptr) b.size
    rw [hgo, hgo', hrequests, houtcome]
    exact ⟨rfl, rfl⟩

/-- Whether the question makes a search: chains need none, and no labels. -/
def Question.searches : Question → Bool
  | .anyEdge .. | .fieldAnyEdge .. => true
  | .chain .. | .fieldChain .. => false

/-- **Queriers whose labels are used up answer alike**, and any two answer alike
if no labels are needed. -/
theorem agreesOn_ask {question : Question}
    (h : q.Ready n ∧ q'.Ready n ∨ question.searches = false) (sc : Scene) (v : Visitor σ) :
    AgreesOn (ask sc v question) q q' := by
  cases question with
  | chain chain ptr => exact (blind_byChain sc chain ptr v).agreesOn q q'
  | fieldChain chain ptr f => exact (blind_fieldByChain sc chain ptr f v).agreesOn q q'
  | anyEdge cs ptr =>
    obtain ⟨hq, hq'⟩ := h.resolve_right (by simp [Question.searches])
    exact agreesOn_byAnyEdge hq hq' sc cs ptr v
  | fieldAnyEdge cs ptr f =>
    obtain ⟨hq, hq'⟩ := h.resolve_right (by simp [Question.searches])
    intro s
    obtain ⟨hanswer, hfound⟩ := agreesOn_byAnyEdge hq hq' sc cs ptr Visitor.collect []
    rw [ask, go_fieldByAnyEdge, go_fieldByAnyEdge, hanswer, hfound]
    exact ⟨rfl, rfl⟩

/-! ## Answers misled by labels -/

/-- The attempt ends in the same way on both queriers, but what it collects on the
first may lack some of what it collects on the second. -/
def LacksOn (a : Attempt (State (List Fact)) Bool) (q q' : Querier) : Prop :=
  (a.go (q, [])).1 = (a.go (q', [])).1 ∧ (a.go (q, [])).2.2.Sublist (a.go (q', [])).2.2

theorem AgreesOn.lacksOn {a : Attempt (State (List Fact)) Bool} (h : AgreesOn a q q') :
    LacksOn a q q' :=
  ⟨(h []).1, by rw [(h []).2]⟩

/-- Collecting the fields of some objects takes them one after the other. -/
theorem go_visitFields_collect (sc : Scene) (f : FieldId) (objs : List Fact) :
    (visitFields sc f Visitor.collect (.ok true) objs).go [] =
      (.ok true, objs.flatMap fun o => (fieldObjects sc f o).getD []) := by
  change (Visitor.collect.takeAll _ >>= fun _ => pure true).go [] = _
  rw [Attempt.go_bind, Visitor.go_takeAll_collect]
  rfl

section Encoded

variable {sc : Scene} {span : Int64} {share : Edge → Share}
  (h : Encoded sc.graph sc.encoding span share) (hq : q.Spent n)
  (hq' : q'.Ready sc.encoding.graph.size)

include h hq hq'

/-- A query by any edge may find less where labels are left over, and never more. -/
theorem lacksOn_byAnyEdge (cs : CallSite) (ptr : NodeId) :
    LacksOn (byAnyEdge sc cs ptr Visitor.collect) q q' := by
  obtain ⟨r, -, hgo⟩ | ⟨node, e, b, hnode, hedge, hmapped, htarget, hblock⟩ :=
    byAnyEdge_cases sc cs ptr
  · rw [LacksOn, hgo, hgo]
    exact ⟨rfl, List.Sublist.refl _⟩
  obtain ⟨_, hgo, -⟩ := go_byAnyEdge hnode hedge hmapped htarget hblock Visitor.collect hq []
  obtain ⟨_, hgo', -⟩ :=
    go_byAnyEdge hnode hedge hmapped htarget hblock Visitor.collect hq'.spent []
  have hemem := (CallGraph.edge?_eq_some hedge).1
  have hcallee := (h.hasMethod_of_mapped hemem hmapped).2
  have hmethod : sc.graph.hasMethod (sc.nodes.methodOf ptr) := h.condensed.rep?_isSome.1 htarget
  -- one search may leave edges out, the other one does not
  have hsearch : SearchState.AsksWithin _ _
      (searchFrom sc e (sc.nodes.methodOf ptr) b.size q.renew) :=
    Encoding.search_asksWithin h.condensed (fun _ hm => h.size_pos hm) hmethod _ _ _ _ hcallee
      (Encoding.height_lt_searchDepth h.condensed _)
  have hsearch' : Encoding.Searched _ _ _ _ _ _
      (searchFrom sc e (sc.nodes.methodOf ptr) b.size q'.renew) :=
    searchFrom_searched h.condensed (fun _ hm => h.size_pos hm) hmethod hcallee hq'.renew.1
  obtain ⟨⟨hit, hhit⟩, found, hfound, hsub⟩ := hsearch
  obtain ⟨hit', hhit', -⟩ := hsearch'.outcome
  rw [LacksOn, hgo, hgo', hhit, hhit', hfound, hsearch'.requests, Visitor.go_takeAll_collect,
    Visitor.go_takeAll_collect]
  exact ⟨rfl, hsub.flatMap _⟩

/-- **What a search is misled by, it leaves out.** A querier that labels may have
been left on answers as one whose labels are used up, and collects no fact
that this one does not. -/
theorem lacksOn_ask (question : Question) : LacksOn (ask sc Visitor.collect question) q q' := by
  cases question with
  | chain chain ptr => exact ((blind_byChain ..).agreesOn q q').lacksOn
  | fieldChain chain ptr f => exact ((blind_fieldByChain ..).agreesOn q q').lacksOn
  | anyEdge cs ptr => exact lacksOn_byAnyEdge h hq hq' cs ptr
  | fieldAnyEdge cs ptr f =>
    obtain ⟨hanswer, hsub⟩ := lacksOn_byAnyEdge h hq hq' cs ptr
    rw [LacksOn, ask, go_fieldByAnyEdge, go_fieldByAnyEdge, hanswer]
    generalize ((byAnyEdge sc cs ptr Visitor.collect).go (q', [])).1 = answer
    rcases answer with f | b
    · exact ⟨rfl, List.Sublist.refl _⟩
    cases b with
    | false => exact ⟨rfl, List.Sublist.refl _⟩
    | true =>
      rw [go_visitFields_collect, go_visitFields_collect]
      exact ⟨rfl, hsub.flatMap _⟩

end Encoded

/-! ## Histories -/

/-- How the query by one edge ends that the question starts with: with yes if a
search came through, and with no if none was made. -/
def searchEnd (sc : Scene) (v : Visitor σ) (q : Querier) (s : σ) : Question → Except Fault Bool
  | .anyEdge cs ptr => ((byAnyEdge sc cs ptr v).go (q, s)).1
  | .fieldAnyEdge cs ptr _ => ((byAnyEdge sc cs ptr Visitor.collect).go (q, [])).1
  | .chain .. | .fieldChain .. => .ok false

/-- Whether a query by one edge has been cut short after a search came through
for the last time. -/
def cutAfter (cut : Bool) : Except Fault Bool → Bool
  | .error _ => true
  | .ok true => false
  | .ok false => cut

/-- **What a question does to the labels**, however it ends. -/
theorem labels_of_ask (hq : q.Spent n) (sc : Scene) (v : Visitor σ) (s : σ)
    (question : Question) :
    let q' := ((ask sc v question).go (q, s)).2.1
    q'.Spent n ∧ (searchEnd sc v q s question = .ok true → q'.Ready n) ∧
      (searchEnd sc v q s question = .ok false → q' = q) := by
  cases question with
  | anyEdge cs ptr => exact labels_of_byAnyEdge hq rfl
  | fieldAnyEdge cs ptr f =>
    rw [ask, go_fieldByAnyEdge]
    exact labels_of_byAnyEdge hq rfl
  | chain chain ptr =>
    have hsame : ((byChain sc chain ptr v).go (q, s)).2.1 = q := (blind_byChain ..).eq rfl
    rw [ask, hsame]
    exact ⟨hq, by simp [searchEnd], fun _ => rfl⟩
  | fieldChain chain ptr f =>
    have hsame : ((fieldByChain sc chain ptr f v).go (q, s)).2.1 = q :=
      (blind_fieldByChain ..).eq rfl
    rw [ask, hsame]
    exact ⟨hq, by simp [searchEnd], fun _ => rfl⟩

end Query

/-- The querier has been made for `n` methods and asked any questions since. It
may have been `cut`: one of them was stopped by a fault, of the visitor or
of the search, and no search has come through after that. -/
inductive Querier.Used (n : Nat) : Bool → Querier → Prop
  | new : Used n false (Querier.new n)
  | ask {cut : Bool} {q : Querier} {σ : Type} (sc : Query.Scene) (v : Visitor σ) (s : σ)
      (question : Query.Question) (hq : Used n cut q) :
      Used n (Query.cutAfter cut (Query.searchEnd sc v q s question))
        ((Query.ask sc v question).go (q, s)).2.1

/-- **Labels are used up unless the querier has been cut short.** -/
theorem Querier.Used.labels {n : Nat} {cut : Bool} {q : Querier} (h : q.Used n cut) :
    q.Spent n ∧ (cut = false → q.Ready n) := by
  induction h with
  | new => exact ⟨(ready_new n).spent, fun _ => ready_new n⟩
  | ask sc v s question _ ih =>
    obtain ⟨hspent, hready⟩ := ih
    obtain ⟨hspent', htrue, hfalse⟩ := Query.labels_of_ask hspent sc v s question
    refine ⟨hspent', fun hcut => ?_⟩
    generalize Query.searchEnd sc v _ s question = last at htrue hfalse hcut
    match last with
    | .error f => cases hcut
    | .ok true => exact htrue rfl
    | .ok false =>
      rw [hfalse rfl]
      exact hready hcut

/-! ## A query that is cut short -/

namespace CallGraph

/-- Three methods below the root, each called by the one before it. -/
def line : CallGraph where
  size := 4
  edges := #[⟨⟨0, 1, 1⟩, false, 0⟩, ⟨⟨1, 2, 2⟩, false, 0⟩, ⟨⟨2, 3, 3⟩, false, 0⟩]

/-- Every method of `line` is a component of its own. -/
def lineCondensed : Condensation where
  rep := #[0, 1, 2, 3]
  rank := #[0, 1, 2, 3]
  out := #[[0], [1], [2], []]
  members := #[[0], [1], [2], [3]]
  reachable := #[true, true, true, true]
  order := [0, 1, 2, 3]

theorem wellFormed_line : line.WellFormed :=
  ⟨by decide, by decide, by simp [line]⟩

theorem condense_line : line.condense line.representatives = .ok (line, lineCondensed) := by
  cbv

end CallGraph

namespace Query

/-- The encoding of `CallGraph.line`, and a variable of the method called last
that points to itself under its only context. -/
def lineScene : Scene where
  graph := (CallGraph.line.encode CallGraph.lineCondensed 0).1
  encoding := (CallGraph.line.encode CallGraph.lineCondensed 0).2
  nodes := { nodes := #[{}, { id := 1, method := 3 }] }
  facts := FactStore.empty.add 1 1 1 2

/-- The visitor casts what it takes to a type that stands for any subtype. -/
def castToAny : Visitor (List Fact) := fun _ => throw (.anySubtypeTarget "T" "Any_subtype_of_T")

/-- A querier whose query by the second call was stopped by its visitor. -/
def stopped : Querier :=
  ((ask lineScene castToAny (.anyEdge ⟨1, 2, 2⟩ 1)).go (Querier.new 4, [])).2.1

theorem used_stopped : stopped.Used 4 true := by
  have hcut : cutAfter false (searchEnd lineScene castToAny (Querier.new 4) []
      (.anyEdge ⟨1, 2, 2⟩ 1)) = true := by cbv
  exact hcut ▸ .ask lineScene castToAny [] (.anyEdge ⟨1, 2, 2⟩ 1) .new

/-- The same querier after a query by the first call, which came through. -/
def mended : Querier :=
  ((ask lineScene Visitor.collect (.anyEdge ⟨0, 1, 1⟩ 1)).go (stopped, [])).2.1

theorem used_mended : mended.Used 4 false := by
  have hcut : cutAfter true (searchEnd lineScene Visitor.collect stopped []
      (.anyEdge ⟨0, 1, 1⟩ 1)) = false := by cbv
  exact hcut ▸ .ask lineScene Visitor.collect [] (.anyEdge ⟨0, 1, 1⟩ 1) used_stopped

/-! ## Independence -/

/-- **Queries do not influence each other unless one has been cut short.** A
querier with any history answers a question as a fork of it does, and the
visitor takes the same facts in the same order, if no query by an edge was
cut short after a search came through for the last time, or if the
question is about a chain. On a graph that has been encoded, a querier that
was cut short still gives the answer of the fork, and delivers facts that
the fork delivers, in their order; it may miss some. -/
theorem ask_eq_fork {n : Nat} {cut : Bool} {q : Querier} (hq : q.Used n cut) (sc : Scene)
    (question : Question) :
    (cut = false ∨ question.searches = false → ∀ (σ : Type) (v : Visitor σ) (s : σ),
      let here := (ask sc v question).go (q, s)
      let fork := (ask sc v question).go (Querier.new n, s)
      here.1 = fork.1 ∧ here.2.2 = fork.2.2) ∧
    ∀ (g g' : CallGraph) (c : Condensation) (maxSpan : Int64), g.WellFormed →
      g.edges.size < 2 ^ 63 → g.condense g.representatives = .ok (g', c) → n = c.size →
      g'.encode c maxSpan = (sc.graph, sc.encoding) →
      let here := (ask sc Visitor.collect question).go (q, [])
      let fork := (ask sc Visitor.collect question).go (Querier.new n, [])
      here.1 = fork.1 ∧ here.2.2.Sublist fork.2.2 := by
  constructor
  · intro h σ v s
    have hready : q.Ready n ∧ (Querier.new n).Ready n ∨ question.searches = false :=
      h.imp_left fun hcut => ⟨hq.labels.2 hcut, Querier.ready_new n⟩
    exact agreesOn_ask hready sc v s
  · intro g g' c maxSpan hw hfew hcond hn hencode
    obtain ⟨share, h⟩ := CallGraph.encoded_of_condense hw hfew hcond maxSpan
    have hsize : (g'.encode c maxSpan).2.graph.size = n := hn.symm
    rw [hencode] at h hsize
    have hfork := Querier.ready_new n
    rw [← hsize] at hfork
    exact hsize ▸ lacksOn_ask h hq.labels.1 hfork question

/-- After a query that was stopped and one that came through, the querier finds
what a fork finds; in between it finds no more than that. -/
theorem ask_eq_fork_mended : mended.Used 4 false ∧ stopped.Used 4 true ∧
    ((ask lineScene Visitor.collect (.anyEdge ⟨0, 1, 1⟩ 1)).go (mended, [])).2.2 = [⟨1, 1, 2⟩] ∧
    ((ask lineScene Visitor.collect (.anyEdge ⟨0, 1, 1⟩ 1)).go (stopped, [])).2.2.Sublist
      [⟨1, 1, 2⟩] := by
  have hfork : ((ask lineScene Visitor.collect (.anyEdge ⟨0, 1, 1⟩ 1)).go
      (Querier.new 4, [])).2.2 = [⟨1, 1, 2⟩] := by cbv
  refine ⟨used_mended, used_stopped, ?_, ?_⟩
  · have hmended := (ask_eq_fork used_mended lineScene (.anyEdge ⟨0, 1, 1⟩ 1)).1 (.inl rfl)
    exact (hmended _ Visitor.collect []).2.trans hfork
  · have hstopped := (ask_eq_fork used_stopped lineScene (.anyEdge ⟨0, 1, 1⟩ 1)).2
      CallGraph.line CallGraph.line CallGraph.lineCondensed 0 CallGraph.wellFormed_line (by decide)
      CallGraph.condense_line rfl rfl
    exact hfork ▸ hstopped.2

/-- **A query that is cut short makes the next one miss facts**: it takes a label
that was left behind for a mark of its own. -/
theorem ask_differs_from_fork :
    let here := (ask lineScene Visitor.collect (.anyEdge ⟨0, 1, 1⟩ 1)).go (stopped, [])
    let fork := (ask lineScene Visitor.collect (.anyEdge ⟨0, 1, 1⟩ 1)).go (Querier.new 4, [])
    CallGraph.line.condense CallGraph.line.representatives =
        .ok (CallGraph.line, CallGraph.lineCondensed) ∧
      stopped.Used 4 true ∧ (here.1, here.2.2) = (.ok true, []) ∧
      (fork.1, fork.2.2) = (.ok true, [⟨1, 1, 2⟩]) := by
  exact ⟨CallGraph.condense_line, used_stopped, by cbv, by cbv⟩

end Query

end PointsTo
