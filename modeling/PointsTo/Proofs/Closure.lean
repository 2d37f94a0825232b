import PointsTo.Proofs.Growth
/-!
# What building leaves behind

A client adds entry points and calls and has the graph built, in any order
and as often as it likes. With a resolver that gives only calls of the
method it is asked about, to methods, the graph is in the end the least
one that has the client's calls and, for every reachable method but the
root, the calls of the resolver (`build_least`): each of these methods was
asked about once, and it does not matter when. With any other resolver a
build may fail. It then forgets the method it failed at, so that a later
build can succeed on a graph that lacks calls of that method
(`build_complete_iff`).
-/

namespace PointsTo

/-- The method whose calls were being added when a build failed. -/
def BuildError.method? : BuildError → Option MethodId
  | wrongCaller _ m => some m
  | unknownMethod cs => some cs.caller
  | _ => none

namespace Builder

variable {u : Universe} {b b' : Builder} {m : MethodId}

/-! ## Sessions -/

/-- What a client asks of a builder. -/
inductive Request where
  /-- An entry point. -/
  | entry (m : MethodId)
  /-- The entry points of the configuration. -/
  | configured
  /-- A call. -/
  | edge (cs : CallSite)
  /-- Resolving what is pending. -/
  | build (calls : MethodId → List CallSite)

namespace Request

/-- What the builder does for a request. -/
def step (u : Universe) : Request → Step Unit
  | entry m => addEntryPoint u m
  | configured => addConfiguredEntryPoints u
  | edge cs => do let _ ← addEdge u cs
  | build calls => Builder.build u calls

/-- The calls that a client adds by a request, where `names` are the entry
points of the configuration. A call of something that is no method is
refused. -/
def added (u : Universe) (names : List String) : Request → List CallSite
  | entry m => [CallSite.entry m].filter u.hasEnds
  | configured => entryCalls u names
  | edge cs => [cs].filter u.hasEnds
  | build _ => []

/-- What resolvers have been asked about after the request, if it was `asked`
before. -/
def noted (u : Universe) (b : Builder) (asked : List MethodId) : Request → List MethodId
  | build calls => (((buildWith u (recording calls)).go b).run asked).2
  | _ => asked

end Request

/-- A builder and what happened to it: how the requests ended, and which
methods the resolvers were asked about. -/
structure Session where
  builder : Builder
  outcomes : List (Request × Except BuildError Unit) := []
  asked : List MethodId := []

namespace Session

/-- The session after one more request. -/
def next (u : Universe) (s : Session) (r : Request) : Session :=
  { builder := ((r.step u).go s.builder).2
    outcomes := s.outcomes ++ [(r, ((r.step u).go s.builder).1)]
    asked := r.noted u s.builder s.asked }

/-- The requests one after the other. -/
def run (u : Universe) (b : Builder) (requests : List Request) : Session :=
  requests.foldl (next u) { builder := b }

end Session

/-! ## One request -/

section Requests

variable {added : List CallSite}

theorem go_edge {cs : CallSite} : ((Request.edge cs).step u).go b =
    (((addEdge u cs).go b).1.map fun _ => (), ((addEdge u cs).go b).2) := by
  rw [Request.step, Step.go_bind]
  generalize (addEdge u cs).go b = run
  obtain ⟨r, b'⟩ := run
  cases r <;> rfl

/-- A client adds a call, if it is one between methods. -/
theorem Growing.clientEdge {cs : CallSite} (h : Growing u added b) :
    Growing u (added ++ [cs].filter u.hasEnds) ((Builder.addEdge u cs).go b).2 ∧
      Grows b ((Builder.addEdge u cs).go b).2 ([cs].filter u.hasEnds) := by
  by_cases hends : u.hasEnds cs
  · rw [List.filter_cons_of_pos hends, List.filter_nil]
    have h₀ : Growing u (added ++ [cs]) b := h.mono fun cs hcs => List.mem_append_left _ hcs
    obtain ⟨isNew, b', hgo, h', hgrows⟩ := h₀.addEdge hends (.inl (by simp))
    rw [hgo]
    exact ⟨h', hgrows⟩
  · rw [List.filter_cons_of_neg hends, List.filter_nil, List.append_nil,
      go_addEdge_of_unknown h.unfrozen hends]
    exact ⟨h, .refl b⟩

/-- **What a client adds by a request**, builds apart. -/
theorem Growing.request (h : Growing u added b) (r : Request)
    (hr : ∀ calls, r ≠ .build calls) :
    Growing u (added ++ r.added u b.config.entryPoints) ((r.step u).go b).2 ∧
      Grows b ((r.step u).go b).2 (r.added u b.config.entryPoints) := by
  cases r with
  | entry m =>
    rw [Request.step, go_addEntryPoint]
    exact h.clientEdge
  | configured =>
    have hgo : (Request.configured.step u).go b =
        (Builder.addEntryPoints u b.config.entryPoints).go b := Step.go_bind ..
    obtain ⟨out, b', hnamed, h', hgrows, -⟩ := h.addEntryPoints b.config.entryPoints
    rw [hgo, hnamed]
    exact ⟨h'.mono fun cs hcs => List.mem_append_left _ hcs, hgrows⟩
  | edge cs =>
    rw [go_edge]
    exact h.clientEdge
  | build calls => exact absurd rfl (hr calls)

/-- **A round of a build.** -/
theorem Growing.round (h : Growing u added b) {rest : List MethodId} (hp : b.pending = m :: rest)
    (R : MethodId → List CallSite) :
    ∃ out b' new, (Builder.addCalls u m (R m)).go { b with pending := rest } = (out, b') ∧
      Growing u added b' ∧ Grows { b with pending := rest } b' new ∧
      (∀ cs ∈ new, cs.caller = m) ∧
      match out with
      | .ok _ => new = R m
      | .error e => ∃ cs rest, R m = new ++ cs :: rest ∧ Refuses u m cs e := by
  have hm : m ∈ b.reachable := h.pending m (by rw [hp]; exact List.mem_cons_self ..)
  have hrest : ∀ x ∈ rest, x ∈ b.reachable := fun x hx =>
    h.pending x (by rw [hp]; exact List.mem_cons_of_mem _ hx)
  exact Growing.addCalls (R m) (h.withPending hrest) hm

/-- The builder `b'` has gone on from `b`: it is still growing, and the calls of `b` are
there. -/
structure Continues (u : Universe) (added : List CallSite) (b b' : Builder) : Prop where
  growing : Growing u added b'
  config : b'.config = b.config
  sites : ∀ cs ∈ b.graph.sites, cs ∈ b'.graph.sites

/-- **A build, whatever the resolver says.** -/
theorem Growing.build (h : Growing u added b) (R : MethodId → List CallSite) :
    Continues u added b ((Builder.build u R).go b).2 := by
  have hround : ∀ (asked : List MethodId) (b₁ : Builder) (m : MethodId) (rest : List MethodId),
      Continues u added b b₁ → b₁.pending = m :: rest →
      EndsIn (Continues u added b) (fun _ => Continues u added b)
        ((Builder.addCalls u m (R m)).go { b₁ with pending := rest }) := by
    intro asked b₁ m rest h₁ hp
    obtain ⟨out, b', new, hgo, h', hgrows, -⟩ := h₁.growing.round hp R
    have hend : Continues u added b b' :=
      ⟨h', hgrows.config.trans h₁.config,
        fun cs hcs => (hgrows.sites cs).2 (.inl (h₁.sites cs hcs))⟩
    rw [hgo]
    cases out <;> exact hend
  obtain ⟨out, b', more, hgo, -, hend⟩ :=
    build_run (P := fun _ => Continues u added b) (E := fun _ _ => Continues u added b) hround
      (fun _ _ log h₁ => { h₁ with growing := h₁.growing.withLog log }) [] h.unfrozen
      ⟨h, rfl, fun _ hcs => hcs⟩
  rw [hgo]
  cases out with
  | ok _ => exact hend.1
  | error e => exact hend

end Requests

/-! ## The ledger of a resolver -/

/-- An error about a call tells which method had it. -/
theorem Refuses.method? {cs : CallSite} {e : BuildError} (h : Refuses u m cs e) :
    e.method? = some m := by
  rcases h with ⟨-, rfl⟩ | ⟨rfl, -, rfl⟩ <;> rfl

/-- **How a builder stands with a resolver.** The methods `asked` about have all
their calls in the graph, unless they were `abandoned`, and every call of
the graph comes from a client or from the resolver. -/
structure Ledger (u : Universe) (R : MethodId → List CallSite) (added : List CallSite)
    (abandoned asked : List MethodId) (b : Builder) : Prop where
  growing : Growing u added b
  tally : Tally asked b
  kept : ∀ cs ∈ added, cs ∈ b.graph.sites
  complete : ∀ m ∈ asked, m ∉ abandoned → ∀ cs ∈ R m, cs ∈ b.graph.sites
  origin : ∀ cs ∈ b.graph.sites, cs ∈ added ∨ cs.caller ∈ asked ∧ cs ∈ R cs.caller

/-- A builder that is new stands with any resolver. -/
theorem ledger_new (cfg : Config) (log : Log) (u : Universe) (h : Option Hierarchy)
    (R : MethodId → List CallSite) : Ledger u R [] [] [] (new cfg log u h).1 where
  growing := .new cfg log u h
  tally := tally_new cfg log u h
  kept _ hcs := absurd hcs List.not_mem_nil
  complete _ hm := absurd hm List.not_mem_nil
  origin _ hcs := absurd hcs List.not_mem_nil

namespace Ledger

variable {R : MethodId → List CallSite} {added new : List CallSite}
  {abandoned asked : List MethodId}

/-- The log has no part in how a builder stands. -/
theorem withLog (h : Ledger u R added abandoned asked b) (log : Log) :
    Ledger u R added abandoned asked { b with log } :=
  { h with growing := h.growing.withLog log }

/-- A method is asked about once, and never while it is pending. -/
theorem nodup (h : Ledger u R added abandoned asked b) :
    (rootMethod :: (asked ++ b.pending)).Nodup :=
  h.tally.nodup_iff.1 h.growing.once

/-- What has been asked about is reachable, and is not the root. -/
theorem mem_asked (h : Ledger u R added abandoned asked b) (hm : m ∈ asked) :
    m ∈ b.reachable ∧ m ≠ rootMethod := by
  have hmem : m ∈ asked ++ b.pending := List.mem_append_left _ hm
  refine ⟨h.tally.mem_iff.2 (List.mem_cons_of_mem _ hmem), ?_⟩
  rintro rfl
  exact (List.nodup_cons.1 h.nodup).1 hmem

/-- Every method is asked about once at most. -/
theorem length_asked_le (h : Ledger u R added abandoned asked b) :
    asked.length ≤ u.numMethods := by
  have hnodup : asked.Nodup := (List.nodup_append.1 (List.nodup_cons.1 h.nodup).2).1
  have hsub : asked ⊆ (List.range u.numMethods).map Int.ofNat := by
    intro m hm
    obtain ⟨hreach, hne⟩ := h.mem_asked hm
    obtain ⟨hpos, hlt⟩ := Universe.hasMethod_iff.1 (h.growing.hasMethod hreach hne)
    exact List.mem_map.2 ⟨m.toNat, List.mem_range.2 ((Int.toNat_lt hpos).2 hlt),
      Int.toNat_of_nonneg hpos⟩
  have hle := (hnodup.subperm hsub).length_le
  rwa [List.length_map, List.length_range] at hle

/-- A client adds calls. -/
theorem grow (h : Ledger u R added abandoned asked b) (hg : Growing u (added ++ new) b')
    (hgrows : Grows b b' new) : Ledger u R (added ++ new) abandoned asked b' where
  growing := hg
  tally := hgrows.tally asked h.tally
  kept cs hcs := (hgrows.sites cs).2 ((List.mem_append.1 hcs).imp_left (h.kept cs))
  complete m hm hnot cs hcs := (hgrows.sites cs).2 (.inl (h.complete m hm hnot cs hcs))
  origin cs hcs := by
    rcases (hgrows.sites cs).1 hcs with hcs | hcs
    · exact (h.origin cs hcs).imp_left (List.mem_append_left _)
    · exact .inl (List.mem_append_right _ hcs)

/-- The calls of a method are added: all of them, or it is abandoned. -/
theorem resolve {rest : List MethodId} (h : Ledger u R added abandoned asked b)
    (hp : b.pending = m :: rest) (hg : Growing u added b')
    (hgrows : Grows { b with pending := rest } b' new) (hcaller : ∀ cs ∈ new, cs.caller = m)
    (hsub : ∀ cs ∈ new, cs ∈ R m) {given : List MethodId} (habandoned : ∀ x ∈ abandoned, x ∈ given)
    (hall : m ∉ given → ∀ cs ∈ R m, cs ∈ new) :
    Ledger u R added given (asked ++ [m]) b' where
  growing := hg
  tally := by
    refine hgrows.tally (asked ++ [m]) ?_
    have ht : b.reachable.Perm (rootMethod :: (asked ++ b.pending)) := h.tally
    rw [hp] at ht
    simpa [Tally] using ht
  kept cs hcs := (hgrows.sites cs).2 (.inl (h.kept cs hcs))
  complete x hx hnot cs hcs := by
    rcases List.mem_append.1 hx with hx | hx
    · exact (hgrows.sites cs).2 (.inl (h.complete x hx (fun ha => hnot (habandoned x ha)) cs hcs))
    · rw [List.mem_singleton] at hx
      subst hx
      exact (hgrows.sites cs).2 (.inr (hall hnot cs hcs))
  origin cs hcs := by
    rcases (hgrows.sites cs).1 hcs with hcs | hcs
    · exact (h.origin cs hcs).imp_right fun ⟨hasked, hR⟩ => ⟨List.mem_append_left _ hasked, hR⟩
    · rw [hcaller cs hcs]
      exact .inr ⟨by simp, hsub cs hcs⟩

/-- **A build and its resolver.** If it succeeds nothing is pending, and if it fails, one
method is abandoned, of which a call was refused. -/
theorem build (h : Ledger u R added abandoned asked b) :
    ∃ out b' more, (Builder.build u R).go b = (out, b') ∧
      (Request.build R).noted u b asked = asked ++ more ∧ b'.config = b.config ∧
      match out with
      | .ok _ => Ledger u R added abandoned (asked ++ more) b' ∧ b'.pending = []
      | .error e => ∃ m ∈ asked ++ more, Ledger u R added (abandoned ++ [m]) (asked ++ more) b' ∧
          ∃ cs ∈ R m, Refuses u m cs e := by
  have hround : ∀ (asked : List MethodId) (b : Builder) (m : MethodId) (rest : List MethodId),
      Ledger u R added abandoned asked b → b.pending = m :: rest →
      EndsIn (Ledger u R added abandoned (asked ++ [m])) (fun e b' => ∃ x ∈ asked ++ [m],
          Ledger u R added (abandoned ++ [x]) (asked ++ [m]) b' ∧ ∃ cs ∈ R x, Refuses u x cs e)
        ((addCalls u m (R m)).go { b with pending := rest }) := by
    intro asked b m rest h hp
    obtain ⟨out, b', new, hgo, hg, hgrows, hcaller, hout⟩ := h.growing.round hp R
    rw [hgo]
    cases out with
    | ok _ =>
      subst hout
      exact h.resolve hp hg hgrows hcaller (fun cs hcs => hcs) (fun x hx => hx)
        fun _ cs hcs => hcs
    | error e =>
      obtain ⟨cs, later, hR, hrefuses⟩ := hout
      refine ⟨m, by simp, ?_, cs, by rw [hR]; simp, hrefuses⟩
      refine h.resolve hp hg hgrows hcaller (fun x hx => ?_) (fun x hx => by simp [hx])
        fun hnot => absurd (by simp) hnot
      rw [hR]
      exact List.mem_append_left _ hx
  obtain ⟨out, b', more, hgo, hnoted, hend⟩ :=
    build_run (P := Ledger u R added abandoned)
      (E := fun e asked b => ∃ m ∈ asked, Ledger u R added (abandoned ++ [m]) asked b ∧
        ∃ cs ∈ R m, Refuses u m cs e)
      hround (fun _ _ log h => h.withLog log) asked h.growing.unfrozen h
  refine ⟨out, b', more, hgo, by rw [Request.noted, hnoted], ?_, ?_⟩
  · have hconfig := (h.growing.build R).config
    rwa [hgo] at hconfig
  · cases out with
    | error e => exact hend
    | ok _ =>
      refine ⟨hend.1, hend.2.resolve_right fun hlt => ?_⟩
      have hle := hend.1.length_asked_le
      rw [List.length_append] at hle
      omega

end Ledger

/-! ## Whole sessions -/

/-- Every build is given the resolver `R`. -/
def ResolvedBy (R : MethodId → List CallSite) (requests : List Request) : Prop :=
  ∀ calls, Request.build calls ∈ requests → calls = R

theorem ResolvedBy.append_build {R : MethodId → List CallSite} {requests : List Request}
    (h : ResolvedBy R requests) : ResolvedBy R (requests ++ [.build R]) := by
  intro calls hcalls
  rcases List.mem_append.1 hcalls with hcalls | hcalls
  · exact h calls hcalls
  · simpa using hcalls

namespace Session

variable {R : MethodId → List CallSite} {names : List String} {requests done : List Request}
  {s : Session}

/-- The methods at which builds failed. -/
def abandoned (s : Session) : List MethodId :=
  s.outcomes.filterMap fun
    | (.build _, .error e) => e.method?
    | _ => none

/-- **What a session with one resolver keeps**, where `names` are the entry points of
the configuration. A build fails at a method of which a call is refused. -/
structure Kept (u : Universe) (R : MethodId → List CallSite) (names : List String)
    (done : List Request) (s : Session) : Prop where
  config : s.builder.config.entryPoints = names
  ledger : Ledger u R (done.flatMap (Request.added u names)) s.abandoned s.asked s.builder
  failed : ∀ calls e, (Request.build calls, Except.error e) ∈ s.outcomes →
    ∃ m ∈ s.asked, ∃ cs ∈ R m, Refuses u m cs e

/-- A build that ends early abandons the method it was at. -/
theorem nextBuild_kept (h : Kept u R names done s) :
    Kept u R names (done ++ [.build R]) (s.next u (.build R)) := by
  obtain ⟨out, b', more, hgo, hnoted, hconfig, hend⟩ := h.ledger.build
  have hadded : (done ++ [Request.build R]).flatMap (Request.added u names) =
      done.flatMap (Request.added u names) := by
    simp [Request.added]
  have hnext : s.next u (.build R) =
      ⟨b', s.outcomes ++ [(.build R, out)], s.asked ++ more⟩ := by
    rw [next, Request.step, hgo, hnoted]
  have hold : ∀ calls e, (Request.build calls, Except.error e) ∈ s.outcomes →
      ∃ m ∈ s.asked ++ more, ∃ cs ∈ R m, Refuses u m cs e := by
    intro calls e he
    obtain ⟨m, hm, hrefuses⟩ := h.failed calls e he
    exact ⟨m, List.mem_append_left _ hm, hrefuses⟩
  rw [hnext]
  cases out with
  | ok _ =>
    refine ⟨hconfig ▸ h.config, ?_, fun calls e he => hold calls e (by simpa using he)⟩
    rw [hadded]
    simpa [abandoned] using hend.1
  | error e =>
    obtain ⟨m, hm, hledger, cs, hcs, hrefuses⟩ := hend
    refine ⟨hconfig ▸ h.config, ?_, fun calls e' he => ?_⟩
    · rw [hadded]
      simpa [abandoned, hrefuses.method?] using hledger
    · rcases List.mem_append.1 he with he | he
      · exact hold calls e' he
      · obtain ⟨-, rfl⟩ : calls = R ∧ e' = e := by simpa using he
        exact ⟨m, hm, cs, hcs, hrefuses⟩

/-- Any request keeps this that does not build with another resolver. -/
theorem next_kept (h : Kept u R names done s) (r : Request)
    (hr : ∀ calls, r = .build calls → calls = R) :
    Kept u R names (done ++ [r]) (s.next u r) := by
  by_cases hbuild : ∃ calls, r = .build calls
  · obtain ⟨calls, rfl⟩ := hbuild
    rw [hr calls rfl]
    exact nextBuild_kept h
  · have hno : ∀ calls, r ≠ .build calls := fun calls heq => hbuild ⟨calls, heq⟩
    obtain ⟨hg, hgrows⟩ := h.ledger.growing.request r hno
    rw [h.config] at hg hgrows
    have hnoted : r.noted u s.builder s.asked = s.asked := by
      cases r with
      | build calls => exact absurd rfl (hno calls)
      | _ => rfl
    have hsame : (s.next u r).abandoned = s.abandoned := by
      cases r with
      | build calls => exact absurd rfl (hno calls)
      | _ => simp [next, abandoned]
    refine ⟨(congrArg Config.entryPoints hgrows.config).trans h.config, ?_, fun calls e he => ?_⟩
    · rw [hsame, next, hnoted, List.flatMap_append, List.flatMap_singleton]
      exact h.ledger.grow hg hgrows
    · rw [next, hnoted]
      refine h.failed calls e ((List.mem_append.1 he).resolve_right fun hin => hno calls ?_)
      exact (congrArg Prod.fst (List.mem_singleton.1 hin)).symm

/-- **Every session with one resolver keeps the ledger.** -/
theorem run_kept (cfg : Config) (log : Log) (u : Universe) (h : Option Hierarchy)
    (hR : ResolvedBy R requests) :
    Kept u R cfg.entryPoints requests (run u (new cfg log u h).1 requests) := by
  refine foldl_run (Kept u R cfg.entryPoints) ?_ ?_
  · exact ⟨rfl, ledger_new cfg log u h R, fun calls e he => absurd he List.not_mem_nil⟩
  · rintro done r s ⟨rest, hrequests⟩ hs
    refine next_kept hs r fun calls hcalls => hR calls ?_
    rw [hrequests, ← hcalls]
    simp

end Session

/-! ## The least graph -/

/-- The methods that have to be reachable: the root, the callees of the calls
`added` by clients, and with every method but the root the callees of the
calls that the resolver gives for it. -/
inductive Needed (R : MethodId → List CallSite) (added : List CallSite) : MethodId → Prop
  | root : Needed R added rootMethod
  | added {cs : CallSite} (h : cs ∈ added) : Needed R added cs.callee
  | called {m : MethodId} {cs : CallSite} (hm : Needed R added m) (hne : m ≠ rootMethod)
      (hcs : cs ∈ R m) : Needed R added cs.callee

theorem mem_reachables : m ∈ b.reachables ↔ m ∈ b.reachable := List.mem_mergeSort

/-- The list of the reachable methods tells no more than which ones they are. -/
theorem reachables_congr (h : b.reachable.Nodup) (h' : b'.reachable.Nodup)
    (hmem : ∀ m, m ∈ b'.reachables ↔ m ∈ b.reachables) : b'.reachables = b.reachables := by
  simp only [mem_reachables] at hmem
  have hperm : b'.reachable.Perm b.reachable := (List.perm_ext_iff_of_nodup h' h).2 hmem
  have hsorted : ∀ l : List MethodId,
      (l.mergeSort fun x y => decide (x ≤ y)).Pairwise fun x y => x ≤ y := by
    intro l
    refine (List.pairwise_mergeSort (fun x y z hxy hyz => ?_) (fun x y => ?_) l).imp
      fun {x y} hxy => of_decide_eq_true hxy
    · exact decide_eq_true (Int.le_trans (of_decide_eq_true hxy) (of_decide_eq_true hyz))
    · simpa using Int.le_total x y
  refine List.Perm.eq_of_pairwise (fun x y _ _ hxy hyx => Int.le_antisymm hxy hyx)
    (hsorted _) (hsorted _) ?_
  exact (List.mergeSort_perm ..).trans (hperm.trans (List.mergeSort_perm ..).symm)

namespace Ledger

variable {R : MethodId → List CallSite} {added : List CallSite} {abandoned asked : List MethodId}

/-- Nothing is reachable that does not have to be. -/
theorem needed (h : Ledger u R added abandoned asked b) (hm : m ∈ b.reachable) :
    Needed R added m := by
  obtain ⟨s, hs, hreach⟩ := h.growing.rooted m hm
  induction hreach with
  | refl =>
    rcases hs with rfl | ⟨cs, hcs, rfl⟩
    · exact .root
    · exact .added hcs
  | @tail x y hx hstep ih =>
    obtain ⟨cs, hcs, rfl, rfl⟩ := CallGraph.mem_successors_iff_sites.1 hstep
    rcases h.origin cs hcs with hadded | ⟨hasked, hR⟩
    · exact .added hadded
    · obtain ⟨hcaller, hne⟩ := h.mem_asked hasked
      exact .called (ih hcaller) hne hR

/-- Where nothing is pending, all methods but the root have been asked about. -/
theorem mem_asked_iff (h : Ledger u R added abandoned asked b) (hp : b.pending = []) :
    m ∈ asked ↔ m ∈ b.reachable ∧ m ≠ rootMethod := by
  refine ⟨h.mem_asked, fun ⟨hm, hne⟩ => ?_⟩
  have hmem := h.tally.mem_iff.1 hm
  rw [hp, List.append_nil] at hmem
  exact (List.mem_cons.1 hmem).resolve_left hne

/-- What has to be reachable is, where nothing is pending or abandoned. -/
theorem mem_of_needed (h : Ledger u R added [] asked b) (hp : b.pending = [])
    (hm : Needed R added m) : m ∈ b.reachable := by
  induction hm with
  | root => exact h.growing.root_mem
  | added hcs => exact h.growing.callee_mem (h.kept _ hcs)
  | called _ hne hcs ih =>
    have hasked := (h.mem_asked_iff hp).2 ⟨ih, hne⟩
    exact h.growing.callee_mem (h.complete _ hasked List.not_mem_nil _ hcs)

/-- The reachable methods are the least set that is closed under the calls. -/
theorem mem_iff_needed (h : Ledger u R added [] asked b) (hp : b.pending = []) :
    m ∈ b.reachables ↔ Needed R added m := by
  rw [mem_reachables]
  exact ⟨h.needed, h.mem_of_needed hp⟩

/-- Where nothing is pending or abandoned, the calls are all there. -/
theorem mem_sites_iff (h : Ledger u R added [] asked b) (hp : b.pending = []) {cs : CallSite} :
    cs ∈ b.graph.sites ↔ cs ∈ added ∨ ∃ m ∈ b.reachables, m ≠ rootMethod ∧ cs ∈ R m := by
  simp only [mem_reachables]
  constructor
  · intro hcs
    refine (h.origin cs hcs).imp_right fun ⟨hasked, hR⟩ => ?_
    obtain ⟨hm, hne⟩ := h.mem_asked hasked
    exact ⟨cs.caller, hm, hne, hR⟩
  · rintro (hcs | ⟨m, hm, hne, hcs⟩)
    · exact h.kept cs hcs
    · exact h.complete m ((h.mem_asked_iff hp).2 ⟨hm, hne⟩) List.not_mem_nil cs hcs

/-- The resolver has been asked about each reachable method once. -/
theorem count_asked (h : Ledger u R added abandoned asked b) (hp : b.pending = []) :
    asked.count m = if m ∈ b.reachables ∧ m ≠ rootMethod then 1 else 0 := by
  have hnodup : asked.Nodup := (List.nodup_append.1 (List.nodup_cons.1 h.nodup).2).1
  rw [hnodup.count]
  simp only [mem_reachables, h.mem_asked_iff hp]

end Ledger

theorem Needed.congr {R : MethodId → List CallSite} {added added' : List CallSite}
    (h : ∀ cs, cs ∈ added' ↔ cs ∈ added) : Needed R added' m ↔ Needed R added m := by
  constructor <;> intro hm
  · induction hm with
    | root => exact .root
    | added hcs => exact .added ((h _).1 hcs)
    | called _ hne hcs ih => exact .called ih hne hcs
  · induction hm with
    | root => exact .root
    | added hcs => exact .added ((h _).2 hcs)
    | called _ hne hcs ih => exact .called ih hne hcs

/-- For every method the resolver gives only calls of that method, to methods. -/
def Faithful (u : Universe) (R : MethodId → List CallSite) : Prop :=
  ∀ m, u.hasMethod m → ∀ cs ∈ R m, cs.caller = m ∧ u.hasMethod cs.callee

namespace Session

variable {R : MethodId → List CallSite} {names : List String} {requests done : List Request}
  {s : Session}

/-- A faithful resolver is never refused a call. -/
theorem Kept.not_failed (h : Kept u R names done s) (hR : Faithful u R)
    {calls : MethodId → List CallSite} {e : BuildError}
    (he : (Request.build calls, Except.error e) ∈ s.outcomes) : False := by
  obtain ⟨m, hm, cs, hcs, hrefuses⟩ := h.failed calls e he
  obtain ⟨hreach, hne⟩ := h.ledger.mem_asked hm
  have hmethod := h.ledger.growing.hasMethod hreach hne
  obtain ⟨hcaller, hcallee⟩ := hR m hmethod cs hcs
  rcases hrefuses with ⟨hwrong, -⟩ | ⟨-, hends, -⟩
  · exact hwrong hcaller
  · exact hends (Universe.hasEnds_iff.2 ⟨hcaller ▸ hmethod, hcallee⟩)

/-- A faithful resolver has no method abandoned. -/
theorem Kept.abandoned_eq_nil (h : Kept u R names done s) (hR : Faithful u R) :
    s.abandoned = [] := by
  rw [abandoned, List.filterMap_eq_nil_iff]
  rintro ⟨r, out⟩ hin
  cases r with
  | build calls =>
    cases out with
    | ok _ => rfl
    | error e => exact (h.not_failed hR hin).elim
  | _ => rfl

/-- **The graph after a last build**, by a faithful resolver. -/
theorem run_build_faithful (cfg : Config) (log : Log) (u : Universe) (h : Option Hierarchy)
    (hR : Faithful u R) (hrequests : ResolvedBy R requests) :
    Ledger u R (requests.flatMap (Request.added u cfg.entryPoints)) []
        (run u (new cfg log u h).1 (requests ++ [.build R])).asked
        (run u (new cfg log u h).1 (requests ++ [.build R])).builder ∧
      (run u (new cfg log u h).1 (requests ++ [.build R])).builder.pending = [] := by
  have hkept := run_kept cfg log u h hrequests.append_build
  have hbefore := run_kept cfg log u h hrequests
  have hlast : run u (new cfg log u h).1 (requests ++ [.build R]) =
      (run u (new cfg log u h).1 requests).next u (.build R) := by
    rw [run, List.foldl_append]
    rfl
  have hledger := hkept.ledger
  rw [hkept.abandoned_eq_nil hR] at hledger
  refine ⟨by simpa [Request.added] using hledger, ?_⟩
  obtain ⟨out, b', more, hgo, -, -, hend⟩ := hbefore.ledger.build
  cases out with
  | ok _ =>
    rw [hlast, next, Request.step, hgo]
    exact hend.2
  | error e =>
    have hfailed : (Request.build R, Except.error e) ∈
        (run u (new cfg log u h).1 (requests ++ [.build R])).outcomes := by
      rw [hlast, next, Request.step, hgo]
      simp
    exact (hkept.not_failed hR hfailed).elim

end Session

/-- **Building computes the least graph that is closed under a faithful resolver.** In
any session that ends with a build, whatever was asked for before and in
whatever order, every build succeeds. The calls of the graph are then those
added by clients and those that the resolver gives for the reachable
methods other than the root, each of them once; only what has to be is
reachable; and the resolver has been asked once about every reachable
method other than the root, and about no other. A session that adds the
same calls leaves the same graph, wherever it builds. -/
theorem build_least (cfg : Config) (log : Log) (u : Universe) (h : Option Hierarchy)
    {R : MethodId → List CallSite} (hR : Faithful u R) {requests : List Request}
    (hrequests : ResolvedBy R requests) :
    let added := requests.flatMap (Request.added u cfg.entryPoints)
    let s := Session.run u (new cfg log u h).1 (requests ++ [.build R])
    (∀ calls out, (Request.build calls, out) ∈ s.outcomes → out = .ok ()) ∧
      s.builder.pending = [] ∧ s.builder.graph.sites.Nodup ∧
      (∀ cs, cs ∈ s.builder.graph.sites ↔
        cs ∈ added ∨ ∃ m ∈ s.builder.reachables, m ≠ rootMethod ∧ cs ∈ R m) ∧
      (∀ m, m ∈ s.builder.reachables ↔ Needed R added m) ∧
      (∀ m, s.asked.count m = if m ∈ s.builder.reachables ∧ m ≠ rootMethod then 1 else 0) ∧
      ∀ requests', ResolvedBy R requests' →
        (∀ cs, cs ∈ requests'.flatMap (Request.added u cfg.entryPoints) ↔ cs ∈ added) →
        let s' := Session.run u (new cfg log u h).1 (requests' ++ [.build R])
        s'.builder.reachables = s.builder.reachables ∧
          ∀ cs, cs ∈ s'.builder.graph.sites ↔ cs ∈ s.builder.graph.sites := by
  intro added s
  have hkept := Session.run_kept cfg log u h hrequests.append_build
  obtain ⟨hledger, hp⟩ := Session.run_build_faithful cfg log u h hR hrequests
  refine ⟨?_, hp, hledger.growing.graph.nodup_sites, fun cs => hledger.mem_sites_iff hp,
    fun m => hledger.mem_iff_needed hp, fun m => hledger.count_asked hp, ?_⟩
  · intro calls out hout
    cases out with
    | ok _ => rfl
    | error e => exact (hkept.not_failed hR hout).elim
  · intro requests' hrequests' hsame s'
    obtain ⟨hledger', hp'⟩ := Session.run_build_faithful cfg log u h hR hrequests'
    have hreach : s'.builder.reachables = s.builder.reachables := by
      refine reachables_congr hledger.growing.once hledger'.growing.once fun m => ?_
      rw [hledger'.mem_iff_needed hp', hledger.mem_iff_needed hp, Needed.congr hsame]
    refine ⟨hreach, fun cs => ?_⟩
    rw [hledger'.mem_sites_iff hp', hledger.mem_sites_iff hp, hsame, hreach]

/-- A universe of a few methods. -/
def fewMethods : Universe := { methods := #["<root>", "main", "a", "b", "c", "d"] }

/-- A resolver that looks calls up in a list. -/
def listed (l : List CallSite) (m : MethodId) : List CallSite := l.filter (·.caller == m)

theorem faithful_listed {l : List CallSite} (h : ∀ cs ∈ l, u.hasMethod cs.callee) :
    Faithful u (listed l) := by
  intro m _ cs hcs
  obtain ⟨hmem, hcaller⟩ := List.mem_filter.1 hcs
  exact ⟨by simpa using hcaller, h cs hmem⟩

/-- Calls with a diamond, a cycle, and a method that nothing reaches at first. -/
def diamond : List CallSite :=
  [⟨1, 2, 1⟩, ⟨1, 3, 2⟩, ⟨2, 4, 3⟩, ⟨3, 4, 4⟩, ⟨4, 1, 6⟩, ⟨5, 2, 5⟩]

/-- An entry point, a build, a call that leads to the method that was not reached, and
one more build. -/
def twoBuilds : List Request :=
  [.entry 1, .build (listed diamond), .edge ⟨4, 5, 7⟩]

theorem build_least_diamond :
    let s := Session.run fewMethods (new {} (.new 0 true) fewMethods none).1
      (twoBuilds ++ [.build (listed diamond)])
    s.builder.reachables = [0, 1, 2, 3, 4, 5] ∧ s.asked = [1, 3, 4, 2, 5] ∧
      (∀ m, s.asked.count m = if m ∈ s.builder.reachables ∧ m ≠ rootMethod then 1 else 0) ∧
      ∀ cs, cs ∈ s.builder.graph.sites ↔
        cs ∈ [CallSite.entry 1, ⟨4, 5, 7⟩] ∨
          ∃ m ∈ s.builder.reachables, m ≠ rootMethod ∧ cs ∈ listed diamond m := by
  intro s
  have hR : Faithful fewMethods (listed diamond) := faithful_listed (by decide)
  have hrequests : ResolvedBy (listed diamond) twoBuilds := by
    intro calls hcalls
    simpa [twoBuilds] using hcalls
  obtain ⟨-, -, -, hsites, -, hcount, -⟩ :=
    build_least {} (.new 0 true) fewMethods none hR hrequests
  exact ⟨by cbv, by cbv, hcount, hsites⟩

/-! ## Builds that fail -/

namespace Session

variable {R : MethodId → List CallSite} {names : List String} {done : List Request} {s : Session}

theorem mem_abandoned {calls : MethodId → List CallSite} {e : BuildError}
    (he : (Request.build calls, Except.error e) ∈ s.outcomes) (hm : e.method? = some m) :
    m ∈ s.abandoned :=
  List.mem_filterMap.2 ⟨_, he, hm⟩

/-- A method is abandoned by a build that failed at it. -/
theorem exists_of_mem_abandoned (h : m ∈ s.abandoned) :
    ∃ calls e, (Request.build calls, Except.error e) ∈ s.outcomes ∧ e.method? = some m := by
  obtain ⟨⟨r, out⟩, hin, hm⟩ := List.mem_filterMap.1 h
  match r, out, hm with
  | .build calls, .error e, hm => exact ⟨calls, e, hin, hm⟩

/-- A method is abandoned after it has been asked about. -/
theorem Kept.asked_of_abandoned (h : Kept u R names done s) (hm : m ∈ s.abandoned) :
    m ∈ s.asked := by
  obtain ⟨calls, e, hin, he⟩ := exists_of_mem_abandoned hm
  obtain ⟨x, hx, cs, -, hrefuses⟩ := h.failed calls e hin
  rwa [← Option.some.inj (hrefuses.method?.symm.trans he)]

end Session

/-- **When a build that succeeds is complete.** After any session with one resolver, a
build that succeeds leaves the calls of all reachable methods but the root
in the graph iff it finds there, one way or another, the calls of the
methods at which earlier builds failed: it does not resolve these again. A
call that an earlier build refused because it leads to no method is
missing for good. -/
theorem build_complete_iff (cfg : Config) (log : Log) (u : Universe) (h : Option Hierarchy)
    {R : MethodId → List CallSite} {requests : List Request} (hrequests : ResolvedBy R requests)
    {b' : Builder}
    (hok : (build u R).go (Session.run u (new cfg log u h).1 requests).builder = (.ok (), b')) :
    let s := Session.run u (new cfg log u h).1 requests
    ((∀ m ∈ b'.reachables, m ≠ rootMethod → ∀ cs ∈ R m, cs ∈ b'.graph.sites) ↔
      ∀ m ∈ s.abandoned, ∀ cs ∈ R m, cs ∈ b'.graph.sites) ∧
    (∀ m ∈ s.abandoned, m ∈ b'.reachables ∧ m ≠ rootMethod) ∧
    ∀ calls cs, (Request.build calls, Except.error (.unknownMethod cs)) ∈ s.outcomes →
      cs.caller ∈ s.abandoned ∧ cs ∈ R cs.caller ∧ cs ∉ b'.graph.sites := by
  intro s
  have hkept : s.Kept u R cfg.entryPoints requests := Session.run_kept cfg log u h hrequests
  obtain ⟨out, b₁, more, hgo, -, -, hend⟩ := hkept.ledger.build
  obtain ⟨rfl, rfl⟩ := Prod.mk.inj (hgo.symm.trans hok)
  obtain ⟨hledger, hp⟩ := hend
  have habandoned : ∀ m ∈ s.abandoned, m ∈ b₁.reachables ∧ m ≠ rootMethod := by
    intro m hm
    rw [mem_reachables]
    exact hledger.mem_asked (List.mem_append_left _ (hkept.asked_of_abandoned hm))
  refine ⟨⟨fun hall m hm => ?_, fun hall m hm hne cs hcs => ?_⟩, habandoned, ?_⟩
  · obtain ⟨hreach, hne⟩ := habandoned m hm
    exact hall m hreach hne
  · have hasked := (hledger.mem_asked_iff hp).2 ⟨mem_reachables.1 hm, hne⟩
    by_cases hgiven : m ∈ s.abandoned
    · exact hall m hgiven cs hcs
    · exact hledger.complete m hasked hgiven cs hcs
  · intro calls cs hin
    obtain ⟨m, -, x, hx, hrefuses⟩ := hkept.failed calls _ hin
    rcases hrefuses with ⟨-, heq⟩ | ⟨rfl, hends, heq⟩
    · cases heq
    · obtain rfl := BuildError.unknownMethod.inj heq
      exact ⟨Session.mem_abandoned hin rfl, hx, fun hcs => hends (hledger.growing.ends cs hcs)⟩

/-- The first call has a caller that was not asked about. -/
def strangeCalls (m : MethodId) : List CallSite := if m = 1 then [⟨2, 3, 1⟩, ⟨1, 2, 2⟩] else []

/-- After a build that failed, the calls are added by hand. -/
def addedByHand : List Request :=
  [.entry 1, .build strangeCalls, .edge ⟨2, 3, 1⟩, .edge ⟨1, 2, 2⟩]

theorem build_complete_iff_addedByHand :
    let s := Session.run fewMethods (new {} (.new 0 true) fewMethods none).1 addedByHand
    s.abandoned = [1] ∧ ∃ b', (build fewMethods strangeCalls).go s.builder = (.ok (), b') ∧
      ∀ m ∈ b'.reachables, m ≠ rootMethod → ∀ cs ∈ strangeCalls m, cs ∈ b'.graph.sites := by
  intro s
  have hrequests : ResolvedBy strangeCalls addedByHand := by
    intro calls hcalls
    simpa [addedByHand] using hcalls
  have habandoned : s.abandoned = [1] := by cbv
  have hok : ((build fewMethods strangeCalls).go s.builder).1 = .ok () := by cbv
  have hsites : ((build fewMethods strangeCalls).go s.builder).2.graph.sites =
      [.entry 1, ⟨2, 3, 1⟩, ⟨1, 2, 2⟩] := by cbv
  have hrun : (build fewMethods strangeCalls).go s.builder =
      (.ok (), ((build fewMethods strangeCalls).go s.builder).2) := Prod.ext hok rfl
  obtain ⟨hiff, -⟩ := build_complete_iff {} (.new 0 true) fewMethods none hrequests hrun
  refine ⟨habandoned, _, hrun, hiff.2 fun m hm => ?_⟩
  have hm : m ∈ s.abandoned := hm
  rw [habandoned, List.mem_singleton] at hm
  rw [hm, hsites]
  decide

/-- The first call leads to no method. -/
def brokenCalls (m : MethodId) : List CallSite := if m = 1 then [⟨1, 7, 1⟩, ⟨1, 2, 2⟩] else []

/-- **A failed build is forgotten.** The first build fails at a call to no method. The
second one succeeds, with the same resolver, on a graph that has neither
this call nor the one after it. -/
theorem build_forgets_failure :
    let s := Session.run fewMethods (new {} (.new 0 true) fewMethods none).1
      [.entry 1, .build brokenCalls]
    s.outcomes.map (·.2) = [.ok (), .error (.unknownMethod ⟨1, 7, 1⟩)] ∧
      ∃ b', (build fewMethods brokenCalls).go s.builder = (.ok (), b') ∧
        b'.reachables = [0, 1] ∧ b'.graph.sites = [.entry 1] ∧
        ¬ ∀ m ∈ b'.reachables, m ≠ rootMethod → ∀ cs ∈ brokenCalls m, cs ∈ b'.graph.sites := by
  intro s
  have hok : ((build fewMethods brokenCalls).go s.builder).1 = .ok () := by cbv
  have hreach : ((build fewMethods brokenCalls).go s.builder).2.reachables = [0, 1] := by cbv
  have hsites : ((build fewMethods brokenCalls).go s.builder).2.graph.sites = [.entry 1] := by cbv
  have hrun : (build fewMethods brokenCalls).go s.builder =
      (.ok (), ((build fewMethods brokenCalls).go s.builder).2) := Prod.ext hok rfl
  refine ⟨by cbv, _, hrun, hreach, hsites, fun hall => ?_⟩
  rw [hreach, hsites] at hall
  exact absurd hall (by decide)

end Builder

end PointsTo
