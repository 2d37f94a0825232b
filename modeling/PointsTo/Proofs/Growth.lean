import Mathlib.Data.List.Perm.Subperm
import PointsTo.Builder
import PointsTo.Proofs.Recondensing
import PointsTo.Proofs.Steps
import PointsTo.Proofs.Universes
/-!
# Growing a call graph

A builder adds calls one by one, those of its clients and those a resolver
gives for the methods that became reachable. `Growing` is what holds of a
builder all the while, whatever it is asked to do and whether it fails:
the reachable methods are the root and the callees of the calls that are
there, and a path of calls leads to each of them from the root or from the
callee of a call that a client added. `Grows` says what a step does to a
builder, and `Tally` that every reachable method is the root, or pending,
or has been asked about, once.
-/

namespace PointsTo

namespace Universe

variable {u : Universe} {m : MethodId} {cs : CallSite}

/-- Both ends of the call are methods. -/
def hasEnds (u : Universe) (cs : CallSite) : Bool := u.hasMethod cs.caller && u.hasMethod cs.callee

theorem hasMethod_iff : u.hasMethod m ↔ 0 ≤ m ∧ m < u.methods.size := by
  simp [hasMethod]

/-- A call has ends if both of its methods are there. -/
theorem hasEnds_iff : u.hasEnds cs ↔ u.hasMethod cs.caller ∧ u.hasMethod cs.callee :=
  Bool.and_eq_true_iff

/-- A method that has a name can be called by the root. -/
theorem hasEnds_entry {name : String} (h : u.lookupMethod name = some m) :
    u.hasEnds (.entry m) := by
  obtain ⟨k, rfl, -, a, ha, -⟩ := position?_eq_some h
  have hlt := (Array.getElem?_eq_some_iff.1 ha).1
  have hpos : 0 < u.methods.size := by omega
  exact hasEnds_iff.2 ⟨hasMethod_iff.2 ⟨Int.le_refl 0, Int.natCast_pos.2 hpos⟩,
    hasMethod_iff.2 ⟨Int.natCast_nonneg k, Int.ofNat_lt.2 hlt⟩⟩

end Universe

namespace CallGraph

variable {g : CallGraph} {cs : CallSite}

/-- The call sites that have an edge, in the order they were added. -/
def sites (g : CallGraph) : List CallSite := g.edges.toList.map (·.toCallSite)

/-- The call sites are those of the edges. -/
theorem mem_sites : cs ∈ g.sites ↔ ∃ e ∈ g.edges, e.toCallSite = cs := by
  simp [sites]

theorem Lasting.nodup_sites (hg : g.Lasting) : g.sites.Nodup := hg.distinct

/-- A call leads from its caller to its callee. -/
theorem Reaches.of_mem_sites (h : cs ∈ g.sites) : g.Reaches cs.caller cs.callee := by
  obtain ⟨e, he, rfl⟩ := mem_sites.1 h
  exact .of_edge he

/-- Successors are read off the call sites, whatever else the edges hold. -/
theorem mem_successors_iff_sites {a b : MethodId} :
    b ∈ g.successors a ↔ ∃ cs ∈ g.sites, cs.caller = a ∧ cs.callee = b := by
  rw [mem_successors]
  constructor
  · rintro ⟨e, he, hends⟩
    exact ⟨e.toCallSite, mem_sites.2 ⟨e, he, rfl⟩, hends⟩
  · rintro ⟨cs, hcs, hends⟩
    obtain ⟨e, he, rfl⟩ := mem_sites.1 hcs
    exact ⟨e, he, hends⟩

/-- A call site has a position exactly if there is an edge for it. -/
theorem isSome_position? : (g.position? cs).isSome ↔ cs ∈ g.sites := by
  rw [position?, List.findIdx?_isSome, List.any_eq_true, mem_sites]
  simp

/-- The graph with one more edge. -/
def withCall (g : CallGraph) (cs : CallSite) : CallGraph :=
  { (g.ensure cs.caller).ensure cs.callee with edges := g.edges.push { cs with } }

/-- The new call comes last. -/
theorem sites_withCall (g : CallGraph) (cs : CallSite) :
    (g.withCall cs).sites = g.sites ++ [cs] := by
  simp [sites, withCall]

/-- **A call that is there changes nothing**, and the answer says so. -/
theorem go_addEdge_of_mem (h : cs ∈ g.sites) : (addEdge cs).go g = (.ok false, g) := by
  obtain ⟨i, hi⟩ := Option.isSome_iff_exists.1 (isSome_position?.2 h)
  simp [addEdge, Attempt.go_bind, hi]

/-- A call that is not is added at the end. -/
theorem go_addEdge_of_not_mem (hcaller : 0 ≤ cs.caller) (h : cs ∉ g.sites) :
    (addEdge cs).go g = (.ok true, g.withCall cs) := by
  have hnone : g.position? cs = none :=
    Option.not_isSome_iff_eq_none.1 fun hsome => h (isSome_position?.1 hsome)
  have hneg : ¬ cs.caller < 0 := Int.not_lt.2 hcaller
  simp only [addEdge, Attempt.go_bind, Attempt.go_get, hnone, Attempt.go_modify, hneg, if_false,
    Attempt.go_pure]
  rfl

/-- A new call keeps a graph lasting: what it had, it has. -/
theorem Lasting.withCall (hg : g.Lasting) (hcaller : 0 ≤ cs.caller) (hcallee : 0 ≤ cs.callee)
    (h : cs ∉ g.sites) : (g.withCall cs).Lasting := by
  have hadded := hg.addEdge hcaller hcallee
  rwa [go_addEdge_of_not_mem hcaller h] at hadded

end CallGraph

namespace Builder

variable {u : Universe} {b b' b'' : Builder} {cs : CallSite} {m : MethodId}

/-! ## Running steps -/

section Running

variable {α β : Type} {μ : Type → Type} [Monad μ]

/-- The second part runs where the first one has ended, unless that failed. -/
theorem Step.go_bind (x : Step α) (f : α → Step β) (b : Builder) :
    (x >>= f).go b = match x.go b with
      | (.ok a, b') => (f a).go b'
      | (.error e, b') => (.error e, b') := by
  simp only [go]
  rw [Steps.run_bind]
  generalize (StateT.run (ExceptT.run x) b : Except BuildError α × Builder) = run
  obtain ⟨r, b'⟩ := run
  cases r <;> rfl

@[simp] theorem Step.go_pure (a : α) (b : Builder) : (pure a : Step α).go b = (.ok a, b) := rfl

@[simp] theorem Step.go_get (b : Builder) : (get : Step Builder).go b = (.ok b, b) := rfl

@[simp] theorem Step.go_set (b b' : Builder) : (set b' : Step PUnit).go b = (.ok ⟨⟩, b') := rfl

@[simp] theorem Step.go_throw (e : BuildError) (b : Builder) :
    (throw e : Step α).go b = (.error e, b) := rfl

/-- Goes on where a step has ended, unless it failed. -/
def resume (f : α → Builder → μ (Except BuildError β × Builder)) :
    Except BuildError α × Builder → μ (Except BuildError β × Builder)
  | (.ok a, b) => f a b
  | (.error e, b) => pure (.error e, b)

/-- The second part goes on from where the first one ended, unless that failed; what is
asked of the resolver in between is asked in that order. -/
theorem Consulting.go_bind (x : Consulting μ α) (f : α → Consulting μ β) (b : Builder) :
    (x >>= f).go b = x.go b >>= resume fun a => (f a).go := by
  simp only [go, ExceptT.run_bind, StateT.run_bind]
  refine bind_congr fun run => ?_
  obtain ⟨r, b'⟩ := run
  cases r <;> rfl

@[simp] theorem Consulting.go_pure (a : α) (b : Builder) :
    (pure a : Consulting μ α).go b = pure (.ok a, b) := rfl

@[simp] theorem Consulting.go_throw (e : BuildError) (b : Builder) :
    (throw e : Consulting μ α).go b = pure (.error e, b) := rfl

/-- A step that asks nothing is run as it is. -/
@[simp] theorem Consulting.go_alone (s : Step α) (b : Builder) :
    (s.alone : Consulting μ α).go b = pure (s.go b) := rfl

variable [LawfulMonad μ]

/-- What a resolver does to the builder is kept. -/
@[simp] theorem Consulting.go_liftM (x : StateT Builder μ α) (b : Builder) :
    (liftM x : Consulting μ α).go b =
      x.run b >>= fun run => pure (.ok run.1, run.2) := by
  have hrun : ExceptT.run (liftM x : Consulting μ α) = Except.ok <$> x := rfl
  rw [go, hrun, StateT.run_map, map_eq_pure_bind]

@[simp] theorem Consulting.go_get (b : Builder) :
    (get : Consulting μ Builder).go b = pure (.ok b, b) := by
  have hlift : (get : Consulting μ Builder) = liftM (get : StateT Builder μ Builder) := rfl
  rw [hlift, go_liftM, StateT.run_get, pure_bind]

@[simp] theorem Consulting.go_set (b b' : Builder) :
    (set b' : Consulting μ PUnit).go b = pure (.ok ⟨⟩, b') := by
  have hlift : (set b' : Consulting μ PUnit) = liftM (set b' : StateT Builder μ PUnit) := rfl
  rw [hlift, go_liftM, StateT.run_set, pure_bind]

@[simp] theorem Consulting.go_modify (f : Builder → Builder) (b : Builder) :
    (modify f : Consulting μ PUnit).go b = pure (.ok ⟨⟩, f b) := by
  have hlift : (modify f : Consulting μ PUnit) = liftM (modify f : StateT Builder μ PUnit) := rfl
  rw [hlift, go_liftM, StateT.run_modify, pure_bind]

/-- What it does elsewhere leaves the builder alone. -/
@[simp] theorem Consulting.go_monadLift (x : μ α) (b : Builder) :
    (liftM x : Consulting μ α).go b = x >>= fun a => pure (.ok a, b) := by
  have hlift : (liftM x : Consulting μ α) = liftM (liftM x : StateT Builder μ α) := rfl
  rw [hlift, go_liftM, StateT.run_monadLift]
  simp

end Running

/-! ## Adding a call -/

/-- An edge with an unknown end is refused, and changes nothing. -/
theorem go_addEdge_of_unknown (hopen : b.result = none) (h : ¬ u.hasEnds cs) :
    (addEdge u cs).go b = (.error (.unknownMethod cs), b) := by
  have hends : (!u.hasMethod cs.caller || !u.hasMethod cs.callee) = true := by
    simpa [Universe.hasEnds, Bool.or_eq_true, imp_iff_not_or] using h
  simp [addEdge, Step.go_bind, hopen, hends]

/-- An edge that is there is accepted once more. -/
theorem go_addEdge_of_mem (hopen : b.result = none) (h : u.hasEnds cs) (hin : cs ∈ b.graph.sites) :
    (addEdge u cs).go b = (.ok false, b) := by
  have hends : (!u.hasMethod cs.caller || !u.hasMethod cs.callee) = false := by
    simpa [Universe.hasEnds] using h
  simp [addEdge, Step.go_bind, hopen, hends, CallGraph.go_addEdge_of_mem hin]

/-- **A new edge makes its callee reachable**, and says so in the log. -/
theorem go_addEdge_of_not_mem (hopen : b.result = none) (h : u.hasEnds cs)
    (hin : cs ∉ b.graph.sites) : ∃ log, (addEdge u cs).go b =
      (.ok true, ({ b with graph := b.graph.withCall cs, log } : Builder).reach cs.callee) := by
  have hcaller : 0 ≤ cs.caller := (Universe.hasMethod_iff.1 (Universe.hasEnds_iff.1 h).1).1
  have hends : (!u.hasMethod cs.caller || !u.hasMethod cs.callee) = false := by
    simpa [Universe.hasEnds] using h
  simp only [addEdge, Step.go_bind, Step.go_get, Step.go_set, Step.go_pure, hopen, hends,
    CallGraph.go_addEdge_of_not_mem hcaller hin, Option.isSome_none,
    Bool.false_eq_true, if_false]
  exact ⟨_, rfl⟩

/-- **What holds of a builder while its graph is grown**, where `added` are
calls that clients have added. -/
structure Growing (u : Universe) (added : List CallSite) (b : Builder) : Prop where
  unfrozen : b.result = none
  graph : b.graph.Lasting
  ends : ∀ cs ∈ b.graph.sites, u.hasEnds cs
  /-- The root is reachable, and whatever is called. -/
  reachable : ∀ m, m ∈ b.reachable ↔ m = rootMethod ∨ ∃ cs ∈ b.graph.sites, cs.callee = m
  once : b.reachable.Nodup
  pending : ∀ m ∈ b.pending, m ∈ b.reachable
  /-- Calls lead to every reachable method, from the root or from the
  callee of a call that was added. -/
  rooted : ∀ m ∈ b.reachable,
    ∃ s, (s = rootMethod ∨ ∃ cs ∈ added, cs.callee = s) ∧ b.graph.Reaches s m

/-- The reachable methods are the root, those that have been asked about,
and the pending ones. -/
def Tally (asked : List MethodId) (b : Builder) : Prop :=
  b.reachable.Perm (rootMethod :: (asked ++ b.pending))

/-- **What a step does to a builder** that adds the calls `new`. -/
structure Grows (b b' : Builder) (new : List CallSite) : Prop where
  config : b'.config = b.config
  sites : ∀ cs, cs ∈ b'.graph.sites ↔ cs ∈ b.graph.sites ∨ cs ∈ new
  reachable : ∀ m ∈ b.reachable, m ∈ b'.reachable
  tally : ∀ asked, Tally asked b → Tally asked b'

namespace Grows

variable {new new' : List CallSite}

theorem refl (b : Builder) : Grows b b [] := ⟨rfl, by simp, fun _ h => h, fun _ h => h⟩

/-- What is new comes in the order it was made. -/
theorem trans (h : Grows b b' new) (h' : Grows b' b'' new') : Grows b b'' (new ++ new') where
  config := h'.config.trans h.config
  sites cs := by rw [h'.sites, h.sites, List.mem_append, or_assoc]
  reachable m hm := h'.reachable m (h.reachable m hm)
  tally asked ht := h'.tally asked (h.tally asked ht)

end Grows

namespace Growing

variable {added added' : List CallSite}

/-- More may have been added than is known of. -/
theorem mono (h : Growing u added b) (hsub : ∀ cs ∈ added, cs ∈ added') : Growing u added' b :=
  { h with
    rooted := by
      intro m hm
      obtain ⟨s, hs, hreach⟩ := h.rooted m hm
      exact ⟨s, hs.imp_right fun ⟨cs, hcs, hcallee⟩ => ⟨cs, hsub cs hcs, hcallee⟩, hreach⟩ }

/-- The log is no matter. -/
theorem withLog (h : Growing u added b) (log : Log) : Growing u added { b with log } := { h with }

/-- Methods may be taken off the pending ones, or put back if they can be reached. -/
theorem withPending (h : Growing u added b) {pending : List MethodId}
    (hp : ∀ m ∈ pending, m ∈ b.reachable) : Growing u added { b with pending } :=
  { h with pending := hp }

/-- Callees of a growing graph can be reached. -/
theorem callee_mem (h : Growing u added b) (hcs : cs ∈ b.graph.sites) : cs.callee ∈ b.reachable :=
  (h.reachable _).2 (.inr ⟨cs, hcs, rfl⟩)

/-- All that can be reached, other than the root, has been declared. -/
theorem hasMethod (h : Growing u added b) (hm : m ∈ b.reachable) (hne : m ≠ rootMethod) :
    u.hasMethod m := by
  obtain ⟨cs, hcs, rfl⟩ := ((h.reachable m).1 hm).resolve_left hne
  exact (Universe.hasEnds_iff.1 (h.ends cs hcs)).2

end Growing

/-- Reaching a method adds it and no other. -/
theorem mem_reach {x : MethodId} : x ∈ (b.reach m).reachable ↔ x ∈ b.reachable ∨ x = m := by
  rw [reach]
  split
  · next hm =>
    exact ⟨.inl, fun h => h.elim id fun h => h ▸ hm⟩
  · simp

/-- What is pending then was pending or is that method. -/
theorem mem_pending_reach {x : MethodId} (hx : x ∈ (b.reach m).pending) :
    x ∈ b.pending ∨ x = m := by
  rw [reach] at hx
  split at hx
  · exact .inl hx
  · exact (List.mem_cons.1 hx).symm

/-- No method is reached twice. -/
theorem nodup_reach (h : b.reachable.Nodup) : (b.reach m).reachable.Nodup := by
  rw [reach]
  split
  · exact h
  · next hm => exact List.nodup_append.2 ⟨h, by simp, by rintro a ha _ hb rfl; simp_all⟩

@[simp] theorem graph_reach (b : Builder) (m : MethodId) : (b.reach m).graph = b.graph := by
  rw [reach]
  split <;> rfl

@[simp] theorem result_reach (b : Builder) (m : MethodId) : (b.reach m).result = b.result := by
  rw [reach]
  split <;> rfl

@[simp] theorem config_reach (b : Builder) (m : MethodId) : (b.reach m).config = b.config := by
  rw [reach]
  split <;> rfl

/-- A method that becomes reachable becomes pending. -/
theorem Tally.reach {asked : List MethodId} (h : Tally asked b) : Tally asked (b.reach m) := by
  rw [Builder.reach]
  split
  · exact h
  · have hnew : (b.reachable ++ [m]).Perm (m :: b.reachable) := List.perm_append_singleton _ _
    have hmove : (m :: (rootMethod :: (asked ++ b.pending))).Perm
        (rootMethod :: (asked ++ m :: b.pending)) :=
      (List.Perm.swap _ _ _).trans (.cons _ List.perm_middle.symm)
    exact hnew.trans ((h.cons m).trans hmove)

/-- **Adding a call** between methods, for a client or for a reachable caller. -/
theorem Growing.addEdge {added : List CallSite} (h : Growing u added b) (hcs : u.hasEnds cs)
    (hfrom : cs ∈ added ∨ cs.caller ∈ b.reachable) :
    ∃ isNew b', (addEdge u cs).go b = (.ok isNew, b') ∧ Growing u added b' ∧ Grows b b' [cs] := by
  by_cases hin : cs ∈ b.graph.sites
  · refine ⟨false, b, go_addEdge_of_mem h.unfrozen hcs hin, h, rfl, fun x => ?_, fun _ h => h,
      fun _ h => h⟩
    rw [List.mem_singleton]
    exact ⟨.inl, fun hx => hx.elim id fun hx => hx ▸ hin⟩
  · obtain ⟨log, hgo⟩ := go_addEdge_of_not_mem h.unfrozen hcs hin
    have hsites : ∀ x, x ∈ (b.graph.withCall cs).sites ↔ x ∈ b.graph.sites ∨ x = cs := by
      simp [CallGraph.sites_withCall]
    have hmono : ∀ {s x}, b.graph.Reaches s x → (b.graph.withCall cs).Reaches s x := fun hreach =>
      hreach.mono fun e he => Array.mem_push.2 (.inl he)
    -- the callee is rooted because the caller is, or because a client added the call
    have hcallee : ∃ s, (s = rootMethod ∨ ∃ cs ∈ added, cs.callee = s) ∧
        (b.graph.withCall cs).Reaches s cs.callee := by
      rcases hfrom with hadded | hcaller
      · exact ⟨cs.callee, .inr ⟨cs, hadded, rfl⟩, .refl⟩
      · obtain ⟨s, hs, hreach⟩ := h.rooted _ hcaller
        have hstep : (b.graph.withCall cs).Reaches cs.caller cs.callee :=
          .of_mem_sites ((hsites cs).2 (.inr rfl))
        exact ⟨s, hs, (hmono hreach).trans hstep⟩
    refine ⟨true, _, hgo, ?_, ?_⟩
    · refine
        { unfrozen := by simpa using h.unfrozen
          graph := by
            obtain ⟨hcaller, hcallee⟩ := Universe.hasEnds_iff.1 hcs
            simpa using h.graph.withCall (Universe.hasMethod_iff.1 hcaller).1
              (Universe.hasMethod_iff.1 hcallee).1 hin
          ends := ?_, reachable := ?_, once := nodup_reach h.once, pending := ?_, rooted := ?_ }
      · intro x hx
        rw [graph_reach, hsites] at hx
        exact hx.elim (h.ends x) fun hx => hx ▸ hcs
      · intro x
        rw [mem_reach, graph_reach]
        simp only [hsites, h.reachable, or_and_right, exists_or, exists_eq_left, or_assoc]
        rw [eq_comm (a := x) (b := cs.callee)]
      · intro x hx
        exact mem_reach.2 ((mem_pending_reach hx).imp_left (h.pending x))
      · intro x hx
        rw [graph_reach]
        rcases mem_reach.1 hx with hx | rfl
        · obtain ⟨s, hs, hreach⟩ := h.rooted x hx
          exact ⟨s, hs, hmono hreach⟩
        · exact hcallee
    · refine ⟨config_reach _ _, fun x => ?_, fun x hx => mem_reach.2 (.inl hx), fun asked ht => ?_⟩
      · rw [graph_reach, hsites, List.mem_singleton]
      · exact Tally.reach ht

/-! ## The calls of a method -/

/-- Why a call that a resolver gave for `m` is refused. -/
def Refuses (u : Universe) (m : MethodId) (cs : CallSite) (e : BuildError) : Prop :=
  cs.caller ≠ m ∧ e = .wrongCaller cs m ∨
    cs.caller = m ∧ ¬ u.hasEnds cs ∧ e = .unknownMethod cs

/-- Calls of another method are refused, and those after them are not looked at. -/
theorem go_addCalls_of_ne {l : List CallSite} (h : cs.caller ≠ m) :
    (addCalls u m (cs :: l)).go b = (.error (.wrongCaller cs m), b) := by
  simp [addCalls, h]

/-- **A call of the method is added** before those after it. -/
theorem go_addCalls_of_eq {l : List CallSite} (h : cs.caller = m) :
    (addCalls u m (cs :: l)).go b = match (addEdge u cs).go b with
      | (.ok _, b') => (addCalls u m l).go b'
      | (.error e, b') => (.error e, b') := by
  simp only [addCalls, Step.go_bind, h, ne_eq, not_true_eq_false, if_false]
  generalize (addEdge u cs).go b = run
  obtain ⟨r, b'⟩ := run
  cases r <;> rfl

/-- **Adding the calls of a reachable method**: all of them, or those in front of the
first one that is refused. -/
theorem Growing.addCalls {added : List CallSite} : ∀ (l : List CallSite) {b : Builder},
    Growing u added b → m ∈ b.reachable →
    ∃ out b' new, (addCalls u m l).go b = (out, b') ∧ Growing u added b' ∧ Grows b b' new ∧
      (∀ cs ∈ new, cs.caller = m) ∧
      match out with
      | .ok _ => new = l
      | .error e => ∃ cs rest, l = new ++ cs :: rest ∧ Refuses u m cs e := by
  intro l
  induction l with
  | nil => exact fun h _ => ⟨.ok (), _, [], rfl, h, .refl _, by simp, rfl⟩
  | cons cs l ih =>
    intro b h hm
    by_cases hcaller : cs.caller = m
    · rw [go_addCalls_of_eq hcaller]
      by_cases hends : u.hasEnds cs
      · obtain ⟨isNew, b₁, hgo, h₁, hgrows⟩ := h.addEdge hends (.inr (hcaller ▸ hm))
        obtain ⟨out, b', new, hgo', h', hgrows', hnew, hout⟩ := ih h₁ (hgrows.reachable m hm)
        rw [hgo]
        refine ⟨out, b', cs :: new, hgo', h', hgrows.trans hgrows', ?_, ?_⟩
        · exact List.forall_mem_cons.2 ⟨hcaller, hnew⟩
        · cases out with
          | ok _ => exact congrArg (cs :: ·) hout
          | error e =>
            obtain ⟨cs', rest, rfl, hrefuses⟩ := hout
            exact ⟨cs', rest, rfl, hrefuses⟩
      · rw [go_addEdge_of_unknown h.unfrozen hends]
        exact ⟨_, b, [], rfl, h, .refl b, by simp, cs, l, rfl, .inr ⟨hcaller, hends, rfl⟩⟩
    · exact ⟨_, b, [], go_addCalls_of_ne hcaller, h, .refl b, by simp, cs, l, rfl,
        .inl ⟨hcaller, rfl⟩⟩

/-! ## The loop -/

/-- A resolver that notes what it is asked about. -/
def recording (calls : MethodId → List CallSite) (m : MethodId) :
    StateM (List MethodId) (List CallSite) := do
  modify (· ++ [m])
  pure (calls m)

section Loop

variable {μ : Type → Type} [Monad μ] [LawfulMonad μ] {calls : MethodId → μ (List CallSite)}
  {fuel n : Nat}

/-- There is nothing to do without pending methods. -/
theorem go_resolvePending_of_nil (h : b.pending = []) :
    (resolvePending u calls (fuel + 1) n).go b = pure (.ok n, b) := by
  rw [resolvePending, Consulting.go_bind, Consulting.go_get, pure_bind]
  simp only [resume, h, Consulting.go_pure]

/-- One round of the loop. -/
theorem go_resolvePending_of_cons {rest : List MethodId} (h : b.pending = m :: rest) :
    (resolvePending u calls (fuel + 1) n).go b = calls m >>= fun sites =>
      resume (fun _ => (resolvePending u calls fuel (n + 1)).go)
        ((addCalls u m sites).go { b with pending := rest }) := by
  rw [resolvePending, Consulting.go_bind, Consulting.go_get, pure_bind]
  simp only [resume, h, Consulting.go_bind, Consulting.go_set, Consulting.go_monadLift,
    Consulting.go_alone, pure_bind, bind_assoc]

end Loop

/-- A round ends in a builder with `P`, or it fails and ends in one with `E`. -/
def EndsIn (P : Builder → Prop) (E : BuildError → Builder → Prop) :
    Except BuildError Unit × Builder → Prop
  | (.ok _, b) => P b
  | (.error e, b) => E e b

/-- **The rule of the loop.** What each round keeps holds at the end, unless a round
failed; `asked` are the methods the resolver was asked about. A resolver
that notes them is served like any other. The loop ends when nothing is
pending, or when it has run out of rounds. -/
theorem resolvePending_run {R : MethodId → List CallSite} {P : List MethodId → Builder → Prop}
    {E : BuildError → List MethodId → Builder → Prop}
    (hround : ∀ asked b m rest, P asked b → b.pending = m :: rest →
      EndsIn (P (asked ++ [m])) (fun e => E e (asked ++ [m]))
        ((addCalls u m (R m)).go { b with pending := rest })) :
    ∀ (fuel n : Nat) (asked : List MethodId) (b : Builder), P asked b →
      ∃ out b' more, (@resolvePending Id _ u R fuel n).go b = (out, b') ∧
        ((resolvePending u (recording R) fuel n).go b).run asked = ((out, b'), asked ++ more) ∧
        match out with
        | .ok _ => P (asked ++ more) b' ∧ (b'.pending = [] ∨ more.length = fuel)
        | .error e => E e (asked ++ more) b' := by
  intro fuel
  induction fuel with
  | zero =>
    intro n asked b h
    refine ⟨.ok n, b, [], rfl, ?_⟩
    rw [List.append_nil]
    exact ⟨rfl, h, .inr rfl⟩
  | succ fuel ih =>
    intro n asked b h
    match hp : b.pending with
    | [] =>
      refine ⟨.ok n, b, [], go_resolvePending_of_nil hp, ?_⟩
      rw [go_resolvePending_of_nil hp, List.append_nil]
      exact ⟨rfl, h, .inl hp⟩
    | m :: rest =>
      have hkept := hround asked b m rest h hp
      -- what one round does, whether the resolver takes notes or not
      have hplain : (@resolvePending Id _ u R (fuel + 1) n).go b =
          @resume _ _ Id _ (fun _ => (@resolvePending Id _ u R fuel (n + 1)).go)
            ((addCalls u m (R m)).go { b with pending := rest }) := go_resolvePending_of_cons hp
      have hnoted : ((resolvePending u (recording R) (fuel + 1) n).go b).run asked =
          (resume (fun _ => (resolvePending u (recording R) fuel (n + 1)).go)
            ((addCalls u m (R m)).go { b with pending := rest })).run (asked ++ [m]) := by
        rw [go_resolvePending_of_cons hp]
        simp only [recording, StateT.run_bind, StateT.run_modify, StateT.run_pure, pure_bind]
      rw [hplain, hnoted]
      generalize (Builder.addCalls u m (R m)).go { b with pending := rest } = run at hkept ⊢
      obtain ⟨r, b₁⟩ := run
      cases r with
      | error e => exact ⟨.error e, b₁, [m], rfl, rfl, hkept⟩
      | ok _ =>
        obtain ⟨out, b', more, hgo, hrun, hend⟩ := ih (n + 1) (asked ++ [m]) b₁ hkept
        rw [List.append_assoc, List.singleton_append] at hrun hend
        refine ⟨out, b', m :: more, hgo, hrun, ?_⟩
        cases out with
        | error e => exact hend
        | ok _ => exact ⟨hend.1, hend.2.imp_right fun hlength => congrArg (· + 1) hlength⟩

/-- A warning where nothing can be reached. -/
def opening (b : Builder) : Builder :=
  if b.reachable.length = 1 ∧ b.pending.isEmpty then
    b.say .warn "no entry point: only the root method is reachable"
  else b

/-- What is said in the end. -/
def closing (resolved : Nat) (b : Builder) : Builder :=
  b.say .debug ("resolved the callees of " ++ toString resolved ++ " methods, " ++
    toString b.graph.edges.size ++ " edges")

/-- Opening the builder touches nothing but its log. -/
theorem opening_eq (b : Builder) : ∃ log, b.opening = { b with log } := by
  rw [opening]
  split <;> exact ⟨_, rfl⟩

/-- Building is the loop, with something said before and after it. -/
theorem go_buildWith {μ : Type → Type} [Monad μ] [LawfulMonad μ]
    (calls : MethodId → μ (List CallSite)) (hopen : b.result = none) :
    (buildWith u calls).go b =
      (resolvePending u calls (b.pending.length + u.numMethods + 1) 0).go b.opening >>=
        resume fun resolved b => pure (.ok (), b.closing resolved) := by
  rw [buildWith, Consulting.go_bind, Consulting.go_get, pure_bind]
  simp only [resume, hopen, Option.isSome_none, Bool.false_eq_true, if_false, opening]
  split
  · simp only [Consulting.go_bind, Consulting.go_set, pure_bind, resume]
    refine bind_congr fun run => ?_
    congr
    funext resolved b'
    exact Consulting.go_modify _ _
  · simp only [Consulting.go_bind]
    congr
    funext resolved b'
    exact Consulting.go_modify _ _

/-- **The rule of a build.** It is the rule of the loop; with as many rounds as there
are methods, the loop does not run out of rounds. -/
theorem build_run {R : MethodId → List CallSite} {P : List MethodId → Builder → Prop}
    {E : BuildError → List MethodId → Builder → Prop}
    (hround : ∀ asked b m rest, P asked b → b.pending = m :: rest →
      EndsIn (P (asked ++ [m])) (fun e => E e (asked ++ [m]))
        ((addCalls u m (R m)).go { b with pending := rest }))
    (hlog : ∀ asked b log, P asked b → P asked { b with log }) (asked : List MethodId)
    (hopen : b.result = none) (h : P asked b) :
    ∃ out b' more, (build u R).go b = (out, b') ∧
      ((buildWith u (recording R)).go b).run asked = ((out, b'), asked ++ more) ∧
      match out with
      | .ok _ => P (asked ++ more) b' ∧ (b'.pending = [] ∨ u.numMethods < more.length)
      | .error e => E e (asked ++ more) b' := by
  obtain ⟨log, hlog₀⟩ := b.opening_eq
  have h₀ : P asked b.opening := hlog₀ ▸ hlog asked b log h
  obtain ⟨out, b₁, more, hgo, hrun, hend⟩ :=
    resolvePending_run hround (b.pending.length + u.numMethods + 1) 0 asked b.opening h₀
  have hplain : (build u R).go b =
      @resume _ _ Id _ (fun resolved b => (.ok (), b.closing resolved)) (out, b₁) := by
    have hrule := @go_buildWith u b Id _ _ R hopen
    rw [hgo] at hrule
    exact hrule
  have hnoted : ((buildWith u (recording R)).go b).run asked =
      StateT.run (@resume _ _ (StateM (List MethodId)) _
        (fun resolved b => pure (.ok (), b.closing resolved)) (out, b₁)) (asked ++ more) := by
    rw [go_buildWith (recording R) hopen, StateT.run_bind, hrun]
    rfl
  rw [hplain, hnoted]
  cases out with
  | error e => exact ⟨.error e, b₁, more, rfl, rfl, hend⟩
  | ok resolved =>
    refine ⟨.ok (), b₁.closing resolved, more, rfl, rfl, hlog _ b₁ _ hend.1, ?_⟩
    refine hend.2.imp id fun hlength => ?_
    omega

/-! ## Entry points -/

/-- The calls of the entry points of those names, up to the first name that
no method has. -/
def entryCalls (u : Universe) : List String → List CallSite
  | [] => []
  | name :: names =>
    match u.lookupMethod name with
    | none => []
    | some m => .entry m :: entryCalls u names

/-- An entry point is a call of the root. -/
theorem go_addEntryPoint : (addEntryPoint u m).go b =
    (((addEdge u (.entry m)).go b).1.map fun _ => (), ((addEdge u (.entry m)).go b).2) := by
  rw [addEntryPoint, Step.go_bind]
  generalize (addEdge u (.entry m)).go b = run
  obtain ⟨r, b'⟩ := run
  cases r <;> rfl

namespace Growing

variable {added : List CallSite}

/-- The root can always be reached. -/
theorem root_mem (h : Growing u added b) : rootMethod ∈ b.reachable :=
  (h.reachable _).2 (.inl rfl)

/-- **A method that is there may be an entry point.** -/
theorem addEntryPoint (h : Growing u added b) (hm : u.hasEnds (.entry m)) :
    ∃ b', (addEntryPoint u m).go b = (.ok (), b') ∧ Growing u added b' ∧
      Grows b b' [.entry m] := by
  obtain ⟨isNew, b', hgo, h', hgrows⟩ := h.addEdge hm (.inr h.root_mem)
  exact ⟨b', by rw [go_addEntryPoint, hgo]; rfl, h', hgrows⟩

/-- **Adding named entry points**: all of them, or those in front of the first name
that no method has. -/
theorem addEntryPoints : ∀ (names : List String) {b : Builder}, Growing u added b →
    ∃ out b', (addEntryPoints u names).go b = (out, b') ∧ Growing u added b' ∧
      Grows b b' (entryCalls u names) ∧
      (out = .ok () → ∀ name ∈ names, (u.lookupMethod name).isSome) := by
  intro names
  induction names with
  | nil => exact fun h => ⟨.ok (), _, rfl, h, .refl _, by simp⟩
  | cons name names ih =>
    intro b h
    cases hname : u.lookupMethod name with
    | none =>
      refine ⟨.error (.unknownEntry name), b, ?_, h, ?_, by simp⟩
      · simp [Builder.addEntryPoints, hname]
      · simpa [entryCalls, hname] using Grows.refl b
    | some m =>
      obtain ⟨b₁, hgo₁, h₁, hgrows₁⟩ := h.addEntryPoint (Universe.hasEnds_entry hname)
      obtain ⟨out, b', hgo, h', hgrows, hall⟩ := ih h₁
      refine ⟨out, b', ?_, h', ?_, fun hout => List.forall_mem_cons.2 ⟨?_, hall hout⟩⟩
      · simpa [Builder.addEntryPoints, hname, Step.go_bind, hgo₁] using hgo
      · simpa [entryCalls, hname] using hgrows₁.trans hgrows
      · rw [hname]
        rfl

/-- A builder that is new. -/
theorem new (cfg : Config) (log : Log) (u : Universe) (h : Option Hierarchy) :
    Growing u [] (new cfg log u h).1 where
  unfrozen := rfl
  graph := CallGraph.lasting_ofSize _
  ends cs hcs := absurd hcs List.not_mem_nil
  reachable m := by
    simp [Builder.new, CallGraph.sites, CallGraph.ofSize, CallGraph.ensure]
  once := List.nodup_singleton _
  pending m hm := absurd hm List.not_mem_nil
  rooted m hm := ⟨rootMethod, .inl rfl, List.mem_singleton.1 hm ▸ .refl⟩

end Growing

/-- A new builder has counted nothing. -/
theorem tally_new (cfg : Config) (log : Log) (u : Universe) (h : Option Hierarchy) :
    Tally [] (new cfg log u h).1 := .refl _

end Builder

end PointsTo
