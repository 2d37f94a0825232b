import PointsTo.Proofs.Closure
import PointsTo.Proofs.Exactness
/-!
# Freezing what has been built

Whatever a client has asked for, the graph can be frozen, and freezing it
keeps its calls. Which methods are reachable is then known twice: the
builder has noted every callee when its call was added, and condensing
has looked for the methods that the root reaches. The builder does not ask
where a call comes from, so what it has noted is what can be reached from
the root or from the callee of a call that a client added. The two agree
iff the root reaches these callees (`freeze_reachable_iff`).
-/

namespace PointsTo

/-- Which methods reach which is up to the calls. -/
theorem CallGraph.reaches_of_sites {g g' : CallGraph} (h : g'.sites = g.sites) {a b : MethodId} :
    g'.Reaches a b ↔ g.Reaches a b := by
  have hsub : ∀ {g g' : CallGraph}, g'.sites = g.sites → g.Reaches a b → g'.Reaches a b := by
    intro g g' h hreach
    refine Relation.ReflTransGen.mono (fun x y hxy => ?_) a b hreach
    exact mem_successors_iff_sites.2 (h ▸ mem_successors_iff_sites.1 hxy)
  exact ⟨hsub h.symm, hsub h⟩

namespace Builder

variable {u : Universe} {b : Builder} {added : List CallSite} {m : MethodId}

/-- **A graph that has been grown can be frozen.** Its calls stay, and so does what the
builder has noted; the graph that is left is the one that was condensed. -/
theorem Growing.freeze (h : Growing u added b) (disk : Disk) :
    ∃ (r : Frozen) (b' : Builder) (disk' : Disk),
      (Builder.freeze u).go (b, disk) = (.ok r, b', disk') ∧ r.reachable = b.reachables ∧
      b'.graph.sites = b.graph.sites ∧ u.numMethods ≤ b'.graph.size ∧
      Condensed b'.graph r.encoding.graph := by
  have hg : (b.graph.ensure (u.numMethods - 1)).Lasting := h.graph.ensure _
  obtain ⟨g, c, hcond⟩ := CallGraph.exists_condense hg.toWellFormed hg.callee
  have hencode := CallGraph.unmapped_encode_of_any g c b.config.maxContextSpan
  have hc : Condensed (g.encode c b.config.maxContextSpan).1 c :=
    CallGraph.condensed_of_unmapped hencode
      (CallGraph.condensed_of_condense hg.toWellFormed hcond)
  obtain ⟨b', disk', hgo, hgraph⟩ := go_freeze_of_condensed disk h.unfrozen hcond hc
  refine ⟨_, b', disk', hgo, rfl, ?_, ?_, ?_⟩
  · calc b'.graph.sites = (g.encode c b.config.maxContextSpan).1.sites := by rw [hgraph]
      _ = g.sites := CallGraph.callSites_of_unmapped hencode
      _ = (b.graph.ensure (u.numMethods - 1)).sites := CallGraph.callSites_of_condense hcond
  · rw [hgraph, CallGraph.size_of_unmapped hencode, CallGraph.size_of_condense hcond]
    simp only [CallGraph.ensure]
    omega
  · rw [hgraph]
    exact hc

/-- What the builder has noted can be reached from the root or from the callee of a
call that a client added. -/
theorem Growing.mem_reachable_iff (h : Growing u added b)
    (hkept : ∀ cs ∈ added, cs ∈ b.graph.sites) : m ∈ b.reachable ↔
      ∃ s, (s = rootMethod ∨ ∃ cs ∈ added, cs.callee = s) ∧ b.graph.Reaches s m := by
  refine ⟨h.rooted m, ?_⟩
  rintro ⟨s, hs, hreach⟩
  have hstart : s ∈ b.reachable := by
    rcases hs with rfl | ⟨cs, hcs, rfl⟩
    · exact h.root_mem
    · exact h.callee_mem (hkept cs hcs)
  refine hreach.mem_of_closed (S := (· ∈ b.reachable)) (fun x y _ hxy => ?_) hstart
  obtain ⟨cs, hcs, -, rfl⟩ := CallGraph.mem_successors_iff_sites.1 hxy
  exact h.callee_mem hcs

/-- **What every session keeps**, whichever resolvers it uses. -/
structure Session.Grown (u : Universe) (names : List String) (done : List Request) (s : Session) :
    Prop where
  config : s.builder.config.entryPoints = names
  growing : Growing u (done.flatMap (Request.added u names)) s.builder
  kept : ∀ cs ∈ done.flatMap (Request.added u names), cs ∈ s.builder.graph.sites

namespace Session

variable {names : List String} {done : List Request} {s : Session}

theorem Grown.next (h : Grown u names done s) (r : Request) :
    Grown u names (done ++ [r]) (s.next u r) := by
  have hadded : (done ++ [r]).flatMap (Request.added u names) =
      done.flatMap (Request.added u names) ++ r.added u names := by
    rw [List.flatMap_append, List.flatMap_singleton]
  by_cases hbuild : ∃ calls, r = .build calls
  · obtain ⟨calls, rfl⟩ := hbuild
    obtain ⟨hg, hconfig, hsites⟩ := h.growing.build calls
    rw [Request.added, List.append_nil] at hadded
    exact
      { config := (congrArg Config.entryPoints hconfig).trans h.config
        growing := hadded ▸ hg
        kept := fun cs hcs => hsites cs (h.kept cs (hadded ▸ hcs)) }
  · obtain ⟨hg, hgrows⟩ := h.growing.request r fun calls heq => hbuild ⟨calls, heq⟩
    rw [h.config] at hg hgrows
    refine
      { config := (congrArg Config.entryPoints hgrows.config).trans h.config
        growing := hadded ▸ hg
        kept := fun cs hcs => (hgrows.sites cs).2 ?_ }
    rw [hadded] at hcs
    exact (List.mem_append.1 hcs).imp_left (h.kept cs)

theorem run_grown (cfg : Config) (log : Log) (u : Universe) (h : Option Hierarchy)
    (requests : List Request) :
    Grown u cfg.entryPoints requests (run u (new cfg log u h).1 requests) :=
  foldl_run (Grown u cfg.entryPoints)
    ⟨rfl, .new cfg log u h, fun _ hcs => absurd hcs List.not_mem_nil⟩
    fun _ r _ _ hs => hs.next r

end Session

/-- **When the two notions of a reachable method agree.** After any session, with any
resolvers, the graph can be frozen. The condensation knows the methods that
the root reaches. The list that comes with it has these, and what can be
reached from the callees of the client's own calls, whether their callers
can be reached or not: the two agree iff the root reaches all these
callees. -/
theorem freeze_reachable_iff (cfg : Config) (log : Log) (u : Universe) (h : Option Hierarchy)
    (hroot : u.hasMethod rootMethod) (requests : List Request) (disk : Disk) :
    let added := requests.flatMap (Request.added u cfg.entryPoints)
    let s := Session.run u (new cfg log u h).1 requests
    ∃ (r : Frozen) (b' : Builder) (disk' : Disk),
      (freeze u).go (s.builder, disk) = (.ok r, b', disk') ∧
      b'.graph.sites = s.builder.graph.sites ∧
      (∀ m, r.encoding.graph.isReachable m ↔ b'.graph.Reaches rootMethod m) ∧
      (∀ m, m ∈ r.reachable ↔ ∃ s, (s = rootMethod ∨ ∃ cs ∈ added, cs.callee = s) ∧
        b'.graph.Reaches s m) ∧
      ((∀ m, m ∈ r.reachable ↔ r.encoding.graph.isReachable m) ↔
        ∀ cs ∈ added, b'.graph.Reaches rootMethod cs.callee) := by
  intro added s
  have hgrown : s.Grown u cfg.entryPoints requests := Session.run_grown cfg log u h requests
  obtain ⟨r, b', disk', hgo, hlist, hsites, hsize, hc⟩ := hgrown.growing.freeze disk
  have hmethods : 0 < u.numMethods := Int.natCast_pos.1 (Universe.hasMethod_iff.1 hroot).2
  have hpos : 0 < b'.graph.size := Nat.lt_of_lt_of_le hmethods hsize
  have hreach : ∀ m, r.encoding.graph.isReachable m ↔ b'.graph.Reaches rootMethod m := fun m => by
    rw [hc.reachable, and_iff_right hpos]
  have hnoted : ∀ m, m ∈ r.reachable ↔
      ∃ s, (s = rootMethod ∨ ∃ cs ∈ added, cs.callee = s) ∧ b'.graph.Reaches s m := fun m => by
    rw [hlist, mem_reachables, hgrown.growing.mem_reachable_iff hgrown.kept]
    simp only [CallGraph.reaches_of_sites hsites]
    rfl
  refine ⟨r, b', disk', hgo, hsites, hreach, hnoted, fun hagree cs hcs => ?_, fun hall m => ?_⟩
  · rw [← hreach, ← hagree, hnoted]
    exact ⟨cs.callee, .inr ⟨cs, hcs, rfl⟩, .refl⟩
  · rw [hreach, hnoted]
    constructor
    · rintro ⟨s, rfl | ⟨cs, hcs, rfl⟩, hm⟩
      · exact hm
      · exact (hall cs hcs).trans hm
    · exact fun hm => ⟨rootMethod, .inl rfl, hm⟩

/-- A call is added before its caller can be reached. -/
def earlyCall : List Request := [.edge ⟨2, 3, 1⟩, .entry 1, .build (listed [⟨1, 2, 2⟩])]

theorem freeze_reachable_iff_earlyCall :
    let s := Session.run fewMethods (new {} (.new 0 true) fewMethods none).1 earlyCall
    s.builder.reachables = [0, 1, 2, 3] ∧
      ∃ (r : Frozen) (b' : Builder) (disk' : Disk),
        (freeze fewMethods).go (s.builder, {}) = (.ok r, b', disk') ∧
          ∀ m, m ∈ r.reachable ↔ r.encoding.graph.isReachable m := by
  intro s
  have hgraph : s.builder.graph.sites = [⟨2, 3, 1⟩, .entry 1, ⟨1, 2, 2⟩] := by cbv
  obtain ⟨r, b', disk', hgo, hsites, -, -, hagree⟩ := freeze_reachable_iff {} (.new 0 true)
    fewMethods none (by decide) earlyCall {}
  have hcall : ∀ cs ∈ [⟨2, 3, 1⟩, CallSite.entry 1, ⟨1, 2, 2⟩],
      b'.graph.Reaches cs.caller cs.callee := fun cs hcs =>
    .of_mem_sites (by rw [hsites, hgraph]; exact hcs)
  have hmain : b'.graph.Reaches rootMethod 1 := hcall (.entry 1) (by decide)
  have hearly : b'.graph.Reaches rootMethod 3 :=
    (hmain.trans (hcall ⟨1, 2, 2⟩ (by decide))).trans (hcall ⟨2, 3, 1⟩ (by decide))
  refine ⟨by cbv, r, b', disk', hgo, hagree.2 ?_⟩
  have hadded : earlyCall.flatMap (Request.added fewMethods []) = [⟨2, 3, 1⟩, .entry 1] := by cbv
  rw [hadded]
  simpa using ⟨hearly, hmain⟩

/-- **A callee is noted although nothing reaches it.** The only call has a caller that
the root does not reach. -/
theorem freeze_notes_unreached :
    let s := Session.run fewMethods (new {} (.new 0 true) fewMethods none).1
      [.edge ⟨1, 2, 1⟩, .build fun _ => []]
    ∃ (r : Frozen) (b' : Builder) (disk' : Disk),
      (freeze fewMethods).go (s.builder, {}) = (.ok r, b', disk') ∧ r.reachable = [0, 2] ∧
        ¬ b'.graph.Reaches rootMethod 2 ∧ ¬ r.encoding.graph.isReachable 2 ∧
        ¬ ∀ m, m ∈ r.reachable ↔ r.encoding.graph.isReachable m := by
  intro s
  have hgraph : s.builder.graph.sites = [⟨1, 2, 1⟩] := by cbv
  have hreachables : s.builder.reachables = [0, 2] := by cbv
  have hgrown := Session.run_grown {} (.new 0 true) fewMethods none
    [.edge ⟨1, 2, 1⟩, .build fun _ => []]
  obtain ⟨r, b', disk', hgo, hlist, hsites, -, hc⟩ := hgrown.growing.freeze {}
  -- no call leaves the root
  have hnot : ¬ b'.graph.Reaches rootMethod 2 := by
    intro hreach
    refine absurd (hreach.mem_of_closed (S := (· = rootMethod)) ?_ rfl) (by decide)
    rintro x y rfl hxy
    obtain ⟨cs, hcs, hcaller, -⟩ := CallGraph.mem_successors_iff_sites.1 hxy
    have hcs : cs ∈ s.builder.graph.sites := hsites ▸ hcs
    rw [hgraph, List.mem_singleton] at hcs
    rw [hcs] at hcaller
    exact absurd hcaller (by decide)
  have hunreached : ¬ r.encoding.graph.isReachable 2 := fun h2 => hnot ((hc.reachable 2).1 h2).2
  have hnoted : r.reachable = [0, 2] := hlist.trans hreachables
  refine ⟨r, b', disk', hgo, hnoted, hnot, hunreached, fun hagree => hunreached ?_⟩
  rw [← hagree, hnoted]
  decide

end Builder

end PointsTo
