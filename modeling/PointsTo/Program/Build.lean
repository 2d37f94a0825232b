import PointsTo.Program.Basic
/-!
# Building programs

Building a program resolves its calls from the entry points on, freezes
the call graph, makes the qualified allocations and the field nodes, and
records the points-to facts. A program is built once; a build that failed
does not count, but the nodes and names it made stay.
-/

namespace PointsTo

/-- The surroundings of a build: the program, the log, and the disk that
reports go to. -/
structure Workbench where
  program : Program
  log : Log
  disk : Disk

namespace Workbench

/-- A step of a build. -/
abbrev Step (α : Type) := ExceptT ProgramError (StateM Workbench) α

/-- Runs a step. -/
def Step.go {α : Type} (s : Step α) (w : Workbench) : Except ProgramError α × Workbench :=
  StateT.run (ExceptT.run s) w

/-- A step of the program. -/
def onProgram {α : Type} (s : Program.Step α) : Step α := ExceptT.mk do
  let w ← get
  let (r, p) := s.go w.program
  set { w with program := p }
  pure r

/-- The outcome of a step of the builder, which keeps its log. -/
def onBuilder {α : Type} (s : Builder.Step α) (b : Builder) : Step (Except BuildError α × Builder) := do
  let (r, b) := s.go b
  modify fun w => { w with log := b.log }
  pure (r, b)

/-- A step of the builder that has to succeed. -/
def mustBuild {α : Type} (wrap : ProgramError → ProgramError) (s : Builder.Step α) (b : Builder) :
    Step Builder := do
  match ← onBuilder s b with
  | (.ok _, b) => pure b
  | (.error e, _) => throw (wrap (.refused e))

/-- Adds the entry points: those of the description, or else those of the
configuration. -/
def addEntryPoints (b : Builder) : Step Builder := do
  let p := (← get).program
  let rec go : List String → Builder → Step Builder
    | [], b => pure b
    | name :: names, b => do
      match p.nodes.lookupMethod name with
      | none => throw (.atEntryPoint (.unknownMethod name))
      | some m =>
        let b ← mustBuild id (Builder.addEntryPoint p.nodes m) b
        go names b
  if p.description.entryPoints.isEmpty then
    mustBuild id (Builder.addConfiguredEntryPoints p.nodes) b
  else go p.description.entryPoints b

/-- Freezes the call graph. -/
def freeze (b : Builder) : Step (Builder × Frozen) := do
  let w ← get
  let (r, b, disk) := ((Builder.freeze w.program.nodes).go (b, w.disk) :
    Except Fault Frozen × Builder × Disk)
  set { w with log := b.log, disk }
  match r with
  | .ok f => pure (b, f)
  | .error e => throw (.stopped e)

/-! ## Encodings -/

/-- Replaces the blocks of a method. -/
def applyBlock (f : Frozen) (d : BlockDecl) : Step Frozen := do
  let m ← onProgram (Program.method d.method)
  if d.size ≤ 0 ∨ d.num ≤ 0 then throw (.emptyBlock d.method)
  match f.encoding.setBlock m ⟨d.size, d.num⟩ with
  | .ok encoding => pure { f with encoding }
  | .error e => throw (.stopped e)

/-- Replaces the offset of an edge. -/
def applyOffset (g : CallGraph) (d : OffsetDecl) : Step CallGraph := do
  let cs ← onProgram (Program.callSite d.edge)
  match g.position? cs with
  | some i => pure (g.modifyEdge i ({ · with offset := d.offset }))
  | none => throw (.offsetOfNoEdge cs)

/-- Replaces the blocks and offsets that the description gives. -/
def applyEncoding (g : CallGraph) (f : Frozen) : Step (CallGraph × Frozen) := do
  match (← get).program.description.encoding with
  | none => pure (g, f)
  | some d =>
    let f ← d.blocks.foldlM applyBlock f
    let g ← d.offsets.foldlM applyOffset g
    pure (g, f)

end Workbench

namespace Program

/-! ## Nodes and facts -/

/-- Makes a qualified allocation. Where allocations are not qualified the
name is one more name of the allocation itself. -/
def addHeapContext (table : Option HeapTable) (d : HeapContextDecl) : Step (Option HeapTable) := do
  let base ← node d.base
  let receiver ← if d.receiver = "" then pure noNode else node d.receiver
  let (n, table) ← onNodes fun u =>
    (heapContext table u base receiver).map fun (n, table, u) => ((n, table), u)
  if n = base then
    modify fun p => { p with names := p.names.set d.name n }
  else if (← get).names.get? d.name ≠ some n then bindName d.name n
  pure table

/-- Whether a node is an allocation. -/
def isAlloc (n : NodeId) : Step Bool := do pure (((← get).nodes.node? n).any (·.isAlloc))

/-- Makes a field node. -/
def addFieldNode (d : FieldDecl) : Step Unit := do
  let alloc ← node d.alloc
  if !(← isAlloc alloc) then throw (.fieldOfNoAlloc d.field d.alloc)
  let f ← onNodes fun u => .ok (u.addField d.field)
  let n ← onNodes (·.addAllocField alloc f)
  let name := d.alloc ++ "." ++ d.field
  if (← get).names.get? name ≠ some n then bindName name n

/-- Adds a fact. -/
def addFact (s : FactStore) (d : FactDecl) : Step FactStore := do
  let ptr ← node d.pointer
  let obj ← node d.object
  if !(← isAlloc obj) then throw (.pointsToNoAlloc d.pointer d.object)
  pure (s.add ptr obj d.lo d.hi)

/-- Merges a node into another. -/
def addMerge (s : FactStore) (d : MergeDecl) : Step FactStore := do
  let n ← node d.node
  let into ← node d.into
  pure (s.merge n into)

/-- Removes a node. -/
def addDead (s : FactStore) (name : String) : Step FactStore := do
  let n ← node name
  pure (s.kill n)

/-- Records the facts of the description. -/
def recordFacts : Step FactStore := do
  let d := (← get).description
  let s ← d.facts.foldlM addFact .empty
  let s ← d.merged.foldlM addMerge s
  d.dead.foldlM addDead s

end Program

namespace Workbench

/-- Builds the program. -/
def build (cfg : Config) : Step BuiltProgram := do
  let w ← get
  let p := w.program
  if p.built.isSome then throw (.alreadyBuilt p.name)
  let (b, table) := Builder.new cfg w.log p.nodes (some p.hierarchyView)
  set { w with log := b.log }
  let b ← addEntryPoints b
  let b ← mustBuild (.whileBuilding p.name) (Builder.build p.nodes p.calleesOf) b
  let (b, f) ← freeze b
  let (g, f) ← applyEncoding b.graph f
  let d := p.description
  let _ ← onProgram (d.heapContexts.foldlM Program.addHeapContext table)
  onProgram (d.fields.forM Program.addFieldNode)
  let facts ← onProgram Program.recordFacts
  let built : BuiltProgram := ⟨g, f, facts, table.isSome⟩
  modify fun w =>
    { w with
      log := w.log.say .debug (p.name ++ ": " ++ toString (w.program.nodes.numNodes - 1) ++
        " nodes, " ++ toString facts.numFacts ++ " facts")
      program := { w.program with built := some built } }
  pure built

end Workbench

/-- The statistics of a built program. -/
def BuiltProgram.stats (b : BuiltProgram) : Except Fault Stats :=
  Stats.ofGraph b.graph b.frozen.encoding b.frozen.reachable.length

end PointsTo
