-- SUMMARY: The planner: logical graphs, their typing, dead-node elimination, constant folding, compaction and layout.
import IronPangu.Plan.Execute

open Rust Std

/-!
# The planner

A logical graph names its values. Typing checks it and orders its nodes;
optimization drops nodes that no result needs, evaluates nodes of small constants,
and renumbers the values that are left; the layout places every remaining result in
the arena. The plan that comes out goes through `verify` like any other.
-/

namespace Inferfabric.Plan

open Ir

/-! ## Graphs -/

structure Tensor where
  name : String
  shape : List Nat
  deriving DecidableEq, Repr

structure Constant (F : Type) where
  name : String
  shape : List Nat
  data : List F

structure LogicalNode where
  name : String
  op : Op
  inputs : List String
  deriving DecidableEq, Repr

structure LogicalGraph (F : Type) where
  version : Nat
  name : String
  inputs : List Tensor
  constants : List (Constant F)
  states : List (Constant F)
  nodes : List LogicalNode
  outputs : List String
  /-- Simultaneous assignment at the end of an invocation: state name to value name. -/
  updates : ExtTreeMap String String

structure TypedNode where
  name : String
  op : Op
  inputs : List Nat
  output : Nat
  deriving DecidableEq, Repr

structure TypedGraph (F : Type) where
  version : Nat
  name : String
  values : List (Value F)
  nodes : List TypedNode
  outputs : List Nat
  updates : ExtTreeMap Nat Nat

namespace Planner

variable {F : Type} [Float32 F]

/-! ## Typing -/

/-- The loop over the names, with the names seen. -/
def checkNames : List String → List String → Result Unit
  | _, [] => .ok ()
  | seen, name :: names =>
    if name = "" ∨ name.utf8ByteSize > 256 ∨ name ∈ seen then invalid s!"invalid or duplicate value name: {name}"
    else checkNames (name :: seen) names

/-- The variables of typing. -/
structure Typing (F : Type) where
  values : List (Value F)
  ids : ExtTreeMap String Nat
  nodes : List TypedNode

def Typing.new : Typing F := ⟨[], ∅, []⟩

def Typing.define (t : Typing F) (value : Value F) : Typing F :=
  { t with values := t.values ++ [value], ids := t.ids.insert value.name t.values.length }

def typeInputs : List Tensor → Typing F → Result (Typing F)
  | [], t => .ok t
  | input :: inputs, t => do
    let _ ← elements input.shape
    typeInputs inputs (t.define ⟨input.name, input.shape, .input, none⟩)

def typeOwned (storage : Storage) : List (Constant F) → Typing F → Result (Typing F)
  | [], t => .ok t
  | v :: vs, t => do
    let count ← elements v.shape
    if count ≠ v.data.length ∨ (v.data.any fun x => !Float32.isFinite x) then
      invalid "constant/state initializer shape or value mismatch"
    else typeOwned storage vs (t.define ⟨v.name, v.shape, storage, some v.data⟩)

def typeNode (node : LogicalNode) (t : Typing F) : Result (Typing F) := do
  let inputs ← Outcome.collect (fun name => Outcome.unwrap t.ids[name]?) node.inputs
  let shapes ← Outcome.collect (fun i => Outcome.unwrap (t.values[i]?.map (·.shape))) inputs
  let dims ← shape node.op shapes
  let _ ← elements dims
  let typed := t.define ⟨node.name, dims, .arena, none⟩
  .ok { typed with nodes := typed.nodes ++ [⟨node.name, node.op, inputs, t.values.length⟩] }

/-- `while !pending.is_empty()`, where `pending` holds the nodes by name: the first one whose operands exist. -/
def schedule : Nat → List LogicalNode → Typing F → Result (Typing F)
  | 0, _, t => .ok t
  | n + 1, pending, t =>
    match pending.find? fun node => node.inputs.all (· ∈ t.ids) with
    | none => invalid "cycle in logical graph"
    | some node => do
      let t ← typeNode node t
      schedule n (pending.eraseP (·.name = node.name)) t

/-- The nodes in the order of their names. -/
def byName (nodes : List LogicalNode) : List LogicalNode := nodes.insertionSort fun a b => a.name ≤ b.name

def Typing.resolve (t : Typing F) (name : String) : Result Nat :=
  Outcome.okOr t.ids[name]? (.invalid s!"unknown output/update {name}")

/-- The loop over the updates. -/
def typeUpdates (t : Typing F) : List (String × String) → ExtTreeMap Nat Nat → Result (ExtTreeMap Nat Nat)
  | [], updates => .ok updates
  | (target, source) :: rest, updates => do
    let target ← t.resolve target
    let source ← t.resolve source
    let old ← Outcome.unwrap t.values[target]?
    let new ← Outcome.unwrap t.values[source]?
    if old.storage ≠ .state ∨ old.shape ≠ new.shape then invalid "state update requires matching state target and value"
    else typeUpdates t rest (updates.insert target source)

/-- The loop that adds up the bytes of the values. -/
def storageBytes : List (Value F) → Nat → Result Nat
  | [], total => .ok total
  | v :: vs, total => do
    let count ← elements v.shape
    let total ← Outcome.okOr (checkedAdd u64Max total (count * 4)) (.invalid "logical storage overflow")
    storageBytes vs total

def LogicalGraph.names (graph : LogicalGraph F) : List String :=
  graph.inputs.map (·.name) ++ graph.constants.map (·.name) ++ graph.states.map (·.name) ++ graph.nodes.map (·.name)

def checkLimits (graph : LogicalGraph F) : Result Unit :=
  if graph.version ≠ version ∨ graph.nodes.length > maxNodes ∨ graph.outputs = [] then
    invalid "invalid logical graph version, node count or outputs"
  else if graph.inputs.length + graph.constants.length + graph.states.length + graph.nodes.length > maxNodes * 4 then
    invalid "too many logical values"
  else .ok ()

def checkOperands (names : List String) : List LogicalNode → Result Unit
  | [] => .ok ()
  | node :: nodes =>
    if node.inputs.any (· ∉ names) then invalid s!"unknown operand in {node.name}" else checkOperands names nodes

/-- The values, with the nodes in an order in which operands come first. -/
def typeValues (graph : LogicalGraph F) : Result (Typing F) := do
  let t ← typeInputs graph.inputs Typing.new
  let t ← typeOwned .constant graph.constants t
  let t ← typeOwned .state graph.states t
  checkOperands (LogicalGraph.names graph) graph.nodes
  schedule graph.nodes.length (byName graph.nodes) t

def typed (graph : LogicalGraph F) : Result (TypedGraph F) := do
  checkLimits graph
  checkNames [] (LogicalGraph.names graph)
  let t ← typeValues graph
  let outputs ← Outcome.collect t.resolve graph.outputs
  if ¬outputs.Nodup then invalid "duplicate output"
  else do
    let updates ← typeUpdates t graph.updates.toList ∅
    let bytes ← storageBytes t.values 0
    if bytes > maxBytes then invalid "logical graph exceeds CPU storage limit"
    else .ok ⟨version, graph.name, t.values, t.nodes, outputs, updates⟩

/-! ## Optimization -/

structure CompileOptions where
  /-- Keep every node and fold nothing. -/
  debug : Bool
  kernelOverrides : ExtTreeMap String Kernel

def checkOverrides (g : TypedGraph F) : List (String × Kernel) → Result Unit
  | [] => .ok ()
  | (name, kernel) :: rest =>
    match g.nodes.find? (·.name = name) with
    | none => invalid s!"unknown kernel override node {name}"
    | some node =>
      if node.op ≠ kernel.op then invalid "kernel override changes operation semantics" else checkOverrides g rest

/-- What a run comes back with: outputs, and what states become. -/
def results (g : TypedGraph F) : List Nat := g.outputs ++ g.updates.toList.map Prod.snd

/-- The loop over the nodes, from the last to the first, with the values needed and the nodes removed. -/
def markNeeded (debug : Bool) : List TypedNode → List Nat → List String → List Nat × List String
  | [], needed, removed => (needed, removed)
  | node :: nodes, needed, removed =>
    if debug ∨ node.output ∈ needed then markNeeded debug nodes (needed ++ node.inputs) removed
    else markNeeded debug nodes needed (removed ++ [node.name])

/-- One element of a folded value. -/
def foldElement (op : Op) (a : List F) (b : Option (List F)) (k n i : Nat) : Result F :=
  match op with
  | .add => do
    let x ← Outcome.unwrap a[i]?
    let b ← Outcome.unwrap b
    let y ← Outcome.unwrap b[i]?
    .ok (Float32.add x y)
  | .mul => do
    let x ← Outcome.unwrap a[i]?
    let b ← Outcome.unwrap b
    let y ← Outcome.unwrap b[i]?
    .ok (Float32.mul x y)
  | .relu => do
    let x ← Outcome.unwrap a[i]?
    .ok (Float32.max x Float32.zero)
  | .matmul => sumProducts Float32.zero (List.range k)
where
  sumProducts (sum : F) : List Nat → Result F
    | [] => .ok sum
    | j :: js => do
      let x ← Outcome.unwrap a[i / n * k + j]?
      let b ← Outcome.unwrap b
      let y ← Outcome.unwrap b[j * n + i % n]?
      sumProducts (Float32.add sum (Float32.mul x y)) js

/-- `values[i].shape[1]` -/
def secondDimension (values : List (Value F)) (i : Nat) : Result Nat := do
  let v ← Outcome.unwrap values[i]?
  Outcome.unwrap v.shape[1]?

def initialOf (values : List (Value F)) (i : Nat) : Result (List F) := do
  let v ← Outcome.unwrap values[i]?
  Outcome.unwrap v.initial

/-- The inner dimension and the columns of a matrix product; other operations do not look at them. -/
def foldDimensions (node : TypedNode) (values : List (Value F)) : Result (Nat × Nat) :=
  if node.op = .matmul then do
    let i ← Outcome.unwrap node.inputs[0]?
    let k ← secondDimension values i
    let n ← secondDimension values node.output
    .ok (k, n)
  else .ok (0, 0)

def fold (node : TypedNode) (values : List (Value F)) : Result (List F) := do
  let i ← Outcome.unwrap node.inputs[0]?
  let a ← initialOf values i
  let b ← match node.inputs[1]? with
    | none => .ok none
    | some i => do
      let b ← initialOf values i
      .ok (some b)
  let out ← Outcome.unwrap values[node.output]?
  let size ← Executor.count out.shape
  let (k, n) ← foldDimensions node values
  Outcome.collect (foldElement node.op a b k n) (List.range size)

/-- `all(|&i| values[i].storage == Storage::Constant)` -/
def allConstant (values : List (Value F)) : List Nat → Result Bool
  | [] => .ok true
  | i :: is => do
    let v ← Outcome.unwrap values[i]?
    if v.storage = .constant then allConstant values is else .ok false

/-- The multiplications of a node. -/
def nodeWork (node : TypedNode) (values : List (Value F)) : Result Nat := do
  let out ← Outcome.unwrap values[node.output]?
  let count ← elements out.shape
  if node.op = .matmul then do
    let i ← Outcome.unwrap node.inputs[0]?
    let depth ← secondDimension values i
    .ok (count * depth)
  else .ok (count * 1)

/-- The variables of folding. -/
structure Folding (F : Type) where
  values : List (Value F)
  retained : List TypedNode
  foldedNodes : List String

def foldable (options : CompileOptions) (node : TypedNode) (values : List (Value F)) : Result Bool := do
  let work ← nodeWork node values
  if options.debug = false ∧ node.name ∉ options.kernelOverrides ∧ work ≤ 4096 then allConstant values node.inputs
  else .ok false

/-- `values[id]` with new contents. -/
def setConstant (values : List (Value F)) (id : Nat) (data : List F) : List (Value F) :=
  values.modify id fun v => { v with storage := .constant, initial := some data }

def foldNodes (options : CompileOptions) : List TypedNode → Folding F → Result (Folding F)
  | [], s => .ok s
  | node :: nodes, s => do
    let constant ← foldable options node s.values
    if constant then do
      let data ← fold node s.values
      if (data.any fun x => !Float32.isFinite x) then invalid "nonfinite constant-folded result"
      else foldNodes options nodes { s with
        values := setConstant s.values node.output data
        foldedNodes := s.foldedNodes ++ [node.name] }
    else foldNodes options nodes { s with retained := s.retained ++ [node] }

/-- The values that are looked at when the plan runs. -/
def runtimeValues (g : TypedGraph F) : List Nat := results g ++ g.nodes.flatMap fun node => node.inputs ++ [node.output]

/-- The loop over the values, with the index of the next one. -/
def compact (runtime : List Nat) : Nat → List (Value F) → ExtTreeMap Nat Nat → List (Value F) →
    ExtTreeMap Nat Nat × List (Value F)
  | _, [], remap, kept => (remap, kept)
  | i, v :: vs, remap, kept =>
    if v.storage = .input ∨ v.storage = .state ∨ i ∈ runtime then
      compact runtime (i + 1) vs (remap.insert i kept.length) (kept ++ [v])
    else compact runtime (i + 1) vs remap kept

/-- `remap[i]` -/
def renumber (remap : ExtTreeMap Nat Nat) (i : Nat) : Result Nat := Outcome.unwrap remap[i]?

def renumberNode (remap : ExtTreeMap Nat Nat) (node : TypedNode) : Result TypedNode := do
  let inputs ← Outcome.collect (renumber remap) node.inputs
  let output ← renumber remap node.output
  .ok { node with inputs := inputs, output := output }

def renumberUpdate (remap : ExtTreeMap Nat Nat) (update : Nat × Nat) : Result (Nat × Nat) := do
  let target ← renumber remap update.1
  let source ← renumber remap update.2
  .ok (target, source)

/-- Compact value IDs, so that eliminated nodes have no storage and no binding. -/
def renumbered (g : TypedGraph F) : Result (TypedGraph F) := do
  let (remap, kept) := compact (runtimeValues g) 0 g.values ∅ []
  let nodes ← Outcome.collect (renumberNode remap) g.nodes
  let outputs ← Outcome.collect (renumber remap) g.outputs
  let updates ← Outcome.collect (renumberUpdate remap) g.updates.toList
  .ok { g with values := kept, nodes := nodes, outputs := outputs, updates := ExtTreeMap.ofList updates }

def checkRetained (g : TypedGraph F) : List String → Result Unit
  | [] => .ok ()
  | name :: names =>
    if ¬g.nodes.any (·.name = name) then
      invalid s!"override node {name} was eliminated; use debug planning to retain it"
    else checkRetained g names

/-- The optimized graph, with the nodes removed and folded. -/
structure Optimized (F : Type) where
  graph : TypedGraph F
  removedNodes : List String
  foldedNodes : List String

def optimize (options : CompileOptions) (g : TypedGraph F) : Result (Optimized F) := do
  checkOverrides g options.kernelOverrides.toList
  let (needed, removed) := markNeeded options.debug g.nodes.reverse (results g) []
  let nodes := g.nodes.filter fun node => options.debug || node.output ∈ needed
  let s ← foldNodes options nodes ⟨g.values, [], []⟩
  let graph ← renumbered { g with values := s.values, nodes := s.retained }
  checkRetained graph (options.kernelOverrides.toList.map Prod.fst)
  .ok ⟨graph, removed, s.foldedNodes⟩

/-! ## Layout -/

/-- `if let Some(life) = lives.get_mut(id)` -/
def stretch (last : Nat) (lives : ExtTreeMap Nat (Nat × Nat)) (id : Nat) : ExtTreeMap Nat (Nat × Nat) :=
  match lives[id]? with
  | some life => lives.insert id (life.1, last)
  | none => lives

/-- The loop over the nodes, with the index of the next one. -/
def nodeLives : Nat → List TypedNode → ExtTreeMap Nat (Nat × Nat) → ExtTreeMap Nat (Nat × Nat)
  | _, [], lives => lives
  | i, node :: nodes, lives => nodeLives (i + 1) nodes (node.inputs.foldl (stretch i) (lives.insert node.output (i, i)))

def nodeProducers (nodes : List TypedNode) : ExtTreeMap Nat Nat :=
  ExtTreeMap.ofList (nodes.zipIdx.map fun (node, i) => (node.output, i))

def lifetimes (g : TypedGraph F) : ExtTreeMap Nat (Nat × Nat) :=
  (results g).foldl (stretch g.nodes.length) (nodeLives 0 g.nodes ∅)

/-- `lives[id]` of a value that a node produces. -/
def lifeOf (lives : ExtTreeMap Nat (Nat × Nat)) (id : Nat) : Nat × Nat := lives[id]?.getD (0, 0)

def divCeil (a b : Nat) : Nat := (a + b - 1) / b

/-- The variables of the placement. -/
structure Placing (F : Type) where
  buffers : List (Buffer F)
  placed : List Nat
  arenaBytes : Nat

/-- `buffers[j].offset.unwrap()` of a value that is placed. -/
def Placing.offsetOf (s : Placing F) (j : Nat) : Nat := (s.buffers[j]?.bind (·.offset)).getD 0

def Placing.shapeOf (s : Placing F) (j : Nat) : List Nat := ((s.buffers[j]?).map (·.value.shape)).getD []

/-- What is placed already and still alive at `first`, in the order of the offsets. -/
def Placing.conflicts (s : Placing F) (lives : ExtTreeMap Nat (Nat × Nat)) (first : Nat) : List Nat :=
  (s.placed.filter fun j => (lifeOf lives j).2 ≥ first).insertionSort fun i j => s.offsetOf i ≤ s.offsetOf j

/-- The loop over the conflicts. -/
def Placing.firstGap (s : Placing F) (aligned : Nat) : Nat → List Nat → Result Nat
  | offset, [] => .ok offset
  | offset, j :: conflicts =>
    if offset + aligned ≤ s.offsetOf j then .ok offset
    else do
      let count ← elements (s.shapeOf j)
      s.firstGap aligned (max offset (s.offsetOf j + divCeil (count * 4) alignment * alignment)) conflicts

/-- The loop over the nodes that places their outputs. -/
def place (lives : ExtTreeMap Nat (Nat × Nat)) : List TypedNode → Placing F → Result (Placing F)
  | [], s => .ok s
  | node :: nodes, s => do
    let count ← elements (s.shapeOf node.output)
    let aligned := divCeil (count * 4) alignment * alignment
    let life := lifeOf lives node.output
    let offset ← s.firstGap aligned 0 (s.conflicts lives life.1)
    place lives nodes {
      buffers := s.buffers.modify node.output fun b => { b with offset := some offset, lifetime := some life }
      placed := s.placed ++ [node.output]
      arenaBytes := max s.arenaBytes (offset + aligned) }

/-- A set in order: `into_iter().collect()` of a `BTreeSet`. -/
def ordered (values : List Nat) : List Nat := values.dedup.insertionSort (· ≤ ·)

/-- The producers of the operands that are alive. -/
def dataDependencies (producers : ExtTreeMap Nat Nat) (inputs : List Nat) : List Nat :=
  ordered (inputs.filterMap fun id => producers[id]?)

/-- Where an earlier value ended whose bytes the output takes, if it takes them. -/
def reused (i first stop : Nat) (old : Buffer F) : Result (Option Nat) :=
  match old.lifetime, old.offset with
  | some life, some offset =>
    if life.2 < i ∧ offset < stop then do
      let size ← Executor.count old.value.shape
      .ok (if first < offset + size * 4 then some life.2 else none)
    else .ok none
  | _, _ => .ok none

def chooseKernel (g : TypedGraph F) (node : TypedNode) (out : Buffer F) : Result Kernel :=
  match node.op with
  | .add => .ok .addF32V1
  | .mul => .ok .mulF32V1
  | .relu => .ok .reluF32V1
  | .matmul => do
    let count ← elements out.value.shape
    let i ← Outcome.unwrap node.inputs[0]?
    let depth ← secondDimension g.values i
    .ok (if count * depth ≥ 4096 then .matmulBlockedF32V1 else .matmulF32V1)

def selectionReason (overridden : Bool) (kernel : Kernel) : String :=
  if overridden then "explicit checked implementation override"
  else if kernel = .matmulBlockedF32V1 then "static MAC count >= 4096: 16x16 output tiles"
  else "qualified deterministic CPU implementation; no timing-based cost model"

def planStep (options : CompileOptions) (g : TypedGraph F) (buffers : List (Buffer F)) (producers : ExtTreeMap Nat Nat)
    (i : Nat) (node : TypedNode) : Result Step := do
  let out ← Outcome.unwrap buffers[node.output]?
  let first ← Outcome.unwrap out.offset
  let count ← elements out.value.shape
  let reuse ← Outcome.collect (reused i first (first + count * 4)) buffers
  let chosen ← chooseKernel g node out
  let kernel := (options.kernelOverrides[node.name]?).getD chosen
  .ok {
    name := node.name
    kernel := kernel
    inputs := node.inputs
    output := node.output
    rank := 0
    stream := 0
    dependencies := dataDependencies producers node.inputs
    reuseDependencies := ordered (reuse.filterMap id)
    selectionReason := selectionReason (node.name ∈ options.kernelOverrides) kernel }

def layout (options : CompileOptions) (o : Optimized F) : Result (PhysicalPlan F) := do
  let g := o.graph
  let lives := lifetimes g
  let s ← place lives g.nodes ⟨g.values.map fun v => ⟨v, none, none⟩, [], 0⟩
  let producers := nodeProducers g.nodes
  let steps ← Outcome.collect (fun (node, i) => planStep options g s.buffers producers i node) g.nodes.zipIdx
  .ok {
    version := version
    name := g.name
    target := target
    policy := "deterministic-cpu-v1"
    alignment := alignment
    arenaBytes := s.arenaBytes
    buffers := s.buffers
    steps := steps
    outputs := g.outputs
    updates := g.updates
    removedNodes := o.removedNodes
    foldedNodes := o.foldedNodes }

structure Compilation (F : Type) where
  logical : LogicalGraph F
  typed : TypedGraph F
  optimized : TypedGraph F
  physical : PhysicalPlan F

def compileWithOptions (logical : LogicalGraph F) (options : CompileOptions) : Result (Compilation F) := do
  let typed ← typed logical
  let optimized ← optimize options typed
  let physical ← layout options optimized
  verify physical
  .ok ⟨logical, typed, optimized.graph, physical⟩

end Planner

end Inferfabric.Plan
