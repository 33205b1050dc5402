-- SUMMARY: The mock device and its workers: what a sequence of tokens makes of the state, however it is cut into steps.
import IronPangu.Compiler.Ranks
import IronPangu.Transfer

open Rust Outcome

/-!
# Mock workers

The mock device writes a marker for every token it is fed, so that a state tells the
tokens it has seen. All ranks of a role run the same step; the first one answers.
-/

namespace Inferfabric

open Compiler.Ranks (Artifact RankPlan Role Target)

/-! ## What serving reads of a specification -/

def Compiler.Ranks.Layer.serving : Compiler.Ranks.Layer → Inferfabric.Layer
  | .full => .full
  | .delta => .delta

def Compiler.Ranks.Spec.serving (s : Compiler.Ranks.Spec) : Inferfabric.Spec where
  model := ⟨s.model.vocab, s.model.convWidth, s.model.layers.map (·.serving)⟩
  pageTokens := s.pageTokens
  contextBuckets := s.contextBuckets

namespace Mock

/-! ## Steps -/

structure StateBinding where
  slot : Nat
  generation : Nat
  pages : List Nat
  deriving DecidableEq, Repr

structure StepInput where
  request : Nat
  epoch : Nat
  tokens : List Nat
  state : HybridState
  binding : StateBinding
  deriving DecidableEq, Repr

structure StepOutput where
  request : Nat
  epoch : Nat
  nextToken : Nat
  state : HybridState
  deriving DecidableEq, Repr

structure Bucket where
  batch : Nat
  context : Nat
  deriving DecidableEq, Repr

/-! ## The device -/

/-- Wrapping arithmetic of a `u64`. -/
def wrap (n : Nat) : Nat := n % 18446744073709551616

def marker (token consumed : Nat) : Nat := wrap (wrap (token * 31) + (consumed + 1))

/-- The window drops its oldest marker when it is over full. -/
def slide (width : Nat) (conv : List Nat) : List Nat := if conv.length > width then conv.tail else conv

/-- One token. -/
def feed (spec : Spec) (state : HybridState) (token : Nat) : HybridState where
  consumed := state.consumed + 1
  kv := state.kv.mapIdx fun layer kv => kv ++ [wrap (marker token state.consumed + layer)]
  recurrent := state.recurrent.mapIdx fun layer r => wrap (wrap (r * 33) + (marker token state.consumed + layer))
  conv := state.conv.map fun conv => slide spec.model.convWidth (conv ++ [marker token state.consumed])

/-- The loop over the tokens of an input. -/
def feedAll (spec : Spec) : HybridState → List Nat → Result HybridState
  | state, [] => .ok state
  | state, token :: tokens =>
    if token ≥ spec.model.vocab then invalid "token outside vocabulary"
    else feedAll spec (feed spec state token) tokens

def nextToken (spec : Spec) (last consumed : Nat) : Nat := (last + consumed + 1) % spec.model.vocab % 4294967296

def executeOne (spec : Spec) (input : StepInput) : Result StepOutput := do
  input.state.validate spec
  if input.tokens = [] ∨ input.state.consumed + input.tokens.length > spec.maxContext then .err (.capacity "context")
  else do
    let state ← feedAll spec input.state input.tokens
    let last ← okOr input.tokens.getLast? (.invalid "empty tokens")
    .ok ⟨input.request, input.epoch, nextToken spec last state.consumed, state⟩

/-- A captured graph takes one token of each input. -/
def Bucket.exceeded (b : Bucket) (inputs : List StepInput) : Bool :=
  inputs.length > b.batch ∨ inputs.any fun i => i.tokens.length ≠ 1 ∨ i.state.consumed + 1 > b.context

def execute (spec : Spec) (inputs : List StepInput) (graph : Option Bucket) : Result (List StepOutput) :=
  if graph.any (·.exceeded inputs) then invalid "graph capacity" else collect (executeOne spec) inputs

/-! ## Workers -/

/-- A worker that has started, with the graphs it has captured. -/
structure Runtime where
  artifact : Artifact
  plan : RankPlan
  graphs : List Bucket
  deriving DecidableEq, Repr

/-- The input a graph is tried on when it was captured. -/
def probe (spec : Spec) : StepInput := ⟨0, 0, [1], .empty spec, ⟨0, 0, [0]⟩⟩

def buckets (s : Compiler.Ranks.Spec) : List Bucket :=
  s.batchBuckets.flatMap fun batch => s.contextBuckets.map fun context => ⟨batch, context⟩

namespace Runtime

def start (key : Compiler.Ranks.Spec → Target → Result String) (a : Artifact) (plan : RankPlan) : Result Runtime := do
  a.spec.validate
  let compiled ← Compiler.Ranks.compile key a.spec a.target
  if a ≠ compiled ∨ plan ∉ a.ranks then invalid "invalid executable artifact/rank"
  else if a.target.backend ≠ .mock then invalid "artifact/backend mismatch; no automatic fallback"
  else if plan.rank.role = .decode then do
    let _ ← collect (fun b => execute a.spec.serving [probe a.spec.serving] (some b)) (buckets a.spec)
    .ok ⟨a, plan, buckets a.spec⟩
  else .ok ⟨a, plan, []⟩

/-- The loop over the bindings of a step, with the slots and pages seen. -/
def checkBindings (pageTokens : Nat) : List StepInput → List Nat → List Nat → Result Unit
  | [], _, _ => .ok ()
  | input :: inputs, slots, pages => do
    let count ← divCeil (input.state.consumed + input.tokens.length) pageTokens
    if input.binding.slot ∈ slots ∨ ¬input.binding.pages.Nodup ∨ (∃ p ∈ input.binding.pages, p ∈ pages) ∨
        input.binding.pages.length < count then
      invalid "invalid/aliased step state bindings"
    else checkBindings pageTokens inputs (input.binding.slot :: slots) (input.binding.pages ++ pages)

/-- The graph of a decode step. -/
def graph (r : Runtime) (inputs : List StepInput) : Result (Option Bucket) :=
  if r.plan.rank.role = .decode then do
    let context := (inputs.map fun i => i.state.consumed + i.tokens.length).foldl max 0
    let batch ← okOr (r.artifact.spec.batchBuckets.find? (· ≥ inputs.length)) (.capacity "batch")
    let context ← okOr (r.artifact.spec.contextBuckets.find? (· ≥ context)) (.capacity "context")
    if ⟨batch, context⟩ ∈ r.graphs then .ok (some ⟨batch, context⟩) else invalid "missing startup graph"
  else .ok none

def checkOutput (spec : Spec) (step : StepInput × StepOutput) : Result Unit := do
  step.2.state.validate spec
  if step.2.request ≠ step.1.request ∨ step.2.epoch ≠ step.1.epoch ∨ step.2.nextToken ≥ spec.model.vocab ∨
      step.2.state.consumed ≠ step.1.state.consumed + step.1.tokens.length then
    invalid "backend request/frontier mismatch"
  else .ok ()

def step (r : Runtime) (inputs : List StepInput) : Result (List StepOutput) :=
  if inputs = [] then invalid "empty step"
  else do
    checkBindings r.artifact.spec.pageTokens inputs [] []
    let graph ← r.graph inputs
    let outputs ← execute r.artifact.spec.serving inputs graph
    if outputs.length ≠ inputs.length then invalid "backend result count"
    else do
      let _ ← collect (checkOutput r.artifact.spec.serving) (inputs.zip outputs)
      .ok outputs

end Runtime

/-- The workers of one role. -/
structure WorkerGroup where
  workers : List Runtime
  deriving DecidableEq, Repr

namespace WorkerGroup

def mock (key : Compiler.Ranks.Spec → Target → Result String) (a : Artifact) (role : Role) : Result WorkerGroup :=
  if a.target.backend ≠ .mock then invalid "mock workers require mock artifact"
  else do
    let workers ← collect (Runtime.start key a) (a.ranks.filter (·.rank.role = role))
    if workers = [] then invalid "empty worker group" else .ok ⟨workers⟩

/-- Every rank runs the step; the first one answers. -/
def step (g : WorkerGroup) (inputs : List StepInput) : Result (List StepOutput) := do
  let outputs ← collect (fun r => r.step inputs) g.workers
  okOr outputs.head? (.invalid "no leader")

end WorkerGroup

end Mock

end Inferfabric
