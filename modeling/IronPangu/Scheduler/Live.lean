-- SUMMARY: The live scheduler: requests are admitted, prefilled in chunks, handed to the decoder and served token by token.
import IronPangu.Runtime.Mock.Steps

open Rust Method Std

/-!
# The live scheduler

A request waits in the queue with a lease of the prefill pool, is handed over to the
transport's pool when its prompt is through, and leaves with its last token. A step
decodes one token for each request of a batch, spends the token budget on prompts, and
hands over what is ready.
-/

namespace Inferfabric

def Transfer.Lease.binding (lease : Transfer.Lease) : Mock.StateBinding := ⟨lease.slot, lease.generation, lease.pages⟩

namespace Scheduler

open Compiler.Ranks (Artifact Target)
open Transfer (ResourcePool InMemoryTransport Lease Manifest)
open Mock (StepInput StepOutput WorkerGroup)

structure Request where
  id : Nat
  prompt : List Nat
  maxNewTokens : Nat
  submitAt : Nat
  cancelAt : Option Nat
  eos : Option Nat
  deriving DecidableEq, Repr

structure Capacity where
  pages : Nat
  slots : Nat
  deriving DecidableEq, Repr

inductive Finish where
  | length
  | stop
  | abort
  | error (message : String)
  deriving DecidableEq, Repr

structure Event where
  request : Nat
  token : Option Nat
  finish : Option Finish
  deriving DecidableEq, Repr

structure Job where
  request : Request
  state : HybridState
  prefill : Option Lease
  decode : Option Lease
  next : Nat
  generated : Nat
  stopTokens : List Nat
  deriving DecidableEq, Repr

structure LiveScheduler where
  artifact : Artifact
  prefill : WorkerGroup
  decode : WorkerGroup
  pPool : ResourcePool
  transport : InMemoryTransport
  jobs : ExtTreeMap Nat Job
  queue : List Nat
  capacity : Capacity
  epoch : Nat

namespace LiveScheduler

/-- A method of the scheduler. -/
abbrev Call (α : Type) : Type := Method LiveScheduler Error α

def mock (key : Compiler.Ranks.Spec → Target → Result String) (artifact : Artifact) (capacity : Capacity) :
    Result LiveScheduler := do
  let prefill ← WorkerGroup.mock key artifact .prefill
  let decode ← WorkerGroup.mock key artifact .decode
  let pPool ← ResourcePool.new capacity.pages capacity.slots artifact.spec.pageTokens
  let transport ← InMemoryTransport.new artifact.spec.serving artifact.key capacity.pages capacity.slots
  .ok { artifact, prefill, decode, pPool, transport, jobs := ∅, queue := [], capacity, epoch := 0 }

def isIdle (s : LiveScheduler) : Bool := s.jobs.isEmpty

/-- Active and retired leases of both pools. -/
def allocations (s : LiveScheduler) : Nat :=
  s.pPool.active.size + s.pPool.retired.length + (s.transport.pool.active.size + s.transport.pool.retired.length)

def onPool {α : Type} (c : Method ResourcePool Error α) : Call α := fun s =>
  ((c s.pPool).1, { s with pPool := (c s.pPool).2 })

def onTransport {α : Type} (c : Method InMemoryTransport Error α) : Call α := fun s =>
  ((c s.transport).1, { s with transport := (c s.transport).2 })

def setJob (id : Nat) (job : Job) : Call Unit := modify fun s => { s with jobs := s.jobs.insert id job }

/-- `jobs.get_mut(&id).unwrap()`. -/
def job (id : Nat) : Call Job := read fun s => Outcome.unwrap s.jobs[id]?

/-! ## Requests -/

/-- What `submit` refuses in a request. -/
def refuses (s : LiveScheduler) (request : Request) : Prop :=
  request.id ∈ s.jobs ∨ request.prompt = [] ∨ request.maxNewTokens = 0 ∨
    (∃ token ∈ request.prompt, token ≥ s.artifact.spec.model.vocab) ∨
    request.prompt.length + request.maxNewTokens > s.artifact.spec.serving.maxContext

instance (s : LiveScheduler) (request : Request) : Decidable (s.refuses request) :=
  inferInstanceAs (Decidable (_ ∨ _ ∨ _ ∨ _ ∨ _))

def submit (request : Request) (stopTokens : List Nat) : Call Unit := do
  let s ← get
  if s.refuses request then fail (.invalid "invalid live request")
  else do
    let pages ← lift (Outcome.divCeil request.prompt.length s.artifact.spec.pageTokens)
    if s.jobs.size ≥ s.capacity.slots ∨ pages > s.capacity.pages then fail (.capacity "live admission")
    else do
      let epoch ← lift (Outcome.okOr (checkedAdd u64Max s.epoch 1) (.invalid "request epoch overflow"))
      modify fun s => { s with epoch }
      let lease ← onPool (ResourcePool.reserve request.id epoch request.prompt.length)
      modify fun s => { s with queue := s.queue ++ [request.id] }
      setJob request.id {
        request := { request with submitAt := 0, cancelAt := none }
        state := .empty s.artifact.spec.serving
        prefill := some lease
        decode := none
        next := 0
        generated := 0
        stopTokens }

/-- What a job holds is given back. -/
def release (job : Job) : Call Unit := do
  match job.prefill with
  | some lease => onPool (ResourcePool.retire lease)
  | none => Pure.pure ()
  match job.decode with
  | some lease => onTransport (InMemoryTransport.finish lease)
  | none => Pure.pure ()

def remove (id : Nat) : Call Unit := do
  let s ← get
  modify fun s => { s with jobs := s.jobs.erase id }
  match s.jobs[id]? with
  | some job => release job
  | none => Pure.pure ()
  modify fun s => { s with queue := s.queue.filter (· ≠ id) }
  onPool ResourcePool.completionFence
  onTransport InMemoryTransport.completionFence

def cancel (id : Nat) : Call (Option Event) := do
  let s ← get
  remove id
  return if id ∈ s.jobs then some ⟨id, none, some .abort⟩ else none

/-- How the last token ends a request. -/
def finish (job : Job) : Option Finish :=
  if job.request.eos = some job.next ∨ job.next ∈ job.stopTokens then some .stop
  else if job.generated = job.request.maxNewTokens then some .length
  else none

def emit (id : Nat) : Call Event := do
  let job ← read fun s => Outcome.okOr s.jobs[id]? (.invalid "missing live request")
  let job := { job with generated := job.generated + 1 }
  setJob id job
  if (finish job).isSome then remove id
  return ⟨id, some job.next, finish job⟩

/-! ## Decoding -/

/-- A request of the batch is given room for its next token, or is dropped. -/
def decodeInput (id : Nat) : Call (StepInput ⊕ Event) := do
  let job ← job id
  let lease ← lift (Outcome.unwrap job.decode)
  match ← attempt (onTransport (InMemoryTransport.onPool (ResourcePool.ensure lease (job.state.consumed + 1)))) with
  | .ok lease => do
    setJob id { job with decode := some lease }
    return .inl ⟨id, lease.epoch, [job.next], job.state, lease.binding⟩
  | .err (.capacity message) => do
    remove id
    return .inr ⟨id, none, some (.error message)⟩
  | .err e => fail e
  | .panic => lift .panic

def decodeInputs : List Nat → Call (List StepInput × List Event)
  | [] => Pure.pure ([], [])
  | id :: ids => do
    let input ← decodeInput id
    let rest ← decodeInputs ids
    match input with
    | .inl input => return (input :: rest.1, rest.2)
    | .inr event => return (rest.1, event :: rest.2)

/-- `job.state = output.state; job.next = output.next_token;` -/
def store (output : StepOutput) : Call Unit := do
  let job ← job output.request
  setJob output.request { job with state := output.state, next := output.nextToken }

def decodeOutputs : List StepOutput → Call (List Event)
  | [] => Pure.pure []
  | output :: outputs => do
    store output
    let event ← emit output.request
    let events ← decodeOutputs outputs
    return event :: events

def decodeRound (inputs : List StepInput) : Call (List Event) := do
  let s ← get
  if inputs = [] then Pure.pure []
  else do
    let outputs ← lift (s.decode.step inputs)
    decodeOutputs outputs

/-! ## Prefilling -/

def popQueue : Call Nat := do
  let s ← get
  match s.queue with
  | [] => lift .panic
  | id :: queue => do
    modify fun s => { s with queue }
    return id

/-- The loop over the queue, for some rounds and with the budget that is left. -/
def prefillInputs : Nat → Nat → Call (List StepInput)
  | 0, _ => Pure.pure []
  | rounds + 1, budget =>
    if budget = 0 then Pure.pure []
    else do
      let id ← popQueue
      let job ← job id
      match job.prefill with
      | none => prefillInputs rounds budget
      | some lease => do
        let left ← lift (Outcome.sub job.request.prompt.length job.state.consumed)
        let chunk := min left budget
        modify fun s => { s with queue := s.queue ++ [id] }
        let inputs ← prefillInputs rounds (budget - chunk)
        let tokens := (job.request.prompt.drop job.state.consumed).take chunk
        return if chunk > 0 then ⟨id, lease.epoch, tokens, job.state, lease.binding⟩ :: inputs else inputs

def prefillOutputs (outputs : List StepOutput) : Call Unit := forEach outputs store

def prefillRound (inputs : List StepInput) : Call Unit := do
  let s ← get
  if inputs = [] then Pure.pure ()
  else do
    let outputs ← lift (s.prefill.step inputs)
    prefillOutputs outputs

/-! ## Handing over -/

/-- A prompt that is through goes to the decoder, when there is room. -/
def handOff (id : Nat) : Call (List Event) := do
  let s ← get
  let job ← job id
  let prefill ← lift (Outcome.unwrap job.prefill)
  match ← attempt (onTransport (InMemoryTransport.reserve id prefill.epoch job.state.consumed)) with
  | .ok lease => do
    setJob id { job with decode := some lease }
    onTransport (InMemoryTransport.transfer ⟨lease, s.artifact.key, job.state, job.next⟩)
    onTransport (InMemoryTransport.complete lease)
    let manifest ← onTransport (InMemoryTransport.commit lease)
    onTransport (InMemoryTransport.acknowledge lease)
    setJob id { job with decode := some lease, state := manifest.state, next := manifest.nextToken, prefill := none }
    onPool (ResourcePool.retire prefill)
    onPool ResourcePool.completionFence
    modify fun s => { s with queue := s.queue.filter (· ≠ id) }
    let event ← emit id
    return [event]
  | .err (.capacity _) => Pure.pure []
  | .err e => fail e
  | .panic => lift .panic

def handOffs : List Nat → Call (List Event)
  | [] => Pure.pure []
  | id :: ids => do
    let events ← handOff id
    let rest ← handOffs ids
    return events ++ rest

/-! ## Steps -/

/-- The first requests that decode, a batch of them. -/
def decoding (s : LiveScheduler) (batch : Nat) : List Nat :=
  ((s.jobs.toList.filter fun e => e.2.decode.isSome).map Prod.fst).take batch

/-- The requests whose prompt is through. -/
def ready (s : LiveScheduler) : List Nat :=
  (s.jobs.toList.filter fun e => e.2.prefill.isSome && e.2.state.consumed == e.2.request.prompt.length).map Prod.fst

def step : Call (List Event) := do
  let s ← get
  let batch ← lift (Outcome.okOr s.artifact.spec.batchBuckets.getLast? (.invalid "no buckets"))
  let decode ← decodeInputs (s.decoding batch)
  let decoded ← decodeRound decode.1
  let s ← get
  let prefill ← prefillInputs s.queue.length s.artifact.spec.tokenBudget
  prefillRound prefill
  let s ← get
  let handed ← handOffs s.ready
  return decode.2 ++ decoded ++ handed

/-! ## Calls -/

inductive Op where
  | submit (request : Request) (stopTokens : List Nat)
  | cancel (id : Nat)
  | step
  deriving DecidableEq, Repr

/-- The events a call reports. -/
def call : Op → Call (List Event)
  | .submit request stopTokens => do
    submit request stopTokens
    return []
  | .cancel id => do
    let event ← cancel id
    return event.toList
  | .step => step

end LiveScheduler

end Scheduler

end Inferfabric
