-- SUMMARY: The program worker: what it asks of a resident engine and of its clients, and one round of its batched and its serial scheduler.
import IronPangu.Native.Engine

open Rust Std

/-!
# The program worker

One worker owns the engine and its residents. A round gives every resident its turn,
starting at the cursor: a chunk of its prompt, or one decoded token. What clients do in
the meantime (cancelling, draining their queue, closing it) is not decided here; every
question the worker asks them takes their next answer.
-/

namespace Inferfabric.ProgramWorker

open Inferfabric.Native

structure Sampling where
  eosTokenId : Option Nat
  stopTokenIds : List Nat
  maxTokens : Nat
  deriving DecidableEq, Repr

structure Request where
  requestId : String
  promptTokenIds : List Nat
  sampling : Sampling
  cacheSalt : Option String
  loraRequest : Bool
  mmFeatures : Bool
  deriving DecidableEq, Repr

/-- A request with the key of its client's channel and cancellation flag. -/
structure Job where
  key : Nat
  req : Request
  deriving DecidableEq, Repr

inductive FinishReason where
  | stopEos
  | stop (token : Nat)
  | length
  deriving DecidableEq, Repr

structure GenerateOutput where
  requestId : String
  /-- The prompt, with the first token only. -/
  promptInfo : Option (List Nat)
  tokenIds : List Nat
  finishReason : Option FinishReason
  cachedTokenCount : Nat
  deriving DecidableEq, Repr

/-! ## What the worker runs on -/

/-- `trait ResidentEngine`. -/
structure ResidentEngine (E : Type) where
  batchCapacity : E → Result Nat
  batch : List BatchInput → Method E Error (List (Option Nat))
  uncapturedPrefill : E → Bool
  restorePrefix : Nat → Request → Method E Error Nat
  prefillLimit : E → Nat → Nat → Nat
  checkpoint : Nat → Request → Nat → Method E Error Unit
  clearPrefixCache : Method E Error Unit
  prefillChunk : E → Nat → Nat
  prefill : List Nat → Nat → Bool → Method E Error (Option Nat)
  reserve : Nat → Nat → Method E Error Unit
  release : Nat → Method E Error Unit
  select : Nat → Method E Error Unit
  token : Nat → Nat → Bool → Method E Error (Option Nat)

/-- The clients' side: flags they set, queues they drain, and the table of active ids. -/
structure Clients (C : Type) where
  stopped : C → Bool × C
  cancelled : Job → C → Bool × C
  /-- `tx.capacity()==0` -/
  full : Job → C → Bool × C
  /-- Whether the output was taken. -/
  trySend : Job → GenerateOutput → C → Bool × C
  removeActive : String → C → C

structure Running where
  job : Job
  position : Nat
  generated : Nat
  next : Option Nat
  cachedTokens : Nat
  terminalOutput : Option GenerateOutput
  deriving DecidableEq, Repr

def Running.prompt (r : Running) : List Nat := r.job.req.promptTokenIds

structure Worker (E C : Type) where
  engine : E
  clients : C
  slots : List (Option Running)
  cursor : Nat

abbrev Call (E C α : Type) : Type := Method (Worker E C) Error α

variable {E C : Type}

def onEngine {α : Type} (m : Method E Error α) : Call E C α := fun w =>
  let (reply, e) := m w.engine
  (reply, { w with engine := e })

def ask (question : C → Bool × C) : Call E C Bool := fun w =>
  let (answer, c) := question w.clients
  (.ok answer, { w with clients := c })

def putSlot (index : Nat) (value : Option Running) : Call E C Unit :=
  Method.modify fun w => { w with slots := w.slots.set index value }

def setCursor (cursor : Nat) : Call E C Unit := Method.modify fun w => { w with cursor := cursor }

def slotAt (index : Nat) : Call E C (Option Running) :=
  Method.read fun w => Outcome.unwrap w.slots[index]?

section

variable (engine : ResidentEngine E) (clients : Clients C)

/-! ## One resident -/

/-- `release`: the slot is free and its request no longer active. -/
def release (index : Nat) : Call E C Unit := do
  let slot ← slotAt index
  match slot with
  | none => return ()
  | some r => do
    putSlot index none
    Method.modify fun w => { w with clients := clients.removeActive r.job.req.requestId w.clients }

/-- Success is published only after the resident has been released. -/
def complete (index : Nat) : Call E C Unit := do
  onEngine (engine.release index)
  let slot ← slotAt index
  release clients index
  match slot.bind Running.terminalOutput, slot with
  | some output, some r => do
    let _ ← ask (clients.trySend r.job output)
    return ()
  | _, _ => return ()

def Running.finish (r : Running) (token : Nat) : Option FinishReason :=
  let p := r.job.req.sampling
  if p.eosTokenId = some token then some .stopEos
  else if token ∈ p.stopTokenIds then some (.stop token)
  else if r.generated ≥ p.maxTokens then some .length
  else none

def Running.output (r : Running) (token : Nat) : GenerateOutput :=
  ⟨r.job.req.requestId, if r.generated = 1 then some r.prompt else none, [token], r.finish token, r.cachedTokens⟩

/-- Whether the request is finished. -/
def finishAdvance (index : Nat) (r : Running) (count : Nat) (next : Option Nat) : Call E C Bool := do
  let r := { r with position := r.position + count }
  putSlot index (some r)
  let cancelled ← ask (clients.cancelled r.job)
  if cancelled then return true
  else if r.position < r.prompt.length then return false
  else do
    let token ← Method.lift (Outcome.okOr next (.invalid "missing program output token"))
    let r := { r with next := some token, generated := r.generated + 1 }
    putSlot index (some r)
    if (r.finish token).isSome then do
      putSlot index (some { r with terminalOutput := some (r.output token) })
      return true
    else do
      let sent ← ask (clients.trySend r.job (r.output token))
      return !sent

/-- `&prompt[start..start+count]` -/
def slice (prompt : List Nat) (start count : Nat) : Result (List Nat) :=
  if start + count ≤ prompt.length then .ok ((prompt.drop start).take count) else .panic

/-- How many tokens of its prompt a resident is given next. -/
def extendBy (message : String) (r : Running) (budget : Nat) (e : E) : Result Nat :=
  let limit := engine.prefillLimit e r.position r.prompt.length
  if limit = 0 ∨ limit > r.prompt.length - r.position then invalid message
  else .ok (engine.prefillChunk e (min budget limit))

/-- Whether the request is finished, and the tokens it has used. -/
def advance (index : Nat) (r : Running) (budget : Nat) : Call E C (Bool × Nat) := do
  if r.position < r.prompt.length then do
    let count ← Method.read fun w => extendBy engine "invalid prefix checkpoint boundary" r budget w.engine
    let ids ← Method.lift (slice r.prompt r.position count)
    let sample := decide (r.position + count ≥ r.prompt.length)
    let next ← if count > 1 then onEngine (engine.prefill ids r.position sample)
      else onEngine (engine.token (r.prompt.getD r.position 0) r.position sample)
    return (← finishAdvance clients index r count next, count)
  else do
    let token ← Method.lift (Outcome.okOr r.next (.invalid "missing decode input"))
    let next ← onEngine (engine.token token r.position true)
    return (← finishAdvance clients index r 1 next, 1)

/-- A request still in its prompt may be published where it stopped. -/
def checkpointed (index : Nat) (finished : Bool) : Call E C Unit := do
  let slot ← slotAt index
  match finished, slot with
  | false, some r => do
    let cancelled ← ask (clients.cancelled r.job)
    if !cancelled && r.position < r.prompt.length then
      onEngine (engine.checkpoint index r.job.req r.position)
    else return ()
  | _, _ => return ()

/-! ## The batched round -/

/-- How many tokens a resident joins the batch with. -/
def quantum (r : Running) (budget : Nat) (e : E) : Result Nat :=
  if r.position < r.prompt.length then do
    let count ← extendBy engine "invalid batch prefix boundary" r budget e
    if count = 0 ∨ count > budget then invalid "invalid batch quantum" else return count
  else return 1

def quantumTokens (r : Running) (count : Nat) : Result (List Nat) :=
  if r.position < r.prompt.length then slice r.prompt r.position count
  else do
    let token ← Outcome.okOr r.next (.invalid "missing batch decode input")
    return [token]

/-- The members of the next batch, in the order of their turns. -/
def members (budget residents : Nat) : List Nat → Nat → Call E C (List BatchInput)
  | [], _ => return []
  | index :: rest, tokens => do
    let slot ← slotAt index
    match slot with
    | none => members budget residents rest tokens
    | some r => do
      let cancelled ← ask (clients.cancelled r.job)
      let full ← if cancelled then pure true else ask (clients.full r.job)
      if full then members budget residents rest tokens
      else do
        let count ← Method.read fun w => quantum engine r budget w.engine
        if count > budget - tokens then do
          setCursor index
          return []
        else do
          let ids ← Method.lift (quantumTokens r count)
          setCursor ((index + 1) % residents)
          let others ← members budget residents rest (tokens + count)
          return ⟨index, r.position, ids, decide (r.position + count ≥ r.prompt.length)⟩ :: others

def memberDone (member : BatchInput × Option Nat) : Call E C Unit := do
  let index := member.1.resident
  let slot ← slotAt index
  let r ← Method.lift (Outcome.unwrap slot)
  let finished ← finishAdvance clients index r member.1.tokens.length member.2
  checkpointed engine clients index finished
  if finished then complete engine clients index else return ()

/-- The residents' turns, from the cursor on. -/
def turns (start residents : Nat) : List Nat := (List.range residents).map fun offset => (start + offset) % residents

def batchedRound (tokenBudget capacity : Nat) : Call E C Unit := do
  let w ← Method.get
  let residents := w.slots.length
  let inputs ← members engine clients (min tokenBudget capacity) residents (turns w.cursor residents) 0
  if inputs = [] then return ()
  else do
    let outputs ← onEngine (engine.batch inputs)
    if outputs.length ≠ inputs.length ∨ (inputs.zip outputs).any fun (i, o) => i.sample != o.isSome then
      Method.fail (.invalid "batch output/member mismatch")
    else Method.forEach (inputs.zip outputs) (memberDone engine clients)

/-! ## The serial round -/

/-- A full quantum of an uncaptured prefill that does not fit any more waits for the next round. -/
def deferred (r : Running) (tokenBudget tokens : Nat) (e : E) : Bool :=
  r.position < r.prompt.length && engine.uncapturedPrefill e &&
    engine.prefillChunk e (min (r.prompt.length - r.position) tokenBudget) > tokenBudget - tokens

def serialTurns (tokenBudget residents : Nat) : List Nat → Nat → Call E C Unit
  | [], _ => return ()
  | index :: rest, tokens => do
    let stopped ← if tokens = tokenBudget then pure true else ask clients.stopped
    if stopped then return ()
    else do
      let slot ← slotAt index
      match slot with
      | none => serialTurns tokenBudget residents rest tokens
      | some r => do
        let cancelled ← ask (clients.cancelled r.job)
        if cancelled then do
          onEngine (engine.release index)
          release clients index
          serialTurns tokenBudget residents rest tokens
        else do
          let full ← ask (clients.full r.job)
          if full then serialTurns tokenBudget residents rest tokens
          else do
            let w ← Method.get
            if deferred engine r tokenBudget tokens w.engine then setCursor index
            else do
              onEngine (engine.select index)
              let (finished, used) ← advance engine clients index r (tokenBudget - tokens)
              checkpointed engine clients index finished
              setCursor ((index + 1) % residents)
              if finished then complete engine clients index else pure ()
              serialTurns tokenBudget residents rest (tokens + used)

def serialRound (tokenBudget : Nat) : Call E C Unit := do
  let w ← Method.get
  serialTurns engine clients tokenBudget w.slots.length (turns w.cursor w.slots.length) 0

/-! ## Rounds -/

/-- What follows the admissions in one turn of the worker's loop. -/
def round (tokenBudget capacity : Nat) : Call E C Unit :=
  if capacity > 0 then batchedRound engine clients tokenBudget capacity
  else serialRound engine clients tokenBudget

/-- Several rounds without an admission between them. -/
def rounds (tokenBudget capacity : Nat) : Nat → Call E C Unit
  | 0 => return ()
  | n + 1 => do
    round engine clients tokenBudget capacity
    rounds tokenBudget capacity n

end

end Inferfabric.ProgramWorker
