-- SUMMARY: The program engine: residents with their histories, reservations and seals, and the calls that reset, prepare, run, copy and seal them.
import IronPangu.Ir.ArithmeticHistory
import IronPangu.Runtime.StatePool

open Rust Std

/-!
# The program engine

The engine drives a loaded native program. What the native side and the file
system answer is not decided here: every foreign call takes the next answer of the
world, whatever that is. The host side is modelled in full: which checks come
before a foreign call, what is changed before and after it, and what an error
leaves behind.
-/

namespace Inferfabric.Native

open Inferfabric.Ir Inferfabric.Runtime

structure BatchInput where
  resident : Nat
  position : Nat
  tokens : List Nat
  sample : Bool
  deriving DecidableEq, Repr

/-- A call out of the engine: into the loaded library, or to write an audit file. -/
inductive Foreign where
  | reset
  | token (token position : Nat) (sample : Bool)
  | prefill (tokens : List Nat) (position : Nat) (sample : Bool)
  | batch (inputs : List BatchInput)
  | selectResident (slot : Nat)
  | resetResident (slot : Nat)
  | copyResident (source destination boundary : Nat)
  | bindState (rank node : Nat) (pages : List Nat)
  | bindPages (rank : Nat) (component : String) (pages : List Nat)
  | audit (sequence slot : Nat)
  deriving DecidableEq, Repr

/-- What a library call returns: its status, `inferfabric_program_error` after
    it, and what it has written to its output. -/
structure Answer where
  status : Int
  message : String
  output : List Nat
  deriving DecidableEq, Repr

/-- The loaded library's symbols, and the answers of everything outside. An answer
    may depend on every call made so far, the answered one first. -/
structure World where
  prefillFn : Bool
  batchFn : Bool
  bindPagesFn : Bool
  bindStateFn : Bool
  selectResidentFn : Bool
  resetResidentFn : Bool
  copyResidentFn : Bool
  answer : List Foreign → Answer
  /-- Whether arithmetic audits are asked for, and the error writing one ends with. -/
  auditing : Bool
  audit : List Foreign → Option Error
  /-- SHA-256 of bytes, in hexadecimal. -/
  sha256 : List Nat → String

structure SharedState where
  pool : StatePool
  leases : List (Option Lease)
  cacheNodes : ExtTreeMap String Nat
  ranks : Nat
  nextRequest : Nat
  cachePageLimits : ExtTreeMap String Nat
  admissions : Nat
  crossPartitionBindings : Nat
  peakOccupiedBytes : Nat
  tokenLimits : List Nat

/-- An opaque immutable resident generation. -/
structure Snapshot where
  slot : Nat
  lease : SealedLease
  deriving DecidableEq, Repr

structure Engine where
  world : World
  /-- Foreign calls made so far, the latest first. -/
  calls : List Foreign
  identity : Identity
  prefillTokens : Nat
  uncapturedPrefill : Bool
  prefillVariants : List Nat
  variants : List Variant
  histories : List CompletedHistory
  importedTokens : List Nat
  sealedLeases : List (Option SealedLease)
  copyPageTokens : List Nat
  historyAuditSequence : Nat
  shared : Option SharedState
  selected : Nat

namespace Engine

/-- Calls on the engine. -/
abbrev Call (α : Type) : Type := Method Engine Error α

/-! ## Foreign calls and parts of the engine -/

/-- Make a foreign call. -/
def foreign (call : Foreign) : Call Answer := fun e =>
  (.ok (e.world.answer (call :: e.calls)), { e with calls := call :: e.calls })

def check (answer : Answer) : Result Unit :=
  if answer.status = 0 then .ok () else invalid s!"program engine: {answer.message}"

/-- A call on the pool of the shared state, which is known to be there. -/
def onPool {α : Type} (m : Method StatePool Error α) : Call α := fun e =>
  match e.shared with
  | none => (.panic, e)
  | some shared =>
    let (reply, pool) := m shared.pool
    (reply, { e with shared := some { shared with pool := pool } })

/-- `if let Some(shared) = &mut self.shared { .. }` around one call on the pool. -/
def ifShared (m : Method StatePool Error Unit) : Call Unit := do
  let e ← Method.get
  if e.shared.isSome then onPool m else pure ()

def modifyShared (f : SharedState → SharedState) : Call Unit :=
  Method.modify fun e => { e with shared := e.shared.map f }

/-- `self.histories[slot] = history`. -/
def setHistory (slot : Nat) (history : CompletedHistory) : Call Unit := do
  let _ ← Method.read fun e => Outcome.unwrap e.histories[slot]?
  Method.modify fun e => { e with histories := e.histories.set slot history }

/-- `self.imported_tokens[slot] = tokens`. -/
def setImported (slot tokens : Nat) : Call Unit := do
  let _ ← Method.read fun e => Outcome.unwrap e.importedTokens[slot]?
  Method.modify fun e => { e with importedTokens := e.importedTokens.set slot tokens }

/-- `self.sealed[slot] = value`. -/
def setSealed (slot : Nat) (value : Option SealedLease) : Call Unit := do
  let _ ← Method.read fun e => Outcome.unwrap e.sealedLeases[slot]?
  Method.modify fun e => { e with sealedLeases := e.sealedLeases.set slot value }

/-- `self.histories[slot].append_completed(..)`. -/
def appendCompleted (slot : Nat) (variant : Variant) (position count : Nat) : Call Unit := do
  let history ← Method.read fun e => Outcome.unwrap e.histories[slot]?
  let (reply, history) := CompletedHistory.appendCompleted variant position count history
  Method.modify fun e => { e with histories := e.histories.set slot history }
  Method.lift reply

def arithmeticHistory (e : Engine) (slot : Nat) : Result CompletedHistory :=
  Outcome.okOr e.histories[slot]? (.invalid "resident history bounds")

def residentCapacity (e : Engine) : Nat := e.histories.length

/-- `shared.leases[slot].ok_or_else(..)`. -/
def leaseOf (shared : SharedState) (slot : Nat) (message : String) : Result Lease := do
  let lease ← Outcome.unwrap shared.leases[slot]?
  Outcome.okOr lease (.invalid message)

/-! ## Invocations -/

def beginInvocation (position count : Nat) : Call (Option Ticket) := do
  let e ← Method.get
  match e.shared with
  | none => pure none
  | some shared => do
    let lease ← Method.lift (leaseOf shared e.selected "resident has no state reservation")
    let limit ← Method.lift (Outcome.unwrap shared.tokenLimits[e.selected]?)
    Method.require (fun _ => (checkedAdd u32Max position count).any (· ≤ limit))
      (.invalid "invocation exceeds request state reservation")
    let ticket ← onPool (StatePool.submit 1 [lease] [])
    pure (some ticket)

/-- The native call returns only after every rank's stream completed. -/
def completeRanks (ticket : Option Ticket) (ranks : Nat) : Call Unit :=
  match ticket with
  | none => pure ()
  | some ticket => Method.forEach (List.range ranks) fun rank => onPool (StatePool.complete 1 ticket rank)

def finishInvocation (ticket : Option Ticket) (answer : Answer) : Call Unit := do
  let result := check answer
  let e ← Method.get
  match e.shared, result with
  | none, _ => Method.lift result
  | some shared, .ok () => completeRanks ticket shared.ranks
  | some _, _ => do
    onPool StatePool.poison
    Method.lift result

/-! ## Resetting -/

/-- How writing an audit file has gone. -/
def written : Option Error → Result Unit
  | none => .ok ()
  | some error => .err error

def auditHistory (slot : Nat) : Call Unit := do
  let e ← Method.get
  if e.world.auditing then do
    let history ← Method.lift (e.arithmeticHistory slot)
    if history.value.tokens = 0 then pure ()
    else do
      let sequence ← Method.lift
        (Outcome.okOr (checkedAdd u64Max e.historyAuditSequence 1)
          (.invalid "arithmetic audit sequence overflow"))
      let _ ← Method.lift (Outcome.unwrap e.importedTokens[slot]?)
      let _ ← foreign (.audit sequence slot)
      Method.read fun e => written (e.world.audit e.calls)
      Method.modify fun e => { e with historyAuditSequence := sequence }
  else pure ()

/-- `reset` of an engine without shared pages. -/
def resetUnshared : Call Unit := do
  let answer ← foreign .reset
  Method.lift (check answer)
  let e ← Method.get
  Method.forEach (List.range e.histories.length) auditHistory
  Method.modify fun e => { e with
    histories := e.histories.map fun _ => CompletedHistory.default
    importedTokens := e.importedTokens.map fun _ => 0
    selected := 0 }

def selectResident (slot : Nat) : Call Unit := do
  let e ← Method.get
  if slot = 0 ∧ e.world.selectResidentFn = false then pure ()
  else do
    Method.require (fun e => e.world.selectResidentFn)
      (.invalid "backend does not support resident selection")
    let answer ← foreign (.selectResident slot)
    Method.lift (check answer)
    Method.modify fun e => { e with selected := slot }

/-- Hand the reservation of a resident back to the pool. -/
def returnPages (slot : Nat) : Call Unit := do
  let e ← Method.get
  match e.shared with
  | none => pure ()
  | some shared => do
    let lease ← Method.lift (Outcome.okOr shared.leases[slot]? (.invalid "resident slot bounds"))
    modifyShared fun shared => { shared with leases := shared.leases.set slot none }
    match lease with
    | none => pure ()
    | some lease => onPool (StatePool.retire 1 lease)

/-- The host side of a reset the native side has completed: the history is
    cleared and the pages handed back before an audit error is returned. -/
def finishReset (slot : Nat) : Call Unit := do
  let audit ← Method.attempt (auditHistory slot)
  let _ ← Method.read fun e => e.arithmeticHistory slot
  setHistory slot CompletedHistory.default
  setImported slot 0
  returnPages slot
  Method.lift audit

def sealedAny (e : Engine) : Bool := e.sealedLeases.any Option.isSome

/-- `reset` reached from `reset_resident`. With shared pages the two would call
    each other without end; `open` rejects a library that would come here. -/
def resetFallback : Call Unit := do
  Method.require (fun e => !e.sealedAny) (.invalid "explicitly retire snapshots before engine reset")
  let e ← Method.get
  if e.shared.isSome then Method.lift .panic else resetUnshared

/-- The pool must not have readers or incomplete work on what is reset. -/
def checkResidentIdle (slot : Nat) : Call Unit :=
  Method.read fun e =>
    match e.shared with
    | none => .ok ()
    | some shared => do
      let lease ← Outcome.unwrap shared.leases[slot]?
      match lease with
      | none => .ok ()
      | some lease => shared.pool.checkIdle 1 lease

def resetResident (slot : Nat) : Call Unit := do
  let taken ← Method.read fun e => Outcome.okOr e.sealedLeases[slot]? (.invalid "resident slot bounds")
  if taken.isSome then
    Method.fail (.invalid "sealed snapshot cannot be reset as a request")
  else do
    checkResidentIdle slot
    let e ← Method.get
    if slot = 0 ∧ e.world.resetResidentFn = false then resetFallback
    else do
      Method.require (fun e => e.world.resetResidentFn)
        (.invalid "backend does not support resident reset")
      let answer ← foreign (.resetResident slot)
      match check answer with
      | .ok () => finishReset slot
      | status => do
        ifShared StatePool.poison
        Method.lift status

def reset : Call Unit := do
  Method.require (fun e => !e.sealedAny) (.invalid "explicitly retire snapshots before engine reset")
  let e ← Method.get
  match e.shared with
  | none => resetUnshared
  | some shared => do
    Method.forEach (List.range shared.leases.length) resetResident
    selectResident 0

def releaseResident (slot : Nat) : Call Unit := do
  let e ← Method.get
  if e.shared.isSome then resetResident slot else pure ()

/-! ## Preparing -/

/-- `i32::MAX`. -/
def i32Max : Nat := 2147483647

/-- Whether a binding reaches into another resident's partition. -/
def crosses (shared : SharedState) (slot : Nat) (b : Binding) : List Nat → Result Bool
  | [] => .ok false
  | unit :: units => do
    let limit ← Outcome.unwrap shared.cachePageLimits[b.component]?
    let partition ← Outcome.div unit limit
    if partition ≠ slot then .ok true else crosses shared slot b units

/-- The paged bindings with their native cache nodes. -/
def cacheBindings (shared : SharedState) (bindings : List Binding) : List (Nat × Binding) :=
  bindings.filterMap fun b => (shared.cacheNodes[b.component]?).map fun node => (node, b)

/-- Hand one page list to the native side. -/
def bindState (binding : Nat × Binding) : Call Unit := do
  let pages ← Method.lift (Outcome.collect
    (fun page => Outcome.okOr (tryFrom i32Max page) (Error.invalid "page ID overflow")) binding.2.units)
  let answer ← foreign (.bindState binding.2.rank binding.1 pages)
  match check answer with
  | .ok () => pure ()
  | status => do
    onPool StatePool.poison
    Method.lift status

/-- The counters of an admission. -/
def countAdmission (slot : Nat) (bindings : List (Nat × Binding)) : Call Unit := do
  let shared ← Method.read fun e => Outcome.unwrap e.shared
  let crossing ← Method.lift (Outcome.collect (fun b => crosses shared slot b.2 b.2.units) bindings)
  let usage ← Method.lift shared.pool.usage
  modifyShared fun shared => { shared with
    crossPartitionBindings := shared.crossPartitionBindings + crossing.count true
    admissions := shared.admissions + 1
    peakOccupiedBytes := max shared.peakOccupiedBytes (usage.map Usage.occupiedBytes).sum }

def prepareShared (slot tokens : Nat) (shared : SharedState) : Call Unit := do
  let request ← Method.lift (Outcome.okOr (checkedAdd u64Max shared.nextRequest 1)
    (.invalid "request generation exhausted"))
  modifyShared fun shared => { shared with nextRequest := request }
  let _ ← Method.lift (Outcome.unwrap shared.leases[slot]?)
  let lease ← onPool (StatePool.reserveAtSlot 1 request tokens slot)
  modifyShared fun shared => { shared with
    leases := shared.leases.set slot (some lease)
    tokenLimits := shared.tokenLimits.set slot tokens }
  let bindings ← onPool (Method.read fun pool => pool.bindings 1 lease)
  let cached := cacheBindings shared bindings
  countAdmission slot cached
  Method.require (fun e => e.world.bindStateFn) (.invalid "missing shared page binding ABI")
  Method.forEach cached bindState

def prepareResident (slot tokens : Nat) : Call Unit := do
  resetResident slot
  selectResident slot
  let e ← Method.get
  match e.shared with
  | none => pure ()
  | some shared => prepareShared slot tokens shared

/-- Update the block table of a component on one rank, outside any reservation. -/
def bindPages (rank : Nat) (component : String) (pages : List Nat) : Call Unit := do
  Method.require (fun e => e.world.bindPagesFn) (.invalid "backend does not support page bindings")
  Method.require (fun _ => component.toList.all (· ≠ '\x00')) (.invalid "component contains NUL")
  let pages ← Method.lift (Outcome.collect
    (fun page => Outcome.okOr (tryFrom i32Max page) (Error.invalid "page ID overflow")) pages)
  let _ ← Method.lift (Outcome.okOr (tryFrom u32Max pages.length)
    (Error.invalid "page table length overflow"))
  let answer ← foreign (.bindPages rank component pages)
  Method.lift (check answer)

/-! ## Copies and snapshots -/

def copyHistory (histories : List CompletedHistory) (source destination boundary : Nat)
    (pages : List Nat) : Result CompletedHistory := do
  let source_ ← Outcome.okOr histories[source]? (.invalid "state copy source bounds")
  let destination_ ← Outcome.okOr histories[destination]? (.invalid "state copy destination bounds")
  if source = destination ∨ boundary = 0 ∨ source_.value.tokens ≠ boundary ∨ destination_.value.tokens ≠ 0 ∨
      pages.any fun page => page = 0 ∨ boundary % page ≠ 0 then
    invalid "state copy requires complete aligned source and empty destination history"
  else
    source_.prefix_ boundary

/-- Submit a copy; when that is refused the borrow is given back. -/
def submitCopy (destination : Lease) (read : Borrow) : Call Ticket := do
  let ticket ← Method.attempt (onPool (StatePool.submit 1 [destination] [read]))
  match ticket with
  | .ok ticket => pure ticket
  | _ => do
    onPool (StatePool.release 1 read)
    Method.lift ticket

/-- The reservations of a copy. -/
def copyLeases (e : Engine) (source destination boundary : Nat) : Result (Lease × Lease) := do
  let shared ← Outcome.okOr e.shared (.invalid "state copy requires shared ownership reservations")
  let sourceLease ← leaseOf shared source "copy source has no reservation"
  let destinationLease ← leaseOf shared destination "copy destination has no reservation"
  let limit ← Outcome.unwrap shared.tokenLimits[destination]?
  if boundary > limit then invalid "state copy exceeds destination reservation"
  else .ok (sourceLease, destinationLease)

def copyResident (source destination boundary : Nat) : Call Unit := do
  Method.require (fun e => e.world.copyResidentFn) (.invalid "backend has no explicit state-copy ABI")
  let history ← Method.read fun e => copyHistory e.histories source destination boundary e.copyPageTokens
  let leases ← Method.read fun e => copyLeases e source destination boundary
  let read ← onPool (StatePool.borrow 1 leases.1)
  let ticket ← submitCopy leases.2 read
  let answer ← foreign (.copyResident source destination boundary)
  finishInvocation (some ticket) answer
  onPool (StatePool.release 1 read)
  setHistory destination history
  setImported destination boundary

/-- Whether a page size does not divide the length. -/
def misaligned (tokens : Nat) : List Nat → Result Bool
  | [] => .ok false
  | page :: pages => do
    let rest ← Outcome.rem tokens page
    if rest ≠ 0 then .ok true else misaligned tokens pages

def sealResident (slot : Nat) : Call Snapshot := do
  let history ← Method.read fun e => e.arithmeticHistory slot
  let refused ← Method.read fun e =>
    if history.value.tokens = 0 then .ok true else misaligned history.value.tokens e.copyPageTokens
  if refused then
    Method.fail (.invalid "snapshot requires a complete aligned history")
  else do
    Method.require (fun e => e.world.copyResidentFn) (.invalid "backend cannot restore device snapshots")
    let shared ← Method.read fun e =>
      Outcome.okOr e.shared (.invalid "snapshot requires shared reservations")
    let lease ← Method.lift (leaseOf shared slot "snapshot resident has no reservation")
    let sealedLease ← onPool (StatePool.sealLease 1 lease)
    setSealed slot (some sealedLease)
    pure ⟨slot, sealedLease⟩

/-- Least common multiple of the page sizes; the inner loop is Euclid's. -/
def alignmentFrom : Nat → List Nat → Result Nat
  | result, [] => .ok result
  | result, page :: pages => do
    let quotient ← Outcome.div result (Nat.gcd result page)
    match checkedMul u32Max quotient page with
    | none => invalid "checkpoint alignment overflow"
    | some result => alignmentFrom result pages

def checkpointAlignment (e : Engine) : Result Nat := alignmentFrom 1 e.copyPageTokens

def checkSnapshot (e : Engine) (snapshot : Snapshot) : Result Unit :=
  if e.sealedLeases[snapshot.slot]? ≠ some (some snapshot.lease) then
    invalid "stale or foreign device snapshot"
  else .ok ()

def restoreSnapshot (snapshot : Snapshot) (destination : Nat) : Call Unit := do
  Method.read fun e => e.checkSnapshot snapshot
  let history ← Method.read fun e => Outcome.unwrap e.histories[snapshot.slot]?
  copyResident snapshot.slot destination history.value.tokens

def retireSnapshot (snapshot : Snapshot) : Call Unit := do
  Method.read fun e => e.checkSnapshot snapshot
  let shared ← Method.read fun e => Outcome.okOr e.shared (.invalid "snapshot pool missing")
  let lease ← Method.lift (leaseOf shared snapshot.slot "snapshot lease missing")
  Method.lift (shared.pool.checkIdle 1 lease)
  setSealed snapshot.slot none
  let status ← Method.attempt (resetResident snapshot.slot)
  match status with
  | .ok () => pure ()
  | _ => do
    -- The old checkpoint is not usable after a partial teardown.
    ifShared StatePool.poison
    setSealed snapshot.slot (some snapshot.lease)
    Method.lift status

/-! ## Running -/

def token (token position : Nat) (sample : Bool) : Call (Option Nat) := do
  let e ← Method.get
  let history ← Method.lift (Outcome.unwrap e.histories[e.selected]?)
  let variant ← Method.lift (Outcome.unwrap e.variants[0]?)
  Method.lift (history.value.checkAppend variant position 1)
  let ticket ← beginInvocation position 1
  let answer ← foreign (.token token position sample)
  finishInvocation ticket answer
  appendCompleted e.selected variant position 1
  pure (if sample then some (answer.output.headD 0) else none)

def prefill (tokens : List Nat) (position : Nat) (sample : Bool) : Call (Option Nat) := do
  let count ← Method.lift (Outcome.okOr (tryFrom u32Max tokens.length) (.invalid "prefill count overflow"))
  let e ← Method.get
  if count ≤ 1 ∨ (e.uncapturedPrefill = false ∧ count ∉ e.prefillVariants) ∨ count > e.prefillTokens then
    Method.fail (.invalid "prefill must match the compiled chunk width")
  else do
    let variant ← Method.lift (Outcome.okOr
      (e.variants.find? fun v => v.phase = .prefill ∧ v.acceptsQueryTokens count)
      (.invalid "missing arithmetic variant"))
    let history ← Method.lift (Outcome.unwrap e.histories[e.selected]?)
    Method.lift (history.value.checkAppend variant position count)
    Method.require (fun e => e.world.prefillFn) (.invalid "backend has no packed prefill entry point")
    let ticket ← beginInvocation position count
    let answer ← foreign (.prefill tokens position sample)
    finishInvocation ticket answer
    appendCompleted e.selected variant position count
    pure (if sample then some (answer.output.headD 0) else none)

/-- `u32::to_le_bytes`. -/
def leBytes (value : Nat) : List Nat :=
  [value % 256, value / 256 % 256, value / 65536 % 256, value / 16777216 % 256]

/-- The loop of `pack_batch`: the residents and tokens so far, and the bytes hashed. -/
def packFrom (residents budget : Nat) :
    List Nat → Nat → List Nat → List BatchInput → Result (Nat × List Nat)
  | _, tokens, bytes, [] => .ok (tokens, bytes)
  | seen, tokens, bytes, input :: inputs => do
    let count ← Outcome.okOr (tryFrom u32Max input.tokens.length) (.invalid "batch token count overflow")
    if input.resident ≥ residents ∨ input.resident ∈ seen ∨ count = 0 ∨
        checkedAdd u32Max input.position count = none ∨ tokens + input.tokens.length > budget then
      invalid "invalid batch member or token budget"
    else
      packFrom residents budget (input.resident :: seen) (tokens + input.tokens.length)
        (bytes ++ leBytes input.position ++ leBytes count ++ input.tokens.flatMap leBytes) inputs

/-- The number of packed tokens and the digest of a batch. -/
def packBatch (sha256 : List Nat → String) (inputs : List BatchInput) (residents budget : Nat) :
    Result (Nat × String) :=
  if inputs = [] ∨ inputs.length > residents then
    invalid "batch resident count"
  else do
    let (tokens, bytes) ← packFrom residents budget [] 0 [] inputs
    .ok (tokens, sha256 bytes)

def batchBaseVariant (variants : List Variant) (tokens : Nat) : Result Variant :=
  Outcome.okOr
    (variants.find? fun v => v.phase = .prefill ∧ v.graphCapable = false ∧ v.acceptsQueryTokens tokens)
    (.invalid "batch requires uncaptured packed variant")

/-- Peer content and batch geometry are part of a batch's numerical class. -/
def batchVariant (base : Variant) (digest : String) (member : Nat) : Variant :=
  { base with
    numericalClass := s!"{base.numericalClass}:sequence-batch-v1:{digest}:member={member}" }

/-- The checks of one member of a batch. -/
def batchMember (e : Engine) (base : Variant) (digest : String) (member : BatchInput × Nat) :
    Result (BatchInput × Variant) := do
  let variant := batchVariant base digest member.2
  let history ← Outcome.unwrap e.histories[member.1.resident]?
  history.value.checkAppend variant member.1.position member.1.tokens.length
  let taken ← Outcome.unwrap e.sealedLeases[member.1.resident]?
  if taken.isSome then invalid "batch cannot mutate sealed resident" else .ok (member.1, variant)

/-- The reservation of one member of a batch. -/
def batchLease (shared : SharedState) (input : BatchInput) : Result Lease := do
  let limit ← Outcome.unwrap shared.tokenLimits[input.resident]?
  if input.position + input.tokens.length > limit then invalid "batch exceeds request reservation"
  else leaseOf shared input.resident "batch resident has no state reservation"

def submitBatch (inputs : List BatchInput) : Call (Option Ticket) := do
  let e ← Method.get
  match e.shared with
  | none => pure none
  | some shared => do
    let leases ← Method.lift (Outcome.collect (batchLease shared) inputs)
    let ticket ← onPool (StatePool.submit 1 leases [])
    pure (some ticket)

/-- The sampled tokens, one for each member that asked for one. -/
def samples : List BatchInput → List Nat → List (Option Nat)
  | [], _ => []
  | input :: inputs, sampled =>
    if input.sample then sampled.head? :: samples inputs sampled.tail else none :: samples inputs sampled

def batch (inputs : List BatchInput) : Call (List (Option Nat)) := do
  Method.require (fun e => e.world.batchFn) (.invalid "native batch ABI unavailable")
  let e ← Method.get
  let (tokens, digest) ← Method.lift
    (packBatch e.world.sha256 inputs e.histories.length e.prefillTokens)
  let base ← Method.lift (batchBaseVariant e.variants tokens)
  let members ← Method.lift (Outcome.collect (batchMember e base digest) inputs.zipIdx)
  let ticket ← submitBatch inputs
  let answer ← foreign (.batch inputs)
  finishInvocation ticket answer
  -- The output is as long as the call has counted.
  let sampled := answer.output
  if sampled.length ≠ (inputs.filter BatchInput.sample).length then do
    ifShared StatePool.poison
    Method.fail (.invalid "native batch output count mismatch")
  else do
    Method.forEach members fun (input, variant) =>
      appendCompleted input.resident variant input.position input.tokens.length
    pure (samples inputs sampled)

end Engine

end Inferfabric.Native
