-- SUMMARY: The cached program: the engine with its prefix cache as a resident engine, its checkpoint boundary and its prospective histories.
import IronPangu.Native.Engine.Open
import IronPangu.Native.PrefixCache
import IronPangu.ProgramWorker

open Rust Std

/-!
# The cached program

Before a request runs, the histories of published prefixes are compared with the history
the request is going to have. That history is computed in advance, from the widths the
engine would choose and the variants it would choose them for.
-/

namespace Inferfabric.Native

/-- `prospective_single_batch_variant`: the variant of a batch with this chunk as its only member. -/
def prospectiveSingleBatchVariant (sha256 : List Nat → String) (variants : List Ir.Variant) (tokens : List Nat)
    (position budget : Nat) : Result Ir.Variant := do
  let (packed, digest) ← Engine.packBatch sha256 [⟨0, position, tokens, false⟩] 1 budget
  let base ← Engine.batchBaseVariant variants packed
  if position + packed > base.maxContext then invalid "prospective batch exceeds context"
  else return Engine.batchVariant base digest 0

namespace Engine

def prefillChunk (e : Engine) (limit : Nat) : Nat :=
  if e.uncapturedPrefill then min limit e.prefillTokens
  else (e.prefillVariants.reverse.find? fun n => n ≤ limit).getD 1

/-- `batch_capacity`, where `symbol` is the answer of the library's query, if it has one. -/
def batchCapacity (e : Engine) (symbol : Option Nat) : Result Nat :=
  match symbol with
  | none => .ok 0
  | some capacity =>
    if capacity > e.prefillTokens ∨ (capacity > 0 ∧ e.world.batchFn = false) then
      invalid "native batch capacity disagrees with executable"
    else .ok capacity

end Engine

end Inferfabric.Native

namespace Inferfabric.ProgramWorker

open Inferfabric.Ir Inferfabric.Runtime Inferfabric.Native

/-- `uncaptured_checkpoint_boundary`. -/
def uncapturedCheckpointBoundary (tokens alignment chunk : Nat) : Nat :=
  let alignedChunk := alignment / Nat.gcd alignment chunk * chunk
  (tokens - 1) / alignedChunk * alignedChunk

structure CachedProgram where
  engine : Engine
  cache : Option PrefixCache
  identity : PrefixIdentity
  variants : List Variant
  alignment : Nat
  budget : Nat
  /-- SHA-256 of a tenant namespace with a request's cache salt. -/
  namespaceSha : String → Option String → String
  /-- What the library's batch-capacity query answers, if it has one. -/
  batchSymbol : Option Nat

/-- The command line's choices for the cache. -/
structure ProgramArgs where
  prefixCacheSlots : Option Nat
  prefixCacheNamespace : Option String

namespace CachedProgram

def newCache (e : Engine) (m : Manifest) (identity : PrefixIdentity) (slots : Option Nat)
    (residents context nextIndex : Nat) : Result (Option PrefixCache) :=
  match slots with
  | none => .ok none
  | some slots =>
    if m.sharedPages = false ∨ m.states.isEmpty ∨ m.states.any fun state => !state.checkpointSupported then
      invalid "prefix cache requires complete executable checkpoint capabilities"
    else do
      let cache ← PrefixCache.new e identity residents slots context nextIndex
      return some cache

def new (e : Engine) (m : Manifest) (options : ProgramArgs) (residents context budget : Nat) (tokenizerHash : String)
    (namespaceSha : String → Option String → String) (batchSymbol : Option Nat) (nextIndex : Nat) :
    Result CachedProgram := do
  let identity : PrefixIdentity := ⟨m.identity, "completed-invocation-history-v1", tokenizerHash,
    options.prefixCacheNamespace.getD "", none⟩
  let cache ← newCache e m identity options.prefixCacheSlots residents context nextIndex
  let alignment ← e.checkpointAlignment
  return ⟨e, cache, identity, m.variants, alignment, min budget u32Max, namespaceSha, batchSymbol⟩

/-- The position a prompt of this length is published at. -/
def boundary (p : CachedProgram) (tokens : Nat) : Nat :=
  if p.engine.uncapturedPrefill then
    uncapturedCheckpointBoundary tokens p.alignment (min p.engine.prefillTokens p.budget)
  else (tokens - 1) / p.alignment * p.alignment

def namespace_ (p : CachedProgram) (request : Request) : Result PrefixIdentity :=
  if request.loraRequest ∨ request.mmFeatures then
    invalid "prefix cache requires a supported text-only model identity"
  else .ok { p.identity with
    tenantNamespace := p.namespaceSha p.identity.tenantNamespace request.cacheSalt }

def prefillLimit (p : CachedProgram) (position prompt : Nat) : Nat :=
  if p.cache.isSome ∧ position < p.boundary prompt then p.boundary prompt - position else prompt - position

abbrev Call (α : Type) : Type := Method CachedProgram Error α

def onEngine {α : Type} (m : Engine.Call α) : Call α := fun p =>
  let (reply, e) := m p.engine
  (reply, { p with engine := e })

/-- `self.cache.as_mut().unwrap()` -/
def onCache {α : Type} (m : PrefixCache.Call α) : Call α := fun p =>
  match p.cache with
  | none => (.panic, p)
  | some cache =>
    let (reply, s) := m ⟨p.engine, cache⟩
    (reply, { p with engine := s.engine, cache := some s.cache })

/-- The variant the next invocation of a prompt is expected to have. -/
def prospectiveVariant (p : CachedProgram) (prompt : List Nat) (batched : Bool) (position count : Nat) :
    Result Variant :=
  if batched then do
    let tokens ← slice prompt position count
    prospectiveSingleBatchVariant p.engine.world.sha256 p.variants tokens position p.engine.prefillTokens
  else Outcome.okOr (p.variants.find? fun v => v.acceptsQueryTokens count) (.invalid "prefix arithmetic variant missing")

/-- The history of a prompt up to a boundary, one invocation a turn. Every invocation
    has a token, so as many turns as the boundary has tokens are enough. -/
def prospectiveFrom (p : CachedProgram) (prompt : List Nat) (batched : Bool) (boundary : Nat) :
    Nat → CompletedHistory → Result CompletedHistory
  | 0, history => .ok history
  | fuel + 1, history =>
    let position := history.value.tokens
    if position < boundary then do
      let count := p.engine.prefillChunk (min (boundary - position) p.budget)
      let variant ← p.prospectiveVariant prompt batched position count
      let (reply, next) := CompletedHistory.appendCompleted variant position count history
      reply
      prospectiveFrom p prompt batched boundary fuel next
    else .ok history

def prospectiveHistory (p : CachedProgram) (prompt : List Nat) : Result CompletedHistory := do
  let boundary := p.boundary prompt.length
  let capacity ← p.engine.batchCapacity p.batchSymbol
  prospectiveFrom p prompt (decide (capacity > 0)) boundary boundary CompletedHistory.default

def restorePrefix (slot : Nat) (request : Request) : Call Nat := do
  let p ← Method.get
  if p.cache.isNone then return 0
  else do
    let identity ← Method.lift (p.namespace_ request)
    let history ← Method.lift (p.prospectiveHistory request.promptTokenIds)
    onCache (PrefixCache.restore identity slot request.promptTokenIds history)

def checkpoint (slot : Nat) (request : Request) (position : Nat) : Call Unit := do
  let p ← Method.get
  if p.cache.isNone ∨ position = 0 ∨ position ≠ p.boundary request.promptTokenIds.length then return ()
  else do
    let identity ← Method.lift (p.namespace_ request)
    let tokens ← Method.lift (slice request.promptTokenIds 0 position)
    let _ ← onCache (PrefixCache.publish identity slot tokens)
    return ()

def clearPrefixCache : Call Unit := do
  let p ← Method.get
  if p.cache.isSome then onCache PrefixCache.clear else return ()

/-- The cached program as the worker's engine. -/
def resident : ResidentEngine CachedProgram where
  batchCapacity p := p.engine.batchCapacity p.batchSymbol
  batch inputs := onEngine (Engine.batch inputs)
  uncapturedPrefill p := p.engine.uncapturedPrefill
  restorePrefix := restorePrefix
  prefillLimit := prefillLimit
  checkpoint := checkpoint
  clearPrefixCache := clearPrefixCache
  prefillChunk p := p.engine.prefillChunk
  prefill tokens position sample := onEngine (Engine.prefill tokens position sample)
  reserve slot tokens := onEngine (Engine.prepareResident slot tokens)
  release slot := onEngine (Engine.releaseResident slot)
  select slot := onEngine (Engine.selectResident slot)
  token value position sample := onEngine (Engine.token value position sample)

end CachedProgram

end Inferfabric.ProgramWorker
