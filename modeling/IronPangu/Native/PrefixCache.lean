-- SUMMARY: The prefix cache: sealed snapshots in residents of their own, found through one prefix index for each tenant namespace.
import IronPangu.Native.Engine
import IronPangu.Runtime.PrefixIndex

open Rust Std

/-!
# The prefix cache

A published prefix is copied to a snapshot resident, sealed there, and entered in the
index of its tenant's namespace under its tokens and its arithmetic history. The cache
runs on the engine's own worker, so its methods take engine and cache together.
-/

namespace Inferfabric.Native

open Inferfabric.Ir Inferfabric.Runtime

structure CacheEntry where
  snapshot : Snapshot
  slot : Nat
  touched : Nat
  namespace_ : String
  deriving DecidableEq, Repr

structure PrefixCache where
  identity : PrefixIdentity
  indexes : ExtTreeMap String PrefixIndex
  alignment : Nat
  maxContext : Nat
  entries : ExtTreeMap CheckpointId CacheEntry
  activeSlots : Nat
  snapshotSlots : Nat
  clock : Nat
  /-- The process-wide number of the next index. -/
  nextIndex : Nat

/-- An engine and the cache over it. -/
structure Caching where
  engine : Engine
  cache : PrefixCache

namespace PrefixCache

abbrev Call (α : Type) : Type := Method Caching Error α

def onEngine {α : Type} (m : Engine.Call α) : Call α := fun s =>
  let (reply, e) := m s.engine
  (reply, { s with engine := e })

def modifyCache (f : PrefixCache → PrefixCache) : Call Unit :=
  Method.modify fun s => { s with cache := f s.cache }

def new (e : Engine) (identity : PrefixIdentity) (activeSlots snapshotSlots maxContext nextIndex : Nat) :
    Result PrefixCache := do
  if identity.engine ≠ e.identity ∨ activeSlots = 0 ∨ snapshotSlots = 0 ∨ maxContext = 0 ∨
      (checkedAdd u32Max activeSlots snapshotSlots).all (· > e.residentCapacity) then
    invalid "prefix cache identity or compiled resident capacity"
  else do
    let alignment ← e.checkpointAlignment
    let (_, nextIndex) ← PrefixIndex.new identity alignment snapshotSlots (snapshotSlots * maxContext) nextIndex
    return ⟨identity, ∅, alignment, maxContext, ∅, activeSlots, snapshotSlots, 0, nextIndex⟩

def tick : Call Nat := do
  let s ← Method.get
  let clock ← Method.lift (Outcome.okOr (checkedAdd u64Max s.cache.clock 1) (.invalid "prefix LRU clock exhausted"))
  modifyCache fun c => { c with clock := clock }
  return clock

def compatible (s : Caching) (identity : PrefixIdentity) (slot : Nat) : Result Unit :=
  let expected := { s.cache.identity with tenantNamespace := identity.tenantNamespace }
  if slot ≥ s.cache.activeSlots ∨ identity.engine ≠ s.engine.identity ∨
      identity.tenantNamespace.utf8ByteSize > 256 ∨ expected.compatible identity = false then
    invalid "prefix request namespace or active resident"
  else .ok ()

/-- Run a method of a namespace's index. -/
def onIndex {α : Type} (namespace_ : String) (message : String) (m : Method PrefixIndex Error α) : Call α := do
  let s ← Method.get
  let index ← Method.lift (Outcome.okOr s.cache.indexes[namespace_]? (.invalid message))
  let (reply, index) := m index
  modifyCache fun c => { c with indexes := c.indexes.insert namespace_ index }
  Method.lift reply

def dropEmptyIndex (namespace_ : String) : Call Unit :=
  modifyCache fun c => { c with
    indexes := if (c.indexes[namespace_]?).any PrefixIndex.isEmpty then c.indexes.erase namespace_ else c.indexes }

/-- Retire an entry's snapshot and forget it; its slot is free again. -/
def evict (id : CheckpointId) : Call Nat := do
  let s ← Method.get
  let entry ← Method.lift (Outcome.okOr s.cache.entries[id]? (.invalid "prefix entry missing"))
  onEngine (Engine.retireSnapshot entry.snapshot)
  modifyCache fun c => { c with entries := c.entries.erase id }
  let found ← onIndex entry.namespace_ "prefix namespace missing" (PrefixIndex.remove id)
  if found then do
    dropEmptyIndex entry.namespace_
    return entry.slot
  else Method.fail (.invalid "prefix index ownership mismatch")

def freeSlot (c : PrefixCache) : Option Nat :=
  (List.range' c.activeSlots c.snapshotSlots).find? fun slot => c.entries.values.all fun entry => entry.slot != slot

/-- The first of the least recently touched entries. -/
def oldest (c : PrefixCache) : Option CheckpointId :=
  (c.entries.toList.argmin fun entry => entry.2.touched).map Prod.fst

def takeSlot : Call Nat := do
  let s ← Method.get
  match s.cache.freeSlot with
  | some slot => return slot
  | none => do
    let id ← Method.lift (Outcome.okOr s.cache.oldest (.invalid "prefix LRU empty"))
    evict id

/-- `index.lookup` in a namespace that may have no index yet. -/
def lookup (c : PrefixCache) (identity : PrefixIdentity) (tokens : List Nat) (history : ArithmeticHistory)
    (maxRestore : Nat) : Result (Option (CheckpointId × Nat)) :=
  match c.indexes[identity.tenantNamespace]? with
  | none => .ok none
  | some index => do
    let found ← index.lookup identity tokens history maxRestore
    return found.checkpoint

def touch (id : CheckpointId) (touched : Nat) : Call CacheEntry := do
  let s ← Method.get
  let entry ← Method.lift (Outcome.okOr s.cache.entries[id]? (.invalid "prefix owner missing"))
  modifyCache fun c => { c with entries := c.entries.insert id { entry with touched := touched } }
  return entry

def ensureIndex (identity : PrefixIdentity) : Call Unit := do
  let s ← Method.get
  match s.cache.indexes[identity.tenantNamespace]? with
  | some _ => return ()
  | none => do
    let (index, nextIndex) ← Method.lift (PrefixIndex.new identity s.cache.alignment s.cache.snapshotSlots
      (s.cache.snapshotSlots * s.cache.maxContext) s.cache.nextIndex)
    modifyCache fun c => { c with
      indexes := c.indexes.insert identity.tenantNamespace index
      nextIndex := nextIndex }

/-- The boundary of a publication, checked against the engine's alignment. -/
def checkBoundary (s : Caching) (history : CompletedHistory) (tokens : List Nat) : Result Unit := do
  let boundary := history.value.tokens
  if boundary = 0 ∨ tokens.length ≠ boundary then
    invalid "prefix publication requires exact completed aligned history"
  else do
    let alignment ← s.engine.checkpointAlignment
    let misaligned ← Outcome.rem boundary alignment
    if misaligned ≠ 0 ∨ boundary > s.cache.maxContext then
      invalid "prefix publication requires exact completed aligned history"
    else return ()

/-- Copy the source to a snapshot resident, seal it and enter it in the index. -/
def publishNew (identity : PrefixIdentity) (source : Nat) (tokens : List Nat) (history : CompletedHistory)
    (touched : Nat) : Call Unit := do
  let boundary := history.value.tokens
  let slot ← takeSlot
  onEngine (Engine.prepareResident slot boundary)
  onEngine (Engine.copyResident source slot boundary)
  let snapshot ← onEngine (Engine.sealResident slot)
  ensureIndex identity
  let inserted ← Method.attempt (onIndex identity.tenantNamespace "prefix namespace missing"
    (PrefixIndex.insert identity tokens history.value))
  match inserted with
  | .ok id => do
    modifyCache fun c => { c with entries := c.entries.insert id ⟨snapshot, slot, touched, identity.tenantNamespace⟩ }
    -- The source continues with its own tables and position.
    onEngine (Engine.selectResident source)
  | error => do
    onEngine (Engine.retireSnapshot snapshot)
    let _ ← Method.lift error
    return ()

def publish (identity : PrefixIdentity) (source : Nat) (tokens : List Nat) : Call Bool := do
  Method.read fun s => compatible s identity source
  let history ← Method.read fun s => s.engine.arithmeticHistory source
  Method.read fun s => checkBoundary s history tokens
  let touched ← tick
  let found ← Method.read fun s => s.cache.lookup identity tokens history.value history.value.tokens
  match found with
  | some (id, length) =>
    if length = history.value.tokens then do
      let _ ← touch id touched
      return false
    else do
      publishNew identity source tokens history touched
      return true
  | none => do
    publishNew identity source tokens history touched
    return true

def restore (identity : PrefixIdentity) (destination : Nat) (tokens : List Nat) (history : CompletedHistory) :
    Call Nat := do
  Method.read fun s => compatible s identity destination
  let maximum ← Method.lift (Outcome.okOr (tryFrom u32Max (tokens.length - 1)) (.invalid "prefix request length overflow"))
  let found ← Method.read fun s => s.cache.lookup identity tokens history.value maximum
  match found with
  | none => return 0
  | some (id, boundary) => do
    let touched ← tick
    let s ← Method.get
    let entry ← Method.lift (Outcome.okOr s.cache.entries[id]? (.invalid "prefix owner missing"))
    onEngine (Engine.restoreSnapshot entry.snapshot destination)
    modifyCache fun c => { c with entries := c.entries.insert id { entry with touched := touched } }
    return boundary

def clear : Call Unit := do
  let s ← Method.get
  Method.forEach s.cache.entries.keys fun id => do
    let _ ← evict id
    return ()

end PrefixCache

end Inferfabric.Native
