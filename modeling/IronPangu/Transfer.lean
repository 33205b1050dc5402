-- SUMMARY: Logical pages and slots leased to requests, and the in-memory hand-off of a prefilled request to its decoder.
import IronPangu.Ir.Serving
import IronPangu.Lib.Machine
import IronPangu.Lib.Ordered

open Rust Method Std

/-!
# Prefill and decode ownership

A resource pool leases pages and slots to requests; what a lease held comes back at
an explicit completion fence. The transport keeps one entry for every active lease
and takes the messages of a hand-off in whatever order they come.

The generation counter is a `u64` and is increased unchecked: at its largest value
`reserve` panics, after it has taken its pages and its slot.
-/

namespace Inferfabric

open Ir

/-! ## Model metadata -/

inductive Layer where
  | full
  | delta
  deriving DecidableEq, Repr

structure Model where
  vocab : Nat
  convWidth : Nat
  layers : List Layer
  deriving DecidableEq, Repr

structure Spec where
  model : Model
  pageTokens : Nat
  contextBuckets : List Nat
  deriving DecidableEq, Repr

def Spec.maxContext (spec : Spec) : Nat := spec.contextBuckets.getLast?.getD 0

structure HybridState where
  consumed : Nat
  kv : List (List Nat)
  recurrent : List Nat
  conv : List (List Nat)
  deriving DecidableEq, Repr

namespace HybridState

def empty (spec : Spec) : HybridState :=
  let full := spec.model.layers.countP (· == .full)
  let delta := spec.model.layers.length - full
  { consumed := 0
    kv := List.replicate full []
    recurrent := List.replicate delta 0
    conv := List.replicate delta [] }

def validate (state : HybridState) (spec : Spec) : Result Unit :=
  let empty := empty spec
  if state.consumed > spec.maxContext ∨ state.kv.length ≠ empty.kv.length ∨
      state.recurrent.length ≠ empty.recurrent.length ∨ state.conv.length ≠ empty.conv.length ∨
      (∃ v ∈ state.kv, v.length ≠ state.consumed) ∨
      (∃ v ∈ state.conv, v.length ≠ min state.consumed spec.model.convWidth) then
    invalid "hybrid state schema/frontier mismatch"
  else .ok ()

end HybridState

namespace Transfer

/-! ## Leases -/

structure Lease where
  request : Nat
  epoch : Nat
  slot : Nat
  generation : Nat
  pages : List Nat
  deriving DecidableEq, Repr

/-- Pages and slots cannot be reused until an explicit completion fence. -/
structure ResourcePool where
  pageTokens : Nat
  freePages : ExtTreeSet Nat
  freeSlots : ExtTreeSet Nat
  active : ExtTreeMap Nat Lease
  retired : List Lease
  generation : Nat

namespace ResourcePool

def new (pages slots pageTokens : Nat) : Result ResourcePool :=
  if pageTokens = 0 ∨ slots = 0 ∨ pages = 0 then invalid "empty resource pool"
  else .ok {
    pageTokens := pageTokens
    freePages := ExtTreeSet.ofList (List.range pages)
    freeSlots := ExtTreeSet.ofList (List.range slots)
    active := ∅
    retired := []
    generation := 0 }

/-- `free_slots.pop_first()`. -/
def popSlot : Method ResourcePool Error Nat := do
  let s ← Method.get
  match s.freeSlots.toList.head? with
  | none => Method.fail (.invalid "no slot")
  | some slot => do
    Method.modify fun s => { s with freeSlots := s.freeSlots.erase slot }
    return slot

/-- `generation += 1`. -/
def nextGeneration : Method ResourcePool Error Nat := do
  let s ← Method.get
  let generation ← Method.lift (Outcome.unwrap (checkedAdd u64Max s.generation 1))
  Method.modify fun s => { s with generation := generation }
  return generation

def reserve (request epoch tokens : Nat) : Method ResourcePool Error Lease := do
  let s ← Method.get
  if request ∈ s.active ∨ ∃ l ∈ s.retired, l.request = request then
    Method.fail (.invalid "request already owns resources")
  else do
    let count ← Method.lift (Outcome.divCeil tokens s.pageTokens)
    if count > s.freePages.size ∨ s.freeSlots.isEmpty then Method.fail (.capacity "pages/slots")
    else do
      let pages := s.freePages.toList.take count
      Method.modify fun s => { s with freePages := s.freePages.eraseAll pages }
      let slot ← popSlot
      let generation ← nextGeneration
      let lease : Lease := ⟨request, epoch, slot, generation, pages⟩
      Method.modify fun s => { s with active := s.active.insert request lease }
      return lease

def check (s : ResourcePool) (lease : Lease) : Result Unit :=
  match s.active[lease.request]? with
  | some current =>
    if current.epoch = lease.epoch ∧ current.generation = lease.generation ∧ current.slot = lease.slot then
      .ok ()
    else .err .stale
  | none => .err .stale

/-- `current.pages.push(free_pages.pop_first())`. -/
def growPage (request : Nat) : Method ResourcePool Error Unit := do
  let s ← Method.get
  match s.freePages.toList.head? with
  | none => Method.fail (.invalid "no page")
  | some page =>
    Method.modify fun s => { s with
      freePages := s.freePages.erase page
      active := s.active.modify request fun current => { current with pages := current.pages ++ [page] } }

def growPages (request : Nat) : Nat → Method ResourcePool Error Unit
  | 0 => Pure.pure ()
  | additional + 1 => do
    growPage request
    growPages request additional

def ensure (lease : Lease) (tokens : Nat) : Method ResourcePool Error Lease := do
  Method.read (check · lease)
  let current ← Method.read fun s => Outcome.okOr s.active[lease.request]? .stale
  let s ← Method.get
  let count ← Method.lift (Outcome.divCeil tokens s.pageTokens)
  let additional := count - current.pages.length
  if additional > s.freePages.size then Method.fail (.capacity "KV growth")
  else do
    growPages lease.request additional
    Method.read fun s => Outcome.okOr s.active[lease.request]? .stale

def retire (lease : Lease) : Method ResourcePool Error Unit := do
  Method.read (check · lease)
  let current ← Method.read fun s => Outcome.okOr s.active[lease.request]? .stale
  Method.modify fun s => { s with
    active := s.active.erase lease.request
    retired := s.retired ++ [current] }

/-- The caller guarantees that everything referencing retired leases has completed. -/
def completionFence : Method ResourcePool Error Unit :=
  Method.modify fun s => { s with
    freePages := s.retired.foldl (fun free lease => free.insertMany lease.pages) s.freePages
    freeSlots := s.retired.foldl (fun free lease => free.insert lease.slot) s.freeSlots
    retired := [] }

end ResourcePool

/-! ## Hand-off -/

structure Manifest where
  lease : Lease
  modelKey : String
  state : HybridState
  nextToken : Nat
  deriving DecidableEq, Repr

inductive Status where
  | reserved
  | inFlight
  | complete
  | committed
  | acknowledged
  deriving DecidableEq, Repr

structure Entry where
  lease : Lease
  status : Status
  manifest : Option Manifest
  deriving DecidableEq, Repr

structure InMemoryTransport where
  pool : ResourcePool
  entries : ExtTreeMap Nat Entry
  spec : Spec
  key : String

namespace InMemoryTransport

def new (spec : Spec) (key : String) (pages slots : Nat) : Result InMemoryTransport := do
  let pool ← ResourcePool.new pages slots spec.pageTokens
  .ok ⟨pool, ∅, spec, key⟩

/-- Run a method of the pool. -/
def onPool {α : Type} (c : Method ResourcePool Error α) : Method InMemoryTransport Error α := fun t =>
  ((c t.pool).1, { t with pool := (c t.pool).2 })

def setEntry (request : Nat) (entry : Entry) : Method InMemoryTransport Error Unit :=
  Method.modify fun t => { t with entries := t.entries.insert request entry }

def reserve (id epoch tokens : Nat) : Method InMemoryTransport Error Lease := do
  let lease ← onPool (ResourcePool.reserve id epoch tokens)
  setEntry id ⟨lease, .reserved, none⟩
  return lease

def entry (t : InMemoryTransport) (lease : Lease) : Result Entry := do
  t.pool.check lease
  Outcome.okOr (t.entries[lease.request]?.filter fun e =>
    e.lease.epoch = lease.epoch ∧ e.lease.generation = lease.generation) .stale

/-- What `transfer` asks of a manifest before it looks at the lease. -/
def checkManifest (t : InMemoryTransport) (manifest : Manifest) : Result Unit :=
  if manifest.modelKey ≠ t.key then invalid "PD artifact mismatch"
  else do
    manifest.state.validate t.spec
    if manifest.nextToken ≥ t.spec.model.vocab then invalid "PD token"
    else do
      let capacity ← Outcome.okOr (checkedMul u64Max manifest.lease.pages.length t.spec.pageTokens)
        (.invalid "page overflow")
      if manifest.state.consumed > capacity then invalid "PD destination too small" else .ok ()

def transfer (manifest : Manifest) : Method InMemoryTransport Error Unit := do
  Method.read (checkManifest · manifest)
  let entry ← Method.read (entry · manifest.lease)
  if entry.status ≠ .reserved then
    if entry.manifest = some manifest then Pure.pure ()
    else Method.fail (.invalid "conflicting/late transfer")
  else if manifest.lease ≠ entry.lease then Method.fail (.invalid "lease mapping mismatch")
  else setEntry manifest.lease.request { entry with manifest := some manifest, status := .inFlight }

def complete (lease : Lease) : Method InMemoryTransport Error Unit := do
  let e ← Method.read (entry · lease)
  match e.status with
  | .inFlight => setEntry lease.request { e with status := .complete }
  | .complete | .committed | .acknowledged => Pure.pure ()
  | .reserved => Method.fail (.invalid "transfer not started")

def commit (lease : Lease) : Method InMemoryTransport Error Manifest := do
  let e ← Method.read (entry · lease)
  if e.status ∉ [Status.complete, .committed, .acknowledged] then
    Method.fail (.invalid "transfer not ready for commit")
  else do
    setEntry lease.request (if e.status ≠ .acknowledged then { e with status := .committed } else e)
    Method.lift (Outcome.okOr e.manifest (.invalid "missing payload"))

def acknowledge (lease : Lease) : Method InMemoryTransport Error Unit := do
  let e ← Method.read (entry · lease)
  if e.status ∉ [Status.committed, .acknowledged] then Method.fail (.invalid "not committed")
  else setEntry lease.request { e with status := .acknowledged }

def finish (lease : Lease) : Method InMemoryTransport Error Unit := do
  Method.read (ResourcePool.check ·.pool lease)
  Method.modify fun t => { t with entries := t.entries.erase lease.request }
  onPool (ResourcePool.retire lease)

def abort (lease : Lease) : Method InMemoryTransport Error Unit := finish lease

def completionFence : Method InMemoryTransport Error Unit := onPool ResourcePool.completionFence

end InMemoryTransport

end Transfer

end Inferfabric
