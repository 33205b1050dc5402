-- SUMMARY: The state pool: units of preallocated device state, leases over them, borrowers and flights, and every operation on them.
import IronPangu.Lib.Ordered
import IronPangu.Ir.Serving

open Rust Std

/-!
# The state pool

Host ownership metadata for preallocated device state. A lease binds one unit
list in every component/rank pool; borrowers pin it, flights write or read it,
and a retired lease keeps its units until the last borrower and the last rank of
the last flight are done.

Operations are methods on the pool. `unwrap`, map indexing and slice indexing
panic, so that the absence of panics is something to be proved.
-/

namespace Inferfabric.Runtime

open Ir

/-- A component of the device state on one rank. -/
structure Key where
  component : String
  rank : Nat
  deriving DecidableEq, Repr

instance : Ord Key := ⟨compareLex (compareOn Key.component) (compareOn Key.rank)⟩

instance : TransOrd Key :=
  inferInstanceAs (TransCmp (compareLex (compareOn Key.component) (compareOn Key.rank)))

instance : LawfulEqOrd Key :=
  lawfulEqCmp_compareLex (f := Key.component) (g := Key.rank) (by
    rintro ⟨c, r⟩ ⟨c', r'⟩ hc hr
    cases hc; cases hr; rfl)

structure Lease where
  pool : Nat
  generation : Nat
  deriving DecidableEq, Repr

instance : Ord Lease := ⟨compareLex (compareOn Lease.pool) (compareOn Lease.generation)⟩

instance : TransOrd Lease :=
  inferInstanceAs (TransCmp (compareLex (compareOn Lease.pool) (compareOn Lease.generation)))

instance : LawfulEqOrd Lease :=
  lawfulEqCmp_compareLex (f := Lease.pool) (g := Lease.generation) (by
    rintro ⟨p, g⟩ ⟨p', g'⟩ hp hg
    cases hp; cases hg; rfl)

structure Borrow where
  pool : Nat
  id : Nat
  deriving DecidableEq, Repr

structure Ticket where
  pool : Nat
  id : Nat
  deriving DecidableEq, Repr

/-- An allocation no write submission may name any more. -/
structure SealedLease where
  lease : Lease
  deriving DecidableEq, Repr

/-- The units one allocation holds in one component/rank pool. -/
structure Binding where
  component : String
  rank : Nat
  units : List Nat
  bytesPerUnit : Nat
  deriving DecidableEq, Repr

structure PageAddress where
  physicalPage : Nat
  rowInPage : Nat
  byteOffset : Nat
  deriving DecidableEq, Repr

structure Usage where
  component : String
  rank : Nat
  reservedBytes : Nat
  occupiedBytes : Nat
  retiringBytes : Nat
  borrowedBytes : Nat
  sealedBytes : Nat
  deriving DecidableEq, Repr

structure Pool where
  key : Key
  unitBytes : Nat
  capacity : Nat
  pageTokens : Option Nat
  maxTokens : Nat
  retention : Retention
  free : ExtTreeSet Nat

structure Allocation where
  request : Nat
  tokenLimit : Nat
  bindings : List Binding
  retired : Bool
  isSealed : Bool
  borrowers : ExtTreeSet Nat
  pending : ExtTreeSet Nat

structure Flight where
  remainingRanks : ExtTreeSet Nat
  leases : List Lease

structure StatePool where
  id : Nat
  epoch : Nat
  maxContext : Nat
  next : Nat
  pools : List Pool
  allocations : ExtTreeMap Lease Allocation
  borrowers : ExtTreeMap Nat Lease
  flights : ExtTreeMap Nat Flight
  poisoned : Bool

/-! ## Construction -/

/-- Page size and bytes per unit of a state. -/
def unitLayout (storage : Storage) : Result (Option Nat × Nat) :=
  match storage with
  | .pages pageTokens rowBytes _ =>
    match checkedMul u64Max pageTokens rowBytes with
    | some unitBytes => .ok (some pageTokens, unitBytes)
    | none => invalid "page bytes overflow"
  | .slot bytes _ => .ok (none, bytes)

/-- The pool of one state on one rank. -/
def rankPool (capacities : ExtTreeMap Key Nat) (state : State) (layout : Option Nat × Nat)
    (rank : Nat) : Result Pool :=
  match capacities[(⟨state.id, rank⟩ : Key)]? with
  | none => invalid "missing rank pool budget"
  | some capacity =>
    if capacity = 0 ∨ checkedMul u64Max layout.2 capacity = none then
      invalid "invalid rank pool budget"
    else
      .ok {
        key := ⟨state.id, rank⟩
        unitBytes := layout.2
        capacity := capacity
        pageTokens := layout.1
        maxTokens := state.capacityTokens
        retention := state.retention
        free := ExtTreeSet.ofList (List.range capacity) }

def statePools (capacities : ExtTreeMap Key Nat) (state : State) : Result (List Pool) := do
  let layout ← unitLayout state.storage
  Outcome.collect (rankPool capacities state layout) state.ranks

namespace StatePool

/-- `StatePool::new`. `nextPool` is the process-wide identity counter, handed
    back incremented. -/
def new (manifest : Manifest) (epoch : Nat) (capacities : ExtTreeMap Key Nat) (nextPool : Nat) :
    Result (StatePool × Nat) := do
  manifest.validate
  if epoch = 0 ∨ manifest.states = [] then
    invalid "empty state pool/epoch"
  else do
    let pools ← Outcome.collect (statePools capacities) manifest.states
    if capacities.size ≠ pools.flatten.length then
      invalid "unknown rank pool budget"
    else
      match checkedAdd u64Max nextPool 1 with
      | none => invalid "pool identity exhausted"
      | some counter => do
        let maxContext ← Outcome.unwrap manifest.maxContext?
        .ok ({
          id := nextPool
          epoch := epoch
          maxContext := maxContext
          next := 0
          pools := pools.flatten
          allocations := ∅
          borrowers := ∅
          flights := ∅
          poisoned := false }, counter)

/-! ## Reading -/

def live (s : StatePool) (epoch : Nat) : Result Unit :=
  if s.poisoned then invalid "state pool poisoned by rank failure"
  else if epoch ≠ s.epoch then .err .stale
  else .ok ()

def bindings (s : StatePool) (epoch : Nat) (lease : Lease) : Result (List Binding) := do
  s.live epoch
  let a ← Outcome.okOr s.allocations[lease]? .stale
  if a.retired then .err .stale else .ok a.bindings

/-- Where in a binding a logical page is: a ring reuses its pages in turn. -/
def bindingPage (p : Pool) (pageTokens logicalPage : Nat) : Result Nat :=
  if p.retention.isFull then .ok logicalPage
  else do
    let ring ← Outcome.div p.maxTokens pageTokens
    Outcome.rem logicalPage ring

/-- Translate a token position into a row of the lease's pages. -/
def pageAddress (s : StatePool) (epoch : Nat) (lease : Lease) (component : String)
    (rank position : Nat) : Result PageAddress := do
  let bindings ← s.bindings epoch lease
  let a ← Outcome.unwrap s.allocations[lease]?
  if position ≥ a.tokenLimit then
    invalid "append exceeds request reservation"
  else
    match s.pools.findIdx? (fun p => p.key.component == component && p.key.rank == rank) with
    | none => invalid "unknown state component/rank"
    | some index => do
      let pool ← Outcome.unwrap s.pools[index]?
      match pool.pageTokens with
      | none => invalid "slot is not paged state"
      | some pageTokens => do
        let logicalPage ← Outcome.div position pageTokens
        let page ← bindingPage pool pageTokens logicalPage
        let binding ← Outcome.unwrap bindings[index]?
        match binding.units[page]? with
        | none => invalid "append exceeds reserved pages"
        | some physicalPage => do
          let rowInPage ← Outcome.rem position pageTokens
          let rowBytes ← Outcome.div pool.unitBytes pageTokens
          .ok {
            physicalPage := physicalPage
            rowInPage := rowInPage
            byteOffset := physicalPage * pool.unitBytes + rowInPage * rowBytes }

/-- Rejects a destructive reset while any reader or rank operation still
    references the allocation. -/
def checkIdle (s : StatePool) (epoch : Nat) (lease : Lease) : Result Unit := do
  let _ ← s.bindings epoch lease
  let a ← Outcome.unwrap s.allocations[lease]?
  if a.borrowers.isEmpty = false ∨ a.pending.isEmpty = false then
    invalid "state still has readers or incomplete rank work"
  else .ok ()

def borrowedBindings (s : StatePool) (epoch : Nat) (borrowed : Borrow) : Result (List Binding) := do
  s.live epoch
  if borrowed.pool ≠ s.id then .err .stale
  else do
    let lease ← Outcome.okOr s.borrowers[borrowed.id]? .stale
    let a ← Outcome.unwrap s.allocations[lease]?
    .ok a.bindings

/-- Bytes of the pool at `index` bound by the allocations that pass `filter`. -/
def boundBytes (s : StatePool) (index : Nat) (pool : Pool) (filter : Allocation → Bool) :
    Result Nat := do
  let bytes ← Outcome.collect (fun a => do
    let binding ← Outcome.unwrap a.bindings[index]?
    .ok (binding.units.length * pool.unitBytes)) ((s.allocations.toList.map Prod.snd).filter filter)
  .ok bytes.sum

def usage (s : StatePool) : Result (List Usage) :=
  Outcome.collect (fun (p, i) => do
    let retiring ← s.boundBytes i p (fun a => a.retired)
    let borrowed ← s.boundBytes i p (fun a => !a.borrowers.isEmpty)
    let sealedBytes ← s.boundBytes i p (fun a => a.isSealed)
    .ok {
      component := p.key.component
      rank := p.key.rank
      reservedBytes := p.capacity * p.unitBytes
      occupiedBytes := (p.capacity - p.free.size) * p.unitBytes
      retiringBytes := retiring
      borrowedBytes := borrowed
      sealedBytes := sealedBytes }) s.pools.zipIdx

/-! ## Updating -/

def serial : Method StatePool Error Nat := do
  let s ← Method.get
  match checkedAdd u64Max s.next 1 with
  | none => Method.fail (.invalid "state generation exhausted")
  | some next => do
    Method.modify fun s => { s with next := next }
    return next

/-- `allocations.get_mut(&lease).unwrap()`, and what is then done to it. -/
def updateAllocation (lease : Lease) (f : Allocation → Allocation) : Method StatePool Error Unit := do
  let _ ← Method.read fun s => Outcome.unwrap s.allocations[lease]?
  Method.modify fun s => { s with allocations := s.allocations.modify lease f }

/-- Tokens a pool keeps for a reservation: a ring keeps no more than its capacity. -/
def retained (tokens : Nat) (p : Pool) : Nat :=
  if p.retention.isFull then tokens else min tokens p.maxTokens

def unitCount (tokens : Nat) (p : Pool) : Result Nat :=
  match p.pageTokens with
  | none => .ok 1
  | some n => Outcome.divCeil (retained tokens p) n

/-- The free units a reservation is given. Only slots can be pinned. -/
def chooseUnits (slot : Option Nat) (count : Nat) (p : Pool) : Result (List Nat) :=
  match p.pageTokens, slot with
  | none, some slot =>
    if slot ∉ p.free then
      .err (.capacity s!"resident slot {slot} unavailable for {p.key.component}")
    else .ok [slot]
  | _, _ => .ok (p.free.toList.take count)

/-- The binding one pool contributes to a reservation; nothing is taken yet. -/
def prepareBinding (tokens : Nat) (slot : Option Nat) (p : Pool) : Result Binding :=
  if p.retention.isFull = true ∧ tokens > p.maxTokens then
    invalid "state reservation exceeds compiled capacity"
  else do
    let count ← unitCount tokens p
    if count > p.free.size then
      .err (.capacity s!"state pool {p.key.component} rank {p.key.rank}")
    else do
      let units ← chooseUnits slot count p
      .ok {
        component := p.key.component
        rank := p.key.rank
        units := units
        bytesPerUnit := p.unitBytes }

/-- `for (p, b) in pools.iter_mut().zip(bindings)`: pools past the shorter list
    stay as they are. -/
def zipPools (f : Pool → Binding → Pool) : List Pool → List Binding → List Pool
  | p :: ps, b :: bs => f p b :: zipPools f ps bs
  | ps, _ => ps

def takeUnits (p : Pool) (b : Binding) : Pool := { p with free := p.free.eraseAll b.units }

def giveUnits (p : Pool) (b : Binding) : Pool := { p with free := p.free.insertMany b.units }

def reserveInner (epoch request tokens : Nat) (slot : Option Nat) : Method StatePool Error Lease := do
  let s ← Method.get
  Method.lift (s.live epoch)
  if tokens = 0 ∨ (s.allocations.toList.any fun e => e.2.request == request) = true then
    Method.fail (.invalid "empty or duplicate state reservation")
  else if tokens > s.maxContext then
    Method.fail (.invalid "state reservation exceeds executable context")
  else do
    -- Every reservation is prepared before any free list is touched.
    let bindings ← Method.lift (Outcome.collect (prepareBinding tokens slot) s.pools)
    let generation ← serial
    let lease : Lease := ⟨s.id, generation⟩
    Method.modify fun s => { s with
      pools := zipPools takeUnits s.pools bindings
      allocations := s.allocations.insert lease {
        request := request
        tokenLimit := tokens
        bindings := bindings
        retired := false
        isSealed := false
        borrowers := ∅
        pending := ∅ } }
    return lease

def reserve (epoch request tokens : Nat) : Method StatePool Error Lease :=
  reserveInner epoch request tokens none

def reserveAtSlot (epoch request tokens slot : Nat) : Method StatePool Error Lease :=
  reserveInner epoch request tokens (some slot)

def pin (lease : Lease) : Method StatePool Error Borrow := do
  let id ← serial
  updateAllocation lease fun a => { a with borrowers := a.borrowers.insert id }
  Method.modify fun s => { s with borrowers := s.borrowers.insert id lease }
  let s ← Method.get
  return ⟨s.id, id⟩

def borrow (epoch : Nat) (lease : Lease) : Method StatePool Error Borrow := do
  let _ ← Method.read fun s => s.bindings epoch lease
  pin lease

/-- After every copy stream has completed: no further write submission. -/
def sealLease (epoch : Nat) (lease : Lease) : Method StatePool Error SealedLease := do
  let _ ← Method.read fun s => s.bindings epoch lease
  let a ← Method.read fun s => Outcome.unwrap s.allocations[lease]?
  if a.pending.isEmpty = false then
    Method.fail (.invalid "cannot seal state with incomplete rank work")
  else do
    updateAllocation lease fun a => { a with isSealed := true }
    return ⟨lease⟩

/-- A pin that may outlive the owner's retirement, while the sealed allocation
    still exists. -/
def borrowSealed (epoch : Nat) (sealedLease : SealedLease) : Method StatePool Error Borrow := do
  Method.read fun s => s.live epoch
  let s ← Method.get
  if (s.allocations[sealedLease.lease]?.any fun a => a.isSealed) = false then
    Method.fail .stale
  else
    pin sealedLease.lease

/-- Leases whose storage may be handed back. -/
def ready (s : StatePool) : List Lease :=
  (s.allocations.toList.filter fun e =>
    e.2.retired && e.2.borrowers.isEmpty && e.2.pending.isEmpty).map Prod.fst

/-- Hand back the units of one allocation. -/
def reclaimOne (lease : Lease) : Method StatePool Error Unit := do
  let a ← Method.read fun s => Outcome.unwrap s.allocations[lease]?
  Method.modify fun s => { s with
    allocations := s.allocations.erase lease
    pools := zipPools giveUnits s.pools a.bindings }

def reclaim : Method StatePool Error Unit := do
  let s ← Method.get
  Method.forEach s.ready reclaimOne

def release (epoch : Nat) (borrowed : Borrow) : Method StatePool Error Unit := do
  let _ ← Method.read fun s => s.borrowedBindings epoch borrowed
  let lease ← Method.read fun s => Outcome.unwrap s.borrowers[borrowed.id]?
  Method.modify fun s => { s with borrowers := s.borrowers.erase borrowed.id }
  updateAllocation lease fun a => { a with borrowers := a.borrowers.erase borrowed.id }
  reclaim

/-- One write lease of a submission. -/
def writeLease (s : StatePool) (epoch : Nat) (lease : Lease) : Result Lease := do
  let _ ← s.bindings epoch lease
  let a ← Outcome.unwrap s.allocations[lease]?
  if a.isSealed then invalid "write submission targets sealed continuation state" else .ok lease

/-- One read of a submission. -/
def readLease (s : StatePool) (epoch : Nat) (read : Borrow) : Result Lease := do
  let _ ← s.borrowedBindings epoch read
  Outcome.unwrap s.borrowers[read.id]?

/-- The ranks one lease is bound on. -/
def leaseRanks (s : StatePool) (lease : Lease) : Result (List Nat) := do
  let a ← Outcome.unwrap s.allocations[lease]?
  .ok (a.bindings.map (·.rank))

def submit (epoch : Nat) (leases : List Lease) (reads : List Borrow) :
    Method StatePool Error Ticket := do
  let s ← Method.get
  Method.lift (s.live epoch)
  let writes ← Method.lift (Outcome.collect (s.writeLease epoch) leases)
  let borrowed ← Method.lift (Outcome.collect (s.readLease epoch) reads)
  let all : ExtTreeSet Lease := (ExtTreeSet.ofList writes).insertMany borrowed
  if all.isEmpty then
    Method.fail (.invalid "empty state submission")
  else do
    let ranks ← Method.lift (Outcome.collect s.leaseRanks all.toList)
    let id ← serial
    Method.forEach all.toList fun lease =>
      updateAllocation lease fun a => { a with pending := a.pending.insert id }
    Method.modify fun s => { s with
      flights := s.flights.insert id {
        remainingRanks := ExtTreeSet.ofList ranks.flatten
        leases := all.toList } }
    return ⟨s.id, id⟩

/-- Take a rank off a flight that waits for it; the last one lands the flight. -/
def finishRank (id rank : Nat) (flight : Flight) : Method StatePool Error Unit := do
  Method.modify fun s => { s with
    flights := s.flights.modify id fun f =>
      { f with remainingRanks := f.remainingRanks.erase rank } }
  if (flight.remainingRanks.erase rank).isEmpty then do
    let flight ← Method.read fun s => Outcome.unwrap s.flights[id]?
    Method.modify fun s => { s with flights := s.flights.erase id }
    Method.forEach flight.leases fun lease =>
      updateAllocation lease fun a => { a with pending := a.pending.erase id }
    reclaim
  else
    return ()

def complete (epoch : Nat) (ticket : Ticket) (rank : Nat) : Method StatePool Error Unit := do
  let s ← Method.get
  Method.lift (s.live epoch)
  if ticket.pool ≠ s.id then Method.fail .stale
  else do
    let flight ← Method.lift (Outcome.okOr s.flights[ticket.id]? .stale)
    if rank ∉ flight.remainingRanks then Method.fail .stale
    else finishRank ticket.id rank flight

def retire (epoch : Nat) (lease : Lease) : Method StatePool Error Unit := do
  let _ ← Method.read fun s => s.bindings epoch lease
  updateAllocation lease fun a => { a with retired := true }
  reclaim

def poison : Method StatePool Error Unit :=
  Method.modify fun s => { s with poisoned := true }

end StatePool

end Inferfabric.Runtime
