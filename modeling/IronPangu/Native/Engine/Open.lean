-- SUMMARY: Which serving manifests a program may have, and the engine that opening a library for one makes.
import IronPangu.Native.Engine
import IronPangu.Runtime.StatePool.Runs

open Rust Std

namespace Inferfabric.Native

open Inferfabric.Ir Inferfabric.Runtime

/-! ## Manifests -/

/-- One variant after the first; `maximum` is the width of the one before. -/
def packedPrefill (variants : List Variant) (first : Variant) (maximum : Nat) (v : Variant) :
    Result Nat :=
  let count := v.maxTokens
  let uncaptured := !v.graphCapable
  let id := if uncaptured then s!"uncaptured_prefill_{count}_v1" else s!"packed_prefill_{count}_v1"
  if (if uncaptured then count ≠ 4096 ∨ variants.length ≠ 2 else count ∉ [2, 4, 8, 16, 32]) ∨
      count ≤ maximum ∨ v.id ≠ id ∨ v.phase ≠ .prefill ∨ v.maxSequences ≠ 1 ∨
      v.maxQueryTokens ≠ count ∨ v.maxContext ≠ first.maxContext ∨ v.packed = false ∨
      v.numericalClass ≠ id then
    invalid "unsupported packed prefill contract"
  else .ok count

def packedPrefills (variants : List Variant) (first : Variant) : Nat → List Variant → Result Nat
  | maximum, [] => .ok maximum
  | maximum, v :: vs => do
    let maximum ← packedPrefill variants first maximum v
    packedPrefills variants first maximum vs

/-- The native side can only recycle one page layout. -/
def recycledState (m : Manifest) (s : State) : Result Unit :=
  match s.retention with
  | .full => .ok ()
  | .slidingWindow maxQueryTokens => do
    let query ← Outcome.unwrap m.maxQuery?
    let addressed := match s.storage with
      | .pages pageTokens _ encoding => pageTokens == 16 && encoding == "bf16_latent512_rotary64"
      | .slot _ _ => false
    if addressed = false ∨ maxQueryTokens ≠ query then
      invalid "unsupported native recycled state addressing"
    else .ok ()

def recycledStates (m : Manifest) : List State → Result Unit
  | [] => .ok ()
  | s :: rest => do
    recycledState m s
    recycledStates m rest

/-- The first variant decodes one token at a time. -/
def serialToken (v : Variant) : Bool :=
  v.id == "serial_token_v1" && v.phase == .decode && v.maxSequences == 1 && v.maxTokens == 1 &&
    v.maxQueryTokens == 1 && !v.packed && v.graphCapable && v.numericalClass == "ascend_serial_token_v1"

/-- Only declared exact native shapes are accepted, not arbitrary batches. -/
def prefillCapacity (m : Manifest) : Result Nat := do
  m.validate
  recycledStates m m.states
  match m.variants with
  | [] => invalid "unsupported program engine serving envelope"
  | first :: rest =>
    if m.variants.length > 6 ∨ serialToken first = false then
      invalid "unsupported program engine serving envelope"
    else packedPrefills m.variants first 1 rest

/-- `program::manifest` of the parsed file; `program` is the digest of the executable. -/
def manifest (m : Manifest) (program : String) : Result Manifest := do
  m.validate
  if m.identity.programSha256 ≠ program then
    invalid "serving manifest/program digest mismatch"
  else do
    let _ ← prefillCapacity m
    .ok m

/-! ## Shared state -/

/-- What one state needs: the units of one resident, its node where it is paged,
    and its budget on each rank. -/
structure StateBudget where
  id : String
  units : Nat
  node : Option Nat
  capacities : List (Key × Nat)

def stateUnits (state : State) : Result (Nat × Option Nat) :=
  match state.storage with
  | .pages pageTokens _ _ => do
    let node ← Outcome.okOr (tryFrom u32Max state.logicalNode) (.invalid "state node overflow")
    let units ← Outcome.div state.capacityTokens pageTokens
    .ok (units, some node)
  | .slot _ _ => .ok (1, none)

def stateBudget (residents : Nat) (state : State) : Result StateBudget := do
  let (units, node) ← stateUnits state
  let capacities ← Outcome.collect (fun rank => do
    let capacity ← Outcome.okOr (checkedMul u32Max units residents) (.invalid "pool capacity overflow")
    .ok ((⟨state.id, rank⟩ : Key), capacity)) state.ranks
  .ok ⟨state.id, units, node, capacities⟩

namespace SharedState

def new (m : Manifest) (nextPool : Nat) : Result (SharedState × Nat) := do
  let budgets ← Outcome.collect (stateBudget m.residentSequences) m.states
  let capacities := ExtTreeMap.ofList (budgets.flatMap StateBudget.capacities)
  let (pool, nextPool) ← StatePool.new m 1 capacities nextPool
  .ok ({
    pool := pool
    leases := List.replicate m.residentSequences none
    cacheNodes := ExtTreeMap.ofList (budgets.filterMap fun b => b.node.map fun node => (b.id, node))
    ranks := m.identity.devices.length
    nextRequest := 0
    cachePageLimits := ExtTreeMap.ofList
      ((budgets.filter (·.node.isSome)).map fun b => (b.id, b.units))
    admissions := 0
    crossPartitionBindings := 0
    peakOccupiedBytes := 0
    tokenLimits := List.replicate m.residentSequences 0 }, nextPool)

end SharedState

/-! ## Opening -/

/-- What is found while a library is opened. `none` is a symbol it does not have. -/
structure Report where
  inventory : Result String
  abiVersion : Nat
  opened : Result Unit
  null : Bool
  /-- Context, vocabulary and end-of-sequence token. -/
  info : Result (Nat × Nat × Nat)
  residentCapacity : Option (Result Nat)
  prefillCapacity : Option (Result Nat)
  prefillMode : Option (Result Nat)
  prefillSizes : Option (Result (List Nat))
  prefillVariants : Option (Result Nat)
  sharedPages : Option (Result Nat)

/-- A capacity the library may not report. -/
def reported (value : Option (Result Nat)) (absent : Nat) : Result Nat := value.getD (.ok absent)

namespace Engine

/-- The engine before the library is opened. -/
def unopened (contract : Manifest) (world : World) (prefillTokens : Nat)
    (shared : Option SharedState) : Engine where
  world := world
  calls := []
  identity := contract.identity
  prefillTokens := prefillTokens
  uncapturedPrefill := contract.variants.any fun v => v.phase == .prefill && !v.graphCapable
  prefillVariants := (contract.variants.tail.filter (·.graphCapable)).map (·.maxTokens)
  variants := contract.variants
  histories := List.replicate contract.residentSequences CompletedHistory.default
  importedTokens := List.replicate contract.residentSequences 0
  sealedLeases := List.replicate contract.residentSequences none
  copyPageTokens := contract.states.filterMap fun s =>
    match s.storage with
    | .pages pageTokens _ _ => some pageTokens
    | .slot _ _ => none
  historyAuditSequence := 0
  shared := shared
  selected := 0

def newShared (contract : Manifest) (nextPool : Nat) : Result (Option SharedState × Nat) :=
  if contract.sharedPages then do
    let (shared, nextPool) ← SharedState.new contract nextPool
    .ok (some shared, nextPool)
  else .ok (none, nextPool)

/-- The widths a library without exact sizes may report. -/
def checkMask (e : Engine) (report : Report) (chunk : Nat) : Result Unit :=
  if chunk ≥ 32 ∨ e.prefillVariants.any (· ≥ 32) then
    invalid "large prefill requires native exact-size ABI"
  else do
    let mask ← reported report.prefillVariants (if chunk > 1 then 2 ^ chunk else 0)
    if mask ≠ e.prefillVariants.foldl (fun bits n => bits ||| 2 ^ n) 0 then
      invalid "native exact prefill variants differ from serving manifest"
    else .ok ()

def checkSizes (e : Engine) (report : Report) (chunk : Nat) : Result Unit :=
  match report.prefillSizes with
  | some sizes => do
    let observed ← sizes
    if observed ≠ e.prefillVariants then
      invalid "native exact prefill sizes differ from serving manifest"
    else .ok ()
  | none => e.checkMask report chunk

/-- What the library reports must be what the manifest says. -/
def checkReport (e : Engine) (contract : Manifest) (report : Report) : Result Unit := do
  let info ← report.info
  let residents ← reported report.residentCapacity 1
  if residents ≠ contract.residentSequences ∨ (residents > 1 ∧
      (e.world.selectResidentFn = false ∨ e.world.resetResidentFn = false)) then
    invalid "native resident capacity differs from serving manifest"
  else do
    let chunk ← reported report.prefillCapacity 1
    if chunk ≠ e.prefillTokens ∨ (chunk > 1 ∧ e.world.prefillFn = false) then
      invalid "native prefill capacity differs from serving manifest"
    else do
      let mode ← reported report.prefillMode 0
      if mode ≠ e.uncapturedPrefill.toNat then
        invalid "native prefill execution mode differs from serving manifest"
      else do
        e.checkSizes report chunk
        let shared ← reported report.sharedPages 0
        if shared ≠ contract.sharedPages.toNat ∨ (shared ≠ 0 ∧ (e.world.bindStateFn = false ∨
            e.world.selectResidentFn = false ∨ e.world.resetResidentFn = false)) then
          invalid "native page policy differs from serving manifest"
        else do
          let first ← Outcome.unwrap contract.variants[0]?
          if info ≠ (first.maxContext, contract.vocabSize, contract.eos) then
            invalid "native program capabilities differ from serving manifest"
          else .ok ()

/-- `Engine::open`, from the parsed manifest on. -/
def open_ (m : Manifest) (program : String) (world : World) (report : Report) (nextPool : Nat) :
    Result (Engine × Nat) := do
  let contract ← manifest m program
  let inventory ← report.inventory
  if inventory ≠ contract.identity.checkpointMetadataSha256 then
    invalid "serving checkpoint metadata mismatch"
  else if report.abiVersion ≠ 1 then
    invalid "program ABI mismatch"
  else do
    let prefillTokens ← prefillCapacity contract
    let (shared, nextPool) ← newShared contract nextPool
    let e := unopened contract world prefillTokens shared
    report.opened
    if report.null then
      invalid "native returned null engine"
    else do
      e.checkReport contract report
      .ok (e, nextPool)

end Engine

end Inferfabric.Native
