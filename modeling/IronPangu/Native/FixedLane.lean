-- SUMMARY: The fixed-lane engine: the frontiers and attention masks of its lanes, how it is prepared, and the calls that reset a lane and feed one token to each of some lanes.
import IronPangu.Ir.Serving
import IronPangu.Lib.Machine

open Rust

/-!
# The fixed-lane engine

Every lane has `slotsPerLane` cache rows, the last of them a dummy. A captured graph
runs over all lanes at once: it stores a row for each lane where `append` says, and
attends to the rows of the lane's table where the mask is zero. What the library
answers is not decided here.
-/

namespace Inferfabric.Native.FixedLane

/-- The values of the mask. -/
inductive MaskValue where
  | negInfinity
  | zero
  deriving DecidableEq, Repr

structure Region where
  kv : Bool
  bytes : Nat
  deriving DecidableEq, Repr

/-- A call into the loaded library on a buffer or on the captured graph. -/
inductive Foreign where
  | writeActive (values : List Nat)
  | writeIds (values : List Int)
  | writePositions (values : List Int)
  | writeAppend (values : List Int)
  | writeMask (values : List MaskValue)
  /-- Zeros into a part of a state region. -/
  | writeState (region offset bytes : Nat)
  | readState (region : Nat)
  | replay
  deriving DecidableEq, Repr

/-- The answers of the library. They may depend on every call made so far, the answered one first. -/
structure World where
  /-- The message of a call that does not return zero. -/
  failure : List Foreign → Option String
  /-- Whether the state just read back differs in a lane that was inactive. -/
  inactiveChanged : List Foreign → Bool

structure Engine where
  world : World
  /-- Foreign calls made so far, the latest first. -/
  calls : List Foreign
  states : List Region
  batch : Nat
  slotsPerLane : Nat
  context : Nat
  frontiers : List Nat
  maskValues : List MaskValue

namespace Engine

/-- Calls on the engine. -/
abbrev Call (α : Type) : Type := Method Engine Error α

open Method

/-! ## Library calls and slices -/

def foreign (call : Foreign) : Call Unit := fun e =>
  let e := { e with calls := call :: e.calls }
  match e.world.failure e.calls with
  | none => (.ok (), e)
  | some message => (.err (.invalid s!"native: {message}"), e)

/-- `xs[i] = f(xs[i])` -/
def updateAt {α : Type} (i : Nat) (f : α → α) (xs : List α) : Result (List α) := do
  let a ← Outcome.unwrap xs[i]?
  .ok (xs.set i (f a))

/-- `xs[first..stop].fill(a)` -/
def fill {α : Type} (first stop : Nat) (a : α) (xs : List α) : Result (List α) :=
  if first ≤ stop ∧ stop ≤ xs.length then .ok (xs.take first ++ List.replicate (stop - first) a ++ xs.drop stop)
  else .panic

/-! ## Resetting a lane -/

/-- Zeros over the part of a state region that belongs to a lane. -/
def zeroRegion (lane batch : Nat) (r : Region × Nat) : Call Unit := do
  let bytes ← lift (Outcome.div r.1.bytes batch)
  foreign (.writeState r.2 (lane * bytes) bytes)

def resetSlot (lane : Nat) : Call Unit := do
  require (fun e => lane < e.batch) (.invalid "invalid native slot")
  let e ← get
  forEach e.states.zipIdx (zeroRegion lane e.batch)
  let frontiers ← read fun e => updateAt lane (fun _ => 0) e.frontiers
  let masks ← read fun e => fill (lane * e.context) ((lane + 1) * e.context) .negInfinity e.maskValues
  modify fun e => { e with frontiers := frontiers, maskValues := masks }

def reset : Call Unit := do
  let e ← get
  forEach (List.range e.batch) resetSlot

/-! ## Feeding a batch -/

/-- The inputs of the graph that have an entry for each lane. -/
structure Inputs where
  active : List Nat
  ids : List Int
  positions : List Int
  append : List Int
  deriving DecidableEq, Repr

/-- No lane is active, and each lane appends to its own last row. -/
def idle (e : Engine) : Inputs where
  active := List.replicate e.batch 0
  ids := List.replicate e.batch 1
  positions := List.replicate e.batch 0
  append := (List.range e.batch).map fun i => ((i + 1) * e.slotsPerLane - 1 : Nat)

def refuse : Result Inputs := invalid "invalid, duplicate or full native slot"

/-- Check the tokens one after another and enter each for its lane. -/
def select (e : Engine) : List (Nat × Nat) → Inputs → Result Inputs
  | [], b => .ok b
  | (lane, token) :: tokens, b =>
    if lane ≥ e.batch then refuse
    else do
      let active ← Outcome.unwrap b.active[lane]?
      if active ≠ 0 ∨ token ≥ 248320 then refuse
      else
        let frontier ← Outcome.unwrap e.frontiers[lane]?
        if frontier ≥ e.context then refuse
        else
          let active ← updateAt lane (fun _ => 1) b.active
          let ids ← updateAt lane (fun _ => (token : Int)) b.ids
          let positions ← updateAt lane (fun _ => (frontier : Int)) b.positions
          let append ← updateAt lane (fun _ => ((lane * e.slotsPerLane + frontier : Nat) : Int)) b.append
          select e tokens ⟨active, ids, positions, append⟩

/-- Open the column of every token to come. -/
def openColumns (e : Engine) : List (Nat × Nat) → List MaskValue → Result (List MaskValue)
  | [], masks => .ok masks
  | (lane, _) :: tokens, masks => do
    let frontier ← Outcome.unwrap e.frontiers[lane]?
    let masks ← updateAt (lane * e.context + frontier) (fun _ => .zero) masks
    openColumns e tokens masks

/-- An unused padded lane still needs one finite attention entry to avoid NaNs. -/
def pad (e : Engine) (active : List Nat) : List Nat → List MaskValue → Result (List MaskValue)
  | [], masks => .ok masks
  | lane :: lanes, masks => do
    let frontier ← Outcome.unwrap e.frontiers[lane]?
    let used ← Outcome.unwrap active[lane]?
    let masks ← if frontier = 0 ∧ used = 0 then updateAt (lane * e.context) (fun _ => .zero) masks else .ok masks
    pad e active lanes masks

def advance : List (Nat × Nat) → List Nat → Result (List Nat)
  | [], frontiers => .ok frontiers
  | (lane, _) :: tokens, frontiers => do
    let frontiers ← updateAt lane (· + 1) frontiers
    advance tokens frontiers

/-- Write the inputs of the graph and replay it. -/
def feed (inputs : Inputs) (masks : List MaskValue) : Call Unit := do
  foreign (.writeActive inputs.active)
  forEach [.writeIds inputs.ids, .writePositions inputs.positions, .writeAppend inputs.append] foreign
  foreign (.writeMask masks)
  foreign .replay

/-- Each selected lane consumes one token in the same fixed-shape graph. -/
def consumeBatch (tokens : List (Nat × Nat)) : Call Unit :=
  if tokens.isEmpty then Pure.pure ()
  else do
    let inputs ← read fun e => e.select tokens e.idle
    let masks ← read fun e => e.openColumns tokens e.maskValues
    modify fun e => { e with maskValues := masks }
    let padded ← read fun e => e.pad inputs.active (List.range e.batch) e.maskValues
    feed inputs padded
    let frontiers ← read fun e => advance tokens e.frontiers
    modify fun e => { e with frontiers := frontiers }

/-! ## Preparing an engine -/

/-- The table of rows, written once: column `i % context` of lane `i / context`. -/
def table (e : Engine) : List Int :=
  (List.range (e.batch * e.context)).map fun i => (i / e.context * e.slotsPerLane + i % e.context : Nat)

/-- The engine as it is put together, with the mask its startup graph ran with. -/
def assemble (world : World) (calls : List Foreign) (states : List Region) (batch context slotsPerLane : Nat) : Engine where
  world := world
  calls := calls
  states := states
  batch := batch
  slotsPerLane := slotsPerLane
  context := context
  frontiers := List.replicate batch 0
  maskValues := (List.range (batch * context)).map fun i => if i % context = 0 then .zero else .negInfinity

/-- Validate inactive lanes after nonzero state exists, not only after reset. -/
def qualify : Call Unit := do
  reset
  let e ← get
  if e.batch > 1 then
    consumeBatch ((List.range e.batch).map fun lane => (lane, lane + 1))
    forEach ((List.range e.states.length).map .readState) foreign
    consumeBatch [(0, 42)]
    forEach (List.range e.states.length) fun region => do
      foreign (.readState region)
      require (fun e => !e.world.inactiveChanged e.calls) (.invalid "inactive graph lane state changed")
    reset

/-- `StartupOptions::validate`, of the sizes. -/
def validateOptions (maxModelLen maxNumSeqs : Nat) : Result Unit :=
  if maxNumSeqs = 0 ∨ maxNumSeqs > 64 then invalid "max-num-seqs must be in 1..=64"
  else if maxModelLen = 0 ∨ maxModelLen > 262144 then invalid "max-model-len must be in 1..=262144 for this checkpoint"
  else .ok ()

/-- `Engine::prepare`, from where the startup graph has run: `calls` have been made until then. -/
def prepare (world : World) (calls : List Foreign) (states : List Region) (maxModelLen maxNumSeqs pageTokens : Nat) :
    Result Engine := do
  validateOptions maxModelLen maxNumSeqs
  let pages ← Outcome.divCeil maxModelLen pageTokens
  match qualify (assemble world calls states maxNumSeqs maxModelLen (pages * pageTokens + 1)) with
  | (.ok (), e) => .ok e
  | (.err error, _) => .err error
  | (.panic, _) => .panic

/-! ## Runs -/

inductive Op where
  | consumeBatch (tokens : List (Nat × Nat))
  | resetSlot (lane : Nat)
  deriving DecidableEq, Repr

def step : Op → Call Unit
  | .consumeBatch tokens => Engine.consumeBatch tokens
  | .resetSlot lane => Engine.resetSlot lane

end Engine

end Inferfabric.Native.FixedLane
