-- SUMMARY: The executor: a verified plan run on one shared arena.
import IronPangu.Plan

open Rust Method Std

/-!
# Execution

The executor owns the arena and the states. An invocation runs the steps in order,
each reading its operands cell by cell and writing its result into the arena, then
reads the results and commits the new states. Every index is checked: one out of
bounds panics.
-/

namespace Inferfabric.Plan

open Ir

/-- A compiled implementation of one logical operation, a pure function. -/
structure CompiledKernel (F : Type) where
  operation : Op
  execute : List (List Nat) → List (List F) → List Nat → Except Error (List F)

structure Executor (F : Type) where
  plan : PhysicalPlan F
  /-- The lines of the arena one after the other. -/
  arena : List F
  owned : ExtTreeMap Nat (List F)
  implementations : ExtTreeMap String (CompiledKernel F)

structure RunReport (F : Type) where
  outputs : ExtTreeMap String (List F)
  state : ExtTreeMap String (List F)
  executedSteps : List String
  arenaBytes : Nat

/-- What an invocation is given. -/
abbrev Inputs (F : Type) : Type := ExtTreeMap String (List F)

namespace Executor

variable {F : Type} [Float32 F]

/-- The buffers of a plan with their numbers. -/
def numbered (p : PhysicalPlan F) : List (Nat × Buffer F) := p.buffers.zipIdx.map Prod.swap

def new (plan : PhysicalPlan F) : Result (Executor F) := do
  verify plan
  .ok {
    plan := plan
    arena := List.replicate (plan.arenaBytes / 64 * 16) Float32.zero
    owned := ExtTreeMap.ofList ((numbered plan).filterMap fun (i, b) => b.value.initial.map fun v => (i, v))
    implementations := ∅ }

def bindImplementation (stepName : String) (implementation : CompiledKernel F) :
    Method (Executor F) Error Unit := do
  let e ← Method.get
  match e.plan.steps.find? (·.name == stepName) with
  | none => Method.fail (.invalid "unknown implementation step")
  | some step =>
    if step.kernel.op ≠ implementation.operation then
      Method.fail (.invalid "compiled implementation operation mismatch")
    else if stepName ∈ e.implementations then Method.fail (.invalid "duplicate implementation binding")
    else
      Method.modify fun e => { e with implementations := e.implementations.insert stepName implementation }

/-- `self.plan.buffers[id]` -/
def buffer (e : Executor F) (id : Nat) : Result (Buffer F) := Outcome.unwrap e.plan.buffers[id]?

def get (e : Executor F) (inputs : Inputs F) (id index : Nat) : Result F := do
  let b ← e.buffer id
  match b.value.storage with
  | .arena => do
    let offset ← Outcome.unwrap b.offset
    Outcome.unwrap e.arena[offset / 4 + index]?
  | .input => do
    let v ← Outcome.unwrap inputs[b.value.name]?
    Outcome.unwrap v[index]?
  | .state | .constant => do
    let v ← Outcome.unwrap e.owned[id]?
    Outcome.unwrap v[index]?

/-- `elements(shape).unwrap()` -/
def count (shape : List Nat) : Result Nat :=
  match elements shape with
  | .ok n => .ok n
  | .err _ | .panic => .panic

def collect (e : Executor F) (inputs : Inputs F) (id : Nat) : Result (List F) := do
  let b ← e.buffer id
  let n ← count b.value.shape
  Outcome.collect (e.get inputs id) (List.range n)

/-- `self.arena[index] = value` -/
def write (index : Nat) (value : F) : Method (Executor F) Error Unit := do
  let e ← Method.get
  if index < e.arena.length then Method.modify fun e => { e with arena := e.arena.set index value }
  else Method.lift .panic

/-- An input of the right size and finite values. -/
def bound (inputs : Inputs F) (b : Buffer F) : Result Bool :=
  match inputs[b.value.name]? with
  | none => .ok false
  | some v => do
    let n ← count b.value.shape
    .ok (v.length == n && v.all Float32.isFinite)

/-- `expected.iter().any(..)` is false: every input is bound. -/
def allBound (inputs : Inputs F) : List (Buffer F) → Result Bool
  | [] => .ok true
  | b :: bs => do
    let ok ← bound inputs b
    if ok then allBound inputs bs else .ok false

def checkInputs (inputs : Inputs F) (p : PhysicalPlan F) : Result Unit := do
  let expected := p.buffers.filter (·.value.storage == .input)
  let ok ← if inputs.size ≠ expected.length then .ok false else allBound inputs expected
  if ok = false then invalid "input names, sizes or finite values do not match binary bindings" else .ok ()

/-- One value of an elementwise step. -/
def element (inputs : Inputs F) (kernel : Kernel) (a : Nat) (b : Option Nat) (i : Nat) (e : Executor F) :
    Result F := do
  let x ← e.get inputs a i
  match kernel with
  | .addF32V1 => do
    let b ← Outcome.unwrap b
    let y ← e.get inputs b i
    .ok (Float32.add x y)
  | .mulF32V1 => do
    let b ← Outcome.unwrap b
    let y ← e.get inputs b i
    .ok (Float32.mul x y)
  | _ => .ok (Float32.max x Float32.zero)

def runElementwise (inputs : Inputs F) (kernel : Kernel) (a : Nat) (b : Option Nat) (dst n : Nat) :
    Method (Executor F) Error Unit :=
  Method.forEach (List.range n) fun i => do
    let value ← Method.read (element inputs kernel a b i)
    write (dst + i) value

/-- The rest of a dot product: row `i` of `a` with column `j` of `b`, from left to right. -/
def dot (inputs : Inputs F) (a : Nat) (b : Option Nat) (n k i j : Nat) (e : Executor F) :
    F → List Nat → Result F
  | sum, [] => .ok sum
  | sum, z :: zs => do
    let x ← e.get inputs a (i * k + z)
    let b' ← Outcome.unwrap b
    let y ← e.get inputs b' (z * n + j)
    dot inputs a b n k i j e (Float32.add sum (Float32.mul x y)) zs

/-- `(0..end).step_by(tile)` -/
def stepBy (tile last : Nat) : List Nat := (List.range ((last + tile - 1) / tile)).map (· * tile)

/-- `(first..last)` -/
def span (first last : Nat) : List Nat := List.range' first (last - first)

def runMatmul (inputs : Inputs F) (tile a : Nat) (b : Option Nat) (dst m n k : Nat) :
    Method (Executor F) Error Unit :=
  Method.forEach (stepBy tile m) fun row =>
    Method.forEach (stepBy tile n) fun col =>
      Method.forEach (span row (min (row + tile) m)) fun i =>
        Method.forEach (span col (min (col + tile) n)) fun j => do
          let sum ← Method.read fun e => dot inputs a b n k i j e Float32.zero (List.range k)
          write (dst + i * n + j) sum

def runKernel (inputs : Inputs F) (step : Step) (out : Buffer F) (a dst n : Nat) :
    Method (Executor F) Error Unit :=
  match step.kernel with
  | .addF32V1 | .mulF32V1 | .reluF32V1 => runElementwise inputs step.kernel a step.inputs[1]? dst n
  | .matmulF32V1 | .matmulBlockedF32V1 => do
    let rows ← Method.lift (Outcome.unwrap out.value.shape[0]?)
    let columns ← Method.lift (Outcome.unwrap out.value.shape[1]?)
    let left ← Method.read (buffer · a)
    let k ← Method.lift (Outcome.unwrap left.value.shape[1]?)
    let tile := if step.kernel = .matmulBlockedF32V1 then 16 else 1
    runMatmul inputs tile a step.inputs[1]? dst rows columns k

/-- Every cell holds a finite value. -/
def finiteCells (e : Executor F) : List Nat → Result Bool
  | [] => .ok true
  | i :: is => do
    let x ← Outcome.unwrap e.arena[i]?
    if Float32.isFinite x then finiteCells e is else .ok false

/-- What a compiled implementation returns. -/
def executed (implementation : CompiledKernel F) (shapes : List (List Nat)) (values : List (List F))
    (outputShape : List Nat) : Result (List F) :=
  match implementation.execute shapes values outputShape with
  | .ok output => .ok output
  | .error error => .err error

def runImplementation (inputs : Inputs F) (step : Step) (out : Buffer F) (dst n : Nat)
    (implementation : CompiledKernel F) : Method (Executor F) Error Unit := do
  let operands ← Method.read fun e => Outcome.collect e.buffer step.inputs
  let values ← Method.read fun e => Outcome.collect (e.collect inputs) step.inputs
  let output ← Method.lift (executed implementation (operands.map (·.value.shape)) values out.value.shape)
  if output.length ≠ n ∨ (output.any fun x => !Float32.isFinite x) then
    Method.fail (.invalid "compiled implementation output contract violation; state not committed")
  else
    Method.forEach output.zipIdx fun (value, i) => write (dst + i) value

def runStep (inputs : Inputs F) (step : Step) : Method (Executor F) Error Unit := do
  let e ← Method.get
  let out ← Method.lift (e.buffer step.output)
  let offset ← Method.lift (Outcome.unwrap out.offset)
  let a ← Method.lift (Outcome.unwrap step.inputs[0]?)
  let n ← Method.lift (elements out.value.shape)
  match e.implementations[step.name]? with
  | some implementation => runImplementation inputs step out (offset / 4) n implementation
  | none => do
    runKernel inputs step out a (offset / 4) n
    let finite ← Method.read fun e => e.finiteCells (span (offset / 4) (offset / 4 + n))
    if finite then Pure.pure ()
    else Method.fail (.invalid s!"nonfinite result at {step.name}; state not committed")

/-- A buffer by its name. -/
def named (e : Executor F) (inputs : Inputs F) (id : Nat) : Result (String × List F) := do
  let b ← e.buffer id
  let values ← e.collect inputs id
  .ok (b.value.name, values)

def gathered (e : Executor F) (inputs : Inputs F) (update : Nat × Nat) : Result (Nat × List F) := do
  let values ← e.collect inputs update.2
  .ok (update.1, values)

/-- `copy_from_slice`, which panics when the lengths differ. -/
def commit (update : Nat × List F) : Method (Executor F) Error Unit := do
  let e ← Method.get
  let old ← Method.lift (Outcome.unwrap e.owned[update.1]?)
  if old.length = update.2.length then
    Method.modify fun e => { e with owned := e.owned.insert update.1 update.2 }
  else Method.lift .panic

def stateOf (e : Executor F) (b : Nat × Buffer F) : Result (String × List F) := do
  let values ← Outcome.unwrap e.owned[b.1]?
  .ok (b.2.value.name, values)

def run (inputs : Inputs F) : Method (Executor F) Error (RunReport F) := do
  Method.read fun e => checkInputs inputs e.plan
  let e ← Method.get
  Method.forEach e.plan.steps (runStep inputs)
  let outputs ← Method.read fun e => Outcome.collect (e.named inputs) e.plan.outputs
  -- All new states are gathered before any is changed.
  let updates ← Method.read fun e => Outcome.collect (e.gathered inputs) e.plan.updates.toList
  Method.forEach updates commit
  let state ← Method.read fun e =>
    Outcome.collect e.stateOf ((numbered e.plan).filter (·.2.value.storage == .state))
  return {
    outputs := ExtTreeMap.ofList outputs
    state := ExtTreeMap.ofList state
    executedSteps := e.plan.steps.map (·.name)
    arenaBytes := e.plan.arenaBytes }

end Executor

end Inferfabric.Plan
