-- SUMMARY: The meaning of a plan: its steps interpreted with private storage for every buffer.
import IronPangu.Plan.Execute

open Rust Method Std

/-!
# Plans without an arena

The same steps, but every buffer of the arena has storage of its own, which is empty
when an invocation starts. Whole values are read and written, and an operation is
the function it computes: no layout, schedule or tiling is left.
-/

namespace Inferfabric.Plan

open Ir

/-! ## Operations -/

section

variable {F : Type} [Float32 F]

/-- `v[index]`, within bounds. -/
def entry (v : List F) (index : Nat) : F := v.getD index Float32.zero

/-- Cell `i` of a result, for a matrix product with inner dimension `k` and `n` columns. -/
def cell (op : Op) (k n : Nat) (a b : List F) (i : Nat) : F :=
  match op with
  | .add => Float32.add (entry a i) (entry b i)
  | .mul => Float32.mul (entry a i) (entry b i)
  | .relu => Float32.max (entry a i) Float32.zero
  | .matmul =>
    -- From left to right: rounding makes the order matter.
    (List.range k).foldl
      (fun sum z => Float32.add sum (Float32.mul (entry a (i / n * k + z)) (entry b (z * n + i % n)))) Float32.zero

/-- The second dimension. -/
def columns (shape : List Nat) : Nat := shape.getD 1 0

def Op.evaluate (op : Op) (shapes : List (List Nat)) (values : List (List F)) (outputShape : List Nat) : List F :=
  (List.range outputShape.prod).map
    (cell op (columns (shapes.getD 0 [])) (columns outputShape) (values.getD 0 []) (values.getD 1 []))

end

/-! ## The interpreter -/

structure PrivateExecutor (F : Type) where
  plan : PhysicalPlan F
  owned : ExtTreeMap Nat (List F)
  implementations : ExtTreeMap String (CompiledKernel F)

/-- The values of the arena's buffers, once produced. -/
abbrev Locals (F : Type) : Type := ExtTreeMap Nat (List F)

namespace PrivateExecutor

variable {F : Type} [Float32 F]

def value (e : PrivateExecutor F) (inputs : Inputs F) (locals : Locals F) (id : Nat) : Result (List F) := do
  let b ← Outcome.unwrap e.plan.buffers[id]?
  match b.value.storage with
  | .arena => Outcome.unwrap locals[id]?
  | .input => Outcome.unwrap inputs[b.value.name]?
  | .state | .constant => Outcome.unwrap e.owned[id]?

/-- The result of a step, by the implementation bound to it or by its operation. -/
def result (e : PrivateExecutor F) (step : Step) (shapes : List (List Nat)) (values : List (List F))
    (outputShape : List Nat) : Result (List F) :=
  match e.implementations[step.name]? with
  | some implementation => do
    let output ← Executor.executed implementation shapes values outputShape
    if output.length ≠ outputShape.prod ∨ (output.any fun x => !Float32.isFinite x) then
      invalid "compiled implementation output contract violation; state not committed"
    else .ok output
  | none =>
    let output := step.kernel.op.evaluate shapes values outputShape
    if output.all Float32.isFinite then .ok output
    else invalid s!"nonfinite result at {step.name}; state not committed"

def runStep (e : PrivateExecutor F) (inputs : Inputs F) (step : Step) (locals : Locals F) : Result (Locals F) := do
  let out ← Outcome.unwrap e.plan.buffers[step.output]?
  let operands ← Outcome.collect (fun id => Outcome.unwrap e.plan.buffers[id]?) step.inputs
  let values ← Outcome.collect (e.value inputs locals) step.inputs
  let output ← e.result step (operands.map (·.value.shape)) values out.value.shape
  .ok (locals.insert step.output output)

def runSteps (e : PrivateExecutor F) (inputs : Inputs F) : List Step → Locals F → Result (Locals F)
  | [], locals => .ok locals
  | step :: steps, locals => do
    let locals ← e.runStep inputs step locals
    runSteps e inputs steps locals

def named (e : PrivateExecutor F) (inputs : Inputs F) (locals : Locals F) (id : Nat) :
    Result (String × List F) := do
  let b ← Outcome.unwrap e.plan.buffers[id]?
  let values ← e.value inputs locals id
  .ok (b.value.name, values)

def gathered (e : PrivateExecutor F) (inputs : Inputs F) (locals : Locals F) (update : Nat × Nat) :
    Result (Nat × List F) := do
  let values ← e.value inputs locals update.2
  .ok (update.1, values)

def commit (owned : ExtTreeMap Nat (List F)) (updates : List (Nat × List F)) : ExtTreeMap Nat (List F) :=
  updates.foldl (fun owned update => owned.insert update.1 update.2) owned

/-- What an invocation finds out before it commits anything. -/
structure Computed (F : Type) where
  outputs : List (String × List F)
  updates : List (Nat × List F)
  state : List (String × List F)

def compute (e : PrivateExecutor F) (inputs : Inputs F) : Result (Computed F) := do
  Executor.checkInputs inputs e.plan
  let locals ← e.runSteps inputs e.plan.steps ∅
  let outputs ← Outcome.collect (e.named inputs locals) e.plan.outputs
  let updates ← Outcome.collect (e.gathered inputs locals) e.plan.updates.toList
  let owned := commit e.owned updates
  let state ← Outcome.collect
    (fun b => do
      let values ← Outcome.unwrap owned[b.1]?
      .ok (b.2.value.name, values))
    ((Executor.numbered e.plan).filter (·.2.value.storage == .state))
  .ok ⟨outputs, updates, state⟩

def run (inputs : Inputs F) : Method (PrivateExecutor F) Error (RunReport F) := do
  let computed ← Method.read (compute · inputs)
  Method.modify fun e => { e with owned := commit e.owned computed.updates }
  let e ← Method.get
  return {
    outputs := ExtTreeMap.ofList computed.outputs
    state := ExtTreeMap.ofList computed.state
    executedSteps := e.plan.steps.map (·.name)
    arenaBytes := e.plan.arenaBytes }

/-- An invocation that computes everything commits its updates. -/
theorem run_computed {e : PrivateExecutor F} {inputs : Inputs F} {computed : Computed F}
    (h : e.compute inputs = .ok computed) :
    run inputs e =
      (.ok {
        outputs := ExtTreeMap.ofList computed.outputs
        state := ExtTreeMap.ofList computed.state
        executedSteps := e.plan.steps.map (·.name)
        arenaBytes := e.plan.arenaBytes }, { e with owned := commit e.owned computed.updates }) := by
  rw [run, bind_run, read_run, h]
  rfl

theorem run_err {e : PrivateExecutor F} {inputs : Inputs F} {error : Error} (h : e.compute inputs = .err error) :
    run inputs e = (.err error, e) := by
  rw [run, bind_run, read_run, h]

/-- Nothing is committed before everything has succeeded. -/
theorem run_atomic (inputs : Inputs F) : Atomic (run inputs : Method (PrivateExecutor F) Error (RunReport F)) := by
  apply Atomic.bind (readOnly_read _)
  intro computed
  apply Infallible.atomic
  apply Infallible.bind (infallible_modify _)
  intro _
  apply Infallible.bind
  · intro s e s' h
    simp at h
  · exact fun _ => infallible_pure _

end PrivateExecutor

end Inferfabric.Plan
