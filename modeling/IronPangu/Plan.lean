-- SUMMARY: Physical CPU plans: their schema, shapes, and the verifier every plan goes through.
import IronPangu.Ir.Serving
import IronPangu.Lib.Ordered

open Rust Std

/-!
# Physical plans

A plan fixes everything before it runs: the buffers and where in the arena they lie,
the steps and their order, the results and the state updates. Plans are read from
untrusted bytes, so what the executor relies on is what `verify` has checked.
-/

namespace Inferfabric.Plan

open Ir

/-! ## Numbers -/

/-- `f32`, as far as a plan uses it. -/
class Float32 (F : Type) where
  zero : F
  add : F → F → F
  mul : F → F → F
  max : F → F → F
  isFinite : F → Bool

/-! ## Schema -/

inductive Op where
  | add
  | mul
  | relu
  | matmul
  deriving DecidableEq, Repr

inductive Storage where
  | input
  | constant
  | state
  | arena
  deriving DecidableEq, Repr

structure Value (F : Type) where
  name : String
  shape : List Nat
  storage : Storage
  initial : Option (List F)

inductive Kernel where
  | addF32V1
  | mulF32V1
  | reluF32V1
  | matmulF32V1
  | matmulBlockedF32V1
  deriving DecidableEq, Repr

def Kernel.op : Kernel → Op
  | .addF32V1 => .add
  | .mulF32V1 => .mul
  | .reluF32V1 => .relu
  | .matmulF32V1 | .matmulBlockedF32V1 => .matmul

structure Buffer (F : Type) where
  value : Value F
  /-- In bytes. -/
  offset : Option Nat
  /-- The producing and the last consuming position, inclusive. -/
  lifetime : Option (Nat × Nat)

structure Step where
  name : String
  kernel : Kernel
  inputs : List Nat
  output : Nat
  rank : Nat
  stream : Nat
  dependencies : List Nat
  reuseDependencies : List Nat
  selectionReason : String
  deriving DecidableEq, Repr

structure PhysicalPlan (F : Type) where
  version : Nat
  name : String
  target : String
  policy : String
  alignment : Nat
  arenaBytes : Nat
  buffers : List (Buffer F)
  steps : List Step
  outputs : List Nat
  updates : ExtTreeMap Nat Nat
  removedNodes : List String
  foldedNodes : List String

def version : Nat := 1
def target : String := "cpu-f32-v1"
def alignment : Nat := 64
def maxBytes : Nat := 64 * 1024 * 1024
def maxNodes : Nat := 512

/-! ## Shapes -/

/-- `shape.iter().try_fold(1, |a, b| a.checked_mul(*b))` -/
def product (shape : List Nat) : Option Nat := shape.foldlM (checkedMul u64Max) 1

def elements (shape : List Nat) : Result Nat :=
  if shape = [] ∨ shape.length > 8 ∨ 0 ∈ shape then invalid "shape must have 1..8 positive dimensions"
  else do
    let n ← Outcome.okOr (product shape) (.invalid "shape overflow")
    if n > maxBytes / 4 then invalid "tensor exceeds CPU plan limit" else .ok n

/-- The shape of a matrix product. -/
def matmulShape : List (List Nat) → Result (List Nat)
  | [[m, k], [k', n]] =>
    if k ≠ k' then invalid "matmul requires [M,K] and [K,N]"
    else do
      let count ← elements [m, n]
      let work ← Outcome.okOr (checkedMul u64Max count k) (.invalid "matmul work overflow")
      if work > 100000000 then invalid "matmul exceeds CPU invocation work limit" else .ok [m, n]
  | _ => invalid "matmul requires [M,K] and [K,N]"

def shape (op : Op) (inputs : List (List Nat)) : Result (List Nat) :=
  if inputs.length ≠ (if op = .relu then 1 else 2) then invalid "operation arity mismatch"
  else
    match op with
    | .matmul => matmulShape inputs
    | .relu => Outcome.unwrap inputs[0]?
    | .add | .mul =>
      if inputs[0]? ≠ inputs[1]? then invalid "elementwise shape mismatch; no implicit broadcast"
      else Outcome.unwrap inputs[0]?

/-! ## The verifier -/

section

variable {F : Type} [Float32 F]

def checkHeader (p : PhysicalPlan F) : Result Unit :=
  if p.version ≠ version ∨ p.target ≠ target ∨ p.policy ≠ "deterministic-cpu-v1" ∨ p.alignment ≠ alignment then
    invalid "unsupported physical plan version/target/policy/alignment"
  else if p.steps.length > maxNodes ∨ p.buffers.length > maxNodes * 4 ∨ p.arenaBytes > maxBytes ∨
      p.arenaBytes % alignment ≠ 0 ∨ p.outputs = [] then
    invalid "physical plan resource limit or empty outputs"
  else .ok ()

/-- Where a buffer is stored, and what it starts with. -/
def checkStorage (p : PhysicalPlan F) (b : Buffer F) (bytes : Nat) : Result Unit :=
  match b.value.storage with
  | .arena => do
    let offset ← Outcome.okOr b.offset (.invalid "missing arena offset")
    if b.value.initial.isSome ∨ b.lifetime = none ∨ offset % alignment ≠ 0 ∨
        (checkedAdd u64Max offset bytes).all (· > p.arenaBytes) then
      invalid "invalid arena bounds, initializer or alignment"
    else .ok ()
  | .input | .state | .constant =>
    if b.offset.isSome ∨ b.lifetime.isSome then invalid "owned storage cannot alias arena"
    else if b.value.storage = .input then
      if b.value.initial.isSome then invalid "input cannot have initializer" else .ok ()
    else if b.value.initial.all fun v => v.length ≠ bytes / 4 ∨ (v.any fun x => !Float32.isFinite x) then
      invalid "invalid owned initializer"
    else .ok ()

/-- The loop over the buffers, with the names seen and the bytes so far. -/
def checkBuffers (p : PhysicalPlan F) : List String → Nat → List (Buffer F) → Result Unit
  | _, _, [] => .ok ()
  | names, total, b :: bs => do
    let count ← elements b.value.shape
    let bytes := count * 4
    let total ← Outcome.okOr (checkedAdd u64Max total bytes) (.invalid "plan byte count overflow")
    if total > maxBytes ∨ b.value.name = "" ∨ b.value.name.utf8ByteSize > 256 ∨ b.value.name ∈ names then
      invalid "plan byte limit or duplicate/invalid buffer name"
    else do
      checkStorage p b bytes
      checkBuffers p (b.value.name :: names) total bs

/-- Which step produces a buffer, and the positions a buffer is alive at. -/
structure Liveness where
  producer : ExtTreeMap Nat Nat
  lives : List (Option (Nat × Nat))

/-- The operands of one step: their shapes, and the steps they come from. -/
def checkInputs (p : PhysicalPlan F) (i : Nat) :
    List Nat → Liveness → Result (List (List Nat) × List Nat × Liveness)
  | [], l => .ok ([], [], l)
  | id :: ids, l => do
    let input ← Outcome.okOr p.buffers[id]? (.invalid "input buffer ID out of range")
    if input.value.storage = .arena then do
      let source ← Outcome.okOr l.producer[id]? (.invalid "read before production")
      let life ← Outcome.unwrap l.lives[id]?.join
      let (shapes, required, l) ← checkInputs p i ids { l with lives := l.lives.set id (some (life.1, i)) }
      .ok (input.value.shape :: shapes, source :: required, l)
    else do
      let (shapes, required, l) ← checkInputs p i ids l
      .ok (input.value.shape :: shapes, required, l)

def checkStep (p : PhysicalPlan F) (i : Nat) (step : Step) (l : Liveness) : Result Liveness :=
  if step.rank ≠ 0 ∨ step.stream ≠ 0 then invalid "CPU executor supports rank 0 / stream 0 only"
  else do
    let output ← Outcome.okOr p.buffers[step.output]? (.invalid "output buffer ID out of range")
    if output.value.storage ≠ .arena ∨ output.value.name ≠ step.name ∨ step.output ∈ l.producer then
      invalid "invalid or duplicate step output"
    else if ∃ deps ∈ [step.dependencies, step.reuseDependencies], (∃ d ∈ deps, d ≥ i) ∨ ¬deps.Nodup then
      invalid "dependencies must be unique prior steps"
    else do
      let (shapes, required, l) ← checkInputs p i step.inputs l
      if ∃ d ∈ required, d ∉ step.dependencies then invalid "missing data dependency"
      else do
        let result ← shape step.kernel.op shapes
        if result ≠ output.value.shape then invalid "kernel output shape mismatch"
        else .ok ⟨l.producer.insert step.output i, l.lives.set step.output (some (i, i))⟩

def checkSteps (p : PhysicalPlan F) : Nat → List Step → Liveness → Result Liveness
  | _, [], l => .ok l
  | i, step :: steps, l => do
    let l ← checkStep p i step l
    checkSteps p (i + 1) steps l

def checkUpdate (p : PhysicalPlan F) (update : Nat × Nat) : Result Unit := do
  let t ← Outcome.okOr p.buffers[update.1]? (.invalid "state target out of bounds")
  let s ← Outcome.okOr p.buffers[update.2]? (.invalid "state source out of bounds")
  if t.value.storage ≠ .state ∨ t.value.shape ≠ s.value.shape then invalid "invalid state commit binding"
  else .ok ()

/-- What a run comes back with: outputs, and what states become. -/
def PhysicalPlan.results (p : PhysicalPlan F) : List Nat := p.outputs ++ p.updates.toList.map Prod.snd

/-- Results stay alive to the end. -/
def checkResults (p : PhysicalPlan F) : List Nat → List (Option (Nat × Nat)) → Result (List (Option (Nat × Nat)))
  | [], lives => .ok lives
  | id :: ids, lives => do
    let b ← Outcome.okOr p.buffers[id]? (.invalid "result ID out of bounds")
    if b.value.storage = .arena then do
      let life ← Outcome.unwrap lives[id]?
      let life ← Outcome.okOr life (.invalid "unproduced result")
      checkResults p ids (lives.set id (some (life.1, p.steps.length)))
    else checkResults p ids lives

/-- The bytes of two buffers overlap. -/
def overlaps (b other : Buffer F) : Result Bool := do
  let a ← Outcome.unwrap b.offset
  let c ← Outcome.unwrap other.offset
  let size ← elements other.value.shape
  if a < c + size * 4 then do
    let size ← elements b.value.shape
    .ok (c < a + size * 4)
  else .ok false

/-- One buffer against an earlier one. -/
def checkPair (p : PhysicalPlan F) (b : Buffer F) (life : Nat × Nat) (other : Buffer F) : Result Unit :=
  match other.lifetime with
  | none => .ok ()
  | some olife => do
    let overlapping ← overlaps b other
    if overlapping = false then .ok ()
    else if life.1 ≤ olife.2 ∧ olife.1 ≤ life.2 then invalid "simultaneously live buffers alias"
    else do
      let (before, after) := if life.2 < olife.1 then (life.2, olife.1) else (olife.2, life.1)
      let step ← Outcome.unwrap p.steps[after]?
      if before ∉ step.reuseDependencies then invalid "missing memory reuse dependency" else .ok ()

def checkPairs (p : PhysicalPlan F) (b : Buffer F) (life : Nat × Nat) : List (Buffer F) → Result Unit
  | [] => .ok ()
  | other :: others => do
    checkPair p b life other
    checkPairs p b life others

/-- A buffer with a lifetime against the ones before it. -/
def checkAgainst (p : PhysicalPlan F) (b : Buffer F) (others : List (Buffer F)) : Result Unit :=
  match b.lifetime with
  | none => .ok ()
  | some life => checkPairs p b life others

/-- The last loop, with the buffers before the current one, the latest first. -/
def checkLifetimes (p : PhysicalPlan F) (lives : List (Option (Nat × Nat))) :
    List (Buffer F) → List (Buffer F) → Result Unit
  | _, [] => .ok ()
  | earlier, b :: bs => do
    let life ← Outcome.unwrap lives[earlier.length]?
    if b.lifetime ≠ life ∨ (b.value.storage = .arena ∧ life = none) then invalid "forged or missing lifetime"
    else do
      checkAgainst p b earlier.reverse
      checkLifetimes p lives (b :: earlier) bs

def checkUpdates (p : PhysicalPlan F) : List (Nat × Nat) → Result Unit
  | [] => .ok ()
  | update :: updates => do
    checkUpdate p update
    checkUpdates p updates

def verify (p : PhysicalPlan F) : Result Unit := do
  checkHeader p
  checkBuffers p [] 0 p.buffers
  let l ← checkSteps p 0 p.steps ⟨∅, List.replicate p.buffers.length none⟩
  if ¬p.outputs.Nodup then invalid "duplicate result ID"
  else do
    checkUpdates p p.updates.toList
    let lives ← checkResults p p.results l.lives
    checkLifetimes p lives [] p.buffers

end

end Inferfabric.Plan
