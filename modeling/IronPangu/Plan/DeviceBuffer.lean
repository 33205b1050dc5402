-- SUMMARY: Device-buffer contracts of a kernel invocation, their verification, and their binding to resident allocations.
import IronPangu.Ir.Serving

open Rust

/-!
# Device buffers

An invocation names its tensors as views of numbered allocations, without an address.
`verify` checks the views against the allocations; `bind` takes the allocations that
are resident on the device, checks their addresses, and returns one descriptor of the
kernel ABI for each view.
-/

namespace Inferfabric.Plan.DeviceBuffer

open Ir

/-! ## Contracts -/

def format : String := "inferfabric.device-buffer.v1"

/-- `i64::MAX` -/
def i64Max : Nat := 9223372036854775807

inductive DType where
  | i8
  | bf16
  | f32
  deriving DecidableEq, Repr

def DType.bytes : DType → Nat
  | .i8 => 1
  | .bf16 => 2
  | .f32 => 4

def DType.abiTag : DType → Nat
  | .i8 => 1
  | .bf16 => 2
  | .f32 => 3

inductive Access where
  | read
  | write
  deriving DecidableEq, Repr

inductive MemoryClass where
  | weight
  | state
  | activation
  | workspace
  | input
  | output
  deriving DecidableEq, Repr

structure Allocation where
  id : Nat
  rank : Nat
  device : Nat
  bytes : Nat
  alignment : Nat
  memoryClass : MemoryClass
  readOnly : Bool
  deriving DecidableEq, Repr

structure TensorView where
  allocation : Nat
  offset : Nat
  dtype : DType
  shape : List Nat
  strides : List Nat
  alignment : Nat
  access : Access
  deriving DecidableEq, Repr

structure Workspace where
  allocation : Nat
  offset : Nat
  bytes : Nat
  alignment : Nat
  deriving DecidableEq, Repr

structure Invocation where
  format : String
  implementation : String
  binarySha256 : String
  numericalContract : String
  rank : Nat
  device : Nat
  allocations : List Allocation
  inputs : List TensorView
  outputs : List TensorView
  workspace : Option Workspace
  deriving DecidableEq, Repr

/-! ## Verification -/

def isAlignment (a : Nat) : Bool := a ≠ 0 && decide a.isPowerOfTwo

def overlap (a b : Nat × Nat) : Bool := a.1 < b.2 && b.1 < a.2

/-- `end`: the first byte behind a range of an allocation. -/
def limit (offset bytes capacity : Nat) : Result Nat := do
  let stop ← Outcome.okOr (checkedAdd u64Max offset bytes) (.invalid "buffer range overflow")
  if bytes = 0 ∨ stop > capacity then invalid "buffer range outside allocation" else .ok stop

/-- The loop over the dimensions and their strides, the last one first. -/
def contiguous : List (Nat × Nat) → Nat → Result Nat
  | [], stride => .ok stride
  | (dim, actual) :: dims, stride =>
    if dim = 0 ∨ dim > i64Max ∨ stride > i64Max ∨ actual ≠ stride then
      invalid "kernel ABI requires contiguous positive views"
    else do
      let stride ← Outcome.okOr (checkedMul u64Max stride dim) (.invalid "tensor shape overflow")
      contiguous dims stride

def TensorView.byteSpan (v : TensorView) : Result Nat :=
  if v.shape = [] ∨ v.shape.length > 8 ∨ v.strides.length ≠ v.shape.length then invalid "tensor rank/stride mismatch"
  else do
    let count ← contiguous (v.shape.zip v.strides).reverse 1
    Outcome.okOr (checkedMul u64Max count v.dtype.bytes) (.invalid "tensor byte overflow")

namespace Invocation

variable (call : Invocation)

def checkHeader : Result Unit :=
  if call.format ≠ DeviceBuffer.format ∨ call.implementation = "" ∨ call.numericalContract = "" ∨
      call.binarySha256.utf8ByteSize ≠ 64 ∨
      ¬call.binarySha256.toList.all (fun c => c.isDigit || ('a' ≤ c && c ≤ 'f') || ('A' ≤ c && c ≤ 'F')) ∨
      call.allocations = [] ∨ call.allocations.length > 4096 ∨ call.inputs = [] ∨ call.outputs = [] ∨
      call.inputs.length > 64 ∨ call.outputs.length > 64 then
    invalid "device invocation contract/version/port bounds"
  else .ok ()

/-- The loop over the allocations, with the IDs seen. -/
def checkAllocations : List Nat → List Allocation → Result Unit
  | _, [] => .ok ()
  | seen, a :: as =>
    if a.id ∈ seen ∨ a.bytes = 0 ∨ isAlignment a.alignment = false ∨ a.rank ≠ call.rank ∨ a.device ≠ call.device ∨
        (a.memoryClass = .weight ∧ a.readOnly = false) then
      invalid "allocation identity/placement/alignment"
    else checkAllocations (a.id :: seen) as

def allocation (id : Nat) : Option Allocation := call.allocations.find? (·.id = id)

/-- The range of a view within its allocation. -/
def checkView (access : Access) (v : TensorView) : Result (Nat × Nat × Nat) := do
  let a ← Outcome.okOr (call.allocation v.allocation) (.invalid "unknown tensor allocation")
  if v.access ≠ access ∨ (access = .write ∧ a.readOnly = true) ∨ isAlignment v.alignment = false ∨
      v.alignment < v.dtype.bytes ∨ a.alignment < v.alignment ∨ v.offset % v.alignment ≠ 0 then
    invalid "view access/alignment"
  else do
    let span ← v.byteSpan
    let stop ← limit v.offset span a.bytes
    .ok (v.allocation, v.offset, stop)

/-- Two ranges of one allocation that overlap. -/
def aliases (a b : Nat × Nat × Nat) : Bool := a.1 = b.1 && overlap a.2 b.2

/-- The loop over the outputs, with the ranges they must not overlap. -/
def checkOutputs : List (Nat × Nat × Nat) → List (Nat × Nat × Nat) → Result Unit
  | _, [] => .ok ()
  | others, output :: outputs =>
    if others.any (aliases output) then invalid "kernel ABI forbids writable aliases"
    else checkOutputs (others ++ [output]) outputs

def checkWorkspace (tensors : List (Nat × Nat × Nat)) : Option Workspace → Result Unit
  | none => .ok ()
  | some w => do
    let a ← Outcome.okOr (call.allocation w.allocation) (.invalid "unknown workspace allocation")
    if a.readOnly = true ∨ isAlignment w.alignment = false ∨ w.alignment > 4096 ∨ a.alignment < w.alignment ∨
        w.offset % w.alignment ≠ 0 then
      invalid "workspace access/alignment"
    else do
      let stop ← limit w.offset w.bytes a.bytes
      if tensors.any (aliases (w.allocation, w.offset, stop)) then invalid "workspace aliases tensor" else .ok ()

def used : List Nat :=
  (call.inputs ++ call.outputs).map (·.allocation) ++ (call.workspace.map (·.allocation)).toList

def verify : Result Unit := do
  call.checkHeader
  call.checkAllocations [] call.allocations
  let inputs ← Outcome.collect (call.checkView .read) call.inputs
  let outputs ← Outcome.collect (call.checkView .write) call.outputs
  checkOutputs inputs outputs
  call.checkWorkspace (inputs ++ outputs) call.workspace
  if call.used.dedup.length ≠ call.allocations.length then invalid "unused invocation allocation" else .ok ()

end Invocation

/-! ## Binding -/

/-- A descriptor of the kernel ABI. -/
structure KernelTensorV1 where
  structBytes : Nat
  dtype : Nat
  rank : Nat
  access : Nat
  data : Nat
  allocationBytes : Nat
  /-- Eight entries each, of which the first `rank` count. -/
  shape : List Int
  strides : List Int
  deriving DecidableEq, Repr

/-- `size_of::<KernelTensorV1>()` -/
def kernelTensorBytes : Nat := 160

structure ResidentAllocation where
  id : Nat
  base : Nat
  bytes : Nat
  rank : Nat
  device : Nat
  deriving DecidableEq, Repr

structure BoundInvocation where
  inputs : List KernelTensorV1
  outputs : List KernelTensorV1
  workspace : Nat
  workspaceBytes : Nat
  deriving DecidableEq, Repr

/-- The loop over the residents, with the IDs and the absolute ranges seen. -/
def checkResidents (call : Invocation) : List Nat → List (Nat × Nat) → List ResidentAllocation → Result Unit
  | _, _, [] => .ok ()
  | seen, absolute, r :: rs => do
    let a ← Outcome.okOr (call.allocation r.id) (.invalid "unknown resident ID")
    let stop ← Outcome.okOr (checkedAdd u64Max r.base r.bytes) (.invalid "resident pointer overflow")
    if r.id ∈ seen ∨ r.base = 0 ∨ r.bytes < a.bytes ∨ r.rank ≠ a.rank ∨ r.device ≠ a.device ∨
        r.base % a.alignment ≠ 0 ∨ stop > u64Max ∨ absolute.any (overlap (r.base, stop)) then
      invalid "resident placement/capacity/alignment/alias mismatch"
    else checkResidents call (r.id :: seen) (absolute ++ [(r.base, stop)]) rs

/-- An array of the descriptor. -/
def array (values : List Int) : List Int := values ++ List.replicate (8 - values.length) 0

/-- `i64::try_from` of every entry. -/
def signed (message : String) (values : List Nat) : Result (List Int) :=
  Outcome.collect (fun d => do
    let d ← Outcome.okOr (tryFrom i64Max d) (.invalid message)
    .ok (d : Int)) values

/-- `table[&id]` -/
def resident (residents : List ResidentAllocation) (id : Nat) : Option ResidentAllocation :=
  residents.find? (·.id = id)

def bindTensor (residents : List ResidentAllocation) (v : TensorView) : Result KernelTensorV1 := do
  let r ← Outcome.unwrap (resident residents v.allocation)
  let address ← Outcome.okOr (checkedAdd u64Max r.base v.offset) (.invalid "view pointer overflow")
  let shape ← signed "shape ABI overflow" v.shape
  let strides ← signed "stride ABI overflow" v.strides
  let span ← v.byteSpan
  .ok {
    structBytes := kernelTensorBytes
    dtype := v.dtype.abiTag
    rank := v.shape.length
    access := if v.access = .read then 1 else 2
    data := address
    allocationBytes := span
    shape := array shape
    strides := array strides }

def bindWorkspace (residents : List ResidentAllocation) : Option Workspace → Result (Nat × Nat)
  | none => .ok (0, 0)
  | some w => do
    let r ← Outcome.unwrap (resident residents w.allocation)
    let address ← Outcome.okOr (checkedAdd u64Max r.base w.offset) (.invalid "workspace pointer overflow")
    .ok (address, w.bytes)

def bind (call : Invocation) (residents : List ResidentAllocation) : Result BoundInvocation := do
  call.verify
  if residents.length ≠ call.allocations.length then invalid "resident allocation count"
  else do
    checkResidents call [] [] residents
    let inputs ← Outcome.collect (bindTensor residents) call.inputs
    let outputs ← Outcome.collect (bindTensor residents) call.outputs
    let (workspace, workspaceBytes) ← bindWorkspace residents call.workspace
    .ok ⟨inputs, outputs, workspace, workspaceBytes⟩

end Inferfabric.Plan.DeviceBuffer
