-- SUMMARY: The checks a compiled kernel makes of its tensor descriptors before it is prepared.
import IronPangu.Plan.DeviceBuffer

open Rust

/-!
# Compiled kernels

`prepare` checks the descriptors of a call before it hands them to the kernel's
library: each is a contiguous positive tensor within its bytes, and no output
overlaps an input or another output. The overlaps are found from the addresses,
without the allocations behind them.
-/

namespace Inferfabric.Native.CompiledKernel

open Ir Plan.DeviceBuffer

def require (condition : Bool) (message : String) : Result Unit :=
  if condition then .ok () else invalid message

@[simp] theorem require_eq_ok {condition : Bool} {message : String} :
    require condition message = .ok () ↔ condition = true := by
  cases condition <;> simp [require, invalid]

/-! ## Descriptors -/

def elementBytes (dtype : Nat) : Nat :=
  if dtype = 1 then 1 else if dtype = 2 then 2 else if dtype = 3 then 4 else 0

/-- The loop over the dimensions, from `i` down. -/
def validateShape (t : KernelTensorV1) : Nat → Nat → Result Nat
  | 0, stride => .ok stride
  | i + 1, stride => do
    require (t.shape.getD i 0 > 0 && stride ≤ i64Max && t.strides.getD i 0 = stride)
      "kernel requires contiguous positive tensor"
    require ((t.shape.getD i 0).toNat ≤ u64Max / stride) "kernel shape overflow"
    validateShape t i (stride * (t.shape.getD i 0).toNat)

def validate (access : Nat) (t : KernelTensorV1) : Result Unit := do
  require (t.structBytes = kernelTensorBytes && t.data ≠ 0 && t.rank > 0 && t.rank ≤ 8 && t.access = access)
    "kernel tensor descriptor"
  require (elementBytes t.dtype ≠ 0) "kernel dtype"
  let stride ← validateShape t t.rank 1
  require (stride ≤ u64Max / elementBytes t.dtype && stride * elementBytes t.dtype ≤ t.allocationBytes)
    "kernel tensor allocation bound"

/-! ## Overlaps -/

def overlaps (a b : KernelTensorV1) : Result Bool := do
  require (a.allocationBytes ≤ u64Max - a.data && b.allocationBytes ≤ u64Max - b.data) "kernel address overflow"
  .ok (a.data < b.data + b.allocationBytes && b.data < a.data + a.allocationBytes)

/-- A loop over descriptors that `output` must not overlap. -/
def checkOverlaps (message : String) (output : KernelTensorV1) : List KernelTensorV1 → Result Unit
  | [] => .ok ()
  | t :: ts => do
    let overlapping ← overlaps output t
    require (!overlapping) message
    checkOverlaps message output ts

/-- The loop over the outputs, with the outputs before them. -/
def checkOutputs (inputs : List KernelTensorV1) : List KernelTensorV1 → List KernelTensorV1 → Result Unit
  | _, [] => .ok ()
  | before, output :: outputs => do
    checkOverlaps "kernel output aliases input" output inputs
    checkOverlaps "kernel outputs alias" output before
    checkOutputs inputs (before ++ [output]) outputs

/-- What `prepare` checks before it calls the library. -/
def checkPorts (inputs outputs : List KernelTensorV1) : Result Unit := do
  require (inputs ≠ [] && outputs ≠ [] && inputs.length ≤ 64 && outputs.length ≤ 64) "kernel port count"
  let _ ← Outcome.collect (validate 1) inputs
  let _ ← Outcome.collect (validate 2) outputs
  checkOutputs inputs [] outputs

/-! ## What is accepted -/

theorem checkOverlaps_eq_ok {message : String} {output : KernelTensorV1} {ts : List KernelTensorV1}
    (h : ∀ t ∈ ts, overlaps output t = .ok false) : checkOverlaps message output ts = .ok () := by
  induction ts with
  | nil => rfl
  | cons t ts ih =>
    have hrest := ih fun t' ht' => h t' (List.mem_cons_of_mem _ ht')
    simp [checkOverlaps, h t List.mem_cons_self, require, hrest]

theorem checkOutputs_eq_ok {inputs before outputs : List KernelTensorV1}
    (hinputs : ∀ o ∈ outputs, ∀ t ∈ inputs, overlaps o t = .ok false)
    (hbefore : ∀ o ∈ outputs, ∀ t ∈ before, overlaps o t = .ok false)
    (houtputs : outputs.Pairwise fun x y => overlaps y x = .ok false) :
    checkOutputs inputs before outputs = .ok () := by
  induction outputs generalizing before with
  | nil => rfl
  | cons o outputs ih =>
    obtain ⟨hlater, hrest⟩ := List.pairwise_cons.mp houtputs
    have hnext : ∀ o' ∈ outputs, ∀ t ∈ before ++ [o], overlaps o' t = .ok false := by
      intro o' ho' t ht
      rcases List.mem_append.mp ht with ht | ht
      · exact hbefore o' (List.mem_cons_of_mem _ ho') t ht
      · rw [List.mem_singleton.mp ht]
        exact hlater o' ho'
    have hstep := ih (fun o' ho' => hinputs o' (List.mem_cons_of_mem _ ho')) hnext hrest
    simp [checkOutputs, checkOverlaps_eq_ok (hinputs o List.mem_cons_self),
      checkOverlaps_eq_ok (hbefore o List.mem_cons_self), hstep]

end Inferfabric.Native.CompiledKernel
