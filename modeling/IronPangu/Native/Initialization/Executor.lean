-- SUMMARY: The executor of initialization plans: bounded staging, strided reads, fused casts and uploads.
import IronPangu.Native.Initialization

open Rust Method

/-!
# Executing an initialization plan

A parameter is loaded chunk by chunk: a chunk of source bytes is packed into the
staging buffer, cast where the parameter is wider than the file, and uploaded behind
the chunk before it. The calls on the file and on the device are kept as traces.
-/

namespace Inferfabric.Native.Initialization

/-! ## Casts -/

/-- The bits of the `f32` with the two bytes of a `bf16` on top. -/
def widen (lo hi : UInt8) : Nat := (lo.toNat + hi.toNat * 256) * 65536

/-- `std::isfinite`: the exponent is not all ones. -/
def isFinite (bits : Nat) : Bool := bits / 2 ^ 23 % 256 ≠ 255

/-- The bytes of an `f32` in memory, on a little-endian host. -/
def littleEndian (bits : Nat) : Bytes :=
  [(bits % 256).toUInt8, (bits / 256 % 256).toUInt8, (bits / 65536 % 256).toUInt8, (bits / 16777216 % 256).toUInt8]

/-- The loop over the elements of a chunk. -/
def castChunk : Bytes → Outcome Stop Bytes
  | lo :: hi :: rest =>
    if isFinite (widen lo hi) = false then fail "nonfinite initialization cast"
    else do
      let converted ← castChunk rest
      .ok (littleEndian (widen lo hi) ++ converted)
  | _ => .ok []

def castAs (source target : DType) (bytes : Bytes) : Outcome Stop Bytes :=
  if source ≠ target then castChunk bytes else .ok bytes

/-! ## The variables of one load -/

structure Loading where
  /-- The stream of the shard, and the calls of `read` on it. -/
  file : Bytes
  position : Nat
  reads : List (Nat × Nat)
  /-- What the current chunk has filled of the staging buffer. -/
  staging : Bytes
  done : Nat
  outputOffset : Nat
  /-- The device memory of the parameter, and the calls of `upload` on it. -/
  memory : Nat → UInt8
  uploads : List (Nat × Bytes)

def Loading.start (file : Bytes) (memory : Nat → UInt8) : Loading := ⟨file, 0, [], [], 0, 0, memory, []⟩

def seek (position : Nat) : Method Loading Stop Unit := Method.modify fun l => { l with position := position }

def read (message : String) (n : Nat) : Method Loading Stop Unit := do
  let l ← Method.get
  Method.modify fun l => { l with reads := l.reads ++ [(l.position, n)] }
  if l.position + n ≤ l.file.length then
    Method.modify fun l =>
      { l with staging := l.staging ++ (l.file.drop l.position).take n, position := l.position + n }
  else Method.fail (.thrown message)

/-- The next piece of a row, as far as the row and the chunk go. -/
def readRow (op : LoadSlice) (count : Nat) : Method Loading Stop Unit := do
  let l ← Method.get
  let packedOffset := l.done + l.staging.length
  let row := packedOffset / op.rowBytes
  let column := packedOffset % op.rowBytes
  let take := min (count - l.staging.length) (op.rowBytes - column)
  seek (op.offset + row * op.strideBytes + column)
  read "short strided initialization read" take

def fill (op : LoadSlice) (count fuel : Nat) : Method Loading Stop Unit :=
  if op.rowBytes = 0 then read "short initialization read" count
  else whileLoop .running (fun l => l.staging.length < count) (readRow op count) fuel

def upload (data : Bytes) : Method Loading Stop Unit :=
  Method.modify fun l =>
    { l with
      memory := fun k =>
        if l.outputOffset ≤ k ∧ k < l.outputOffset + data.length then data.getD (k - l.outputOffset) 0 else l.memory k
      uploads := l.uploads ++ [(l.outputOffset, data)] }

/-- Where this is asked for, read the chunk back and compare. -/
def verifyUpload (asked : Bool) (data : Bytes) : Method Loading Stop Unit :=
  require (fun l => !asked || (List.range data.length).map (fun k => l.memory (l.outputOffset + k)) = data)
    (.thrown "initialization upload mismatch")

structure Options where
  stagingBytes : Nat := 4 * 1024 * 1024
  residentBudget : Nat := u64Max
  verifyUpload : Bool := false

def chunk (op : LoadSlice) (p : Parameter) (options : Options) (fuel : Nat) : Method Loading Stop Unit := do
  let l ← Method.get
  let count := min options.stagingBytes (op.bytes - l.done)
  Method.modify fun l => { l with staging := [] }
  fill op count fuel
  let l ← Method.get
  let data ← Method.lift (castAs op.sourceDtype p.dtype l.staging)
  upload data
  verifyUpload options.verifyUpload data
  Method.modify fun l => { l with done := l.done + count, outputOffset := l.outputOffset + data.length }

/-- The loop over the chunks of a slice. -/
def loadSlice (op : LoadSlice) (p : Parameter) (options : Options) (fuel : Nat) : Method Loading Stop Unit := do
  seek op.offset
  whileLoop .running (fun l => l.done < op.bytes) (chunk op p options fuel) fuel

/-! ## The executor -/

structure ResidentParameter where
  descriptor : Parameter
  bytes : Nat
  data : Nat → UInt8

structure ParameterStore where
  parameters : List (Option ResidentParameter)
  sourceBytes : Nat
  residentBytes : Nat

/-- The regular files directly under the root, by the name a shard resolves to. -/
abbrev Directory : Type := Bytes → Option Bytes

/-- Fresh device memory of some size, where it can be had; uploads and readbacks are synchronous. -/
structure DeviceMemory where
  allocate : Nat → Option (Nat → UInt8)

def residentBytes : Nat → List Parameter → Outcome Stop Nat
  | resident, [] => .ok resident
  | resident, p :: ps => do
    let bytes ← p.bytes
    let resident ← add resident bytes
    residentBytes resident ps

/-- The file of a slice, when it is long enough. -/
def shardFile (directory : Directory) (op : LoadSlice) : Outcome Stop Bytes :=
  match directory op.shard with
  | none => fail "initialization shard range/path mismatch"
  | some file => do
    let span ← op.sourceSpan
    let stop ← add op.offset span
    if file.length < stop then fail "initialization shard range/path mismatch" else .ok file

/-- Everything before the first allocation: the files of the slices. -/
def prepare (plan : Plan) (directory : Directory) (options : Options) : Outcome Stop (List Bytes) := do
  plan.validate
  if options.stagingBytes = 0 ∨ options.stagingBytes % 4 ≠ 0 ∨ options.stagingBytes > 64 * 1024 * 1024 then
    fail "initialization backend/staging options"
  else do
    let resident ← residentBytes 0 plan.parameters
    if resident > options.residentBudget then fail "initialization resident budget exceeded"
    else Outcome.collect (shardFile directory) plan.instructions

/-- A parameter that was loaded is put into the store. -/
def storeParameter (op : LoadSlice) (p : Parameter) (bytes : Nat) (loaded : Outcome Stop Unit × Loading)
    (store : ParameterStore) : Outcome Stop ParameterStore := do
  loaded.1
  let sourceBytes ← add store.sourceBytes op.bytes
  let residentBytes ← add store.residentBytes bytes
  .ok ⟨store.parameters.set op.destination (some ⟨p, bytes, loaded.2.memory⟩), sourceBytes, residentBytes⟩

def loadParameter (plan : Plan) (backend : DeviceMemory) (options : Options) (fuel : Nat) (op : LoadSlice) (file : Bytes)
    (store : ParameterStore) : Outcome Stop ParameterStore := do
  let p ← Outcome.unwrap plan.parameters[op.destination]?
  let bytes ← p.bytes
  match backend.allocate bytes with
  | none => fail "initialization allocation returned null"
  | some memory => storeParameter op p bytes (loadSlice op p options fuel (Loading.start file memory)) store

def loadAll (plan : Plan) (backend : DeviceMemory) (options : Options) (fuel : Nat) :
    List (LoadSlice × Bytes) → ParameterStore → Outcome Stop ParameterStore
  | [], store => .ok store
  | (op, file) :: rest, store => do
    let store ← loadParameter plan backend options fuel op file store
    loadAll plan backend options fuel rest store

def execute (plan : Plan) (directory : Directory) (backend : DeviceMemory) (options : Options) (fuel : Nat) :
    Outcome Stop ParameterStore := do
  let files ← prepare plan directory options
  loadAll plan backend options fuel (plan.instructions.zip files)
    ⟨List.replicate plan.parameters.length none, 0, 0⟩

end Inferfabric.Native.Initialization
