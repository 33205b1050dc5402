-- SUMMARY: Parameter initialization plans as the compiler validates and encodes them.
import IronPangu.Lib.Decoder
import IronPangu.Lib.Utf8

open Rust Outcome Decoding Utf8

/-!
# Initialization plans

A plan gives every parameter of a rank its slice of a checkpoint file. It is validated,
and then written as a string of bytes for the native executor.
-/

namespace Inferfabric.Ir.Initialization

inductive DType where
  | i8
  | bf16
  | f32
  deriving DecidableEq, Repr

def DType.bytes : DType → Nat
  | .i8 => 1
  | .bf16 => 2
  | .f32 => 4

/-- The number of a variant. -/
def DType.code : DType → Nat
  | .i8 => 1
  | .bf16 => 2
  | .f32 => 3

/-- `i64::MAX` -/
def i64Max : Nat := 9223372036854775807

structure Parameter where
  id : UInt32
  name : String
  dtype : DType
  shape : List UInt64
  deriving DecidableEq, Repr

/-- The loop over the dimensions. -/
def multiply : Nat → List UInt64 → Outcome String Nat
  | n, [] => .ok n
  | n, d :: shape =>
    if d = 0 ∨ d.toNat > i64Max then .err "zero initialization dimension"
    else do
      let n ← okOr (checkedMul u64Max n d.toNat) "initialization size overflow"
      multiply n shape

def Parameter.bytes (p : Parameter) : Outcome String Nat :=
  if p.shape = [] ∨ p.shape.length > 8 then .err "initialization shape rank" else multiply p.dtype.bytes p.shape

structure SourceRows where
  rowBytes : UInt64
  strideBytes : UInt64
  deriving DecidableEq, Repr

/-- `LoadSlice`, the only instruction. -/
structure Instruction where
  destination : UInt32
  shard : String
  offset : UInt64
  bytes : UInt64
  sourceDtype : DType
  sourceRows : Option SourceRows
  deriving DecidableEq, Repr

structure InitializationPlan where
  rank : UInt32
  device : UInt32
  checkpointMetadataSha256 : String
  parameters : List Parameter
  instructions : List Instruction
  deriving DecidableEq, Repr

/-! ## Validation -/

/-- `is_ascii_hexdigit` -/
def isHexdigit (b : UInt8) : Bool := 0x30 ≤ b && b ≤ 0x39 || 0x61 ≤ b && b ≤ 0x66 || 0x41 ≤ b && b ≤ 0x46

/-- The loop over the parameters, with the names seen and the bytes so far. -/
def validateParameters : Nat → List String → Nat → List Parameter → Outcome String Unit
  | _, _, _, [] => .ok ()
  | i, names, total, p :: ps =>
    if p.id.toNat ≠ i ∨ p.name = "" ∨ (utf8 p.name).length > 4096 ∨ nul ∈ p.name.toList ∨ p.name ∈ names then
      .err "initialization parameter ID/name"
    else do
      let bytes ← p.bytes
      let total ← okOr (checkedAdd u64Max total bytes) "initialization total overflow"
      validateParameters (i + 1) (p.name :: names) total ps

/-- The bytes of the file from the first to behind the last byte of the slice. -/
def Instruction.span (op : Instruction) : Outcome String Nat :=
  match op.sourceRows with
  | none => .ok op.bytes.toNat
  | some rows =>
    if rows.rowBytes = 0 ∨ op.bytes = 0 ∨ op.bytes.toNat % rows.rowBytes.toNat ≠ 0 ∨
        rows.rowBytes.toNat % op.sourceDtype.bytes ≠ 0 ∨ rows.strideBytes < rows.rowBytes ∨
        rows.strideBytes.toNat % op.sourceDtype.bytes ≠ 0 then
      .err "initialization source rows"
    else
      okOr ((checkedMul u64Max (op.bytes.toNat / rows.rowBytes.toNat - 1) rows.strideBytes.toNat).bind
        fun x => checkedAdd u64Max x rows.rowBytes.toNat) "initialization row span overflow"

/-- The checks of a slice against its parameter. -/
def validateSlice (op : Instruction) (p : Parameter) : Outcome String Unit :=
  if op.sourceDtype ≠ p.dtype ∧ ¬(op.sourceDtype = .bf16 ∧ p.dtype = .f32) then
    .err "unsupported initialization conversion"
  else do
    let bytes ← p.bytes
    let elements := bytes / p.dtype.bytes
    let span ← op.span
    if checkedMul u64Max elements op.sourceDtype.bytes ≠ some op.bytes.toNat ∨
        (checkedAdd u64Max op.offset.toNat span).all (· > i64Max) then
      .err "initialization source range"
    else .ok ()

/-- The characters that a shard's name may not have: both slashes, the colon, and NUL. -/
def separators : List Char := nul :: "/\\:".toList

/-- The loop over the instructions, with the parameters produced. -/
def validateInstructions (parameters : List Parameter) : List UInt32 → List Instruction → Outcome String Unit
  | _, [] => .ok ()
  | produced, op :: ops =>
    match parameters[op.destination.toNat]? with
    | none => .err "unknown initialization destination"
    | some p =>
      if op.destination ∈ produced then .err "duplicate initialization producer"
      else if op.shard = "" ∨ (utf8 op.shard).length > 4096 ∨ op.shard = "." ∨ op.shard = ".." ∨
          op.shard.toList.any (· ∈ separators) then
        .err "initialization shard path"
      else do
        validateSlice op p
        validateInstructions parameters (op.destination :: produced) ops

def InitializationPlan.validate (plan : InitializationPlan) : Outcome String Unit :=
  if plan.parameters = [] ∨ plan.parameters.length > 100000 ∨ plan.instructions.length ≠ plan.parameters.length then
    .err "initialization parameter/instruction count"
  else if (utf8 plan.checkpointMetadataSha256).length ≠ 64 ∨ ¬(utf8 plan.checkpointMetadataSha256).all isHexdigit then
    .err "initialization provenance"
  else do
    validateParameters 0 [] 0 plan.parameters
    validateInstructions plan.parameters [] plan.instructions

/-! ## Encoding -/

/-- `to_le_bytes` of a `u64`. -/
def u64Bytes (n : UInt64) : List UInt8 := leBytes 8 n.toNat

def stringBytes (s : String) : List UInt8 := u32Bytes (utf8 s).length ++ utf8 s

/-- `IFINIT01` -/
def magic : List UInt8 := [0x49, 0x46, 0x49, 0x4e, 0x49, 0x54, 0x30, 0x31]

def Parameter.encoded (p : Parameter) : List UInt8 :=
  u32Bytes p.id.toNat ++ (stringBytes p.name ++ (u32Bytes p.dtype.code ++
    (u32Bytes p.shape.length ++ p.shape.flatMap u64Bytes)))

def rowsBytes : Option SourceRows → List UInt8
  | none => []
  | some rows => u64Bytes rows.rowBytes ++ u64Bytes rows.strideBytes

def Instruction.encoded (op : Instruction) : List UInt8 :=
  u32Bytes (if op.sourceRows.isSome then 2 else 1) ++ (u32Bytes op.destination.toNat ++ (stringBytes op.shard ++
    (u64Bytes op.offset ++ (u64Bytes op.bytes ++ (u32Bytes op.sourceDtype.code ++ rowsBytes op.sourceRows)))))

/-- The bytes of a plan, valid or not. -/
def InitializationPlan.encoded (plan : InitializationPlan) : List UInt8 :=
  magic ++ (u32Bytes plan.rank.toNat ++ (u32Bytes plan.device.toNat ++ (stringBytes plan.checkpointMetadataSha256 ++
    (u32Bytes plan.parameters.length ++ (plan.parameters.flatMap Parameter.encoded ++
      (u32Bytes plan.instructions.length ++ plan.instructions.flatMap Instruction.encoded))))))

def encode (plan : InitializationPlan) : Outcome String (List UInt8) := do
  plan.validate
  .ok plan.encoded

end Inferfabric.Ir.Initialization
