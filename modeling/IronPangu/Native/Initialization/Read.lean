-- SUMMARY: Reading initialization plans from files: what the compiler writes is read back, accepted exactly when it is valid, and cannot be cut short.
import IronPangu.Ir.Initialization
import IronPangu.Native.Initialization

open Rust Method Decoding Utf8 Inferfabric.Ir.Initialization

/-!
# Reading initialization plans

The native reader checks counts and strings while it reads, and then validates the plan
it has read. The compiler's validation makes the same checks in another order and with
other arithmetic; both accept the same plans.
-/

namespace Inferfabric.Native.Initialization

abbrev Reader (α : Type) : Type := Decoder Stop α

def u32 : Reader Nat := number (.thrown "truncated initialization plan") 4

def u64 : Reader Nat := number (.thrown "truncated initialization plan") 8

/-- So many bytes of a string. -/
def readBytes (n : Nat) : Reader Bytes := times (byte (.thrown "invalid initialization string")) n

def string : Reader Bytes := do
  let n ← u32
  check (¬(n = 0 ∨ n > 4096)) (.thrown "initialization string bound")
  let result ← readBytes n
  check (0 ∉ result) (.thrown "invalid initialization string")
  Pure.pure result

/-- `static_cast<DType>` -/
def DType.ofCode (code : Nat) : DType :=
  if code = 1 then .i8 else if code = 2 then .bf16 else if code = 3 then .f32 else .other code

def dimension : Reader Int := do
  let value ← u64
  check (value ≤ int64Max) (.thrown "initialization dimension overflow")
  Pure.pure value

def readParameter : Reader Parameter := do
  let id ← u32
  let name ← string
  let code ← u32
  let dimensions ← u32
  check (¬(dimensions = 0 ∨ dimensions > 8)) (.thrown "initialization shape rank")
  let shape ← times dimension dimensions
  Pure.pure { id, name, dtype := .ofCode code, shape }

/-- The row and the stride of a slice of rows. -/
def readRows : Reader (Nat × Nat) := do
  let rowBytes ← u64
  let strideBytes ← u64
  check (rowBytes ≠ 0) (.thrown "zero initialization row size")
  Pure.pure (rowBytes, strideBytes)

def readRowsFor (opcode : Nat) : Reader (Nat × Nat) := if opcode = 2 then readRows else Pure.pure (0, 0)

def readInstruction : Reader LoadSlice := do
  let opcode ← u32
  check (opcode = 1 ∨ opcode = 2) (.thrown "unsupported initialization opcode")
  let destination ← u32
  let shard ← string
  let offset ← u64
  let bytes ← u64
  let code ← u32
  let rows ← readRowsFor opcode
  Pure.pure { destination, shard, offset, bytes, sourceDtype := .ofCode code, rowBytes := rows.1, strideBytes := rows.2 }

/-- The first eight bytes. -/
def readMagic : Reader Unit := do
  let found ← times (byte (.thrown "unsupported initialization plan version")) 8
  check (found = Ir.Initialization.magic) (.thrown "unsupported initialization plan version")

def readPlan : Reader Plan := do
  readMagic
  let rank ← u32
  let device ← u32
  let checkpointMetadataSha256 ← string
  let count ← u32
  check (¬(count = 0 ∨ count > 100000)) (.thrown "initialization parameter count")
  let parameters ← times readParameter count
  let instructionCount ← u32
  check (instructionCount = count) (.thrown "initialization instruction count")
  let instructions ← times readInstruction count
  Pure.pure { rank, device, checkpointMetadataSha256, parameters, instructions }

/-- `Plan::read`, of the bytes of a file. -/
def Plan.read (input : Bytes) : Outcome Stop Plan :=
  match readPlan input with
  | (.ok p, []) => do
    p.validate
    .ok p
  | (.ok _, _ :: _) => fail "trailing initialization data"
  | (.err e, _) => .err e
  | (.panic, _) => .panic

/-! ## The same plan on both sides -/

def nativeDType : Ir.Initialization.DType → DType
  | .i8 => .i8
  | .bf16 => .bf16
  | .f32 => .f32

def nativeParameter (p : Ir.Initialization.Parameter) : Parameter where
  id := p.id.toNat
  name := utf8 p.name
  dtype := nativeDType p.dtype
  shape := p.shape.map fun d => (d.toNat : Int)

def nativeRows : Option SourceRows → Nat × Nat
  | none => (0, 0)
  | some rows => (rows.rowBytes.toNat, rows.strideBytes.toNat)

def nativeSlice (op : Instruction) : LoadSlice where
  destination := op.destination.toNat
  shard := utf8 op.shard
  offset := op.offset.toNat
  bytes := op.bytes.toNat
  sourceDtype := nativeDType op.sourceDtype
  rowBytes := (nativeRows op.sourceRows).1
  strideBytes := (nativeRows op.sourceRows).2

/-- The native form of a plan: the same numbers and strings in the same order. -/
def nativePlan (plan : InitializationPlan) : Plan where
  rank := plan.rank.toNat
  device := plan.device.toNat
  checkpointMetadataSha256 := utf8 plan.checkpointMetadataSha256
  parameters := plan.parameters.map nativeParameter
  instructions := plan.instructions.map nativeSlice

/-- The counts and the lengths of the strings fit in 32 bits. -/
structure Fits (plan : InitializationPlan) : Prop where
  sha : (utf8 plan.checkpointMetadataSha256).length < 4294967296
  parameters : plan.parameters.length < 4294967296
  instructions : plan.instructions.length < 4294967296
  names : ∀ p ∈ plan.parameters, (utf8 p.name).length < 4294967296 ∧ p.shape.length < 4294967296
  shards : ∀ op ∈ plan.instructions, (utf8 op.shard).length < 4294967296

/-- What the reader asks of a parameter before it validates the plan. -/
def ReadableParameter (p : Ir.Initialization.Parameter) : Prop :=
  validString (utf8 p.name) ∧ p.shape ≠ [] ∧ p.shape.length ≤ 8 ∧ ∀ d ∈ p.shape, d.toNat ≤ int64Max

def ReadableInstruction (op : Instruction) : Prop :=
  validString (utf8 op.shard) ∧ ∀ rows, op.sourceRows = some rows → rows.rowBytes ≠ 0

structure Readable (plan : InitializationPlan) : Prop where
  sha : validString (utf8 plan.checkpointMetadataSha256)
  some : plan.parameters ≠ []
  few : plan.parameters.length ≤ 100000
  counts : plan.instructions.length = plan.parameters.length
  parameters : ∀ p ∈ plan.parameters, ReadableParameter p
  instructions : ∀ op ∈ plan.instructions, ReadableInstruction op

variable {plan : InitializationPlan}

theorem reads_u32 {n : Nat} (hn : n < 4294967296) : Reads u32 (u32Bytes n) True n := reads_u32Bytes hn

theorem reads_u64 (n : UInt64) : Reads u64 (u64Bytes n) True n.toNat := reads_number n.toNat_lt

theorem reads_readBytes (bs : Bytes) : Reads (readBytes bs.length) bs True bs := by
  have h : Reads (readBytes bs.length) (bs.flatMap fun c => [c]) (∀ c ∈ bs, True) (bs.map id) :=
    reads_times fun c _ => reads_byte
  rw [List.flatMap_singleton', List.map_id] at h
  exact h.congr (by simp)

theorem reads_string {s : String} (hs : (utf8 s).length < 4294967296) :
    Reads string (stringBytes s) (validString (utf8 s)) (utf8 s) := by
  have hvalid : (True ∧ ¬((utf8 s).length = 0 ∨ (utf8 s).length > 4096) ∧ True ∧ 0 ∉ utf8 s ∧ True) ↔
      validString (utf8 s) = true := by
    simp [validString]
  refine Reads.congr ?_ hvalid
  refine (reads_u32 hs).bind fun _ => ?_
  refine Reads.afterCheck fun _ => ?_
  refine (reads_readBytes (utf8 s)).last fun _ => ?_
  refine Reads.afterCheck fun _ => ?_
  exact reads_pure

theorem reads_dimension (d : UInt64) : Reads dimension (u64Bytes d) (d.toNat ≤ int64Max) (d.toNat : Int) := by
  refine Reads.congr ?_ (by simp : (True ∧ d.toNat ≤ int64Max ∧ True) ↔ d.toNat ≤ int64Max)
  refine (reads_u64 d).last fun _ => ?_
  refine Reads.afterCheck fun _ => ?_
  exact reads_pure

theorem ofCode_code (d : Ir.Initialization.DType) : DType.ofCode d.code = nativeDType d := by
  cases d <;> rfl

theorem code_lt (d : Ir.Initialization.DType) : d.code < 4294967296 := by
  cases d <;> decide

theorem reads_parameter {p : Ir.Initialization.Parameter} (hname : (utf8 p.name).length < 4294967296)
    (hshape : p.shape.length < 4294967296) : Reads readParameter p.encoded (ReadableParameter p) (nativeParameter p) := by
  have hreadable : (True ∧ validString (utf8 p.name) ∧ True ∧ True ∧ ¬(p.shape.length = 0 ∨ p.shape.length > 8) ∧
      (∀ d ∈ p.shape, d.toNat ≤ int64Max) ∧ True) ↔ ReadableParameter p := by
    simp [ReadableParameter]
    tauto
  refine Reads.congr ?_ hreadable
  refine (reads_u32 p.id.toNat_lt).bind fun _ => ?_
  refine (reads_string hname).bind fun _ => ?_
  refine (reads_u32 (code_lt p.dtype)).bind fun _ => ?_
  refine (reads_u32 hshape).bind fun _ => ?_
  refine Reads.afterCheck fun _ => ?_
  refine (reads_times fun d _ => reads_dimension d).last fun _ => ?_
  rw [ofCode_code]
  exact reads_pure

theorem reads_rowsFor (op : Instruction) : Reads (readRowsFor (if op.sourceRows.isSome then 2 else 1)) (rowsBytes op.sourceRows)
    (∀ rows, op.sourceRows = some rows → rows.rowBytes ≠ 0) (nativeRows op.sourceRows) := by
  cases op.sourceRows with
  | none => exact reads_pure.congr (by simp)
  | some rows =>
    have hnonzero : (True ∧ True ∧ rows.rowBytes.toNat ≠ 0 ∧ True) ↔ ∀ r, some rows = some r → r.rowBytes ≠ 0 := by
      simp [← UInt64.toNat_inj]
    refine Reads.congr ?_ hnonzero
    refine (reads_u64 rows.rowBytes).bind fun _ => ?_
    refine (reads_u64 rows.strideBytes).last fun _ => ?_
    refine Reads.afterCheck fun _ => ?_
    exact reads_pure

theorem reads_instruction {op : Instruction} (hshard : (utf8 op.shard).length < 4294967296) :
    Reads readInstruction op.encoded (ReadableInstruction op) (nativeSlice op) := by
  have hopcode : (if op.sourceRows.isSome then 2 else 1) < 4294967296 := by
    split <;> decide
  have hknown : (if op.sourceRows.isSome then 2 else 1) = 1 ∨ (if op.sourceRows.isSome then 2 else 1) = 2 := by
    split <;> simp
  have hreadable : (True ∧ ((if op.sourceRows.isSome then 2 else 1) = 1 ∨ (if op.sourceRows.isSome then 2 else 1) = 2) ∧ True ∧
      validString (utf8 op.shard) ∧ True ∧ True ∧ True ∧ (∀ rows, op.sourceRows = some rows → rows.rowBytes ≠ 0) ∧ True) ↔
      ReadableInstruction op := by
    simp only [hknown, true_and, and_true]
    rfl
  refine Reads.congr ?_ hreadable
  refine (reads_u32 hopcode).bind fun _ => ?_
  refine Reads.afterCheck fun _ => ?_
  refine (reads_u32 op.destination.toNat_lt).bind fun _ => ?_
  refine (reads_string hshard).bind fun _ => ?_
  refine (reads_u64 op.offset).bind fun _ => ?_
  refine (reads_u64 op.bytes).bind fun _ => ?_
  refine (reads_u32 (code_lt op.sourceDtype)).bind fun _ => ?_
  refine (reads_rowsFor op).last fun _ => ?_
  rw [ofCode_code]
  exact reads_pure

theorem reads_magic : Reads readMagic magic True () := by
  have hmagic : Reads (times (byte (Stop.thrown "unsupported initialization plan version")) magic.length)
      (magic.flatMap fun c => [c]) (∀ c ∈ magic, True) (magic.map id) := reads_times fun c _ => reads_byte
  rw [List.flatMap_singleton', List.map_id] at hmagic
  refine Reads.congr (hmagic.last fun _ => ?_) (by simp : ((∀ c ∈ magic, True) ∧ magic = magic) ↔ True)
  exact reads_check

/-- The bytes of a plan are read as its native form, exactly when it is readable. -/
theorem reads_plan (h : Fits plan) : Reads readPlan plan.encoded (Readable plan) (nativePlan plan) := by
  have hreadable : (True ∧ True ∧ True ∧ validString (utf8 plan.checkpointMetadataSha256) ∧ True ∧
      ¬(plan.parameters.length = 0 ∨ plan.parameters.length > 100000) ∧ (∀ p ∈ plan.parameters, ReadableParameter p) ∧ True ∧
      plan.instructions.length = plan.parameters.length ∧ (∀ op ∈ plan.instructions, ReadableInstruction op) ∧ True) ↔
      Readable plan := by
    constructor
    · rintro ⟨-, -, -, hsha, -, hcount, hparameters, -, hcounts, hinstructions, -⟩
      simp only [not_or, Nat.not_lt, List.length_eq_zero_iff] at hcount
      exact ⟨hsha, hcount.1, hcount.2, hcounts, hparameters, hinstructions⟩
    · intro h
      refine ⟨trivial, trivial, trivial, h.sha, trivial, ?_, h.parameters, trivial, h.counts, h.instructions, trivial⟩
      simp only [not_or, Nat.not_lt, List.length_eq_zero_iff]
      exact ⟨h.some, h.few⟩
  refine Reads.congr ?_ hreadable
  refine reads_magic.bind fun _ => ?_
  refine (reads_u32 plan.rank.toNat_lt).bind fun _ => ?_
  refine (reads_u32 plan.device.toNat_lt).bind fun _ => ?_
  refine (reads_string h.sha).bind fun _ => ?_
  refine (reads_u32 h.parameters).bind fun _ => ?_
  refine Reads.afterCheck fun _ => ?_
  refine (reads_times fun p hp => reads_parameter (h.names p hp).1 (h.names p hp).2).bind fun _ => ?_
  refine (reads_u32 h.instructions).bind fun _ => ?_
  refine Reads.afterCheck fun hcounts => ?_
  rw [← hcounts]
  refine (reads_times fun op hop => reads_instruction (h.shards op hop)).last fun _ => ?_
  exact reads_pure

/-! ## Frames -/

theorem framed_u32 : Framed u32 := framed_number 4

theorem framed_u64 : Framed u64 := framed_number 8

theorem framed_string : Framed string := by
  refine framed_u32.bind fun n => ?_
  refine framed_check.bind fun _ => ?_
  refine (framed_times framed_byte n).bind fun _ => ?_
  exact framed_check.bind fun _ => framed_pure

theorem framed_dimension : Framed dimension := by
  refine framed_u64.bind fun _ => ?_
  exact framed_check.bind fun _ => framed_pure

theorem framed_readParameter : Framed readParameter := by
  refine framed_u32.bind fun _ => ?_
  refine framed_string.bind fun _ => ?_
  refine framed_u32.bind fun _ => ?_
  refine framed_u32.bind fun dimensions => ?_
  refine framed_check.bind fun _ => ?_
  exact (framed_times framed_dimension dimensions).bind fun _ => framed_pure

theorem framed_readRowsFor (opcode : Nat) : Framed (readRowsFor opcode) := by
  rw [readRowsFor]
  split
  · refine framed_u64.bind fun _ => ?_
    refine framed_u64.bind fun _ => ?_
    exact framed_check.bind fun _ => framed_pure
  · exact framed_pure

theorem framed_readInstruction : Framed readInstruction := by
  refine framed_u32.bind fun opcode => ?_
  refine framed_check.bind fun _ => ?_
  refine framed_u32.bind fun _ => ?_
  refine framed_string.bind fun _ => ?_
  refine framed_u64.bind fun _ => ?_
  refine framed_u64.bind fun _ => ?_
  refine framed_u32.bind fun _ => ?_
  exact (framed_readRowsFor opcode).bind fun _ => framed_pure

/-- A plan cannot be cut short. -/
theorem framed_readPlan : Framed readPlan := by
  have hmagic : Framed readMagic := (framed_times framed_byte 8).bind fun _ => framed_check
  refine hmagic.bind fun _ => ?_
  refine framed_u32.bind fun _ => ?_
  refine framed_u32.bind fun _ => ?_
  refine framed_string.bind fun _ => ?_
  refine framed_u32.bind fun count => ?_
  refine framed_check.bind fun _ => ?_
  refine (framed_times framed_readParameter count).bind fun _ => ?_
  refine framed_u32.bind fun _ => ?_
  refine framed_check.bind fun _ => ?_
  exact (framed_times framed_readInstruction count).bind fun _ => framed_pure

end Inferfabric.Native.Initialization
