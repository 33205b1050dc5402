-- SUMMARY: Initialization plans on the native side: parameters, slices of checkpoint files, and what validation guarantees.
import IronPangu.Lib.Loop

open Rust

/-!
# Initialization plans

A plan says which bytes of which checkpoint file become which parameter. `validate`
checks the plan by itself, before any file is opened; what it guarantees of a slice
is collected in `SliceOf`.
-/

namespace Inferfabric.Native.Initialization

/-! ## Numbers and strings -/

/-- The bytes of a `std::string` or of a file. -/
abbrev Bytes : Type := List UInt8

/-- `INT64_MAX` -/
def int64Max : Nat := 9223372036854775807

/-- Why a call has not come back: it threw, or it is still running. -/
inductive Stop where
  | thrown (message : String)
  | running
  deriving DecidableEq, Repr

def fail {α : Type} (message : String) : Outcome Stop α := .err (.thrown message)

@[simp] theorem fail_ne_ok {α : Type} {message : String} {a : α} : fail message ≠ .ok a := nofun

def add (a b : Nat) : Outcome Stop Nat :=
  if a > u64Max - b then fail "initialization size overflow" else .ok (a + b)

/-- A byte of an ASCII character. -/
def ascii (c : Char) : UInt8 := c.toNat.toUInt8

def validString (s : Bytes) : Bool := s ≠ [] && s.length ≤ 4096 && !s.contains 0

def hexDigit (c : UInt8) : Bool :=
  (ascii '0' ≤ c && c ≤ ascii '9') || (ascii 'a' ≤ c && c ≤ ascii 'f') || (ascii 'A' ≤ c && c ≤ ascii 'F')

/-! ## Parameters -/

/-- An enumeration of 32 bits, which may hold a number that no enumerator has. -/
inductive DType where
  | i8
  | bf16
  | f32
  | other (code : Nat)
  deriving DecidableEq, Repr

def elementBytes : DType → Outcome Stop Nat
  | .i8 => .ok 1
  | .bf16 => .ok 2
  | .f32 => .ok 4
  | .other _ => fail "unsupported initialization dtype"

structure Parameter where
  id : Nat
  name : Bytes
  dtype : DType
  shape : List Int
  deriving DecidableEq, Repr

/-- The loop over the dimensions. -/
def multiply : Nat → List Int → Outcome Stop Nat
  | bytes, [] => .ok bytes
  | bytes, dimension :: shape =>
    if dimension ≤ 0 ∨ dimension.toNat > u64Max / bytes then fail "initialization shape overflow"
    else multiply (bytes * dimension.toNat) shape

def Parameter.bytes (p : Parameter) : Outcome Stop Nat :=
  if p.shape = [] ∨ p.shape.length > 8 then fail "initialization shape rank"
  else do
    let width ← elementBytes p.dtype
    multiply width p.shape

/-! ## Slices -/

structure LoadSlice where
  destination : Nat
  shard : Bytes
  offset : Nat
  bytes : Nat
  sourceDtype : DType
  /-- Bytes of a row and from row to row, or both zero for a contiguous slice. -/
  rowBytes : Nat
  strideBytes : Nat
  deriving DecidableEq, Repr

/-- The bytes of the file from the first to behind the last byte of the slice. -/
def LoadSlice.sourceSpan (op : LoadSlice) : Outcome Stop Nat :=
  if op.rowBytes = 0 then
    if op.strideBytes ≠ 0 then fail "initialization stride without rows" else .ok op.bytes
  else do
    let width ← elementBytes op.sourceDtype
    if op.bytes = 0 ∨ op.bytes % op.rowBytes ≠ 0 ∨ op.rowBytes % width ≠ 0 ∨ op.strideBytes < op.rowBytes ∨
        op.strideBytes % width ≠ 0 then
      fail "initialization source rows"
    else
      let count := op.bytes / op.rowBytes - 1
      if count > u64Max / op.strideBytes then fail "initialization row span overflow"
      else add (count * op.strideBytes) op.rowBytes

structure Plan where
  rank : Nat
  device : Nat
  checkpointMetadataSha256 : Bytes
  parameters : List Parameter
  instructions : List LoadSlice
  deriving DecidableEq, Repr

/-! ## Validation -/

/-- The loop over the parameters, with the names seen and the bytes so far. -/
def validateParameters : Nat → List Bytes → Nat → List Parameter → Outcome Stop Unit
  | _, _, _, [] => .ok ()
  | i, names, total, p :: ps =>
    if p.id ≠ i ∨ validString p.name = false ∨ p.name ∈ names then fail "initialization parameter ID/name"
    else do
      let bytes ← p.bytes
      let total ← add total bytes
      validateParameters (i + 1) (p.name :: names) total ps

/-- The slice of a parameter. -/
def validateSlice (op : LoadSlice) (p : Parameter) : Outcome Stop Unit := do
  let width ← elementBytes op.sourceDtype
  if op.sourceDtype ≠ p.dtype ∧ ¬(op.sourceDtype = .bf16 ∧ p.dtype = .f32) then
    fail "unsupported initialization conversion"
  else do
    let bytes ← p.bytes
    let target ← elementBytes p.dtype
    let elements := bytes / target
    if elements > u64Max / width ∨ elements * width ≠ op.bytes then fail "initialization source range"
    else do
      let span ← op.sourceSpan
      let stop ← add op.offset span
      if stop > int64Max then fail "initialization source range" else .ok ()

/-- The loop over the slices, with the parameters that have one. -/
def validateInstructions (parameters : List Parameter) : List Nat → List LoadSlice → Outcome Stop Unit
  | _, [] => .ok ()
  | produced, op :: ops => do
    match parameters[op.destination]? with
    | none => fail "initialization destination/duplicate producer"
    | some p =>
      if op.destination ∈ produced then fail "initialization destination/duplicate producer"
      else if validString op.shard = false ∨ op.shard = [ascii '.'] ∨ op.shard = [ascii '.', ascii '.'] ∨
          (∃ c ∈ op.shard, c = ascii '/' ∨ c = ascii '\\' ∨ c = ascii ':') then
        fail "initialization shard path"
      else do
        validateSlice op p
        validateInstructions parameters (op.destination :: produced) ops

def Plan.validate (plan : Plan) : Outcome Stop Unit :=
  if plan.parameters = [] ∨ plan.parameters.length > 100000 ∨
      plan.instructions.length ≠ plan.parameters.length then
    fail "initialization count mismatch"
  else if plan.checkpointMetadataSha256.length ≠ 64 ∨ ¬plan.checkpointMetadataSha256.all hexDigit then
    fail "initialization provenance"
  else do
    validateParameters 0 [] 0 plan.parameters
    validateInstructions plan.parameters [] plan.instructions

/-! ## What validation guarantees -/

theorem add_eq_ok {a b c : Nat} : add a b = .ok c → a + b = c ∧ (b ≤ u64Max → c ≤ u64Max) := by
  intro h
  rw [add] at h
  split at h
  · cases h
  · rename_i hle
    obtain rfl := Outcome.ok.inj h
    exact ⟨rfl, fun hb => by omega⟩

theorem dvd_multiply {width bytes n : Nat} {shape : List Int} (hwidth : width ∣ bytes)
    (h : multiply bytes shape = .ok n) : width ∣ n := by
  induction shape generalizing bytes with
  | nil =>
    obtain rfl := Outcome.ok.inj h
    exact hwidth
  | cons dimension shape ih =>
    rw [multiply] at h
    split at h
    · cases h
    · exact ih (hwidth.mul_right _) h

theorem multiply_le {bytes n : Nat} {shape : List Int} (hbytes : bytes ≤ u64Max) (h : multiply bytes shape = .ok n) :
    n ≤ u64Max := by
  induction shape generalizing bytes with
  | nil =>
    obtain rfl := Outcome.ok.inj h
    exact hbytes
  | cons dimension shape ih =>
    rw [multiply] at h
    split at h
    · cases h
    · rename_i hdimension
      simp only [not_or, Nat.not_lt] at hdimension
      have hproduct : bytes * dimension.toNat ≤ u64Max :=
        (Nat.mul_le_mul_left bytes hdimension.2).trans (Nat.mul_div_le u64Max bytes)
      exact ih hproduct h

theorem elementBytes_le {dtype : DType} {width : Nat} (h : elementBytes dtype = .ok width) : 0 < width ∧ width ≤ 4 := by
  cases dtype <;> cases h <;> decide

theorem bytes_eq_ok {p : Parameter} {n : Nat} (h : p.bytes = .ok n) :
    n ≤ u64Max ∧ ∃ width, elementBytes p.dtype = .ok width ∧ width ∣ n := by
  rw [Parameter.bytes] at h
  split at h
  · cases h
  · obtain ⟨width, hwidth, h⟩ := Outcome.bind_eq_ok.mp h
    have hsmall : width ≤ u64Max := (elementBytes_le hwidth).2.trans (by decide)
    exact ⟨multiply_le hsmall h, width, hwidth, dvd_multiply (Nat.dvd_refl width) h⟩

/-- What holds of a validated slice. -/
structure SliceOf (op : LoadSlice) (p : Parameter) (span : Nat) : Prop where
  /-- The elements are kept, or widened from two bytes to four. -/
  bytes : (op.sourceDtype = p.dtype ∧ p.bytes = .ok op.bytes) ∨
    (op.sourceDtype = .bf16 ∧ p.dtype = .f32 ∧ p.bytes = .ok (op.bytes * 2) ∧ 2 ∣ op.bytes)
  spans : op.sourceSpan = .ok span
  contiguous : op.rowBytes = 0 → span = op.bytes
  rows : 0 < op.rowBytes → op.rowBytes ∣ op.bytes ∧ op.rowBytes ≤ op.strideBytes ∧ 0 < op.bytes ∧
    span = (op.bytes / op.rowBytes - 1) * op.strideBytes + op.rowBytes
  inFile : op.offset + span ≤ int64Max

theorem sourceSpan_eq_ok {op : LoadSlice} {span : Nat} (h : op.sourceSpan = .ok span) :
    (op.rowBytes = 0 → span = op.bytes) ∧
      (0 < op.rowBytes → op.rowBytes ∣ op.bytes ∧ op.rowBytes ≤ op.strideBytes ∧ 0 < op.bytes ∧
        span = (op.bytes / op.rowBytes - 1) * op.strideBytes + op.rowBytes) := by
  rw [LoadSlice.sourceSpan] at h
  split at h
  · rename_i hrows
    split at h
    · cases h
    · exact ⟨fun _ => (Outcome.ok.inj h).symm, fun hpos => absurd hrows hpos.ne'⟩
  · rename_i hrows
    obtain ⟨width, -, h⟩ := Outcome.bind_eq_ok.mp h
    split at h
    · cases h
    · rename_i hchecks
      simp only [not_or, not_not, Nat.not_lt] at hchecks
      dsimp only at h
      split at h
      · cases h
      · have hspan := (add_eq_ok h).1.symm
        exact ⟨fun hzero => absurd hzero hrows, fun _ =>
          ⟨Nat.dvd_of_mod_eq_zero hchecks.2.1, hchecks.2.2.2.1, Nat.pos_of_ne_zero hchecks.1, hspan⟩⟩

theorem validateSlice_eq_ok {op : LoadSlice} {p : Parameter} (h : validateSlice op p = .ok ()) :
    ∃ span, SliceOf op p span := by
  obtain ⟨width, hwidth, h⟩ := Outcome.bind_eq_ok.mp h
  split at h
  · cases h
  rename_i hconversion
  obtain ⟨bytes, hbytes, h⟩ := Outcome.bind_eq_ok.mp h
  obtain ⟨target, htarget, h⟩ := Outcome.bind_eq_ok.mp h
  dsimp only at h
  split at h
  · cases h
  rename_i helements
  simp only [not_or, not_not] at helements
  obtain ⟨span, hspan, h⟩ := Outcome.bind_eq_ok.mp h
  obtain ⟨stop, hstop, h⟩ := Outcome.bind_eq_ok.mp h
  split at h
  · cases h
  rename_i hinFile
  obtain ⟨hcontiguous, hrows⟩ := sourceSpan_eq_ok hspan
  have hdvd : target ∣ bytes := by
    obtain ⟨-, width', hwidth', hdvd⟩ := bytes_eq_ok hbytes
    exact Outcome.ok.inj (hwidth'.symm.trans htarget) ▸ hdvd
  refine ⟨span, ?_, hspan, hcontiguous, hrows, (add_eq_ok hstop).1 ▸ Nat.not_lt.mp hinFile⟩
  by_cases hsame : op.sourceDtype = p.dtype
  · -- The elements are as wide in the file as in the parameter.
    have hwidths : width = target := Outcome.ok.inj (hwidth.symm.trans (hsame ▸ htarget))
    have hequal : bytes = op.bytes := by rw [← helements.2, hwidths, Nat.div_mul_cancel hdvd]
    exact Or.inl ⟨hsame, hequal ▸ hbytes⟩
  · obtain ⟨hsource, htype⟩ : op.sourceDtype = .bf16 ∧ p.dtype = .f32 := by
      by_contra hother
      exact hconversion ⟨hsame, hother⟩
    obtain rfl : 2 = width := Outcome.ok.inj ((hsource ▸ hwidth : elementBytes .bf16 = .ok width))
    obtain rfl : 4 = target := Outcome.ok.inj ((htype ▸ htarget : elementBytes .f32 = .ok target))
    have hdouble : bytes = op.bytes * 2 := by
      rw [← helements.2, Nat.mul_assoc, Nat.div_mul_cancel hdvd]
    exact Or.inr ⟨hsource, htype, hdouble ▸ hbytes, helements.2 ▸ Nat.dvd_mul_left 2 _⟩

/-- The parameters of a validated plan, and the slices that fill them. -/
structure Plan.Valid (plan : Plan) : Prop where
  counts : plan.instructions.length = plan.parameters.length
  sizes : ∃ sizes, List.Forall₂ (fun p n => p.bytes = .ok n) plan.parameters sizes ∧ sizes.sum ≤ u64Max
  distinct : (plan.instructions.map (·.destination)).Nodup
  slices : ∀ op ∈ plan.instructions, ∃ p span, plan.parameters[op.destination]? = some p ∧ SliceOf op p span

theorem validateParameters_eq_ok {i total : Nat} {names : List Bytes} {ps : List Parameter}
    (h : validateParameters i names total ps = .ok ()) (htotal : total ≤ u64Max) :
    ∃ sizes, List.Forall₂ (fun p n => p.bytes = .ok n) ps sizes ∧ total + sizes.sum ≤ u64Max := by
  induction ps generalizing i total names with
  | nil => exact ⟨[], List.Forall₂.nil, htotal⟩
  | cons p ps ih =>
    rw [validateParameters] at h
    split at h
    · cases h
    · obtain ⟨bytes, hbytes, h⟩ := Outcome.bind_eq_ok.mp h
      obtain ⟨total', htotal', h⟩ := Outcome.bind_eq_ok.mp h
      obtain ⟨rfl, hfits⟩ := add_eq_ok htotal'
      obtain ⟨sizes, hsizes, hsum⟩ := ih h (hfits (bytes_eq_ok hbytes).1)
      refine ⟨bytes :: sizes, List.Forall₂.cons hbytes hsizes, ?_⟩
      rwa [List.sum_cons, ← Nat.add_assoc]

theorem validateInstructions_eq_ok {parameters : List Parameter} {produced : List Nat} {ops : List LoadSlice}
    (h : validateInstructions parameters produced ops = .ok ()) :
    (∀ op ∈ ops, op.destination ∉ produced) ∧ (ops.map (·.destination)).Nodup ∧
      ∀ op ∈ ops, ∃ p span, parameters[op.destination]? = some p ∧ SliceOf op p span := by
  induction ops generalizing produced with
  | nil => exact ⟨nofun, List.nodup_nil, nofun⟩
  | cons op ops ih =>
    rw [validateInstructions] at h
    cases hp : parameters[op.destination]? with
    | none =>
      rw [hp] at h
      cases h
    | some p =>
      rw [hp] at h
      dsimp only at h
      split at h
      · cases h
      rename_i hnew
      split at h
      · cases h
      obtain ⟨⟨⟩, hslice, h⟩ := Outcome.bind_eq_ok.mp h
      obtain ⟨hothers, hnodup, hslices⟩ := ih h
      obtain ⟨span, hspan⟩ := validateSlice_eq_ok hslice
      have hrest : ∀ other ∈ ops, other.destination ∉ produced :=
        fun other hother hmem => hothers other hother (List.mem_cons_of_mem _ hmem)
      refine ⟨List.forall_mem_cons.mpr ⟨hnew, hrest⟩, ?_, List.forall_mem_cons.mpr ⟨⟨p, span, hp, hspan⟩, hslices⟩⟩
      · rw [List.map_cons, List.nodup_cons]
        refine ⟨?_, hnodup⟩
        intro hmem
        obtain ⟨other, hother, heq⟩ := List.mem_map.mp hmem
        exact hothers other hother (heq ▸ List.mem_cons_self)

theorem valid_of_validate {plan : Plan} (h : plan.validate = .ok ()) : plan.Valid := by
  rw [Plan.validate] at h
  split at h
  · cases h
  rename_i hcounts
  simp only [not_or, not_not] at hcounts
  split at h
  · cases h
  obtain ⟨⟨⟩, hparameters, h⟩ := Outcome.bind_eq_ok.mp h
  obtain ⟨-, hdistinct, hslices⟩ := validateInstructions_eq_ok h
  obtain ⟨sizes, hsizes, hsum⟩ := validateParameters_eq_ok hparameters (Nat.zero_le _)
  exact ⟨hcounts.2.2, ⟨sizes, hsizes, Nat.zero_add sizes.sum ▸ hsum⟩, hdistinct, hslices⟩

end Inferfabric.Native.Initialization
