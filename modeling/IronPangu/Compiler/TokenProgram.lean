-- SUMMARY: Token programs as the compiler validates and encodes them for the native executor.
import IronPangu.Compiler.RowSuffix
import IronPangu.Lib.Decoder
import IronPangu.Lib.Utf8

open Rust Std Outcome Decoding Utf8

/-!
# Token programs

A program is a list of instructions over earlier values, and the settings of the sessions
that run it. It is validated, and then written as a string of bytes: the version in its
first bytes says which settings the header has.
-/

namespace Inferfabric.Compiler.TokenProgram

structure Instruction where
  logicalNode : Nat
  name : String
  op : String
  inputs : List Nat
  attrs : ExtTreeMap String String
  kind : Nat
  width : Nat
  dtype : String
  kernel : String

structure Program where
  format : String
  maxContext : Nat
  /-- Resident histories, independent of the one-token invocation batch size. -/
  residentSequences : Nat
  prefillTokens : Nat
  /-- A bounded variable-query launch envelope. -/
  uncapturedPrefill : Bool
  bulkCollectiveDomain : Bool
  /-- Explicit exact shapes. Empty preserves the legacy single-size contract. -/
  prefillVariants : List Nat
  sharedPages : Bool
  eos : Nat
  output : Nat
  outputRows : Option Rows.OutputRows
  instructions : List Instruction

/-- What the planner of output rows reads of an instruction. -/
def Instruction.rows (i : Instruction) : Rows.Instruction := ⟨i.op, i.inputs, i.attrs, i.kind, i.width⟩

/-! ## Versions -/

/-- The version of the format, in its name and in the magic. -/
def Program.version (p : Program) : Nat :=
  if p.bulkCollectiveDomain then 9
  else if p.outputRows.isSome then 8
  else if p.uncapturedPrefill then 7
  else if p.prefillVariants ≠ [] then 6
  else if p.sharedPages then 5
  else if p.prefillTokens > 1 then 4
  else if p.residentSequences = 1 then 2
  else 3

def formatName (version : Nat) : String := "inferfabric.token-program.v" ++ version.repr

def Program.prefillCounts (p : Program) : List Nat :=
  if p.prefillVariants ≠ [] then p.prefillVariants
  else if p.prefillTokens > 1 then [p.prefillTokens]
  else []

/-! ## Validation -/

def Program.checkOutputRows (p : Program) : Outcome String Unit :=
  match p.outputRows with
  | none => .ok ()
  | some rows =>
    if p.uncapturedPrefill = false then .err "output row plan does not match the proven suffix"
    else do
      let found ← Rows.plan (p.instructions.map Instruction.rows) p.output
      if found ≠ some rows then .err "output row plan does not match the proven suffix" else .ok ()

def quantizedAppend (i : Instruction) : Bool := i.op == "cache_quantize_append"

def Program.badVariants (p : Program) : Bool :=
  p.prefillVariants.length > 5 || p.prefillVariants.any (fun n => !([2, 4, 8, 16, 32].contains n)) ||
    (p.prefillVariants.zip p.prefillVariants.tail).any (fun v => v.1 ≥ v.2) ||
    p.prefillVariants.getLast?.any (· ≠ p.prefillTokens)

def Program.badBounds (p : Program) : Bool :=
  p.format ≠ formatName p.version ||
    (!p.uncapturedPrefill && !([1, 2, 4, 8, 16, 32].contains p.prefillTokens)) ||
    p.prefillTokens > p.maxContext ||
    ((p.prefillTokens > 1 || p.sharedPages) && p.instructions.any quantizedAppend) ||
    p.residentSequences = 0 || p.residentSequences > 64 ||
    (p.residentSequences > 1 && p.instructions.any quantizedAppend) ||
    p.instructions.isEmpty ||
    p.instructions.length > 10000 ||
    p.output ≥ p.instructions.length ||
    p.maxContext = 0 ||
    p.maxContext > 65536 ||
    (p.maxContext > 512 && p.instructions.any fun i => quantizedAppend i || i.op == "packed_latent_attention")

/-- The operations that take one query row at a time. -/
def unbatchedOps : List String :=
  ["mome", "query_project", "query_rotary_extract", "rope", "rope_f32", "mla_query", "mla_value", "repeat", "gather"]

def Program.unbatched (p : Program) (i : Instruction) : Bool :=
  p.uncapturedPrefill && (unbatchedOps.contains i.op ||
    i.op == "sparse_index" && (i.inputs.head?.bind fun input => p.instructions[input]?).all (·.kind ≠ 5))

/-- The width of a whole dequantized cache. -/
def dequantizedWidth (maxContext : Nat) : Nat := (maxContext + 15) / 16 * 16 * 576

def Program.badInstruction (p : Program) (id : Nat) (names : List String) (i : Instruction) : Bool :=
  i.kind > 9 ||
    (i.width > 200000 && !(i.op == "cache_dequantize" && i.width == dequantizedWidth p.maxContext)) ||
    i.inputs.length > 8 ||
    i.attrs.size > 16 ||
    names.contains i.name ||
    i.inputs.any (· ≥ id) ||
    (i.kind = 0 && !(["bf16", "f16", "f32"].contains i.dtype)) ||
    (i.kind ≠ 0 && i.dtype ≠ "opaque")

def Instruction.strings (i : Instruction) : List String :=
  [i.name, i.op, i.dtype, i.kernel] ++ i.attrs.toList.map Prod.fst ++ i.attrs.toList.map Prod.snd

def badString (s : String) : Bool := s = "" || (utf8 s).length > 1024 || s.toList.contains nul

def Program.checkCast (p : Program) (i : Instruction) : Outcome String Unit :=
  if i.op ≠ "cast" then .ok ()
  else if i.inputs.length ≠ 1 ∨ i.attrs["dtype"]? ≠ some i.dtype then .err "physical cast contract"
  else do
    let input ← Outcome.unwrap i.inputs[0]?
    let source ← Outcome.unwrap p.instructions[input]?
    if source.kind ≠ 0 ∨ source.dtype = i.dtype ∨ source.width ≠ i.width then .err "physical cast contract" else .ok ()

/-- The loop over the instructions, with the names seen. -/
def Program.checkInstructions (p : Program) : Nat → List String → List Instruction → Outcome String Unit
  | _, _, [] => .ok ()
  | id, names, i :: is =>
    if p.unbatched i then .err ("uncaptured prefill has no batched lowering for " ++ i.op)
    else if p.badInstruction id names i then .err "physical instruction contract"
    else if i.strings.any badString then .err "physical instruction string"
    else do
      p.checkCast i
      p.checkInstructions (id + 1) (i.name :: names) is

def Program.validate (p : Program) : Outcome String Unit :=
  if p.bulkCollectiveDomain ∧ p.uncapturedPrefill = false then .err "bulk collective domain requires uncaptured prefill"
  else do
    p.checkOutputRows
    if p.uncapturedPrefill ∧ (p.prefillTokens ≠ 4096 ∨ p.prefillVariants ≠ []) then
      .err "uncaptured prefill requires a 4096-token envelope without captured variants"
    else if p.badVariants then .err "invalid exact prefill variant family"
    else if p.badBounds then .err "physical program bounds"
    else p.checkInstructions 0 [] p.instructions

/-! ## Encoding -/

/-- A number, cast to 32 bits. -/
def num (n : Nat) : List UInt8 := u32Bytes n

def text (s : String) : List UInt8 := num (utf8 s).length ++ utf8 s

/-- `IFTOKN0` and the digit of a version. -/
def magic (version : Nat) : List UInt8 := [0x49, 0x46, 0x54, 0x4f, 0x4b, 0x4e, 0x30, UInt8.ofNat (0x30 + version)]

def Instruction.encoded (i : Instruction) : List UInt8 :=
  num i.kind ++ (num i.width ++ (text i.name ++ (text i.op ++ (num i.inputs.length ++ (i.inputs.flatMap num ++
    (num i.attrs.toList.length ++ (i.attrs.toList.flatMap (fun kv => text kv.1 ++ text kv.2) ++
      (text i.dtype ++ (text i.kernel ++ num i.logicalNode)))))))))

def Program.encodedResidents (p : Program) : List UInt8 :=
  if p.residentSequences ≠ 1 ∨ p.prefillTokens > 1 ∨ p.sharedPages then num p.residentSequences else []

def Program.encodedPrefill (p : Program) : List UInt8 :=
  if p.prefillTokens > 1 ∨ p.sharedPages then num p.prefillTokens else []

def Program.encodedFamily (p : Program) : List UInt8 :=
  if p.uncapturedPrefill then num p.sharedPages.toNat
  else if p.prefillVariants ≠ [] then
    num p.sharedPages.toNat ++ (num p.prefillVariants.length ++ p.prefillVariants.flatMap num)
  else []

def Program.encodedBulk (p : Program) : List UInt8 :=
  if p.bulkCollectiveDomain then num p.outputRows.isSome.toNat else []

def encodedRows : Option Rows.OutputRows → List UInt8
  | none => []
  | some rows => num rows.source ++ (num rows.sourceWidth ++ (num rows.first ++ num rows.last))

/-- The bytes of a program, valid or not. -/
def Program.encoded (p : Program) : List UInt8 :=
  magic p.version ++ (num p.maxContext ++ (num p.eos ++ (num p.output ++ (num p.instructions.length ++
    (p.encodedResidents ++ (p.encodedPrefill ++ (p.encodedFamily ++ (p.encodedBulk ++ (encodedRows p.outputRows ++
      p.instructions.flatMap Instruction.encoded)))))))))

def Program.encode (p : Program) : Outcome String (List UInt8) := do
  p.validate
  if p.instructions.any (·.kernel == "unbound") then .err "cannot execute unbound kernel selection"
  else .ok p.encoded

/-! ## What validation guarantees -/

/-- The numbers of an instruction fit in 32 bits, its logical node apart, and its strings are short. -/
structure Instruction.Bounded (i : Instruction) : Prop where
  kind : i.kind ≤ 9
  width : i.width < 4294967296
  inputs : i.inputs.length ≤ 8
  operands : ∀ j ∈ i.inputs, j < 10000
  attrs : i.attrs.toList.length ≤ 16
  strings : ∀ s ∈ i.strings, (utf8 s).length ≤ 1024

theorem Instruction.Bounded.entries {i : Instruction} (h : i.Bounded) :
    ∀ kv ∈ i.attrs.toList, (utf8 kv.1).length ≤ 1024 ∧ (utf8 kv.2).length ≤ 1024 := by
  intro kv hkv
  refine ⟨h.strings kv.1 ?_, h.strings kv.2 ?_⟩
  · exact List.mem_append_left _ (List.mem_append_right _ (List.mem_map_of_mem hkv))
  · exact List.mem_append_right _ (List.mem_map_of_mem hkv)

structure Program.Validated (p : Program) : Prop where
  bulk : p.bulkCollectiveDomain = true → p.uncapturedPrefill = true
  rows : ∀ r, p.outputRows = some r → p.uncapturedPrefill = true ∧ Rows.Planned (p.instructions.map Instruction.rows) p.output r
  uncaptured : p.uncapturedPrefill = true → p.prefillTokens = 4096 ∧ p.prefillVariants = []
  few : p.prefillVariants.length ≤ 5
  variants : ∀ n ∈ p.prefillVariants, n ∈ [2, 4, 8, 16, 32]
  greatest : ∀ n, p.prefillVariants.getLast? = some n → n = p.prefillTokens
  prefill : p.uncapturedPrefill = false → p.prefillTokens ∈ [1, 2, 4, 8, 16, 32]
  residents : p.residentSequences ≠ 0 ∧ p.residentSequences ≤ 64
  length : p.instructions.length ≤ 10000
  output : p.output < p.instructions.length
  context : p.maxContext ≤ 65536
  format : p.format = formatName p.version
  instructions : ∀ i ∈ p.instructions, i.Bounded

section

variable {p : Program}

theorem checkInstructions_eos {eos id : Nat} {names : List String} {is : List Instruction} :
    { p with eos }.checkInstructions id names is = p.checkInstructions id names is := by
  induction is generalizing id names with
  | nil => rfl
  | cons i is ih =>
    rw [Program.checkInstructions, Program.checkInstructions, ih]
    rfl

theorem validate_eos {eos : Nat} : { p with eos }.validate = p.validate := by
  rw [Program.validate, Program.validate, checkInstructions_eos]
  rfl

/-- Neither validation nor the cast looks at the high bits of the end-of-sequence token. -/
theorem encode_wraps : { p with eos := p.eos + 4294967296 }.encode = p.encode := by
  have hcast : num (p.eos + 4294967296) = num p.eos := by
    rw [num, num, u32Bytes, u32Bytes, Nat.add_mod_right]
  have hencoded : { p with eos := p.eos + 4294967296 }.encoded = p.encoded := by
    rw [Program.encoded, Program.encoded]
    dsimp only
    rw [hcast]
    rfl
  rw [Program.encode, Program.encode, validate_eos, hencoded]

theorem dequantizedWidth_lt {maxContext : Nat} (h : maxContext ≤ 65536) : dequantizedWidth maxContext < 4294967296 := by
  rw [dequantizedWidth]
  omega

theorem bounded_of_check {id : Nat} {names : List String} {i : Instruction} (hcontext : p.maxContext ≤ 65536) (hid : id ≤ 10000)
    (hgood : p.badInstruction id names i = false) (hstrings : i.strings.any badString = false) : i.Bounded := by
  simp only [Program.badInstruction, Bool.or_eq_false_iff, decide_eq_false_iff_not, Nat.not_lt, gt_iff_lt] at hgood
  obtain ⟨⟨⟨⟨⟨⟨⟨hkind, hwidth⟩, hinputs⟩, hattrs⟩, -⟩, hoperands⟩, -⟩, -⟩ := hgood
  refine ⟨hkind, ?_, hinputs, fun j hj => ?_, by rwa [ExtTreeMap.length_toList], fun s hs => ?_⟩
  · simp only [Bool.and_eq_false_iff, decide_eq_false_iff_not, Nat.not_lt, Bool.not_eq_false', Bool.and_eq_true, beq_iff_eq] at hwidth
    rcases hwidth with hsmall | ⟨-, hwhole⟩
    · omega
    · exact hwhole ▸ dequantizedWidth_lt hcontext
  · have hless : j < id := by simpa using List.any_eq_false.mp hoperands j hj
    omega
  · have hgood := List.any_eq_false.mp hstrings s hs
    simp only [badString, Bool.or_eq_true, decide_eq_true_eq, not_or, Nat.not_lt, gt_iff_lt] at hgood
    exact hgood.1.2

theorem bounded_of_checkInstructions {id : Nat} {names : List String} {is : List Instruction} (hcontext : p.maxContext ≤ 65536)
    (hid : id + is.length ≤ 10000) (h : p.checkInstructions id names is = .ok ()) : ∀ i ∈ is, i.Bounded := by
  induction is generalizing id names with
  | nil => simp
  | cons i is ih =>
    rw [Program.checkInstructions] at h
    rw [List.length_cons] at hid
    split at h
    · cases h
    split at h
    · cases h
    rename_i hgood
    split at h
    · cases h
    rename_i hstrings
    obtain ⟨-, h⟩ := check_bind_eq_ok.mp h
    refine List.forall_mem_cons.mpr ⟨?_, ih (by omega) h⟩
    exact bounded_of_check hcontext (by omega) (Bool.not_eq_true _ ▸ hgood) (Bool.not_eq_true _ ▸ hstrings)

theorem planned_of_check {r : Rows.OutputRows} (h : p.checkOutputRows = .ok ()) (hrows : p.outputRows = some r) :
    p.uncapturedPrefill = true ∧ Rows.Planned (p.instructions.map Instruction.rows) p.output r := by
  rw [Program.checkOutputRows, hrows] at h
  dsimp only at h
  split at h
  · cases h
  rename_i huncaptured
  obtain ⟨found, hfound, h⟩ := bind_eq_ok.mp h
  split at h
  · cases h
  rename_i hsame
  rw [not_not] at hsame
  exact ⟨(Bool.not_eq_false _).mp huncaptured, Rows.plan_some (hsame ▸ hfound)⟩

theorem validated_of_validate (h : p.validate = .ok ()) : p.Validated := by
  rw [Program.validate] at h
  split at h
  · cases h
  rename_i hbulk
  obtain ⟨hrows, h⟩ := check_bind_eq_ok.mp h
  split at h
  · cases h
  rename_i huncaptured
  split at h
  · cases h
  rename_i hvariants
  split at h
  · cases h
  rename_i hbounds
  rw [Bool.not_eq_true] at hvariants hbounds
  simp only [Program.badVariants, Bool.or_eq_false_iff, decide_eq_false_iff_not, Nat.not_lt, gt_iff_lt, List.any_eq_false,
    Bool.not_eq_true', Bool.not_eq_false, List.contains_iff_mem] at hvariants
  obtain ⟨⟨⟨hfew, hallowed⟩, -⟩, hgreatest⟩ := hvariants
  simp only [Program.badBounds, Bool.or_eq_false_iff, decide_eq_false_iff_not, Nat.not_lt, Nat.not_le, gt_iff_lt, ge_iff_le] at hbounds
  obtain ⟨⟨⟨⟨⟨⟨⟨⟨⟨⟨⟨⟨hformat, hprefill⟩, -⟩, -⟩, hresidents⟩, hmany⟩, -⟩, -⟩, hlength⟩, houtput⟩, -⟩, hcontext⟩, -⟩ := hbounds
  refine ⟨fun hb => ?_, fun r hr => planned_of_check hrows hr, fun hu => ?_, hfew, hallowed, fun n hn => ?_, fun hu => ?_,
    ⟨hresidents, hmany⟩, hlength, houtput, hcontext, not_not.mp hformat, bounded_of_checkInstructions hcontext (by simpa using hlength) h⟩
  · exact (Bool.not_eq_false _).mp fun hnot => hbulk ⟨hb, hnot⟩
  · by_contra hnot
    exact huncaptured ⟨hu, not_and_or.mp hnot |>.imp id id⟩
  · rw [hn] at hgreatest
    simpa using hgreatest
  · rw [hu, Bool.not_false, Bool.true_and, Bool.not_eq_false'] at hprefill
    exact List.contains_iff_mem.mp hprefill

end

end Inferfabric.Compiler.TokenProgram
