-- SUMMARY: Token programs keep their meaning across languages: what the compiler writes is what the native side reads, in every version of the format.
import IronPangu.Compiler.TokenProgram
import IronPangu.Native.TokenPlan

open Rust Method Decoding Utf8 Inferfabric.Compiler.TokenProgram

/-!
# The format of token programs

The writer and the reader choose the fields of the header by different tests: the writer
looks at the settings, the reader at the version. Where a program is validated the tests
come out the same.
-/

namespace Inferfabric.Native.TokenPlan

open Initialization (Bytes)

/-! ## The same program on both sides -/

def nativeNode (i : Instruction) : Node where
  dtype := utf8 i.dtype
  kernel := utf8 i.kernel
  logicalNode := i.logicalNode
  kind := i.kind
  width := i.width
  name := utf8 i.name
  op := utf8 i.op
  inputs := i.inputs
  attrs := i.attrs.toList.map fun kv => (utf8 kv.1, utf8 kv.2)

/-- The numbers of a range of output rows, or zeros. -/
def rowNumbers : Option Compiler.Rows.OutputRows → Nat × Nat × Nat × Nat
  | none => (0, 0, 0, 0)
  | some rows => (rows.source, rows.sourceWidth, rows.first, rows.last)

/-- The settings of a program as the native side has them. -/
def nativeHeader (p : Program) : Plan where
  physical := true
  context := p.maxContext
  eos := p.eos
  output := p.output
  residentSequences := p.residentSequences
  prefillTokens := p.prefillTokens
  prefillFamily := p.prefillVariants ≠ []
  uncapturedPrefill := p.uncapturedPrefill
  -- An uncaptured program has one envelope and no captured shapes.
  prefillVariants := if p.uncapturedPrefill then [] else p.prefillCounts
  bulkCollectiveDomain := p.bulkCollectiveDomain
  compactOutputRows := p.outputRows.isSome
  outputRowSource := (rowNumbers p.outputRows).1
  outputRowWidth := (rowNumbers p.outputRows).2.1
  outputRowFirst := (rowNumbers p.outputRows).2.2.1
  outputRowLast := (rowNumbers p.outputRows).2.2.2
  sharedPages := p.sharedPages
  nodes := []
  uses := List.replicate p.instructions.length 0

def nativePlan (p : Program) : Plan :=
  { nativeHeader p with
    nodes := p.instructions.map nativeNode
    uses := countUses p.instructions.length p.output (p.instructions.map nativeNode) }

/-- The numbers that validation leaves open fit in 32 bits. -/
structure Fits (p : Program) : Prop where
  eos : p.eos < 4294967296
  logical : ∀ i ∈ p.instructions, i.logicalNode < 4294967296

variable {p : Program} {i : Instruction}

/-! ## Nodes -/

theorem yields_number {n : Nat} (hn : n < 4294967296) : Yields number (num n) n := (reads_u32Bytes hn).yields

theorem yields_bytes (e : String) (bs : Bytes) : Yields (times (byte e) bs.length) bs bs := by
  have h : Yields (times (byte e) bs.length) (bs.flatMap fun c => [c]) (bs.map id) := yields_times fun c _ => reads_byte.yields
  rwa [List.flatMap_singleton', List.map_id] at h

theorem yields_str {s : String} (hs : (utf8 s).length < 4294967296) : Yields str (text s) (utf8 s) := by
  refine (yields_number hs).bind ?_
  refine Yields.afterCheck fun _ => ?_
  refine (yields_bytes _ (utf8 s)).last ?_
  exact Yields.afterCheck fun _ => yields_pure

theorem yields_input {id j : Nat} (hj : j < 4294967296) : Yields (readInput id) (num j) j := by
  refine (yields_number hj).last ?_
  exact Yields.afterCheck fun _ => yields_pure

theorem yields_attrs {kvs : List (String × String)} {attrs : List (Bytes × Bytes)}
    (h : ∀ kv ∈ kvs, (utf8 kv.1).length < 4294967296 ∧ (utf8 kv.2).length < 4294967296) :
    Yields (readAttrs kvs.length attrs) (kvs.flatMap fun kv => text kv.1 ++ text kv.2)
      (attrs ++ kvs.map fun kv => (utf8 kv.1, utf8 kv.2)) := by
  induction kvs generalizing attrs with
  | nil =>
    rw [List.map_nil, List.append_nil]
    exact yields_pure
  | cons kv kvs ih =>
    obtain ⟨hkv, hkvs⟩ := List.forall_mem_cons.mp h
    rw [List.flatMap_cons, List.length_cons, readAttrs, List.append_assoc, List.map_cons, List.append_cons]
    refine (yields_str hkv.1).bind ?_
    refine (yields_str hkv.2).bind ?_
    exact Yields.afterCheck fun _ => ih hkvs

theorem yields_storage {count : Nat} (hdtype : (utf8 i.dtype).length < 4294967296) (hkernel : (utf8 i.kernel).length < 4294967296)
    (hlogical : i.logicalNode < 4294967296) : Yields (readStorage true count i.kind)
      (text i.dtype ++ (text i.kernel ++ num i.logicalNode)) (utf8 i.dtype, utf8 i.kernel, i.logicalNode) := by
  refine (yields_str hdtype).bind ?_
  refine (yields_str hkernel).bind ?_
  refine (yields_number hlogical).last ?_
  exact Yields.afterCheck fun _ => yields_pure

theorem yields_node {plan : Plan} {count id : Nat} {names : List Bytes} (hphysical : plan.physical = true) (h : i.Bounded)
    (hlogical : i.logicalNode < 4294967296) : Yields (readNode plan count id names) i.encoded (nativeNode i) := by
  have hshort : ∀ s ∈ i.strings, (utf8 s).length < 4294967296 := fun s hs => (h.strings s hs).trans_lt (by decide)
  have hkeys : ∀ kv ∈ i.attrs.toList, (utf8 kv.1).length < 4294967296 ∧ (utf8 kv.2).length < 4294967296 :=
    fun kv hkv => ⟨(h.entries kv hkv).1.trans_lt (by decide), (h.entries kv hkv).2.trans_lt (by decide)⟩
  have hkind := h.kind
  have hinputs := h.inputs
  have hattrs := h.attrs
  refine (yields_number (by omega)).bind ?_
  refine (yields_number h.width).bind ?_
  refine (yields_str (hshort i.name (by simp [Instruction.strings]))).bind ?_
  refine (yields_str (hshort i.op (by simp [Instruction.strings]))).bind ?_
  refine Yields.afterCheck fun _ => ?_
  refine Yields.afterCheck fun _ => ?_
  refine (yields_number (by omega)).bind ?_
  refine Yields.afterCheck fun _ => ?_
  have hoperands : Yields (times (readInput id) i.inputs.length) (i.inputs.flatMap num) (i.inputs.map fun j => j) :=
    yields_times fun j hj => yields_input ((h.operands j hj).trans (by decide))
  refine hoperands.bind ?_
  refine (yields_number (by omega)).bind ?_
  refine Yields.afterCheck fun _ => ?_
  refine (yields_attrs hkeys).bind ?_
  rw [hphysical]
  refine (yields_storage (hshort i.dtype (by simp [Instruction.strings])) (hshort i.kernel (by simp [Instruction.strings])) hlogical).last ?_
  rw [List.map_id', List.nil_append]
  exact yields_pure

theorem yields_nodes {plan : Plan} {count : Nat} {is : List Instruction} {nodes : List Node} (hphysical : plan.physical = true)
    (h : ∀ i ∈ is, i.Bounded) (hlogical : ∀ i ∈ is, i.logicalNode < 4294967296) :
    Yields (readNodes plan count is.length nodes) (is.flatMap Instruction.encoded) (nodes ++ is.map nativeNode) := by
  induction is generalizing nodes with
  | nil =>
    rw [List.map_nil, List.append_nil]
    exact yields_pure
  | cons i is ih =>
    obtain ⟨hi, his⟩ := List.forall_mem_cons.mp h
    obtain ⟨hl, hls⟩ := List.forall_mem_cons.mp hlogical
    rw [List.flatMap_cons, List.length_cons, readNodes, List.map_cons, List.append_cons]
    refine (yields_node hphysical hi hl).bind ?_
    exact ih his hls

/-! ## Versions -/

/-- What a validated program has in common with others of its version. -/
structure Versioned (p : Program) (version : Nat) : Prop where
  known : version ∈ List.range' 2 8
  uncaptured : uncaptured version = p.uncapturedPrefill
  residents : hasResidents version = true ↔ p.residentSequences ≠ 1 ∨ p.prefillTokens > 1 ∨ p.sharedPages = true
  prefill : hasPrefill version = true ↔ p.prefillTokens > 1 ∨ p.sharedPages = true
  variants : version = 6 ↔ p.prefillVariants ≠ []
  bulk : version = 9 ↔ p.bulkCollectiveDomain = true
  compact : version ≠ 9 → (version = 8 ↔ p.outputRows.isSome = true)
  shared : p.uncapturedPrefill = false → version ≠ 6 → (version = 5 ↔ p.sharedPages = true)

theorem prefill_pos (h : p.Validated) : 0 < p.prefillTokens := by
  cases huncaptured : p.uncapturedPrefill with
  | true => rw [(h.uncaptured huncaptured).1]; decide
  | false =>
    have hmem := h.prefill huncaptured
    revert hmem
    generalize p.prefillTokens = n
    intro hmem
    fin_cases hmem <;> decide

theorem prefill_gt_of_variants (h : p.Validated) (hvariants : p.prefillVariants ≠ []) : 1 < p.prefillTokens := by
  have hlast := List.getLast?_eq_some_getLast hvariants
  rw [← h.greatest _ hlast]
  have hmem := h.variants _ (List.getLast_mem hvariants)
  revert hmem
  generalize p.prefillVariants.getLast hvariants = n
  intro hmem
  fin_cases hmem <;> decide

theorem hasResidents_iff {version : Nat} : hasResidents version = true ↔ 3 ≤ version ∧ version ≤ 9 := by
  simp only [hasResidents, uncaptured, Bool.or_eq_true, beq_iff_eq]
  omega

theorem hasPrefill_iff {version : Nat} : hasPrefill version = true ↔ 4 ≤ version ∧ version ≤ 9 := by
  simp only [hasPrefill, uncaptured, Bool.or_eq_true, beq_iff_eq]
  omega

theorem versioned (h : p.Validated) : Versioned p p.version := by
  have hbulk := h.bulk
  have hrows : p.outputRows.isSome = true → p.uncapturedPrefill = true := by
    intro hsome
    obtain ⟨r, hr⟩ := Option.isSome_iff_exists.mp hsome
    exact (h.rows r hr).1
  have huncaptured := h.uncaptured
  have hvariants := prefill_gt_of_variants h
  have hpos := prefill_pos h
  unfold Program.version
  constructor <;> grind [uncaptured, hasResidents_iff, hasPrefill_iff]

/-! ## The header -/

theorem yields_version {version : Nat} (h : version ∈ List.range' 2 8) : Yields readVersion (magic version) version := by
  have hfound : versionOf (magic version) = some version := by
    have hall : ∀ v ∈ List.range' 2 8, versionOf (magic v) = some v := by decide
    exact hall version h
  refine (yields_bytes _ (magic version)).last ?_
  rw [hfound]
  exact yields_pure

theorem yields_numberIf {present : Bool} {written : List UInt8} {default n : Nat} (hn : n < 4294967296)
    (hwritten : present = true → written = num n) (hmissing : present = false → written = [] ∧ n = default) :
    Yields (numberIf present default) written n := by
  cases present with
  | true =>
    rw [hwritten rfl]
    exact yields_number hn
  | false =>
    obtain ⟨rfl, rfl⟩ := hmissing rfl
    exact yields_pure

theorem yields_residents (h : p.Validated) : Yields (numberIf (hasResidents p.version) 1) p.encodedResidents p.residentSequences := by
  have hversion := (versioned h).residents
  refine yields_numberIf (h.residents.2.trans_lt (by decide)) (fun hpresent => ?_) fun hmissing => ?_
  · rw [Program.encodedResidents, if_pos (hversion.mp hpresent)]
  · have hnot := hversion.not.mp ((Bool.not_eq_true _).mpr hmissing)
    exact ⟨by rw [Program.encodedResidents, if_neg hnot], not_not.mp (not_or.mp hnot).1⟩

theorem prefill_lt (h : p.Validated) : p.prefillTokens < 4294967296 := by
  cases huncaptured : p.uncapturedPrefill with
  | true => rw [(h.uncaptured huncaptured).1]; decide
  | false =>
    have hall : ∀ n ∈ [1, 2, 4, 8, 16, 32], n < 4294967296 := by decide
    exact hall _ (h.prefill huncaptured)

theorem yields_prefill (h : p.Validated) : Yields (numberIf (hasPrefill p.version) 1) p.encodedPrefill p.prefillTokens := by
  have hversion := (versioned h).prefill
  refine yields_numberIf (prefill_lt h) (fun hpresent => ?_) fun hmissing => ?_
  · rw [Program.encodedPrefill, if_pos (hversion.mp hpresent)]
  · have hnot := hversion.not.mp ((Bool.not_eq_true _).mpr hmissing)
    have hpos := prefill_pos h
    have hone : p.prefillTokens = 1 := by
      have := Nat.not_lt.mp (not_or.mp hnot).1
      omega
    exact ⟨by rw [Program.encodedPrefill, if_neg hnot], hone⟩

theorem yields_variants {prefillTokens previous : Nat} {variants : List Nat} (h : ∀ n ∈ variants, n < 4294967296) :
    Yields (readVariants prefillTokens variants.length previous) (variants.flatMap num) variants := by
  induction variants generalizing previous with
  | nil => exact Yields.afterCheck fun _ => yields_pure
  | cons n variants ih =>
    obtain ⟨hn, hrest⟩ := List.forall_mem_cons.mp h
    rw [List.flatMap_cons, List.length_cons, readVariants]
    refine (yields_number hn).bind ?_
    refine Yields.afterCheck fun _ => ?_
    exact (ih hrest).last yields_pure

theorem yields_flag (b : Bool) : Yields number (num b.toNat) b.toNat := yields_number (b.toNat_lt.trans (by decide))

theorem decide_flag (b : Bool) : decide (b.toNat ≠ 0) = b := by
  cases b <;> rfl

theorem yields_family (h : p.Validated) : Yields (readFamily p.version p.prefillTokens) p.encodedFamily
    (p.sharedPages, if p.uncapturedPrefill then [] else p.prefillCounts) := by
  have hversion := versioned h
  rw [readFamily, Program.encodedFamily, hversion.uncaptured]
  cases huncaptured : p.uncapturedPrefill with
  | true =>
    rw [if_pos rfl, if_pos rfl, if_pos rfl]
    refine (yields_flag p.sharedPages).last ?_
    refine Yields.afterCheck fun _ => ?_
    rw [decide_flag]
    exact yields_pure
  | false =>
    rw [if_neg Bool.false_ne_true, if_neg Bool.false_ne_true, if_neg Bool.false_ne_true]
    by_cases hvariants : p.prefillVariants = []
    · have hsix : p.version ≠ 6 := fun hsix => hversion.variants.mp hsix hvariants
      have hshared : decide (p.version = 5) = p.sharedPages := by
        rw [Bool.eq_iff_iff, decide_eq_true_iff]
        exact hversion.shared huncaptured hsix
      rw [if_neg hsix, if_neg (not_not.mpr hvariants), hshared, Program.prefillCounts, if_neg (not_not.mpr hvariants)]
      exact yields_pure
    · rw [if_pos (hversion.variants.mpr hvariants), if_pos hvariants, Program.prefillCounts, if_pos hvariants]
      have hsmall : ∀ n ∈ p.prefillVariants, n < 4294967296 := by
        have hall : ∀ n ∈ [2, 4, 8, 16, 32], n < 4294967296 := by decide
        exact fun n hn => hall n (h.variants n hn)
      refine (yields_flag p.sharedPages).bind ?_
      refine (yields_number (h.few.trans_lt (by decide))).bind ?_
      refine Yields.afterCheck fun _ => ?_
      rw [decide_flag]
      exact (yields_variants hsmall).last yields_pure

theorem yields_compact (h : p.Validated) : Yields (readCompact p.version) p.encodedBulk p.outputRows.isSome := by
  have hversion := versioned h
  rw [readCompact, Program.encodedBulk]
  by_cases hnine : p.version = 9
  · rw [if_pos hnine, if_pos (hversion.bulk.mp hnine)]
    refine (yields_flag p.outputRows.isSome).last ?_
    refine Yields.afterCheck fun _ => ?_
    rw [decide_flag]
    exact yields_pure
  · have height : decide (p.version = 8) = p.outputRows.isSome := by
      rw [Bool.eq_iff_iff, decide_eq_true_iff]
      exact hversion.compact hnine
    rw [if_neg hnine, if_neg (hversion.bulk.not.mp hnine), height]
    exact yields_pure

/-- The numbers of a planned range fit in 32 bits. -/
theorem rows_lt (h : p.Validated) {r : Compiler.Rows.OutputRows} (hr : p.outputRows = some r) : r.source < 4294967296 ∧
    r.sourceWidth < 4294967296 ∧ r.first < 4294967296 ∧ r.last < 4294967296 := by
  obtain ⟨-, hplanned⟩ := h.rows r hr
  have hlength := h.length
  have houtput := h.output
  obtain ⟨s, hs, -, hwidth, -⟩ := hplanned.width
  obtain ⟨i, hi, rfl⟩ := Option.map_eq_some_iff.mp (List.getElem?_map .. ▸ hs)
  have hsource := (List.getElem?_eq_some_iff.mp hi).1
  obtain ⟨n, hn, -⟩ := hplanned.starts.reads
  have hfirst := (List.getElem?_eq_some_iff.mp hn).1
  rw [List.length_map] at hfirst
  have hbounded := (h.instructions i (List.mem_of_getElem? hi)).width
  refine ⟨by omega, ?_, by omega, ?_⟩
  · rw [← hwidth]
    exact hbounded
  · rw [hplanned.last]
    omega

theorem yields_rows (h : p.Validated) (count output : Nat) :
    Yields (readOutputRows p.outputRows.isSome count output) (encodedRows p.outputRows) (rowNumbers p.outputRows) := by
  cases hrows : p.outputRows with
  | none => exact yields_pure
  | some r =>
    obtain ⟨hsource, hwidth, hfirst, hlast⟩ := rows_lt h hrows
    refine (yields_number hsource).bind ?_
    refine (yields_number hwidth).bind ?_
    refine (yields_number hfirst).bind ?_
    refine (yields_number hlast).last ?_
    exact Yields.afterCheck fun _ => yields_pure

/-- The bytes before the instructions. -/
def headerBytes (p : Program) : List UInt8 :=
  magic p.version ++ (num p.maxContext ++ (num p.eos ++ (num p.output ++ (num p.instructions.length ++
    (p.encodedResidents ++ (p.encodedPrefill ++ (p.encodedFamily ++ (p.encodedBulk ++ encodedRows p.outputRows))))))))

theorem encoded_eq : p.encoded = headerBytes p ++ p.instructions.flatMap Instruction.encoded := by
  simp only [Program.encoded, headerBytes, List.append_assoc]

theorem yields_header (h : p.Validated) (heos : p.eos < 4294967296) :
    Yields readHeader (headerBytes p) (nativeHeader p, p.instructions.length) := by
  have hversion := versioned h
  have hlength := h.length
  have houtput := h.output
  have hcontext := h.context
  refine (yields_version hversion.known).bind ?_
  refine (yields_number (by omega)).bind ?_
  refine (yields_number heos).bind ?_
  refine (yields_number (by omega)).bind ?_
  refine (yields_number (by omega)).bind ?_
  refine (yields_residents h).bind ?_
  refine (yields_prefill h).bind ?_
  refine Yields.afterCheck fun _ => ?_
  refine (yields_family h).bind ?_
  refine Yields.afterCheck fun _ => ?_
  refine Yields.afterCheck fun _ => ?_
  refine (yields_compact h).bind ?_
  refine (yields_rows h _ _).last ?_
  have hphysical : decide (p.version ≠ 1) = true := by
    have hall : ∀ v ∈ List.range' 2 8, decide (v ≠ 1) = true := by decide
    exact hall _ hversion.known
  have hfamily : decide (p.version = 6) = decide (p.prefillVariants ≠ []) := decide_eq_decide.mpr hversion.variants
  have hbulk : decide (p.version = 9) = p.bulkCollectiveDomain := by
    rw [Bool.eq_iff_iff, decide_eq_true_iff]
    exact hversion.bulk
  rw [hphysical, hfamily, hbulk, hversion.uncaptured]
  exact yields_pure

theorem yields_plan (h : p.Validated) (hfits : Fits p) : Yields readPlan p.encoded (nativePlan p) := by
  rw [encoded_eq]
  refine (yields_header h hfits.eos).bind ?_
  have hnodes : Yields (readNodes (nativeHeader p) p.instructions.length p.instructions.length []) _ _ :=
    yields_nodes rfl h.instructions hfits.logical
  refine hnodes.last ?_
  exact yields_pure

end Inferfabric.Native.TokenPlan
