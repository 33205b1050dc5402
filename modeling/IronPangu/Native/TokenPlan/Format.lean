-- SUMMARY: The format of token programs is one to one: equal bytes come from equal programs, and an accepted file cannot be cut or extended.
import IronPangu.Native.TokenPlan.Faithful

open Rust Method Decoding Utf8 Inferfabric.Compiler.TokenProgram

/-!
# One program for each file

The bytes of a validated program determine it, whether the native side accepts them or
not: every field of variable size is preceded by its size, and the version determines
which fields there are.
-/

namespace Inferfabric.Native.TokenPlan

open Initialization (Bytes)

variable {p p' : Program} {i : Instruction} {tail tail' : List UInt8}

/-! ## Numbers and strings -/

theorem delimits_num : Delimits num (· < 4294967296) :=
  delimits_of_reads (m := number) Function.injective_id fun _ hn => reads_u32Bytes hn

theorem delimits_text : Delimits text fun s => (utf8 s).length ≤ 1024 := by
  intro s s' tail tail' hs hs' hsame
  rw [text, text, List.append_assoc, List.append_assoc] at hsame
  obtain ⟨hlength, hsame⟩ := delimits_num _ _ _ _ (hs.trans_lt (by decide)) (hs'.trans_lt (by decide)) hsame
  obtain ⟨hbytes, htail⟩ := List.append_inj hsame hlength
  exact ⟨utf8_injective hbytes, htail⟩

theorem delimits_entry : Delimits (fun kv : String × String => text kv.1 ++ text kv.2)
    fun kv => (utf8 kv.1).length ≤ 1024 ∧ (utf8 kv.2).length ≤ 1024 := by
  intro kv kv' tail tail' h h' hsame
  rw [List.append_assoc, List.append_assoc] at hsame
  obtain ⟨hkey, hsame⟩ := delimits_text _ _ _ _ h.1 h'.1 hsame
  obtain ⟨hvalue, htail⟩ := delimits_text _ _ _ _ h.2 h'.2 hsame
  exact ⟨Prod.ext hkey hvalue, htail⟩

/-! ## Instructions -/

theorem delimits_instruction : Delimits Instruction.encoded fun i => i.Bounded ∧ i.logicalNode < 4294967296 := by
  rintro i i' tail tail' ⟨h, hlogical⟩ ⟨h', hlogical'⟩ hsame
  simp only [Instruction.encoded, List.append_assoc] at hsame
  obtain ⟨hkind, hsame⟩ := delimits_num _ _ _ _ (h.kind.trans_lt (by decide)) (h'.kind.trans_lt (by decide)) hsame
  obtain ⟨hwidth, hsame⟩ := delimits_num _ _ _ _ h.width h'.width hsame
  obtain ⟨hname, hsame⟩ := delimits_text _ _ _ _ (h.strings _ (by simp [Instruction.strings]))
    (h'.strings _ (by simp [Instruction.strings])) hsame
  obtain ⟨hop, hsame⟩ := delimits_text _ _ _ _ (h.strings _ (by simp [Instruction.strings]))
    (h'.strings _ (by simp [Instruction.strings])) hsame
  obtain ⟨hinputs, hsame⟩ := delimits_num _ _ _ _ (h.inputs.trans_lt (by decide)) (h'.inputs.trans_lt (by decide)) hsame
  obtain ⟨hoperands, hsame⟩ := delimits_num.list (fun j hj => (h.operands j hj).trans (by decide))
    (fun j hj => (h'.operands j hj).trans (by decide)) hinputs hsame
  obtain ⟨hattrs, hsame⟩ := delimits_num _ _ _ _ (h.attrs.trans_lt (by decide)) (h'.attrs.trans_lt (by decide)) hsame
  obtain ⟨hentries, hsame⟩ := delimits_entry.list h.entries h'.entries hattrs hsame
  obtain ⟨hdtype, hsame⟩ := delimits_text _ _ _ _ (h.strings _ (by simp [Instruction.strings]))
    (h'.strings _ (by simp [Instruction.strings])) hsame
  obtain ⟨hkernel, hsame⟩ := delimits_text _ _ _ _ (h.strings _ (by simp [Instruction.strings]))
    (h'.strings _ (by simp [Instruction.strings])) hsame
  obtain ⟨hnode, htail⟩ := delimits_num _ _ _ _ hlogical hlogical' hsame
  refine ⟨?_, htail⟩
  cases i
  cases i'
  exact (Instruction.mk.injEq ..).mpr ⟨hnode, hname, hop, hoperands, Std.ExtTreeMap.toList_inj.mp hentries, hkind, hwidth, hdtype, hkernel⟩

/-! ## Headers -/

theorem magic_injective {version version' : Nat} (h : version ∈ List.range' 2 8) (h' : version' ∈ List.range' 2 8)
    (hsame : magic version = magic version') : version = version' := by
  have hall : ∀ v ∈ List.range' 2 8, ∀ v' ∈ List.range' 2 8, magic v = magic v' → v = v' := by decide
  exact hall version h version' h' hsame

/-- A field that is written on the same condition on both sides. -/
theorem optional_inj {P P' : Prop} [Decidable P] [Decidable P'] {n n' default : Nat} (hP : P ↔ P') (hn : n < 4294967296)
    (hn' : n' < 4294967296) (hdefault : ¬P → n = default) (hdefault' : ¬P' → n' = default)
    (hsame : (if P then num n else []) ++ tail = (if P' then num n' else []) ++ tail') : n = n' ∧ tail = tail' := by
  by_cases h : P
  · rw [if_pos h, if_pos (hP.mp h)] at hsame
    exact delimits_num _ _ _ _ hn hn' hsame
  · rw [if_neg h, if_neg (hP.not.mp h)] at hsame
    exact ⟨(hdefault h).trans (hdefault' (hP.not.mp h)).symm, hsame⟩

theorem flag_inj {b b' : Bool} (hsame : num b.toNat ++ tail = num b'.toNat ++ tail') : b = b' ∧ tail = tail' := by
  obtain ⟨hflag, htail⟩ := delimits_num _ _ _ _ (b.toNat_lt.trans (by decide)) (b'.toNat_lt.trans (by decide)) hsame
  refine ⟨?_, htail⟩
  cases b <;> cases b' <;> first | rfl | cases hflag

theorem residents_eq_one (hnot : ¬(p.residentSequences ≠ 1 ∨ p.prefillTokens > 1 ∨ p.sharedPages = true)) :
    p.residentSequences = 1 :=
  not_not.mp (not_or.mp hnot).1

theorem residents_inj (h : p.Validated) (h' : p'.Validated) (hversion : p.version = p'.version)
    (hsame : p.encodedResidents ++ tail = p'.encodedResidents ++ tail') :
    p.residentSequences = p'.residentSequences ∧ tail = tail' := by
  have hiff := (versioned h).residents.symm.trans (hversion ▸ (versioned h').residents)
  exact optional_inj hiff (h.residents.2.trans_lt (by decide)) (h'.residents.2.trans_lt (by decide)) residents_eq_one residents_eq_one
    hsame

theorem prefill_eq_one (h : p.Validated) (hnot : ¬(p.prefillTokens > 1 ∨ p.sharedPages = true)) : p.prefillTokens = 1 := by
  have hpos := prefill_pos h
  have hsmall := Nat.not_lt.mp (not_or.mp hnot).1
  omega

theorem prefill_inj (h : p.Validated) (h' : p'.Validated) (hversion : p.version = p'.version)
    (hsame : p.encodedPrefill ++ tail = p'.encodedPrefill ++ tail') : p.prefillTokens = p'.prefillTokens ∧ tail = tail' := by
  have hiff := (versioned h).prefill.symm.trans (hversion ▸ (versioned h').prefill)
  exact optional_inj hiff (prefill_lt h) (prefill_lt h') (prefill_eq_one h) (prefill_eq_one h') hsame

theorem family_inj (h : p.Validated) (h' : p'.Validated) (hversion : p.version = p'.version)
    (hsame : p.encodedFamily ++ tail = p'.encodedFamily ++ tail') :
    p.sharedPages = p'.sharedPages ∧ p.prefillVariants = p'.prefillVariants ∧ tail = tail' := by
  have hv := versioned h
  have hv' := versioned h'
  rw [← hversion] at hv'
  have huncaptured : p.uncapturedPrefill = p'.uncapturedPrefill := hv.uncaptured.symm.trans hv'.uncaptured
  rw [Program.encodedFamily, Program.encodedFamily, ← huncaptured] at hsame
  cases hu : p.uncapturedPrefill with
  | true =>
    rw [hu, if_pos rfl, if_pos rfl] at hsame
    obtain ⟨hshared, htail⟩ := flag_inj hsame
    exact ⟨hshared, (h.uncaptured hu).2.trans (h'.uncaptured (huncaptured ▸ hu)).2.symm, htail⟩
  | false =>
    rw [hu, if_neg Bool.false_ne_true, if_neg Bool.false_ne_true] at hsame
    by_cases hsix : p.version = 6
    · rw [if_pos (hv.variants.mp hsix), if_pos (hv'.variants.mp hsix), List.append_assoc, List.append_assoc, List.append_assoc,
        List.append_assoc] at hsame
      obtain ⟨hshared, hsame⟩ := flag_inj hsame
      obtain ⟨hlength, hsame⟩ := delimits_num _ _ _ _ (h.few.trans_lt (by decide)) (h'.few.trans_lt (by decide)) hsame
      have hall : ∀ n ∈ [2, 4, 8, 16, 32], n < 4294967296 := by decide
      obtain ⟨hvariants, htail⟩ := delimits_num.list (fun n hn => hall n (h.variants n hn)) (fun n hn => hall n (h'.variants n hn))
        hlength hsame
      exact ⟨hshared, hvariants, htail⟩
    · have hnone := not_not.mp (hv.variants.not.mp hsix)
      have hnone' := not_not.mp (hv'.variants.not.mp hsix)
      rw [hnone, hnone', if_neg (by simp), if_neg (by simp)] at hsame
      refine ⟨?_, hnone.trans hnone'.symm, hsame⟩
      rw [Bool.eq_iff_iff, ← hv.shared hu hsix, ← hv'.shared (huncaptured ▸ hu) hsix]

theorem bulk_inj (h : p.Validated) (h' : p'.Validated) (hversion : p.version = p'.version)
    (hsame : p.encodedBulk ++ tail = p'.encodedBulk ++ tail') :
    p.outputRows.isSome = p'.outputRows.isSome ∧ tail = tail' := by
  have hv := versioned h
  have hv' := versioned h'
  rw [← hversion] at hv'
  rw [Program.encodedBulk, Program.encodedBulk] at hsame
  by_cases hnine : p.version = 9
  · rw [if_pos (hv.bulk.mp hnine), if_pos (hv'.bulk.mp hnine)] at hsame
    exact flag_inj hsame
  · rw [if_neg (hv.bulk.not.mp hnine), if_neg (hv'.bulk.not.mp hnine)] at hsame
    exact ⟨by rw [Bool.eq_iff_iff, ← hv.compact hnine, ← hv'.compact hnine], hsame⟩

theorem rows_inj (h : p.Validated) (h' : p'.Validated) (hsome : p.outputRows.isSome = p'.outputRows.isSome)
    (hsame : encodedRows p.outputRows ++ tail = encodedRows p'.outputRows ++ tail') :
    p.outputRows = p'.outputRows ∧ tail = tail' := by
  cases hrows : p.outputRows with
  | none =>
    rw [hrows] at hsome hsame
    cases hrows' : p'.outputRows with
    | none =>
      rw [hrows'] at hsame
      exact ⟨rfl, hsame⟩
    | some r' =>
      rw [hrows'] at hsome
      cases hsome
  | some r =>
    rw [hrows] at hsome hsame
    cases hrows' : p'.outputRows with
    | none =>
      rw [hrows'] at hsome
      cases hsome
    | some r' =>
      rw [hrows'] at hsame
      obtain ⟨hsource, hwidth, hfirst, hlast⟩ := rows_lt h hrows
      obtain ⟨hsource', hwidth', hfirst', hlast'⟩ := rows_lt h' hrows'
      simp only [encodedRows, List.append_assoc] at hsame
      obtain ⟨hs, hsame⟩ := delimits_num _ _ _ _ hsource hsource' hsame
      obtain ⟨hw, hsame⟩ := delimits_num _ _ _ _ hwidth hwidth' hsame
      obtain ⟨hf, hsame⟩ := delimits_num _ _ _ _ hfirst hfirst' hsame
      obtain ⟨hl, htail⟩ := delimits_num _ _ _ _ hlast hlast' hsame
      cases r
      cases r'
      exact ⟨congrArg some ((Compiler.Rows.OutputRows.mk.injEq ..).mpr ⟨hs, hw, hf, hl⟩), htail⟩

/-- Equal bytes come from equal programs. -/
theorem encoded_injective (h : p.Validated) (h' : p'.Validated) (hfits : Fits p) (hfits' : Fits p')
    (hsame : p.encoded = p'.encoded) : p = p' := by
  have hv := versioned h
  have hv' := versioned h'
  rw [Program.encoded, Program.encoded] at hsame
  obtain ⟨hmagic, hsame⟩ := List.append_inj hsame rfl
  have hversion := magic_injective hv.known hv'.known hmagic
  have hlength := h.length
  have hlength' := h'.length
  obtain ⟨hcontext, hsame⟩ := delimits_num _ _ _ _ (h.context.trans_lt (by decide)) (h'.context.trans_lt (by decide)) hsame
  obtain ⟨heos, hsame⟩ := delimits_num _ _ _ _ hfits.eos hfits'.eos hsame
  obtain ⟨houtput, hsame⟩ := delimits_num _ _ _ _ (h.output.trans (by omega)) (h'.output.trans (by omega)) hsame
  obtain ⟨hcount, hsame⟩ := delimits_num _ _ _ _ (hlength.trans_lt (by decide)) (hlength'.trans_lt (by decide)) hsame
  obtain ⟨hresidents, hsame⟩ := residents_inj h h' hversion hsame
  obtain ⟨hprefill, hsame⟩ := prefill_inj h h' hversion hsame
  obtain ⟨hshared, hvariants, hsame⟩ := family_inj h h' hversion hsame
  obtain ⟨hsome, hsame⟩ := bulk_inj h h' hversion hsame
  obtain ⟨hrows, hsame⟩ := rows_inj h h' hsome hsame
  obtain ⟨hinstructions, -⟩ := delimits_instruction.list (fun i hi => ⟨h.instructions i hi, hfits.logical i hi⟩)
    (fun i hi => ⟨h'.instructions i hi, hfits'.logical i hi⟩) hcount (congrArg (· ++ []) hsame)
  have hformat : p.format = p'.format := by rw [h.format, h'.format, hversion]
  have huncaptured : p.uncapturedPrefill = p'.uncapturedPrefill := by rw [← hv.uncaptured, ← hv'.uncaptured, hversion]
  have hbulk : p.bulkCollectiveDomain = p'.bulkCollectiveDomain := by
    rw [Bool.eq_iff_iff, ← hv.bulk, ← hv'.bulk, hversion]
  cases p
  cases p'
  exact (Program.mk.injEq ..).mpr ⟨hformat, hcontext, hresidents, hprefill, huncaptured, hbulk, hvariants, hshared, heos, houtput, hrows,
    hinstructions⟩

/-! ## Frames -/

theorem framed_number : Framed number := Decoding.framed_number 4

theorem framed_str : Framed str := by
  refine framed_number.bind fun n => ?_
  refine framed_check.bind fun _ => ?_
  refine (framed_times framed_byte n).bind fun _ => ?_
  exact framed_check.bind fun _ => framed_pure

theorem framed_version : Framed readVersion := by
  refine (framed_times framed_byte 8).bind fun magic => ?_
  cases versionOf magic with
  | none => exact framed_fail
  | some version => exact framed_pure

theorem framed_numberIf (present : Bool) (default : Nat) : Framed (numberIf present default) := by
  cases present with
  | true => exact framed_number
  | false => exact framed_pure

theorem framed_variants (prefillTokens count previous : Nat) : Framed (readVariants prefillTokens count previous) := by
  induction count generalizing previous with
  | zero => exact framed_check.bind fun _ => framed_pure
  | succ count ih =>
    refine framed_number.bind fun n => ?_
    refine framed_check.bind fun _ => ?_
    exact (ih n).bind fun _ => framed_pure

theorem framed_family (version prefillTokens : Nat) : Framed (readFamily version prefillTokens) := by
  rw [readFamily]
  split
  · refine framed_number.bind fun _ => ?_
    exact framed_check.bind fun _ => framed_pure
  · split
    · refine framed_number.bind fun _ => ?_
      refine framed_number.bind fun count => ?_
      refine framed_check.bind fun _ => ?_
      exact (framed_variants prefillTokens count 1).bind fun _ => framed_pure
    · exact framed_pure

theorem framed_compact (version : Nat) : Framed (readCompact version) := by
  rw [readCompact]
  split
  · refine framed_number.bind fun _ => ?_
    exact framed_check.bind fun _ => framed_pure
  · exact framed_pure

theorem framed_rows (compact : Bool) (count output : Nat) : Framed (readOutputRows compact count output) := by
  cases compact with
  | false => exact framed_pure
  | true =>
    refine framed_number.bind fun _ => ?_
    refine framed_number.bind fun _ => ?_
    refine framed_number.bind fun _ => ?_
    refine framed_number.bind fun _ => ?_
    exact framed_check.bind fun _ => framed_pure

theorem framed_header : Framed readHeader := by
  refine framed_version.bind fun version => ?_
  refine framed_number.bind fun _ => ?_
  refine framed_number.bind fun _ => ?_
  refine framed_number.bind fun output => ?_
  refine framed_number.bind fun count => ?_
  refine (framed_numberIf _ 1).bind fun _ => ?_
  refine (framed_numberIf _ 1).bind fun prefillTokens => ?_
  refine framed_check.bind fun _ => ?_
  refine (framed_family version prefillTokens).bind fun _ => ?_
  refine framed_check.bind fun _ => ?_
  refine framed_check.bind fun _ => ?_
  refine (framed_compact version).bind fun compact => ?_
  exact (framed_rows compact count output).bind fun _ => framed_pure

theorem framed_attrs (count : Nat) (attrs : List (Bytes × Bytes)) : Framed (readAttrs count attrs) := by
  induction count generalizing attrs with
  | zero => exact framed_pure
  | succ count ih =>
    refine framed_str.bind fun k => ?_
    refine framed_str.bind fun v => ?_
    exact framed_check.bind fun _ => ih (attrs ++ [(k, v)])

theorem framed_storage (physical : Bool) (count kind : Nat) : Framed (readStorage physical count kind) := by
  cases physical with
  | false => exact framed_pure
  | true =>
    refine framed_str.bind fun _ => ?_
    refine framed_str.bind fun _ => ?_
    refine framed_number.bind fun _ => ?_
    exact framed_check.bind fun _ => framed_pure

theorem framed_node (plan : Plan) (count id : Nat) (names : List Bytes) : Framed (readNode plan count id names) := by
  have hinput : Framed (readInput id) := framed_number.bind fun _ => framed_check.bind fun _ => framed_pure
  refine framed_number.bind fun kind => ?_
  refine framed_number.bind fun _ => ?_
  refine framed_str.bind fun _ => ?_
  refine framed_str.bind fun _ => ?_
  refine framed_check.bind fun _ => ?_
  refine framed_check.bind fun _ => ?_
  refine framed_number.bind fun inputs => ?_
  refine framed_check.bind fun _ => ?_
  refine (framed_times hinput inputs).bind fun _ => ?_
  refine framed_number.bind fun attrs => ?_
  refine framed_check.bind fun _ => ?_
  refine (framed_attrs attrs []).bind fun _ => ?_
  exact (framed_storage plan.physical count kind).bind fun _ => framed_pure

theorem framed_nodes (plan : Plan) (count more : Nat) (nodes : List Node) : Framed (readNodes plan count more nodes) := by
  induction more generalizing nodes with
  | zero => exact framed_pure
  | succ more ih => exact (framed_node plan count _ _).bind fun node => ih (nodes ++ [node])

theorem framed_plan : Framed readPlan :=
  framed_header.bind fun header => (framed_nodes header.1 header.2 header.2 []).bind fun _ => framed_pure

/-! ## The format -/

variable {input bytes : Bytes} {q : Plan}

theorem readPlan_of_read (h : Plan.read input = .ok q) : readPlan input = (.ok q, []) := by
  rw [Plan.read] at h
  cases hrun : readPlan input with
  | mk result rest =>
  rw [hrun] at h
  cases result with
  | ok p =>
    cases rest with
    | nil =>
      obtain ⟨-, hsame⟩ := Outcome.check_bind_eq_ok.mp h
      rw [Outcome.ok.inj hsame]
    | cons _ _ => cases h
  | err e => cases h
  | panic => cases h

theorem encode_eq_ok (h : p.encode = .ok bytes) : p.Validated ∧ bytes = p.encoded := by
  obtain ⟨hvalid, hencoded⟩ := Outcome.check_bind_eq_ok.mp h
  split at hencoded
  · cases hencoded
  · exact ⟨validated_of_validate hvalid, (Outcome.ok.inj hencoded).symm⟩

/-- An encoded program that the native side accepts is read as itself, no other program has its
    bytes, and an accepted file has no accepted part or extension. -/
theorem token_format_faithful (h : p.encode = .ok bytes) (hfits : Fits p) :
    (∀ q, Plan.read bytes = .ok q → q = nativePlan p) ∧
    (∀ p', p'.encode = .ok bytes → Fits p' → p' = p) ∧
    ∀ input q, Plan.read input = .ok q →
      (∀ first second q', input = first ++ second → second ≠ [] → Plan.read first ≠ .ok q') ∧
      ∀ tail q', tail ≠ [] → Plan.read (input ++ tail) ≠ .ok q' := by
  obtain ⟨hvalidated, rfl⟩ := encode_eq_ok h
  refine ⟨fun q hread => ?_, fun p' h' hfits' => ?_, fun input q hread => ⟨fun first second q' happend hne hcut => ?_, fun tail q' hne hmore => ?_⟩⟩
  · have hrun := readPlan_of_read hread
    rw [← List.append_nil p.encoded] at hrun
    exact (yields_plan hvalidated hfits _ _ _ hrun).1
  · obtain ⟨hvalidated', hsame⟩ := encode_eq_ok h'
    exact (encoded_injective hvalidated hvalidated' hfits hfits' hsame).symm
  · exact (framed_plan.whole (readPlan_of_read hread)).1 first second q' happend hne (readPlan_of_read hcut)
  · exact (framed_plan.whole (readPlan_of_read hread)).2 tail q' hne (readPlan_of_read hmore)

/-- One product over the vocabulary, for two resident sequences. -/
def headOnly : Program where
  format := "inferfabric.token-program.v3"
  maxContext := 16
  residentSequences := 2
  prefillTokens := 1
  uncapturedPrefill := false
  bulkCollectiveDomain := false
  prefillVariants := []
  sharedPages := false
  eos := 7
  output := 0
  outputRows := none
  instructions := [⟨0, "head", "linear", [], ∅, 0, 151552, "bf16", "aclnnMatmul"⟩]

theorem token_format_faithful_head : ∃ bytes, headOnly.encode = .ok bytes ∧ Plan.read bytes = .ok (nativePlan headOnly) ∧
    ∀ q, Plan.read (bytes ++ [0]) ≠ .ok q := by
  have hencode : headOnly.encode = .ok headOnly.encoded := by decide +kernel
  have hread : Plan.read headOnly.encoded = .ok (nativePlan headOnly) := by decide +kernel
  have hfits : Fits headOnly := ⟨by decide, by decide⟩
  obtain ⟨-, -, hwhole⟩ := token_format_faithful hencode hfits
  exact ⟨headOnly.encoded, hencode, hread, fun q => (hwhole _ _ hread).2 [0] q (List.cons_ne_nil 0 [])⟩

end Inferfabric.Native.TokenPlan
