-- SUMMARY: The two validations of an initialization plan accept the same plans, and what the native reader accepts.
import IronPangu.Native.Initialization.Read

open Rust Outcome Decoding Utf8 Inferfabric.Ir.Initialization

/-!
# Agreement on initialization plans

The compiler and the native executor validate a plan each on its own. Where a plan is
readable their loops agree step by step; a plan that the compiler accepts is readable.
-/

namespace Inferfabric.Native.Initialization

variable {plan : InitializationPlan} {s : String} {op : Instruction} {p : Ir.Initialization.Parameter}

/-! ## Strings -/

theorem validString_utf8 : validString (utf8 s) = true ↔ s ≠ "" ∧ (utf8 s).length ≤ 4096 ∧ nul ∉ s.toList := by
  simp [validString, utf8_eq_nil, zero_mem_utf8, and_assoc]

/-! ## Parameters -/

theorem nativeDType_injective : Function.Injective nativeDType := by
  intro d d' h
  cases d <;> cases d' <;> first | rfl | cases h

theorem elementBytes_nativeDType (d : Ir.Initialization.DType) : elementBytes (nativeDType d) = .ok d.bytes := by
  cases d <;> rfl

theorem dtype_bytes_pos (d : Ir.Initialization.DType) : 0 < d.bytes := by
  cases d <;> decide

theorem agree_multiply {n : Nat} {shape : List UInt64} (hn : 0 < n) (hshape : ∀ d ∈ shape, d.toNat ≤ int64Max) :
    Agree (Ir.Initialization.multiply n shape) (multiply n (shape.map fun d => (d.toNat : Int))) := by
  induction shape generalizing n with
  | nil => exact agree_ok n
  | cons d shape ih =>
    have hd : ¬d.toNat > i64Max := Nat.not_lt.mpr (hshape d List.mem_cons_self)
    have hzero : d = 0 ↔ d.toNat = 0 := UInt64.toNat_inj.symm
    rw [List.map_cons, Ir.Initialization.multiply, multiply]
    by_cases hpos : d.toNat = 0
    · rw [if_pos (Or.inl (hzero.mpr hpos)), if_pos (Or.inl (by rw [hpos]; rfl))]
      exact fun _ => by simp [fail]
    have hnative : (d.toNat : Int) ≤ 0 ∨ (d.toNat : Int).toNat > u64Max / n ↔ u64Max < n * d.toNat := by
      rw [Int.toNat_natCast, gt_iff_lt, Nat.div_lt_iff_lt_mul hn, Nat.mul_comm]
      omega
    rw [if_neg (not_or.mpr ⟨hzero.not.mpr hpos, hd⟩)]
    by_cases hfits : n * d.toNat ≤ u64Max
    · rw [checkedMul, if_pos hfits, okOr_some, ok_bind, if_neg (hnative.not.mpr (Nat.not_lt.mpr hfits)), Int.toNat_natCast]
      exact ih (Nat.mul_pos hn (Nat.pos_of_ne_zero hpos)) fun d hd => hshape d (List.mem_cons_of_mem _ hd)
    · rw [checkedMul, if_neg hfits, if_pos (hnative.mpr (Nat.not_le.mp hfits))]
      exact fun _ => by simp [fail]

theorem agree_bytes (h : ReadableParameter p) : Agree p.bytes (nativeParameter p).bytes := by
  rw [Ir.Initialization.Parameter.bytes, Parameter.bytes]
  refine agree_ite (by simp [nativeParameter]) fun _ => ?_
  rw [nativeParameter, elementBytes_nativeDType, ok_bind]
  exact agree_multiply (dtype_bytes_pos p.dtype) h.2.2.2

theorem agree_add {total bytes : Nat} {e : String} (hbytes : bytes ≤ u64Max) : Agree (okOr (checkedAdd u64Max total bytes) e) (add total bytes) := by
  intro a
  rw [okOr_eq_ok, checkedAdd_eq_some, add]
  split
  · simp only [fail_ne_ok, iff_false]
    omega
  · rw [Outcome.ok.injEq]
    omega

theorem agree_validateParameters {i total : Nat} {names : List String} {ps : List Ir.Initialization.Parameter}
    (h : ∀ p ∈ ps, ReadableParameter p) : Agree (Ir.Initialization.validateParameters i names total ps)
      (validateParameters i (names.map utf8) total (ps.map nativeParameter)) := by
  induction ps generalizing i total names with
  | nil => exact agree_ok ()
  | cons p ps ih =>
    obtain ⟨hp, hps⟩ := List.forall_mem_cons.mp h
    have hname : validString (utf8 p.name) = true := hp.1
    obtain ⟨hempty, hlong, hnul⟩ := validString_utf8.mp hname
    rw [Ir.Initialization.validateParameters, List.map_cons, validateParameters]
    refine agree_ite ?_ fun _ => ?_
    · rw [nativeParameter, hname, List.mem_map_of_injective utf8_injective]
      simp [hempty, hnul, Nat.not_lt.mpr hlong]
    · refine (agree_bytes hp).bind fun bytes hbytes => ?_
      have hsmall : bytes ≤ u64Max := (bytes_eq_ok ((agree_bytes hp bytes).mp hbytes)).1
      exact (agree_add hsmall).bind fun _ _ => ih hps

/-! ## Slices -/

theorem agree_span (h : ReadableInstruction op) : Agree op.span (nativeSlice op).sourceSpan := by
  rw [Instruction.span, LoadSlice.sourceSpan]
  cases hrows : op.sourceRows with
  | none =>
    simp only [nativeSlice, nativeRows, hrows]
    exact agree_ok _
  | some rows =>
    have hpos : rows.rowBytes.toNat ≠ 0 := UInt64.toNat_inj.not.mpr (h.2 rows hrows)
    simp only [nativeSlice, nativeRows, hrows]
    rw [if_neg hpos, elementBytes_nativeDType, ok_bind]
    refine agree_ite ?_ fun hchecks => ?_
    · have hzero : op.bytes = 0 ↔ op.bytes.toNat = 0 := UInt64.toNat_inj.symm
      rw [hzero, UInt64.lt_iff_toNat_lt]
      simp only [h.2 rows hrows, false_or]
    · simp only [not_or, UInt64.lt_iff_toNat_lt, Nat.not_lt] at hchecks
      have hstride : 0 < rows.strideBytes.toNat := by omega
      intro a
      rw [okOr_eq_ok, Option.bind_eq_some_iff]
      simp only [checkedMul_eq_some, checkedAdd_eq_some]
      have hcount : op.bytes.toNat / rows.rowBytes.toNat - 1 > u64Max / rows.strideBytes.toNat ↔
          u64Max < (op.bytes.toNat / rows.rowBytes.toNat - 1) * rows.strideBytes.toNat := Nat.div_lt_iff_lt_mul hstride
      have hrow : rows.rowBytes.toNat ≤ u64Max := Nat.le_of_lt_succ rows.rowBytes.toNat_lt
      split
      · rename_i hlarge
        simp only [fail_ne_ok, iff_false]
        rintro ⟨n, ⟨hsmall, -⟩, -⟩
        exact absurd hsmall (Nat.not_le.mpr (hcount.mp hlarge))
      · rename_i hsmall
        rw [hcount, Nat.not_lt] at hsmall
        rw [← agree_add (e := "") hrow, okOr_eq_ok, checkedAdd_eq_some]
        constructor
        · rintro ⟨n, ⟨-, rfl⟩, hsum⟩
          exact hsum
        · intro hsum
          exact ⟨_, ⟨hsmall, rfl⟩, hsum⟩

theorem span_le {span : Nat} (h : op.span = .ok span) : span ≤ u64Max := by
  rw [Instruction.span] at h
  split at h
  · obtain rfl := Outcome.ok.inj h
    exact Nat.le_of_lt_succ op.bytes.toNat_lt
  · split at h
    · cases h
    · rw [okOr_eq_ok, Option.bind_eq_some_iff] at h
      obtain ⟨n, -, hsum⟩ := h
      rw [checkedAdd_eq_some] at hsum
      omega

/-- The end of a slice, and the test on it. -/
theorem agree_end {offset span : Nat} {e e' : String} (hspan : span ≤ u64Max) :
    Agree (if (checkedAdd u64Max offset span).all (· > i64Max) then .err e else .ok ())
      (do let stop ← add offset span; if stop > int64Max then fail e' else .ok ()) := by
  rintro ⟨⟩
  rw [bind_eq_ok]
  simp only [← agree_add (e := "") hspan _, okOr_eq_ok, checkedAdd_eq_some]
  have hbound : i64Max = int64Max := rfl
  by_cases hfits : offset + span ≤ u64Max
  · rw [checkedAdd, if_pos hfits]
    simp [hfits, hbound]
  · rw [checkedAdd, if_neg hfits]
    simp [hfits]

theorem agree_validateSlice (hop : ReadableInstruction op) (hp : ReadableParameter p) :
    Agree (Ir.Initialization.validateSlice op p) (validateSlice (nativeSlice op) (nativeParameter p)) := by
  rw [Ir.Initialization.validateSlice, validateSlice, nativeSlice, nativeParameter]
  dsimp only
  rw [elementBytes_nativeDType, ok_bind]
  refine agree_ite ?_ fun _ => ?_
  · have hbf16 : op.sourceDtype = .bf16 ↔ nativeDType op.sourceDtype = .bf16 := (nativeDType_injective.eq_iff' rfl).symm
    have hf32 : p.dtype = .f32 ↔ nativeDType p.dtype = .f32 := (nativeDType_injective.eq_iff' rfl).symm
    rw [hbf16, hf32, nativeDType_injective.ne_iff]
  refine (agree_bytes hp).bind fun bytes _ => ?_
  rw [elementBytes_nativeDType, ok_bind]
  have hcount : bytes / p.dtype.bytes > u64Max / op.sourceDtype.bytes ∨
      bytes / p.dtype.bytes * op.sourceDtype.bytes ≠ op.bytes.toNat ↔
      checkedMul u64Max (bytes / p.dtype.bytes) op.sourceDtype.bytes ≠ some op.bytes.toNat := by
    rw [gt_iff_lt, Nat.div_lt_iff_lt_mul (dtype_bytes_pos op.sourceDtype), Ne, Ne, checkedMul_eq_some, not_and_or, Nat.not_le]
  by_cases hbytes : checkedMul u64Max (bytes / p.dtype.bytes) op.sourceDtype.bytes = some op.bytes.toNat
  · rw [if_neg (hcount.not.mpr (not_not.mpr hbytes))]
    refine (agree_span hop).bind fun span hspan => ?_
    simp only [hbytes, ne_eq, not_true_eq_false, false_or]
    exact agree_end (span_le hspan)
  · rw [if_pos (hcount.mpr hbytes)]
    intro a
    simp only [bind_eq_ok, ne_eq, hbytes, not_false_eq_true, true_or, if_true]
    simp

/-- A shard's name is refused on both sides, or on neither. -/
theorem shard_refused_iff : (s = "" ∨ (utf8 s).length > 4096 ∨ s = "." ∨ s = ".." ∨ s.toList.any (· ∈ separators)) ↔
    (validString (utf8 s) = false ∨ utf8 s = [ascii '.'] ∨ utf8 s = [ascii '.', ascii '.'] ∨
      ∃ c ∈ utf8 s, c = ascii '/' ∨ c = ascii '\\' ∨ c = ascii ':') := by
  have hdot : utf8 s = [ascii '.'] ↔ s = "." := utf8_injective.eq_iff' rfl
  have hdots : utf8 s = [ascii '.', ascii '.'] ↔ s = ".." := utf8_injective.eq_iff' rfl
  have hslash : ascii '/' ∈ utf8 s ↔ '/' ∈ s.toList := mem_utf8 (c := '/') (by decide)
  have hback : ascii '\\' ∈ utf8 s ↔ '\\' ∈ s.toList := mem_utf8 (c := '\\') (by decide)
  have hcolon : ascii ':' ∈ utf8 s ↔ ':' ∈ s.toList := mem_utf8 (c := ':') (by decide)
  have hseparators : s.toList.any (· ∈ separators) = true ↔ nul ∈ s.toList ∨ '/' ∈ s.toList ∨ '\\' ∈ s.toList ∨ ':' ∈ s.toList := by
    have hlist : separators = [nul, '/', '\\', ':'] := rfl
    rw [hlist, List.any_eq_true]
    simp only [decide_eq_true_eq, List.mem_cons, List.not_mem_nil, or_false, and_or_left, exists_or, exists_eq_right]
  have hbytes : (∃ c ∈ utf8 s, c = ascii '/' ∨ c = ascii '\\' ∨ c = ascii ':') ↔
      '/' ∈ s.toList ∨ '\\' ∈ s.toList ∨ ':' ∈ s.toList := by
    simp only [and_or_left, exists_or, exists_eq_right, hslash, hback, hcolon]
  rw [hseparators, hbytes, hdot, hdots, ← Bool.not_eq_true, validString_utf8]
  simp only [ne_eq, not_and_or, not_not, Nat.not_le, gt_iff_lt, or_assoc]
  rw [or_left_comm (a := s = "..") (b := nul ∈ s.toList), or_left_comm (a := s = ".") (b := nul ∈ s.toList)]

theorem agree_validateInstructions {parameters : List Ir.Initialization.Parameter} {produced : List UInt32} {ops : List Instruction}
    (hparameters : ∀ p ∈ parameters, ReadableParameter p) (h : ∀ op ∈ ops, ReadableInstruction op) :
    Agree (Ir.Initialization.validateInstructions parameters produced ops)
      (validateInstructions (parameters.map nativeParameter) (produced.map UInt32.toNat) (ops.map nativeSlice)) := by
  induction ops generalizing produced with
  | nil => exact agree_ok ()
  | cons op ops ih =>
    obtain ⟨hop, hops⟩ := List.forall_mem_cons.mp h
    rw [Ir.Initialization.validateInstructions, List.map_cons, validateInstructions]
    have hdestination : (nativeSlice op).destination = op.destination.toNat := rfl
    rw [hdestination, List.getElem?_map]
    cases hp : parameters[op.destination.toNat]? with
    | none => exact fun _ => by simp [fail]
    | some p =>
      have hinjective : Function.Injective UInt32.toNat := fun a b => UInt32.toNat_inj.mp
      refine agree_ite (List.mem_map_of_injective hinjective).symm fun _ => ?_
      refine agree_ite shard_refused_iff fun _ => ?_
      refine (agree_validateSlice hop (hparameters p (List.mem_of_getElem? hp))).bind fun _ _ => ?_
      exact ih hops

/-- Readable plans are accepted on both sides, or on neither. -/
theorem agree_validate (h : Readable plan) : Agree plan.validate (nativePlan plan).validate := by
  rw [InitializationPlan.validate, Plan.validate]
  refine agree_ite (by simp [nativePlan]) fun _ => ?_
  refine agree_ite Iff.rfl fun _ => ?_
  refine (agree_validateParameters h.parameters).bind fun _ _ => ?_
  exact agree_validateInstructions h.parameters h.instructions

/-! ## What the compiler accepts is readable -/

theorem le_of_multiply {n m : Nat} {shape : List UInt64} (h : Ir.Initialization.multiply n shape = .ok m) :
    ∀ d ∈ shape, d.toNat ≤ int64Max := by
  induction shape generalizing n with
  | nil => simp
  | cons d shape ih =>
    rw [Ir.Initialization.multiply] at h
    split at h
    · cases h
    · rename_i hd
      obtain ⟨n', -, h⟩ := bind_eq_ok.mp h
      exact List.forall_mem_cons.mpr ⟨Nat.not_lt.mp (not_or.mp hd).2, ih h⟩

theorem readable_of_validateParameters {i total : Nat} {names : List String} {ps : List Ir.Initialization.Parameter}
    (h : Ir.Initialization.validateParameters i names total ps = .ok ()) : ∀ p ∈ ps, ReadableParameter p := by
  induction ps generalizing i total names with
  | nil => simp
  | cons p ps ih =>
    rw [Ir.Initialization.validateParameters] at h
    split at h
    · cases h
    rename_i hname
    simp only [not_or, Nat.not_lt] at hname
    obtain ⟨bytes, hbytes, h⟩ := bind_eq_ok.mp h
    obtain ⟨total', -, h⟩ := bind_eq_ok.mp h
    rw [Ir.Initialization.Parameter.bytes] at hbytes
    split at hbytes
    · cases hbytes
    rename_i hrank
    simp only [not_or, Nat.not_lt] at hrank
    refine List.forall_mem_cons.mpr ⟨⟨?_, hrank.1, hrank.2, le_of_multiply hbytes⟩, ih h⟩
    exact validString_utf8.mpr ⟨hname.2.1, hname.2.2.1, hname.2.2.2.1⟩

theorem rowBytes_ne_zero {span : Nat} {rows : SourceRows} (h : op.span = .ok span) (hrows : op.sourceRows = some rows) :
    rows.rowBytes ≠ 0 := by
  rw [Instruction.span, hrows] at h
  dsimp only at h
  intro hzero
  rw [if_pos (Or.inl hzero)] at h
  cases h

theorem readable_of_validateInstructions {parameters : List Ir.Initialization.Parameter} {produced : List UInt32}
    {ops : List Instruction} (h : Ir.Initialization.validateInstructions parameters produced ops = .ok ()) :
    ∀ op ∈ ops, ReadableInstruction op := by
  induction ops generalizing produced with
  | nil => simp
  | cons op ops ih =>
    rw [Ir.Initialization.validateInstructions] at h
    cases hp : parameters[op.destination.toNat]? with
    | none =>
      rw [hp] at h
      cases h
    | some p =>
      rw [hp] at h
      dsimp only at h
      split at h
      · cases h
      split at h
      · cases h
      rename_i hshard
      rw [shard_refused_iff, not_or, Bool.not_eq_false] at hshard
      obtain ⟨⟨⟩, hslice, h⟩ := bind_eq_ok.mp h
      rw [Ir.Initialization.validateSlice] at hslice
      split at hslice
      · cases hslice
      obtain ⟨bytes, -, hslice⟩ := bind_eq_ok.mp hslice
      obtain ⟨span, hspan, -⟩ := bind_eq_ok.mp hslice
      exact List.forall_mem_cons.mpr ⟨⟨hshard.1, fun _ hrows => rowBytes_ne_zero hspan hrows⟩, ih h⟩

/-- A string of hexadecimal digits has no zero byte. -/
theorem validString_of_hexdigits (hlength : (utf8 s).length = 64) (hdigits : (utf8 s).all isHexdigit = true) :
    validString (utf8 s) = true := by
  have hzero : 0 ∉ utf8 s := fun hmem => absurd (List.all_eq_true.mp hdigits 0 hmem) (by decide)
  have hempty : utf8 s ≠ [] := by
    intro hnil
    rw [hnil] at hlength
    cases hlength
  simp [validString, hempty, hlength, hzero]

theorem readable_of_validate (h : plan.validate = .ok ()) : Readable plan := by
  rw [InitializationPlan.validate] at h
  split at h
  · cases h
  rename_i hcounts
  simp only [not_or, not_not, Nat.not_lt] at hcounts
  split at h
  · cases h
  rename_i hsha
  simp only [not_or, not_not] at hsha
  obtain ⟨⟨⟩, hparameters, hinstructions⟩ := bind_eq_ok.mp h
  exact ⟨validString_of_hexdigits hsha.1 hsha.2, hcounts.1, hcounts.2.1, hcounts.2.2, readable_of_validateParameters hparameters,
    readable_of_validateInstructions hinstructions⟩

theorem validate_iff : plan.validate = .ok () ↔ Readable plan ∧ (nativePlan plan).validate = .ok () := by
  constructor
  · intro h
    have hreadable := readable_of_validate h
    exact ⟨hreadable, (agree_validate hreadable ()).mp h⟩
  · rintro ⟨hreadable, h⟩
    exact (agree_validate hreadable ()).mpr h

/-! ## What the reader accepts -/

variable {input : Bytes} {q : Plan}

theorem read_eq_ok : Plan.read input = .ok q ↔ readPlan input = (.ok q, []) ∧ q.validate = .ok () := by
  rw [Plan.read]
  rcases readPlan input with ⟨result, rest⟩
  cases result with
  | ok p =>
    cases rest with
    | nil =>
      simp only [check_bind_eq_ok, Outcome.ok.injEq, Prod.mk.injEq, and_true]
      constructor
      · rintro ⟨hvalid, rfl⟩
        exact ⟨rfl, hvalid⟩
      · rintro ⟨rfl, hvalid⟩
        exact ⟨hvalid, rfl⟩
    | cons _ _ => simp
  | err e => simp
  | panic => simp

theorem ids_of_validateParameters {i total : Nat} {names : List Bytes} {ps : List Parameter}
    (h : validateParameters i names total ps = .ok ()) : ps.map (·.id) = List.range' i ps.length := by
  induction ps generalizing i total names with
  | nil => rfl
  | cons p ps ih =>
    rw [validateParameters] at h
    split at h
    · cases h
    rename_i hname
    obtain ⟨bytes, -, h⟩ := bind_eq_ok.mp h
    obtain ⟨total', -, h⟩ := bind_eq_ok.mp h
    rw [List.map_cons, List.length_cons, List.range'_succ, ih h, not_not.mp (not_or.mp hname).1]

/-- The parameters have the numbers from zero, and every slice fills another of them. -/
theorem numbers_of_validate (h : q.validate = .ok ()) : q.parameters.map (·.id) = List.range q.parameters.length ∧
    (q.instructions.map (·.destination)).Nodup ∧ ∀ op ∈ q.instructions, op.destination < q.parameters.length := by
  have hvalid := valid_of_validate h
  refine ⟨?_, hvalid.distinct, fun op hop => ?_⟩
  · rw [Plan.validate] at h
    split at h
    · cases h
    split at h
    · cases h
    obtain ⟨⟨⟩, hparameters, -⟩ := bind_eq_ok.mp h
    rw [ids_of_validateParameters hparameters, List.range_eq_range']
  · obtain ⟨p, span, hp, -⟩ := hvalid.slices op hop
    exact (List.getElem?_eq_some_iff.mp hp).1

/-- No part of what is accepted is accepted, and nothing that goes on after it. -/
theorem read_whole (h : Plan.read input = .ok q) : (∀ first second q', input = first ++ second → second ≠ [] → Plan.read first ≠ .ok q') ∧
    ∀ tail q', tail ≠ [] → Plan.read (input ++ tail) ≠ .ok q' := by
  obtain ⟨hread, -⟩ := read_eq_ok.mp h
  obtain ⟨used, hinput, hused, hshort⟩ := framed_readPlan input q [] hread
  rw [List.append_nil] at hinput
  subst hinput
  refine ⟨fun first second q' happend hne hcut => ?_, fun tail q' hne hmore => ?_⟩
  · exact hshort first second happend hne _ _ (read_eq_ok.mp hcut).1
  · have hrest := (hused tail).symm.trans (read_eq_ok.mp hmore).1
    exact hne (Prod.mk.inj hrest).2

/-- What the bytes of a plan are read as. -/
theorem read_encoded (h : Fits plan) : Plan.read plan.encoded = .ok q ↔ plan.validate = .ok () ∧ q = nativePlan plan := by
  have hreads := reads_plan h
  rw [read_eq_ok, validate_iff]
  constructor
  · rintro ⟨hread, hvalid⟩
    have hread' : readPlan (plan.encoded ++ []) = (.ok q, []) := by rwa [List.append_nil]
    have hreadable := hreads.only _ _ _ hread'
    have hsame := (hreads.accepts hreadable []).symm.trans hread'
    obtain rfl : nativePlan plan = q := Outcome.ok.inj (Prod.mk.inj hsame).1
    exact ⟨⟨hreadable, hvalid⟩, rfl⟩
  · rintro ⟨⟨hreadable, hvalid⟩, rfl⟩
    have hread := hreads.accepts hreadable []
    rw [List.append_nil] at hread
    exact ⟨hread, hvalid⟩

/-- The format of initialization plans. -/
theorem format_agrees (h : Fits plan) :
    -- Both validations accept the same plans, and the plan that is read is the one written.
    (plan.validate = .ok () ↔ ∃ q, Plan.read plan.encoded = .ok q) ∧
    (∀ bytes, encode plan = .ok bytes → Plan.read bytes = .ok (nativePlan plan)) ∧
    (∀ q, Plan.read plan.encoded = .ok q → q = nativePlan plan ∧ encode plan = .ok plan.encoded) ∧
    -- Nothing shorter or longer than an accepted file is accepted.
    (∀ input q, Plan.read input = .ok q →
      (∀ first second q', input = first ++ second → second ≠ [] → Plan.read first ≠ .ok q') ∧
      ∀ tail q', tail ≠ [] → Plan.read (input ++ tail) ≠ .ok q') ∧
    -- Parameter numbers neither repeat nor dangle in an accepted file.
    ∀ input q, Plan.read input = .ok q → q.parameters.map (·.id) = List.range q.parameters.length ∧
      (q.instructions.map (·.destination)).Nodup ∧ ∀ op ∈ q.instructions, op.destination < q.parameters.length := by
  refine ⟨?_, fun bytes hencode => ?_, fun q hread => ?_, fun input q hread => read_whole hread, fun input q hread => ?_⟩
  · constructor
    · intro hvalid
      exact ⟨nativePlan plan, (read_encoded h).mpr ⟨hvalid, rfl⟩⟩
    · rintro ⟨q, hread⟩
      exact ((read_encoded h).mp hread).1
  · obtain ⟨hvalid, hbytes⟩ := check_bind_eq_ok.mp hencode
    obtain rfl := Outcome.ok.inj hbytes
    exact (read_encoded h).mpr ⟨hvalid, rfl⟩
  · obtain ⟨hvalid, hsame⟩ := (read_encoded h).mp hread
    exact ⟨hsame, check_bind_eq_ok.mpr ⟨hvalid, rfl⟩⟩
  · exact numbers_of_validate (read_eq_ok.mp hread).2

/-- Two rows of a matrix of 2-byte numbers, widened to 4 bytes, in a checkpoint of rows of 8. -/
def widened : InitializationPlan where
  rank := 1
  device := 0
  checkpointMetadataSha256 := "0123456789abcdef0123456789abcdef0123456789abcdef0123456789abcdef"
  parameters := [⟨0, "weight", .f32, [2, 2]⟩]
  instructions := [⟨0, "model.bin", 16, 8, .bf16, some ⟨4, 8⟩⟩]

theorem format_agrees_widened : Plan.read widened.encoded = .ok (nativePlan widened) ∧
    (∀ q, Plan.read (widened.encoded ++ [0]) ≠ .ok q) ∧ (nativePlan widened).parameters.map (·.id) = List.range 1 := by
  have hfits : Fits widened := ⟨by decide +kernel, by decide, by decide, by decide +kernel, by decide +kernel⟩
  have hvalid : widened.validate = .ok () := by decide +kernel
  obtain ⟨-, hread, -, hwhole, hnumbers⟩ := format_agrees hfits
  have hwidened := hread widened.encoded (check_bind_eq_ok.mpr ⟨hvalid, rfl⟩)
  refine ⟨hwidened, fun q => ?_, (hnumbers _ _ hwidened).1⟩
  exact (hwhole _ _ hwidened).2 [0] q (List.cons_ne_nil 0 [])

end Inferfabric.Native.Initialization
