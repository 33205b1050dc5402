-- SUMMARY: What the verification of an invocation establishes of its views and its workspace.
import IronPangu.Plan.DeviceBuffer

open Rust

/-!
# Verified invocations

The views of a verified invocation are contiguous and aligned within their
allocations, and no range that is written overlaps another range of its allocation.
-/

namespace Inferfabric.Plan.DeviceBuffer

open Ir

/-! ## Ranges -/

def TensorView.bytes (v : TensorView) : Nat := v.shape.prod * v.dtype.bytes

def Disjoint (a b : Nat × Nat) : Prop := a.2 ≤ b.1 ∨ b.2 ≤ a.1

theorem Disjoint.symm {a b : Nat × Nat} (h : Disjoint a b) : Disjoint b a := Or.symm h

theorem overlap_eq_false {a b : Nat × Nat} : overlap a b = false ↔ Disjoint a b := by
  simp only [overlap, Bool.and_eq_false_iff, decide_eq_false_iff_not, Disjoint]
  omega

theorem Disjoint.shift {a b : Nat × Nat} (h : Disjoint a b) (base : Nat) :
    Disjoint (base + a.1, base + a.2) (base + b.1, base + b.2) := by
  simp only [Disjoint] at h ⊢
  omega

theorem Disjoint.of_inside {a b a' b' : Nat × Nat} (h : Disjoint a b) (ha : a.1 ≤ a'.1 ∧ a'.2 ≤ a.2)
    (hb : b.1 ≤ b'.1 ∧ b'.2 ≤ b.2) : Disjoint a' b' := by
  simp only [Disjoint] at h ⊢
  omega

theorem limit_eq_ok {offset bytes capacity stop : Nat} :
    limit offset bytes capacity = .ok stop ↔
      0 < bytes ∧ offset + bytes ≤ capacity ∧ offset + bytes ≤ u64Max ∧ stop = offset + bytes := by
  simp only [limit, Outcome.bind_eq_ok, Outcome.okOr_eq_ok, checkedAdd_eq_some]
  constructor
  · rintro ⟨n, ⟨hmax, rfl⟩, h⟩
    split at h
    · simp [invalid] at h
    · simp only [Outcome.ok.injEq] at h
      omega
  · rintro ⟨hpos, hcap, hmax, rfl⟩
    exact ⟨_, ⟨hmax, rfl⟩, if_neg (by omega)⟩

theorem isAlignment_eq_true {a : Nat} : isAlignment a = true ↔ a.isPowerOfTwo := by
  simp only [isAlignment, Bool.and_eq_true, decide_eq_true_eq]
  exact ⟨And.right, fun h => ⟨by obtain ⟨k, rfl⟩ := h; simp, h⟩⟩

theorem dvd_of_isAlignment {a b : Nat} (ha : isAlignment a = true) (hb : isAlignment b = true) (h : a ≤ b) : a ∣ b := by
  obtain ⟨i, rfl⟩ := isAlignment_eq_true.mp ha
  obtain ⟨j, rfl⟩ := isAlignment_eq_true.mp hb
  exact Nat.pow_dvd_pow 2 ((Nat.pow_le_pow_iff_right (by decide)).mp h)

/-! ## Contiguous views -/

theorem contiguous_eq_ok {dims : List (Nat × Nat)} {stride n : Nat} (h : contiguous dims stride = .ok n) :
    n = stride * (dims.map (·.1)).prod ∧ (0 < stride → 0 < n) ∧
      ∀ d ∈ dims, 0 < d.1 ∧ d.1 ≤ i64Max ∧ d.2 ≤ i64Max := by
  induction dims generalizing stride with
  | nil => simp_all [contiguous]
  | cons d dims ih =>
    obtain ⟨dim, actual⟩ := d
    simp only [contiguous] at h
    split at h
    · simp [invalid] at h
    · rename_i hdim
      simp only [Outcome.bind_eq_ok, Outcome.okOr_eq_ok, checkedMul_eq_some] at h
      obtain ⟨next, ⟨hmax, rfl⟩, h⟩ := h
      obtain ⟨hn, hpos, hrest⟩ := ih h
      push Not at hdim
      obtain ⟨hzero, hdimMax, hstride, hactual⟩ := hdim
      refine ⟨by simp [hn, mul_assoc], fun hs => hpos (Nat.mul_pos hs (Nat.pos_of_ne_zero hzero)), ?_⟩
      rintro d hd
      rcases List.mem_cons.mp hd with rfl | hd
      · exact ⟨Nat.pos_of_ne_zero hzero, hdimMax, hactual ▸ hstride⟩
      · exact hrest d hd

/-- What `byte_span` accepts: its extent, and the shape and strides of a kernel descriptor. -/
structure TensorView.Contiguous (v : TensorView) : Prop where
  rank : 0 < v.shape.length ∧ v.shape.length ≤ 8
  strides : v.strides.length = v.shape.length
  elements : contiguous (v.shape.zip v.strides).reverse 1 = .ok v.shape.prod
  positive : 0 < v.shape.prod
  dims : ∀ d ∈ v.shape, d ≤ i64Max
  steps : ∀ s ∈ v.strides, s ≤ i64Max
  fits : v.bytes ≤ u64Max

theorem dtype_bytes_pos (d : DType) : 0 < d.bytes := by
  cases d <;> decide

theorem byteSpan_eq_ok {v : TensorView} {n : Nat} (h : v.byteSpan = .ok n) : v.Contiguous ∧ n = v.bytes := by
  simp only [TensorView.byteSpan] at h
  split at h
  · simp [invalid] at h
  · rename_i hrank
    push Not at hrank
    obtain ⟨hne, hle, hstrides⟩ := hrank
    simp only [Outcome.bind_eq_ok, Outcome.okOr_eq_ok, checkedMul_eq_some] at h
    obtain ⟨count, hcount, hmax, rfl⟩ := h
    obtain ⟨hn, hpos, hdims⟩ := contiguous_eq_ok hcount
    have hfst : (v.shape.zip v.strides).map (·.1) = v.shape := List.map_fst_zip (by omega)
    have hsnd : (v.shape.zip v.strides).map (·.2) = v.strides := List.map_snd_zip (by omega)
    have hcount' : count = v.shape.prod := by rw [hn, one_mul, List.map_reverse, List.prod_reverse, hfst]
    subst hcount'
    refine ⟨⟨⟨List.length_pos_of_ne_nil hne, hle⟩, hstrides, hcount, hpos one_pos, ?_, ?_, hmax⟩, rfl⟩
    · intro d hd
      obtain ⟨p, hp, rfl⟩ := List.mem_map.mp (hfst ▸ hd)
      exact (hdims p (List.mem_reverse.mpr hp)).2.1
    · intro s hs
      obtain ⟨p, hp, rfl⟩ := List.mem_map.mp (hsnd ▸ hs)
      exact (hdims p (List.mem_reverse.mpr hp)).2.2

theorem TensorView.Contiguous.byteSpan {v : TensorView} (h : v.Contiguous) : v.byteSpan = .ok v.bytes := by
  have hrank : ¬(v.shape = [] ∨ v.shape.length > 8 ∨ v.strides.length ≠ v.shape.length) := by
    have hne := List.ne_nil_of_length_pos h.rank.1
    simp [hne, h.strides, h.rank.2]
  have hfits : v.shape.prod * v.dtype.bytes ≤ u64Max := h.fits
  simp [TensorView.byteSpan, hrank, h.elements, checkedMul, hfits, TensorView.bytes]

theorem TensorView.Contiguous.bytes_pos {v : TensorView} (h : v.Contiguous) : 0 < v.bytes :=
  Nat.mul_pos h.positive (dtype_bytes_pos v.dtype)

/-! ## Verified invocations -/

/-- The range of a view within its allocation. -/
def TensorView.within (v : TensorView) : Nat × Nat × Nat := (v.allocation, v.offset, v.offset + v.bytes)

def Workspace.within (w : Workspace) : Nat × Nat × Nat := (w.allocation, w.offset, w.offset + w.bytes)

/-- Ranges of allocations that do not overlap. -/
def Separate (a b : Nat × Nat × Nat) : Prop := a.1 = b.1 → Disjoint a.2 b.2

theorem Separate.symm {a b : Nat × Nat × Nat} (h : Separate a b) : Separate b a :=
  fun heq => (h heq.symm).symm

theorem aliases_eq_false {a b : Nat × Nat × Nat} : Invocation.aliases a b = false ↔ Separate a b := by
  simp only [Invocation.aliases, Bool.and_eq_false_iff, decide_eq_false_iff_not, overlap_eq_false, Separate]
  exact imp_iff_not_or.symm

namespace Invocation

/-- A nonempty aligned range of an allocation of the invocation. -/
structure RangeOf (call : Invocation) (range : Nat × Nat × Nat) (alignment : Nat) : Prop where
  nonempty : range.2.1 < range.2.2
  aligned : alignment ∣ range.2.1
  inside : ∃ a, call.allocation range.1 = some a ∧ alignment ∣ a.alignment ∧ range.2.2 ≤ a.bytes

structure ViewOf (call : Invocation) (access : Access) (v : TensorView) : Prop where
  access : v.access = access
  contiguous : v.Contiguous
  range : call.RangeOf v.within v.alignment

structure WorkspaceOf (call : Invocation) (w : Workspace) : Prop where
  range : call.RangeOf w.within w.alignment
  tensors : ∀ v ∈ call.inputs ++ call.outputs, Separate w.within v.within

/-- What `verify` establishes of an invocation. -/
structure Verified (call : Invocation) : Prop where
  inputPorts : call.inputs ≠ [] ∧ call.inputs.length ≤ 64
  outputPorts : call.outputs ≠ [] ∧ call.outputs.length ≤ 64
  distinct : (call.allocations.map (·.id)).Nodup
  inputs : ∀ v ∈ call.inputs, call.ViewOf .read v
  outputs : ∀ v ∈ call.outputs, call.ViewOf .write v
  outputsInputs : ∀ v ∈ call.outputs, ∀ u ∈ call.inputs, Separate v.within u.within
  outputsApart : call.outputs.Pairwise fun u v => Separate u.within v.within
  workspace : ∀ w, call.workspace = some w → call.WorkspaceOf w

variable {call : Invocation}

theorem checkHeader_eq_ok (h : call.checkHeader = .ok ()) :
    (call.inputs ≠ [] ∧ call.inputs.length ≤ 64) ∧ call.outputs ≠ [] ∧ call.outputs.length ≤ 64 := by
  simp only [checkHeader] at h
  split at h
  · simp [invalid] at h
  · rename_i hheader
    push Not at hheader
    obtain ⟨-, -, -, -, -, -, -, hinputs, houtputs, hin, hout⟩ := hheader
    exact ⟨⟨hinputs, hin⟩, houtputs, hout⟩

theorem checkAllocations_eq_ok {seen : List Nat} {as : List Allocation} (h : call.checkAllocations seen as = .ok ()) :
    (as.map (·.id)).Nodup ∧ (∀ a ∈ as, a.id ∉ seen) ∧ ∀ a ∈ as, isAlignment a.alignment = true := by
  induction as generalizing seen with
  | nil => simp
  | cons a as ih =>
    simp only [checkAllocations] at h
    split at h
    · simp [invalid] at h
    · rename_i hcheck
      push Not at hcheck
      obtain ⟨hseen, -, halign, -⟩ := hcheck
      obtain ⟨hnodup, hnot, hrest⟩ := ih h
      refine ⟨?_, ?_, ?_⟩
      · refine List.nodup_cons.mpr ⟨fun hmem => ?_, hnodup⟩
        obtain ⟨b, hb, hid⟩ := List.mem_map.mp hmem
        exact hnot b hb (hid ▸ List.mem_cons_self)
      · intro b hb
        rcases List.mem_cons.mp hb with rfl | hb
        · exact hseen
        · exact fun hmem => hnot b hb (List.mem_cons_of_mem _ hmem)
      · intro b hb
        rcases List.mem_cons.mp hb with rfl | hb
        · exact Bool.eq_true_of_not_eq_false halign
        · exact hrest b hb

theorem checkView_eq_ok {access : Access} {v : TensorView} {range : Nat × Nat × Nat}
    (haligned : ∀ a ∈ call.allocations, isAlignment a.alignment = true)
    (h : call.checkView access v = .ok range) : call.ViewOf access v ∧ range = v.within := by
  simp only [checkView, Outcome.bind_eq_ok, Outcome.okOr_eq_ok] at h
  obtain ⟨a, ha, h⟩ := h
  split at h
  · simp [invalid] at h
  · rename_i hcheck
    push Not at hcheck
    obtain ⟨haccess, -, halign, -, hle, hoffset⟩ := hcheck
    simp only [Outcome.bind_eq_ok] at h
    obtain ⟨span, hspan, stop, hstop, h⟩ := h
    obtain ⟨hcontiguous, rfl⟩ := byteSpan_eq_ok hspan
    obtain ⟨hpos, hcap, -, rfl⟩ := limit_eq_ok.mp hstop
    have hdvd := dvd_of_isAlignment (Bool.eq_true_of_not_eq_false halign)
      (haligned a (List.mem_of_find?_eq_some ha)) hle
    refine ⟨⟨haccess, hcontiguous, ?_, Nat.dvd_of_mod_eq_zero hoffset, a, ha, hdvd, hcap⟩, ?_⟩
    · exact Nat.lt_add_of_pos_right hpos
    · simpa [TensorView.within, eq_comm] using h

/-- The views of one direction, with the ranges they were given. -/
theorem collect_checkView {access : Access} {views : List TensorView} {ranges : List (Nat × Nat × Nat)}
    (haligned : ∀ a ∈ call.allocations, isAlignment a.alignment = true)
    (h : Outcome.collect (call.checkView access) views = .ok ranges) :
    (∀ v ∈ views, call.ViewOf access v) ∧ ranges = views.map (·.within) := by
  have hall : ∀ v ∈ views, ∃ range, call.checkView access v = .ok range := fun v hv =>
    let ⟨range, _, hrange⟩ := Outcome.collect_mem h hv
    ⟨range, hrange⟩
  have hmap : Outcome.collect (call.checkView access) views = .ok (views.map (·.within)) :=
    Outcome.collect_eq_map fun v hv => by
      obtain ⟨range, hrange⟩ := hall v hv
      rw [hrange, (checkView_eq_ok haligned hrange).2]
  refine ⟨fun v hv => ?_, by simpa [h] using hmap⟩
  obtain ⟨range, hrange⟩ := hall v hv
  exact (checkView_eq_ok haligned hrange).1

theorem checkOutputs_eq_ok {others outputs : List (Nat × Nat × Nat)} (h : checkOutputs others outputs = .ok ()) :
    (∀ o ∈ outputs, ∀ t ∈ others, Separate o t) ∧ outputs.Pairwise Separate := by
  induction outputs generalizing others with
  | nil => simp
  | cons o outputs ih =>
    simp only [checkOutputs] at h
    split at h
    · simp [invalid] at h
    · rename_i hany
      obtain ⟨hothers, hpairwise⟩ := ih h
      have ho : ∀ t ∈ others, Separate o t := by
        simpa [aliases_eq_false] using hany
      refine ⟨?_, List.pairwise_cons.mpr ⟨fun t ht => ?_, hpairwise⟩⟩
      · intro o' ho' t ht
        rcases List.mem_cons.mp ho' with rfl | ho'
        · exact ho t ht
        · exact hothers o' ho' t (List.mem_append_left _ ht)
      · exact (hothers t ht o (List.mem_append_right _ List.mem_cons_self)).symm

theorem checkWorkspace_eq_ok {tensors : List (Nat × Nat × Nat)} {w : Workspace}
    (haligned : ∀ a ∈ call.allocations, isAlignment a.alignment = true)
    (h : call.checkWorkspace tensors (some w) = .ok ()) :
    call.RangeOf w.within w.alignment ∧ ∀ t ∈ tensors, Separate w.within t := by
  simp only [checkWorkspace, Outcome.bind_eq_ok, Outcome.okOr_eq_ok] at h
  obtain ⟨a, ha, h⟩ := h
  split at h
  · simp [invalid] at h
  · rename_i hcheck
    push Not at hcheck
    obtain ⟨-, halign, -, hle, hoffset⟩ := hcheck
    simp only [Outcome.bind_eq_ok] at h
    obtain ⟨stop, hstop, h⟩ := h
    obtain ⟨hpos, hcap, -, rfl⟩ := limit_eq_ok.mp hstop
    have hdvd := dvd_of_isAlignment (Bool.eq_true_of_not_eq_false halign)
      (haligned a (List.mem_of_find?_eq_some ha)) hle
    split at h
    · simp [invalid] at h
    · rename_i hany
      refine ⟨⟨Nat.lt_add_of_pos_right hpos, Nat.dvd_of_mod_eq_zero hoffset, a, ha, hdvd, hcap⟩, ?_⟩
      simpa [aliases_eq_false, Workspace.within] using hany

theorem verified_of_verify (h : call.verify = .ok ()) :
    call.Verified ∧ ∀ a ∈ call.allocations, isAlignment a.alignment = true := by
  simp only [verify, Outcome.bind_eq_ok] at h
  obtain ⟨⟨⟩, hheader, ⟨⟩, hallocations, ins, hins, outs, houts, ⟨⟩, haliases, ⟨⟩, hworkspace, -⟩ := h
  obtain ⟨hinputPorts, houtputPorts⟩ := checkHeader_eq_ok hheader
  obtain ⟨hdistinct, -, haligned⟩ := checkAllocations_eq_ok hallocations
  obtain ⟨hinputs, rfl⟩ := collect_checkView haligned hins
  obtain ⟨houtputs, rfl⟩ := collect_checkView haligned houts
  obtain ⟨hothers, hpairwise⟩ := checkOutputs_eq_ok haliases
  refine ⟨⟨hinputPorts, houtputPorts, hdistinct, hinputs, houtputs, ?_, List.pairwise_map.mp hpairwise, ?_⟩, haligned⟩
  · intro v hv u hu
    exact hothers _ (List.mem_map_of_mem hv) _ (List.mem_map_of_mem hu)
  · intro w hw
    rw [hw] at hworkspace
    obtain ⟨hrange, htensors⟩ := checkWorkspace_eq_ok haligned hworkspace
    refine ⟨hrange, fun v hv => htensors _ ?_⟩
    rw [← List.map_append]
    exact List.mem_map_of_mem hv

end Invocation

end Inferfabric.Plan.DeviceBuffer
