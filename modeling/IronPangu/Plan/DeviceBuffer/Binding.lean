-- SUMMARY: A bound invocation is free of write aliases, in bounds and aligned, and a compiled kernel accepts it.
import IronPangu.Native.CompiledKernel
import IronPangu.Plan.DeviceBuffer.Verified

open Rust

/-!
# Binding

The residents of distinct allocations are disjoint. With what `verify` establishes
of each allocation, the bound descriptors overlap only where both are read, every
lookup of `bind` succeeds, and a kernel's own checks pass.
-/

namespace Inferfabric.Plan.DeviceBuffer

open Ir

/-! ## Residents -/

def ResidentAllocation.range (r : ResidentAllocation) : Nat × Nat := (r.base, r.base + r.bytes)

structure ResidentOf (call : Invocation) (r : ResidentAllocation) : Prop where
  base : 0 < r.base
  fits : r.base + r.bytes ≤ u64Max
  allocation : ∃ a, call.allocation r.id = some a ∧ a.bytes ≤ r.bytes ∧ a.alignment ∣ r.base

/-- What `bind` establishes of the residents. -/
structure Residents (call : Invocation) (residents : List ResidentAllocation) : Prop where
  distinct : (residents.map (·.id)).Nodup
  each : ∀ r ∈ residents, ResidentOf call r
  apart : residents.Pairwise fun r s => Disjoint r.range s.range

theorem checkResidents_eq_ok {call : Invocation} {seen : List Nat} {absolute : List (Nat × Nat)}
    {rs : List ResidentAllocation} (h : checkResidents call seen absolute rs = .ok ()) :
    Residents call rs ∧ (∀ r ∈ rs, r.id ∉ seen) ∧ ∀ r ∈ rs, ∀ range ∈ absolute, Disjoint r.range range := by
  induction rs generalizing seen absolute with
  | nil => exact ⟨⟨List.nodup_nil, by simp, List.Pairwise.nil⟩, by simp, by simp⟩
  | cons r rs ih =>
    simp only [checkResidents, Outcome.bind_eq_ok, Outcome.okOr_eq_ok, checkedAdd_eq_some] at h
    obtain ⟨a, ha, stop, ⟨hfits, rfl⟩, h⟩ := h
    split at h
    · simp [invalid] at h
    · rename_i hcheck
      push Not at hcheck
      obtain ⟨hseen, hbase, hbytes, -, -, halign, -, hany⟩ := hcheck
      obtain ⟨⟨hdistinct, heach, hapart⟩, hnot, hranges⟩ := ih h
      have hr : ∀ range ∈ absolute, Disjoint r.range range := by
        simpa [overlap_eq_false, ResidentAllocation.range] using hany
      refine ⟨⟨?_, ?_, ?_⟩, ?_, ?_⟩
      · refine List.nodup_cons.mpr ⟨fun hmem => ?_, hdistinct⟩
        obtain ⟨s, hs, hid⟩ := List.mem_map.mp hmem
        exact hnot s hs (hid ▸ List.mem_cons_self)
      · intro s hs
        rcases List.mem_cons.mp hs with rfl | hs
        · exact ⟨Nat.pos_of_ne_zero hbase, hfits, a, ha, hbytes, Nat.dvd_of_mod_eq_zero halign⟩
        · exact heach s hs
      · refine List.pairwise_cons.mpr ⟨fun s hs => ?_, hapart⟩
        exact (hranges s hs _ (List.mem_append_right _ List.mem_cons_self)).symm
      · intro s hs
        rcases List.mem_cons.mp hs with rfl | hs
        · exact hseen
        · exact fun hmem => hnot s hs (List.mem_cons_of_mem _ hmem)
      · intro s hs range hrange
        rcases List.mem_cons.mp hs with rfl | hs
        · exact hr range hrange
        · exact hranges s hs range (List.mem_append_left _ hrange)

theorem id_of_allocation {call : Invocation} {id : Nat} {a : Allocation} (h : call.allocation id = some a) :
    a ∈ call.allocations ∧ a.id = id :=
  ⟨List.mem_of_find?_eq_some h, by simpa using List.find?_some h⟩

/-- As many distinct residents as allocations are residents of all of them. -/
theorem Residents.find {call : Invocation} {residents : List ResidentAllocation} (h : Residents call residents)
    (hcount : residents.length = call.allocations.length) {id : Nat} {a : Allocation}
    (ha : call.allocation id = some a) : ∃ r, resident residents id = some r ∧ r ∈ residents ∧ r.id = id := by
  have hsub : residents.map (·.id) ⊆ call.allocations.map (·.id) := by
    intro i hi
    obtain ⟨r, hr, rfl⟩ := List.mem_map.mp hi
    obtain ⟨b, hb, -⟩ := (h.each r hr).allocation
    obtain ⟨hmem, hid⟩ := id_of_allocation hb
    exact List.mem_map.mpr ⟨b, hmem, hid⟩
  have hperm := (List.subperm_of_subset h.distinct hsub).perm_of_length_le (by simp [hcount])
  obtain ⟨hmem, rfl⟩ := id_of_allocation ha
  obtain ⟨r, hr, hid⟩ := List.mem_map.mp (hperm.mem_iff.mpr (List.mem_map_of_mem hmem))
  cases hfind : resident residents a.id with
  | none =>
    have := List.find?_eq_none.mp hfind r hr
    simp [hid] at this
  | some s => exact ⟨s, rfl, List.mem_of_find?_eq_some hfind, by simpa using List.find?_some hfind⟩

/-! ## Absolute ranges -/

/-- A range of an allocation at its address. -/
structure At (residents : List ResidentAllocation) (within : Nat × Nat × Nat) (alignment : Nat) (range : Nat × Nat) :
    Prop where
  lookup : ∃ r, resident residents within.1 = some r ∧ range = (r.base + within.2.1, r.base + within.2.2) ∧
    r.base ≤ range.1 ∧ range.2 ≤ r.base + r.bytes
  nonempty : 0 < range.1 ∧ range.1 < range.2
  fits : range.2 ≤ u64Max
  aligned : alignment ∣ range.1

theorem Residents.at {call : Invocation} {residents : List ResidentAllocation} (h : Residents call residents)
    {within : Nat × Nat × Nat} {alignment : Nat} (hrange : call.RangeOf within alignment) {r : ResidentAllocation}
    (hr : resident residents within.1 = some r) :
    At residents within alignment (r.base + within.2.1, r.base + within.2.2) := by
  have hmem : r ∈ residents := List.mem_of_find?_eq_some hr
  have hid : r.id = within.1 := by simpa using List.find?_some hr
  obtain ⟨hbase, hfits, a, ha, hbytes, haligned⟩ := h.each r hmem
  obtain ⟨b, hb, hdvd, hcap⟩ := hrange.inside
  obtain rfl : a = b := by
    rw [hid, hb] at ha
    exact (Option.some.inj ha).symm
  have hnonempty := hrange.nonempty
  exact ⟨⟨r, hr, rfl, Nat.le_add_right _ _, by simp only; omega⟩, ⟨by simp only; omega, by simp only; omega⟩,
    by simp only; omega, Nat.dvd_add (hdvd.trans haligned) hrange.aligned⟩

/-- Separate ranges stay so at their addresses: in one allocation by their offsets, and
otherwise because the residents are apart. -/
theorem Residents.disjoint {call : Invocation} {residents : List ResidentAllocation} (h : Residents call residents)
    {a b : Nat × Nat × Nat} {p q : Nat} {x y : Nat × Nat} (hx : At residents a p x) (hy : At residents b q y)
    (hseparate : Separate a b) : Disjoint x y := by
  obtain ⟨r, hr, hxr, hxin⟩ := hx.lookup
  obtain ⟨s, hs, hys, hyin⟩ := hy.lookup
  by_cases heq : a.1 = b.1
  · obtain rfl : r = s := by
      rw [heq, hs] at hr
      exact (Option.some.inj hr).symm
    rw [hxr, hys]
    exact (hseparate heq).shift r.base
  · have hrid : r.id = a.1 := by simpa using List.find?_some hr
    have hsid : s.id = b.1 := by simpa using List.find?_some hs
    have hne : r ≠ s := fun hrs => heq (by rw [← hrid, ← hsid, hrs])
    have hsymm : Std.Symm fun r s : ResidentAllocation => Disjoint r.range s.range := ⟨fun _ _ => Disjoint.symm⟩
    exact (h.apart.forall (List.mem_of_find?_eq_some hr) (List.mem_of_find?_eq_some hs) hne).of_inside hxin hyin

/-! ## Descriptors -/

/-- The absolute range of a descriptor. -/
def KernelTensorV1.range (t : KernelTensorV1) : Nat × Nat := (t.data, t.data + t.allocationBytes)

/-- A descriptor of a view, at an address. -/
structure Describes (v : TensorView) (t : KernelTensorV1) : Prop where
  structBytes : t.structBytes = kernelTensorBytes
  dtype : t.dtype = v.dtype.abiTag
  rank : t.rank = v.shape.length
  access : t.access = if v.access = .read then 1 else 2
  bytes : t.allocationBytes = v.bytes
  shape : t.shape = array (v.shape.map (↑))
  strides : t.strides = array (v.strides.map (↑))

theorem signed_eq_ok {message : String} {values : List Nat} {ints : List Int}
    (h : signed message values = .ok ints) : ints = values.map (↑) := by
  induction values generalizing ints with
  | nil => simpa [signed, Outcome.collect, eq_comm] using h
  | cons d ds ih =>
    simp only [signed, Outcome.collect, Outcome.bind_eq_ok, Outcome.okOr_eq_ok, tryFrom_eq_some] at h
    obtain ⟨i, ⟨_, ⟨-, rfl⟩, hi⟩, is, his, h⟩ := h
    rw [ih his] at h
    simp only [Outcome.ok.injEq] at hi h
    rw [← h, ← hi, List.map_cons]

theorem bindTensor_eq_ok {residents : List ResidentAllocation} {v : TensorView} {t : KernelTensorV1}
    (hv : v.Contiguous) (h : bindTensor residents v = .ok t) :
    Describes v t ∧ ∃ r, resident residents v.allocation = some r ∧ t.data = r.base + v.offset := by
  simp only [bindTensor, Outcome.bind_eq_ok, Outcome.unwrap_eq_ok, Outcome.okOr_eq_ok, checkedAdd_eq_some,
    hv.byteSpan] at h
  obtain ⟨r, hr, address, ⟨-, rfl⟩, shape, hshape, strides, hstrides, span, hspan, h⟩ := h
  obtain rfl := signed_eq_ok hshape
  obtain rfl := signed_eq_ok hstrides
  simp only [Outcome.ok.injEq] at h hspan
  subst h hspan
  exact ⟨⟨rfl, rfl, rfl, rfl, rfl, rfl, rfl⟩, r, hr, rfl⟩

/-! ## The kernel's checks -/

open Native (CompiledKernel.validateShape CompiledKernel.validate CompiledKernel.overlaps CompiledKernel.require)

theorem array_getD (values : List Nat) {i : Nat} (hi : i < values.length) :
    (array (values.map (↑))).getD i 0 = (values[i] : Int) := by
  simp [array, List.getD_eq_getElem?_getD, List.getElem?_append_left, hi]

/-- Both loops over the dimensions run from the last to the first. -/
theorem validateShape_eq_ok {v : TensorView} {t : KernelTensorV1} (h : Describes v t)
    (hstrides : v.strides.length = v.shape.length) {i stride n : Nat} (hi : i ≤ v.shape.length) (hpos : 0 < stride)
    (hrun : contiguous ((v.shape.zip v.strides).take i).reverse stride = .ok n) :
    CompiledKernel.validateShape t i stride = .ok n := by
  induction i generalizing stride with
  | zero => simpa [contiguous, CompiledKernel.validateShape] using hrun
  | succ i ih =>
    have hshape : i < v.shape.length := hi
    have hstride : i < v.strides.length := by omega
    rw [List.take_succ_eq_append_getElem (by simp [hshape, hstride]), List.reverse_append] at hrun
    simp only [List.reverse_singleton, List.singleton_append, List.getElem_zip, contiguous] at hrun
    split at hrun
    · simp [invalid] at hrun
    · rename_i hdim
      push Not at hdim
      obtain ⟨hzero, -, hmax, hactual⟩ := hdim
      simp only [Outcome.bind_eq_ok, Outcome.okOr_eq_ok, checkedMul_eq_some] at hrun
      obtain ⟨next, ⟨hfits, rfl⟩, hrun⟩ := hrun
      have hdimPos := Nat.pos_of_ne_zero hzero
      have hrest := ih (by omega) (Nat.mul_pos hpos hdimPos) hrun
      have hle : v.shape[i] ≤ u64Max / stride := (Nat.le_div_iff_mul_le hpos).mpr (by rwa [mul_comm])
      simp only [CompiledKernel.validateShape, h.shape, h.strides, array_getD v.shape hshape,
        array_getD v.strides hstride, hactual, CompiledKernel.require, Int.toNat_natCast]
      simp [hdimPos, hmax, hle, hrest]

theorem elementBytes_abiTag (d : DType) : Native.CompiledKernel.elementBytes d.abiTag = d.bytes := by
  cases d <;> rfl

theorem validate_eq_ok {v : TensorView} {t : KernelTensorV1} {access : Nat} (hv : v.Contiguous) (h : Describes v t)
    (hdata : 0 < t.data) (haccess : t.access = access) : CompiledKernel.validate access t = .ok () := by
  have hrun : contiguous ((v.shape.zip v.strides).take v.shape.length).reverse 1 = .ok v.shape.prod := by
    rw [List.take_of_length_le (by simp), hv.elements]
  have hshape := validateShape_eq_ok h hv.strides le_rfl one_pos hrun
  have hwidth := dtype_bytes_pos v.dtype
  have hfits : v.shape.prod ≤ u64Max / v.dtype.bytes := (Nat.le_div_iff_mul_le hwidth).mpr hv.fits
  have hbytes : v.shape.prod * v.dtype.bytes ≤ t.allocationBytes := h.bytes ▸ le_rfl
  rw [← h.rank] at hshape
  have hrank := hv.rank
  simp only [CompiledKernel.validate, CompiledKernel.require, h.dtype, elementBytes_abiTag, hshape, Outcome.ok_bind]
  simp [h.structBytes, haccess, h.rank, hrank.1, hrank.2, hwidth.ne', hfits, hbytes, hdata.ne']

theorem overlaps_eq_ok {a b : KernelTensorV1} (ha : a.range.2 ≤ u64Max) (hb : b.range.2 ≤ u64Max)
    (h : Disjoint a.range b.range) : CompiledKernel.overlaps a b = .ok false := by
  simp only [KernelTensorV1.range, Disjoint] at ha hb h
  have hfits : a.allocationBytes ≤ u64Max - a.data ∧ b.allocationBytes ≤ u64Max - b.data := by omega
  have hover : (decide (a.data < b.data + b.allocationBytes) && decide (b.data < a.data + a.allocationBytes)) = false := by
    simp only [Bool.and_eq_false_iff, decide_eq_false_iff_not]
    omega
  simp [CompiledKernel.overlaps, CompiledKernel.require, hfits.1, hfits.2, hover]

/-! ## Lookups -/

theorem contiguous_ne_panic {dims : List (Nat × Nat)} {stride : Nat} : contiguous dims stride ≠ .panic := by
  induction dims generalizing stride with
  | nil => simp [contiguous]
  | cons d dims ih =>
    simp only [contiguous]
    split
    · simp [invalid]
    · simp [Outcome.bind_eq_panic, ih]

theorem byteSpan_ne_panic {v : TensorView} : v.byteSpan ≠ .panic := by
  simp only [TensorView.byteSpan]
  split
  · simp [invalid]
  · simp [Outcome.bind_eq_panic, contiguous_ne_panic]

theorem limit_ne_panic {offset bytes capacity : Nat} : limit offset bytes capacity ≠ .panic := by
  simp only [limit, ne_eq, Outcome.bind_eq_panic, Outcome.okOr_ne_panic, false_or, not_exists, not_and]
  intro stop _
  split <;> simp [invalid]

theorem verify_ne_panic {call : Invocation} : call.verify ≠ .panic := by
  have hallocations : ∀ seen as, call.checkAllocations seen as ≠ .panic := by
    intro seen as
    induction as generalizing seen with
    | nil => simp [Invocation.checkAllocations]
    | cons a as ih =>
      simp only [Invocation.checkAllocations]
      split
      · simp [invalid]
      · exact ih _
  have hview : ∀ access v, call.checkView access v ≠ .panic := by
    intro access v
    simp only [Invocation.checkView, ne_eq, Outcome.bind_eq_panic, Outcome.okOr_ne_panic, false_or, not_exists, not_and]
    intro a _
    split
    · simp [invalid]
    · simp [Outcome.bind_eq_panic, byteSpan_ne_panic, limit_ne_panic]
  have houtputs : ∀ outputs others, Invocation.checkOutputs others outputs ≠ .panic := by
    intro outputs
    induction outputs with
    | nil => simp [Invocation.checkOutputs]
    | cons o outputs ih =>
      intro others
      simp only [Invocation.checkOutputs]
      split
      · simp [invalid]
      · exact ih _
  have hworkspace : ∀ tensors w, call.checkWorkspace tensors w ≠ .panic := by
    rintro tensors (_ | w)
    · simp [Invocation.checkWorkspace]
    · simp only [Invocation.checkWorkspace, ne_eq, Outcome.bind_eq_panic, Outcome.okOr_ne_panic, false_or, not_exists,
        not_and]
      intro a _
      split
      · simp [invalid]
      · simp only [Outcome.bind_eq_panic, limit_ne_panic, false_or, not_exists, not_and]
        intro stop _
        split <;> simp [invalid]
  have hheader : call.checkHeader ≠ .panic := by
    simp only [Invocation.checkHeader]
    split <;> simp [invalid]
  have hcollect : ∀ access views, Outcome.collect (call.checkView access) views ≠ .panic := fun access _ =>
    Outcome.collect_ne_panic fun v _ => hview access v
  simp only [Invocation.verify, ne_eq, Outcome.bind_eq_panic, hheader, hallocations, hcollect, houtputs, hworkspace,
    false_or]
  rintro ⟨-, -, -, -, -, -, -, -, -, -, -, -, h⟩
  split at h <;> simp [invalid] at h

theorem checkResidents_ne_panic {call : Invocation} {seen : List Nat} {absolute : List (Nat × Nat)}
    {rs : List ResidentAllocation} : checkResidents call seen absolute rs ≠ .panic := by
  induction rs generalizing seen absolute with
  | nil => simp [checkResidents]
  | cons r rs ih =>
    simp only [checkResidents, ne_eq, Outcome.bind_eq_panic, Outcome.okOr_ne_panic, false_or, not_exists, not_and]
    intro a _ stop _
    split
    · simp [invalid]
    · exact ih

theorem signed_ne_panic {message : String} {values : List Nat} : signed message values ≠ .panic :=
  Outcome.collect_ne_panic fun d _ => by simp [Outcome.bind_eq_panic]

theorem bindTensor_ne_panic {residents : List ResidentAllocation} {v : TensorView} {r : ResidentAllocation}
    (hr : resident residents v.allocation = some r) : bindTensor residents v ≠ .panic := by
  simp [bindTensor, Outcome.bind_eq_panic, hr, signed_ne_panic, byteSpan_ne_panic]

theorem bindWorkspace_ne_panic {residents : List ResidentAllocation} {workspace : Option Workspace}
    (h : ∀ w, workspace = some w → ∃ r, resident residents w.allocation = some r) :
    bindWorkspace residents workspace ≠ .panic := by
  cases workspace with
  | none => simp [bindWorkspace]
  | some w =>
    obtain ⟨r, hr⟩ := h w rfl
    simp [bindWorkspace, Outcome.bind_eq_panic, hr]

/-! ## Bound invocations -/

def BoundInvocation.workspaceRange (b : BoundInvocation) : Nat × Nat := (b.workspace, b.workspace + b.workspaceBytes)

/-- What has been established when the binding of the views begins. -/
structure Bindable (call : Invocation) (residents : List ResidentAllocation) : Prop where
  verified : call.Verified
  placed : Residents call residents
  count : residents.length = call.allocations.length

section
variable {call : Invocation} {residents : List ResidentAllocation}

theorem Bindable.lookup (h : Bindable call residents) {range : Nat × Nat × Nat} {alignment : Nat}
    (hrange : call.RangeOf range alignment) : ∃ r, resident residents range.1 = some r := by
  obtain ⟨a, ha, -⟩ := hrange.inside
  obtain ⟨r, hr, -⟩ := h.placed.find h.count ha
  exact ⟨r, hr⟩

theorem bind_cases (call : Invocation) (residents : List ResidentAllocation) :
    (∃ e, bind call residents = .err e) ∨ Bindable call residents ∧ bind call residents = (do
      let inputs ← Outcome.collect (bindTensor residents) call.inputs
      let outputs ← Outcome.collect (bindTensor residents) call.outputs
      let (workspace, workspaceBytes) ← bindWorkspace residents call.workspace
      .ok ⟨inputs, outputs, workspace, workspaceBytes⟩) := by
  rw [bind]
  cases hverify : call.verify with
  | panic => exact absurd hverify verify_ne_panic
  | err e => exact .inl ⟨e, rfl⟩
  | ok u =>
    simp only [Outcome.ok_bind]
    split
    · exact .inl ⟨_, rfl⟩
    · rename_i hcount
      cases hresidents : checkResidents call [] [] residents with
      | panic => exact absurd hresidents checkResidents_ne_panic
      | err e => exact .inl ⟨e, rfl⟩
      | ok u =>
        have hbindable : Bindable call residents :=
          ⟨(Invocation.verified_of_verify hverify).1, (checkResidents_eq_ok hresidents).1, not_not.mp hcount⟩
        exact .inr ⟨hbindable, rfl⟩

/-- A view, bound: its descriptor, at its range. -/
structure Bound (residents : List ResidentAllocation) (v : TensorView) (t : KernelTensorV1) : Prop where
  describes : Describes v t
  located : At residents v.within v.alignment t.range

theorem Bindable.bound (h : Bindable call residents) {access : Access} {v : TensorView} {t : KernelTensorV1}
    (hv : call.ViewOf access v) (ht : bindTensor residents v = .ok t) : Bound residents v t := by
  obtain ⟨hdescribes, r, hr, hdata⟩ := bindTensor_eq_ok hv.contiguous ht
  refine ⟨hdescribes, ?_⟩
  have hrange : t.range = (r.base + v.within.2.1, r.base + v.within.2.2) := by
    simp only [KernelTensorV1.range, hdata, hdescribes.bytes, TensorView.within, Nat.add_assoc]
  rw [hrange]
  exact h.placed.at hv.range hr

/-- What the descriptors of a bound invocation may overlap, and where they lie. -/
structure AliasFree (call : Invocation) (residents : List ResidentAllocation) (b : BoundInvocation) : Prop where
  inputs : List.Forall₂ (Bound residents) call.inputs b.inputs
  outputs : List.Forall₂ (Bound residents) call.outputs b.outputs
  workspace : ∀ w, call.workspace = some w →
    b.workspaceBytes = w.bytes ∧ At residents w.within w.alignment b.workspaceRange
  outputsInputs : ∀ o ∈ b.outputs, ∀ i ∈ b.inputs, Disjoint o.range i.range
  outputsApart : b.outputs.Pairwise fun o p => Disjoint o.range p.range
  workspaceTensors : ∀ t ∈ b.inputs ++ b.outputs, Disjoint b.workspaceRange t.range

theorem forall₂_bound (h : Bindable call residents) {access : Access} {views : List TensorView}
    {ts : List KernelTensorV1} (hviews : ∀ v ∈ views, call.ViewOf access v)
    (hts : List.Forall₂ (fun v t => bindTensor residents v = .ok t) views ts) :
    List.Forall₂ (Bound residents) views ts := by
  induction hts with
  | nil => exact .nil
  | cons ht _ ih =>
    exact .cons (h.bound (hviews _ List.mem_cons_self) ht) (ih fun v hv => hviews v (List.mem_cons_of_mem _ hv))

theorem bindWorkspace_eq_ok (h : Bindable call residents) {workspace bytes : Nat}
    (hbind : bindWorkspace residents call.workspace = .ok (workspace, bytes)) :
    (∀ w, call.workspace = some w →
      bytes = w.bytes ∧ At residents w.within w.alignment (workspace, workspace + bytes)) ∧
    (call.workspace = none → workspace = 0 ∧ bytes = 0) := by
  cases hw : call.workspace with
  | none => simpa [hw, bindWorkspace, eq_comm] using hbind
  | some w =>
    refine ⟨fun w' hw' => ?_, nofun⟩
    obtain rfl := Option.some.inj hw'
    simp only [hw, bindWorkspace, Outcome.bind_eq_ok, Outcome.unwrap_eq_ok, Outcome.okOr_eq_ok, checkedAdd_eq_some] at hbind
    obtain ⟨r, hr, address, ⟨-, rfl⟩, hbind⟩ := hbind
    simp only [Outcome.ok.injEq, Prod.mk.injEq] at hbind
    obtain ⟨rfl, rfl⟩ := hbind
    have hat := h.placed.at (h.verified.workspace w hw).range hr
    exact ⟨rfl, by simpa [Workspace.within, Nat.add_assoc] using hat⟩

theorem Bindable.aliasFree (h : Bindable call residents) {b : BoundInvocation}
    (hinputs : List.Forall₂ (Bound residents) call.inputs b.inputs)
    (houtputs : List.Forall₂ (Bound residents) call.outputs b.outputs)
    (hworkspace : bindWorkspace residents call.workspace = .ok (b.workspace, b.workspaceBytes)) :
    AliasFree call residents b := by
  obtain ⟨hsome, hnone⟩ := bindWorkspace_eq_ok h hworkspace
  refine ⟨hinputs, houtputs, hsome, ?_, ?_, ?_⟩
  · intro o ho i hi
    obtain ⟨v, hv, hvo⟩ := mem_of_forall₂ houtputs ho
    obtain ⟨u, hu, hui⟩ := mem_of_forall₂ hinputs hi
    exact h.placed.disjoint hvo.located hui.located (h.verified.outputsInputs v hv u hu)
  · exact pairwise_of_forall₂ houtputs h.verified.outputsApart
      fun u o v p huo hvp huv => h.placed.disjoint huo.located hvp.located huv
  · intro t ht
    cases hw : call.workspace with
    | none =>
      -- the null workspace is an empty range
      obtain ⟨hzero, hbytes⟩ := hnone hw
      exact .inl (by simp [BoundInvocation.workspaceRange, hzero, hbytes])
    | some w =>
      have hviews : List.Forall₂ (Bound residents) (call.inputs ++ call.outputs) (b.inputs ++ b.outputs) :=
        List.rel_append hinputs houtputs
      obtain ⟨v, hv, hvt⟩ := mem_of_forall₂ hviews ht
      exact h.placed.disjoint (hsome w hw).2 hvt.located ((h.verified.workspace w hw).tensors v hv)

theorem AliasFree.checkPorts {b : BoundInvocation} (h : AliasFree call residents b) (hverified : call.Verified) :
    Native.CompiledKernel.checkPorts b.inputs b.outputs = .ok () := by
  have hports : ∀ {views : List TensorView} {ts : List KernelTensorV1}, List.Forall₂ (Bound residents) views ts →
      views ≠ [] ∧ views.length ≤ 64 → ts ≠ [] ∧ ts.length ≤ 64 := by
    intro views ts hts hcount
    refine ⟨fun hnil => hcount.1 ?_, hts.length_eq ▸ hcount.2⟩
    rw [hnil] at hts
    exact List.forall₂_nil_right_iff.mp hts
  have hvalidate : ∀ {access : Access} {tag : Nat} {views : List TensorView} {ts : List KernelTensorV1},
      List.Forall₂ (Bound residents) views ts → (∀ v ∈ views, call.ViewOf access v) →
      (if access = .read then 1 else 2) = tag → Outcome.collect (CompiledKernel.validate tag) ts = .ok (ts.map fun _ => ()) := by
    intro access tag views ts hts hviews htag
    refine Outcome.collect_eq_map fun t ht => ?_
    obtain ⟨v, hv, hvt⟩ := mem_of_forall₂ hts ht
    have haccess : t.access = tag := by rw [hvt.describes.access, (hviews v hv).access, htag]
    exact validate_eq_ok (hviews v hv).contiguous hvt.describes hvt.located.nonempty.1 haccess
  have hfits : ∀ t ∈ b.inputs ++ b.outputs, t.range.2 ≤ u64Max := by
    intro t ht
    obtain ⟨v, -, hvt⟩ := mem_of_forall₂ (List.rel_append h.inputs h.outputs) ht
    exact hvt.located.fits
  have hinputs := hports h.inputs hverified.inputPorts
  have houtputs := hports h.outputs hverified.outputPorts
  have hcheck : Native.CompiledKernel.checkOutputs b.inputs [] b.outputs = .ok () :=
    Native.CompiledKernel.checkOutputs_eq_ok
    (fun o ho t ht => overlaps_eq_ok (hfits o (List.mem_append_right _ ho)) (hfits t (List.mem_append_left _ ht))
      (h.outputsInputs o ho t ht)) (by simp)
    (h.outputsApart.imp_of_mem fun ho hp hop =>
      overlaps_eq_ok (hfits _ (List.mem_append_right _ hp)) (hfits _ (List.mem_append_right _ ho)) hop.symm)
  have hreads : Outcome.collect (CompiledKernel.validate 1) b.inputs = .ok _ := hvalidate h.inputs hverified.inputs rfl
  have hwrites : Outcome.collect (CompiledKernel.validate 2) b.outputs = .ok _ :=
    hvalidate h.outputs hverified.outputs rfl
  simp [Native.CompiledKernel.checkPorts, CompiledKernel.require, hreads, hwrites, hinputs, houtputs, hcheck]

theorem bind_aliasFree (call : Invocation) (residents : List ResidentAllocation) :
    bind call residents ≠ .panic ∧ ∀ b, bind call residents = .ok b →
      AliasFree call residents b ∧ Native.CompiledKernel.checkPorts b.inputs b.outputs = .ok () := by
  obtain ⟨e, herr⟩ | ⟨hbindable, hbind⟩ := bind_cases call residents
  · simp [herr]
  · have hverified := hbindable.verified
    have hlookup : ∀ {access v}, call.ViewOf access v → bindTensor residents v ≠ .panic := fun hv =>
      bindTensor_ne_panic (hbindable.lookup hv.range).choose_spec
    have hworkspace : bindWorkspace residents call.workspace ≠ .panic := bindWorkspace_ne_panic fun w hw =>
      hbindable.lookup (hverified.workspace w hw).range
    rw [hbind]
    refine ⟨?_, fun b hb => ?_⟩
    · simp [Outcome.bind_eq_panic, Outcome.collect_ne_panic fun v hv => hlookup (hverified.inputs v hv),
        Outcome.collect_ne_panic fun v hv => hlookup (hverified.outputs v hv), hworkspace]
    · simp only [Outcome.bind_eq_ok] at hb
      obtain ⟨ins, hins, outs, houts, ⟨workspace, bytes⟩, hw, hb⟩ := hb
      simp only [Outcome.ok.injEq] at hb
      subst hb
      have hfree : AliasFree call residents ⟨ins, outs, workspace, bytes⟩ :=
        hbindable.aliasFree (forall₂_bound hbindable hverified.inputs (Outcome.collect_eq_ok.mp hins))
          (forall₂_bound hbindable hverified.outputs (Outcome.collect_eq_ok.mp houts)) hw
      exact ⟨hfree, hfree.checkPorts hverified⟩

end

def sampleView (access : Access) (offset : Nat) : TensorView where
  allocation := 1
  offset := offset
  dtype := .f32
  shape := [2, 2]
  strides := [2, 1]
  alignment := 16
  access := access

/-- One allocation holds the input, the output and the workspace. -/
def sampleCall : Invocation where
  format := DeviceBuffer.format
  implementation := "test.elementwise.f32.v1"
  binarySha256 := "aaaaaaaaaaaaaaaaaaaaaaaaaaaaaaaaaaaaaaaaaaaaaaaaaaaaaaaaaaaaaaaa"
  numericalContract := "test.add.f32.v1"
  rank := 2
  device := 5
  allocations := [⟨1, 2, 5, 4096, 512, .activation, false⟩]
  inputs := [sampleView .read 0]
  outputs := [sampleView .write 512]
  workspace := some ⟨1, 1024, 256, 512⟩

def sampleResidents : List ResidentAllocation := [⟨1, 65536, 4096, 2, 5⟩]

theorem bind_aliasFree_sample : ∃ b, bind sampleCall sampleResidents = .ok b ∧ b.workspace = 66560 ∧
    AliasFree sampleCall sampleResidents b ∧ Native.CompiledKernel.checkPorts b.inputs b.outputs = .ok () := by
  obtain ⟨b, hb, hworkspace⟩ : ∃ b, bind sampleCall sampleResidents = .ok b ∧ b.workspace = 66560 :=
    ⟨⟨[⟨160, 3, 2, 1, 65536, 16, array [2, 2], array [2, 1]⟩], [⟨160, 3, 2, 2, 66048, 16, array [2, 2], array [2, 1]⟩],
      66560, 256⟩, by decide +kernel, rfl⟩
  exact ⟨b, hb, hworkspace, (bind_aliasFree sampleCall sampleResidents).2 b hb⟩

end Inferfabric.Plan.DeviceBuffer
