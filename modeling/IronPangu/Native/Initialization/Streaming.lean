-- SUMMARY: Streaming a slice through a bounded staging buffer is loading it whole.
import IronPangu.Native.Initialization.Executor

open Rust Method

/-!
# Streaming loads

`wholeLoad` is the load without a staging buffer: all rows of the slice are gathered
and then cast. The executor's chunks are consecutive pieces of it, wherever they
begin and end relative to rows and elements.
-/

namespace Inferfabric.Native.Initialization

/-! ## The load as a whole -/

/-- Where in the file byte `k` of a slice is. -/
def LoadSlice.sourceIndex (op : LoadSlice) (k : Nat) : Nat :=
  op.offset + if op.rowBytes = 0 then k else k / op.rowBytes * op.strideBytes + k % op.rowBytes

def LoadSlice.gather (op : LoadSlice) (file : Bytes) : Bytes :=
  (List.range op.bytes).map fun k => file.getD (op.sourceIndex k) 0

def wholeLoad (op : LoadSlice) (p : Parameter) (file : Bytes) : Outcome Stop Bytes :=
  castAs op.sourceDtype p.dtype (op.gather file)

/-- Uploads that follow one another from an offset on. -/
def Tiles : Nat → List (Nat × Bytes) → Prop
  | _, [] => True
  | offset, u :: us => u.1 = offset ∧ Tiles (offset + u.2.length) us

/-- What the calls on the device amount to. -/
structure Uploaded (before : Nat → UInt8) (data : Bytes) (l : Loading) : Prop where
  tiles : Tiles 0 l.uploads
  content : (l.uploads.map Prod.snd).flatten = data
  memory : ∀ k, l.memory k = data[k]?.getD (before k)

/-- No call on the file leaves the declared span. -/
def InSpan (op : LoadSlice) (span : Nat) (l : Loading) : Prop :=
  ∀ r ∈ l.reads, op.offset ≤ r.1 ∧ r.1 + r.2 ≤ op.offset + span

/-! ## Casting in pieces -/

variable {op : LoadSlice} {p : Parameter} {span : Nat} {file a b : Bytes} {options : Options} {l : Loading}

@[simp] theorem length_gather : (op.gather file).length = op.bytes := by
  simp [LoadSlice.gather]

theorem tiles_concat {offset : Nat} {us : List (Nat × Bytes)} {data : Bytes} (h : Tiles offset us) :
    Tiles offset (us ++ [(offset + (us.map Prod.snd).flatten.length, data)]) := by
  induction us generalizing offset with
  | nil => exact ⟨by simp, trivial⟩
  | cons u us ih =>
    refine ⟨h.1, ?_⟩
    have hrest := ih h.2
    rwa [Nat.add_assoc, ← List.length_append] at hrest

theorem Uploaded.upload {before : Nat → UInt8} {data more : Bytes} (h : Uploaded before data l)
    (hoffset : l.outputOffset = data.length) : Uploaded before (data ++ more) (upload more l).2 where
  tiles := by
    have hlength : l.outputOffset = 0 + (l.uploads.map Prod.snd).flatten.length := by
      rw [h.content, Nat.zero_add, hoffset]
    show Tiles 0 (l.uploads ++ [(l.outputOffset, more)])
    rw [hlength]
    exact tiles_concat h.tiles
  content := by
    show ((l.uploads ++ [(l.outputOffset, more)]).map Prod.snd).flatten = data ++ more
    rw [List.map_append, List.flatten_append, h.content]
    simp
  memory := by
    intro k
    show (if l.outputOffset ≤ k ∧ k < l.outputOffset + more.length then more.getD (k - l.outputOffset) 0
      else l.memory k) = _
    rw [hoffset, h.memory, List.getElem?_append]
    split
    · rename_i hk
      rw [if_neg (Nat.not_lt.mpr hk.1), List.getD_eq_getElem?_getD, List.getElem?_eq_getElem (by omega)]
      rfl
    · rename_i hk
      split
      · rfl
      · rw [List.getElem?_eq_none (by omega), List.getElem?_eq_none (by omega)]

/-! ## Reading in pieces -/

theorem gather_slice {start n position : Nat} (hindex : ∀ k < n, op.sourceIndex (start + k) = position + k)
    (hbytes : start + n ≤ op.bytes) (hfile : position + n ≤ file.length) :
    (file.drop position).take n = ((op.gather file).drop start).take n := by
  apply List.ext_getElem?
  intro k
  by_cases hk : k < n
  · have hrange : (List.range op.bytes)[start + k]? = some (start + k) := List.getElem?_range (by omega)
    have hget : file[position + k]? = some (file.getD (position + k) 0) := by
      rw [List.getD_eq_getElem?_getD, List.getElem?_eq_getElem (by omega)]
      rfl
    rw [List.getElem?_take_of_lt hk, List.getElem?_take_of_lt hk, List.getElem?_drop, List.getElem?_drop,
      LoadSlice.gather, List.getElem?_map, hrange, Option.map_some, hindex k hk, hget]
  · rw [List.getElem?_take_eq_none (by omega), List.getElem?_take_eq_none (by omega)]

/-- A piece of one row is contiguous in the file, and inside the span. -/
theorem SliceOf.row (h : SliceOf op p span) (hrows : 0 < op.rowBytes) {start n : Nat} (hpos : 0 < n)
    (hbytes : start + n ≤ op.bytes) (hrow : start % op.rowBytes + n ≤ op.rowBytes) :
    (∀ k < n, op.sourceIndex (start + k) =
      op.offset + start / op.rowBytes * op.strideBytes + start % op.rowBytes + k) ∧
      op.offset + start / op.rowBytes * op.strideBytes + start % op.rowBytes + n ≤ op.offset + span := by
  obtain ⟨hdvd, -, -, hspan⟩ := h.rows hrows
  constructor
  · intro k hk
    have hsplit : start + k = start % op.rowBytes + k + op.rowBytes * (start / op.rowBytes) := by
      have := Nat.mod_add_div start op.rowBytes
      omega
    have hlt : start % op.rowBytes + k < op.rowBytes := by omega
    have hquotient : (start + k) / op.rowBytes = start / op.rowBytes := by
      rw [hsplit, Nat.add_mul_div_left _ _ hrows, Nat.div_eq_of_lt hlt, Nat.zero_add]
    have hremainder : (start + k) % op.rowBytes = start % op.rowBytes + k := by
      rw [hsplit, Nat.add_mul_mod_self_left, Nat.mod_eq_of_lt hlt]
    rw [LoadSlice.sourceIndex, if_neg hrows.ne', hquotient, hremainder]
    omega
  · have hlast : start / op.rowBytes < op.bytes / op.rowBytes := Nat.div_lt_div_of_lt_of_dvd hdvd (by omega)
    have hstride : start / op.rowBytes * op.strideBytes ≤ (op.bytes / op.rowBytes - 1) * op.strideBytes :=
      Nat.mul_le_mul_right _ (by omega)
    omega

theorem read_ok {message : String} {n : Nat} (h : l.position + n ≤ l.file.length) :
    read message n l = (.ok (), { l with
      reads := l.reads ++ [(l.position, n)]
      staging := l.staging ++ (l.file.drop l.position).take n
      position := l.position + n }) := by
  rw [read, bind_ok (get_run l), bind_ok (modify_run _ l), if_pos h, modify_run]

/-- The chunk that was begun in `base` has `n` bytes. -/
structure Filled (op : LoadSlice) (span : Nat) (file : Bytes) (base : Loading) (n : Nat) (l : Loading) : Prop where
  stream : l.file = file
  staging : l.staging = ((op.gather file).drop base.done).take n
  length : l.staging.length = n
  reads : InSpan op span l
  position : op.rowBytes = 0 → l.position = op.offset + base.done + n
  done : l.done = base.done
  outputOffset : l.outputOffset = base.outputOffset
  memory : l.memory = base.memory
  uploads : l.uploads = base.uploads

theorem length_piece {start n : Nat} (h : start + n ≤ op.bytes) :
    (((op.gather file).drop start).take n).length = n := by
  rw [List.length_take, List.length_drop, length_gather]
  omega

/-- A read of the next bytes of the slice adds them to the chunk. -/
theorem Filled.read {base : Loading} {n take position : Nat} {message : String} (h : Filled op span file base n l)
    (hindex : ∀ k < take, op.sourceIndex (base.done + n + k) = position + k)
    (hbytes : base.done + (n + take) ≤ op.bytes) (hstart : op.offset ≤ position)
    (hspan : position + take ≤ op.offset + span) (hfile : op.offset + span ≤ file.length)
    (hposition : op.rowBytes = 0 → position = op.offset + base.done + n) :
    ∃ t, read message take { l with position := position } = (.ok (), t) ∧ Filled op span file base (n + take) t := by
  have hlength : position + take ≤ l.file.length := h.stream ▸ hspan.trans hfile
  have hstaging : l.staging ++ (l.file.drop position).take take = ((op.gather file).drop base.done).take (n + take) := by
    rw [h.stream, gather_slice hindex (by omega) (hspan.trans hfile), h.staging, List.take_add, List.drop_drop]
  refine ⟨_, read_ok hlength, h.stream, hstaging, ?_, ?_, ?_, h.done, h.outputOffset, h.memory, h.uploads⟩
  · exact (congrArg List.length hstaging).trans (length_piece hbytes)
  · intro r hr
    rcases List.mem_append.mp hr with hr | hr
    · exact h.reads r hr
    · obtain rfl := List.mem_singleton.mp hr
      exact ⟨hstart, hspan⟩
  · intro hrows
    show position + take = op.offset + base.done + (n + take)
    rw [hposition hrows, Nat.add_assoc]

/-- The first `l.done` bytes of the slice are loaded. -/
structure Loaded (op : LoadSlice) (p : Parameter) (span : Nat) (file : Bytes) (before : Nat → UInt8) (l : Loading) :
    Prop where
  stream : l.file = file
  done : l.done ≤ op.bytes
  /-- Elements are not cut in the middle. -/
  even : op.sourceDtype ≠ p.dtype → l.done % 2 = 0
  position : op.rowBytes = 0 → l.position = op.offset + l.done
  reads : InSpan op span l
  uploaded : ∃ data, castAs op.sourceDtype p.dtype ((op.gather file).take l.done) = .ok data ∧ Uploaded before data l ∧
    l.outputOffset = data.length

theorem Uploaded.congr {before : Nat → UInt8} {data : Bytes} {t : Loading} (h : Uploaded before data l)
    (hmemory : t.memory = l.memory) (huploads : t.uploads = l.uploads) : Uploaded before data t where
  tiles := huploads ▸ h.tiles
  content := huploads ▸ h.content
  memory := hmemory ▸ h.memory

variable {plan : Plan} {directory : Directory} {backend : DeviceMemory} {files : List Bytes} {fuel : Nat}

/-- A slice that can be loaded from a file into its parameter. -/
structure Ready (plan : Plan) (op : LoadSlice) (file : Bytes) (p : Parameter) (span : Nat) : Prop where
  parameter : plan.parameters[op.destination]? = some p
  slice : SliceOf op p span
  inFile : op.offset + span ≤ file.length

structure Prepared (plan : Plan) (options : Options) (files : List Bytes) : Prop where
  valid : plan.Valid
  staging : 0 < options.stagingBytes ∧ options.stagingBytes % 4 = 0
  count : files.length = plan.instructions.length
  ready : ∀ op file, (op, file) ∈ plan.instructions.zip files → ∃ p span, Ready plan op file p span

/-- The bytes of the parameter that a slice fills. -/
def sizeOf (sizes : List Nat) (op : LoadSlice) : Nat := sizes.getD op.destination 0

theorem SliceOf.bytes_le (h : SliceOf op p span) {n : Nat} (hbytes : p.bytes = .ok n) : op.bytes ≤ n := by
  rcases h.bytes with ⟨-, hsame⟩ | ⟨-, -, hdouble, -⟩
  · exact (Outcome.ok.inj (hsame.symm.trans hbytes)).le
  · have := Outcome.ok.inj (hdouble.symm.trans hbytes)
    omega

/-- The parameter that a slice fills holds the whole load. -/
structure Holds (p : Parameter) (data : Bytes) (r : ResidentParameter) : Prop where
  descriptor : r.descriptor = p
  bytes : r.bytes = data.length
  data : ∀ k (hk : k < data.length), r.data k = data[k]

/-- How a load may fail after everything was checked. -/
inductive Failed (plan : Plan) (backend : DeviceMemory) (ops : List (LoadSlice × Bytes)) : Stop → Prop where
  | nonfinite (op : LoadSlice) (file : Bytes) (p : Parameter) (hmem : (op, file) ∈ ops)
    (hp : plan.parameters[op.destination]? = some p)
    (hload : wholeLoad op p file = fail "nonfinite initialization cast") :
    Failed plan backend ops (.thrown "nonfinite initialization cast")
  | allocation (op : LoadSlice) (file : Bytes) (p : Parameter) (n : Nat) (hmem : (op, file) ∈ ops)
    (hp : plan.parameters[op.destination]? = some p) (hbytes : p.bytes = .ok n) (hnone : backend.allocate n = none) :
    Failed plan backend ops (.thrown "initialization allocation returned null")

theorem Failed.mono {ops ops' : List (LoadSlice × Bytes)} {e : Stop} (h : Failed plan backend ops e)
    (hsubset : ∀ x ∈ ops, x ∈ ops') : Failed plan backend ops' e := by
  cases h with
  | nonfinite op file p hmem hp hload => exact .nonfinite op file p (hsubset _ hmem) hp hload
  | allocation op file p n hmem hp hbytes hnone => exact .allocation op file p n (hsubset _ hmem) hp hbytes hnone

theorem Uploaded.holds {before : Nat → UInt8} {data : Bytes} (h : Uploaded before data l) :
    Holds p data ⟨p, data.length, l.memory⟩ where
  descriptor := rfl
  bytes := rfl
  data := by
    intro k hk
    show l.memory k = data[k]
    rw [h.memory, List.getElem?_eq_getElem hk]
    rfl

/-- The store after some slices: their parameters hold their loads, and the others are as before. -/
structure Stored (plan : Plan) (ops : List (LoadSlice × Bytes)) (store store' : ParameterStore) : Prop where
  length : store'.parameters.length = store.parameters.length
  loaded : ∀ op file, (op, file) ∈ ops → ∃ p data r, plan.parameters[op.destination]? = some p ∧
    wholeLoad op p file = .ok data ∧ store'.parameters[op.destination]? = some (some r) ∧ Holds p data r
  kept : ∀ j, j ∉ ops.map (·.1.destination) → store'.parameters[j]? = store.parameters[j]?

theorem Stored.cons {ops : List (LoadSlice × Bytes)} {store store' : ParameterStore} {sourceBytes residentBytes : Nat}
    {data : Bytes} {r : ResidentParameter}
    (h : Stored plan ops ⟨store.parameters.set op.destination (some r), sourceBytes, residentBytes⟩ store')
    (hp : plan.parameters[op.destination]? = some p) (hload : wholeLoad op p file = .ok data) (hholds : Holds p data r)
    (hrange : op.destination < store.parameters.length) (hnew : op.destination ∉ ops.map (·.1.destination)) :
    Stored plan ((op, file) :: ops) store store' where
  length := h.length.trans List.length_set
  loaded := by
    intro op' file' hmem
    rcases List.mem_cons.mp hmem with heq | hmem
    · obtain ⟨rfl, rfl⟩ := Prod.mk.inj heq
      exact ⟨p, data, r, hp, hload, (h.kept _ hnew).trans (List.getElem?_set_self hrange), hholds⟩
    · exact h.loaded op' file' hmem
  kept := by
    intro j hj
    rw [List.map_cons, List.mem_cons, not_or] at hj
    exact (h.kept j hj.2).trans (List.getElem?_set_ne (Ne.symm hj.1))

/-- Two rows of two elements each, out of three columns, widened through a staging buffer of one and a half rows. -/
def sample : Plan where
  rank := 0
  device := 0
  checkpointMetadataSha256 := List.replicate 64 (ascii 'a')
  parameters := [⟨0, [ascii 'w'], .f32, [2, 2]⟩]
  instructions := [⟨0, [ascii 's'], 1, 8, .bf16, 4, 6⟩]

end Inferfabric.Native.Initialization
