-- SUMMARY: What the two header checkers accept: tensors of the size of their shape that tile the shard's data.
import IronPangu.Compiler.Inventory

open Rust Outcome Std Json

/-!
# Headers

Both checkers accept a header when the range of every tensor has the size that dtype and
shape give it, and the ranges tile the file from the end of the header on. The inventory
also asks that there be room for the tensors in it.
-/

namespace Inferfabric.Compiler

open Checkpoint (Dtype Weight)
open Inventory (TensorDescriptor)

/-- A tensor as a header describes it. -/
structure Extent where
  dtype : Dtype
  shape : List Nat
  start : Nat
  stop : Nat

/-- The description of a tensor that both checkers know how to read. -/
def knownExtent (v : Value) : Option Extent := do
  let dtype ← (v.index "dtype").asStr.bind Dtype.named
  let shape ← (v.index "shape").naturals
  let (start, stop) ← (v.index "data_offsets").pair
  if shape.length ≤ 16 then some { dtype, shape, start, stop } else none

def knownMember (kv : String × Value) : Option (String × Extent) :=
  if kv.1 = "__metadata__" then none else (knownExtent kv.2).map (kv.1, ·)

/-- The tensors of a header. -/
def extents (object : List (String × Value)) : List (String × Extent) := object.filterMap knownMember

/-- A header whose tensors have names, and dtypes and ranks that both checkers know. -/
structure Known (object : List (String × Value)) : Prop where
  sorted : SortedAssoc.Sorted object
  named : ∀ kv ∈ object, kv.1 ≠ ""
  tensors : ∀ kv ∈ object, kv.1 ≠ "__metadata__" → (knownExtent kv.2).isSome

def Extent.bytes (e : Extent) : Nat := e.dtype.bytes * e.shape.prod

/-- No product of the dtype's size and the first dimensions overflows, and the range has the size of all. -/
structure Extent.Sized (e : Extent) : Prop where
  products : ∀ k, e.dtype.bytes * (e.shape.take k).prod ≤ u64Max
  range : e.stop = e.start + e.bytes

/-- The tensors of a shard whose data goes from `base` to `size`. -/
structure Exact (tensors : List (String × Extent)) (base size : Nat) : Prop where
  sized : ∀ t ∈ tensors, t.2.Sized
  tiles : Tiling.Tiles (tensors.map fun t => (base + t.2.start, base + t.2.stop)) base size

/-- What is recorded of each tensor, its offset and its bytes: its range in the file, apart from the others'. -/
structure Recorded (tensors : List (String × Extent)) (base size : Nat) (place : String → Option (Nat × Nat)) : Prop where
  range : ∀ t ∈ tensors, place t.1 = some (base + t.2.start, t.2.stop - t.2.start)
  inside : ∀ t ∈ tensors, ∀ p, place t.1 = some p → base ≤ p.1 ∧ p.1 + p.2 ≤ size
  apart : ∀ t ∈ tensors, ∀ t' ∈ tensors, t.1 ≠ t'.1 → ∀ p p', place t.1 = some p → place t'.1 = some p' →
    0 < p.2 → 0 < p'.2 → p.1 + p.2 ≤ p'.1 ∨ p'.1 + p'.2 ≤ p.1

variable {formats : Formats} {bytes : Bytes} {object : List (String × Value)} {tensors : List (String × Extent)}
  {v : Value} {e : Extent} {key shard name : String} {base size cursor n m : Nat} {shape : List Nat}

/-! ## Reading -/

theorem foldlM_checkedMul (hn : n ≤ u64Max) :
    shape.foldlM (checkedMul u64Max) n = some m ↔ (∀ k, n * (shape.take k).prod ≤ u64Max) ∧ n * shape.prod = m := by
  induction shape generalizing n with
  | nil => simp [hn]
  | cons d shape ih =>
    rw [List.foldlM_cons]
    constructor
    · intro h
      obtain ⟨p, hp, hrest⟩ := Option.bind_eq_some_iff.mp h
      obtain ⟨hle, rfl⟩ := checkedMul_eq_some.mp hp
      obtain ⟨hall, hprod⟩ := (ih hle).mp hrest
      refine ⟨fun k => ?_, by rw [List.prod_cons, ← mul_assoc, hprod]⟩
      cases k with
      | zero => simpa using hn
      | succ k =>
        rw [List.take_succ_cons, List.prod_cons, ← mul_assoc]
        exact hall k
    · rintro ⟨hall, hprod⟩
      have hle : n * d ≤ u64Max := by simpa using hall 1
      refine Option.bind_eq_some_iff.mpr ⟨n * d, checkedMul_eq_some.mpr ⟨hle, rfl⟩, (ih hle).mpr ⟨fun k => ?_, ?_⟩⟩
      · have := hall (k + 1)
        rwa [List.take_succ_cons, List.prod_cons, ← mul_assoc] at this
      · rwa [List.prod_cons, ← mul_assoc] at hprod

theorem Checkpoint.Dtype.bytes_le (d : Dtype) : d.bytes ≤ u64Max := by
  cases d <;> decide

theorem knownExtent_eq_some (h : knownExtent v = some e) :
    ∃ dtype, v.index "dtype" = .string dtype ∧ Dtype.named dtype = some e.dtype ∧
      (v.index "shape").naturals = some e.shape ∧ (v.index "data_offsets").pair = some (e.start, e.stop) ∧
      e.shape.length ≤ 16 := by
  simp only [knownExtent, Option.bind_eq_bind, Option.bind_eq_some_iff] at h
  obtain ⟨dtype, ⟨text, htext, hdtype⟩, shape, hshape, ⟨start, stop⟩, hpair, h⟩ := h
  split at h
  · rename_i hrank
    obtain rfl := Option.some.inj h
    cases hvalue : v.index "dtype" <;> rw [hvalue] at htext <;> cases htext
    exact ⟨text, rfl, hdtype, hshape, hpair, hrank⟩
  · cases h

theorem Extent.sized_iff (e : Extent) :
    e.Sized ↔ ∃ count, e.shape.foldlM (checkedMul u64Max) e.dtype.bytes = some count ∧
      checkedSub e.stop e.start = some count := by
  constructor
  · rintro ⟨hproducts, hrange⟩
    refine ⟨e.bytes, (foldlM_checkedMul e.dtype.bytes_le).mpr ⟨hproducts, rfl⟩, checkedSub_eq_some.mpr ?_⟩
    omega
  · rintro ⟨count, hcount, hrange⟩
    obtain ⟨hproducts, rfl⟩ := (foldlM_checkedMul e.dtype.bytes_le).mp hcount
    obtain ⟨hle, hrange⟩ := checkedSub_eq_some.mp hrange
    refine ⟨hproducts, ?_⟩
    rw [Extent.bytes]
    omega

theorem Extent.Sized.bytes_eq (h : e.Sized) : e.stop - e.start = e.bytes := by
  rw [h.range]
  omega

theorem Extent.Sized.foldlM (h : e.Sized) : e.shape.foldlM (checkedMul u64Max) e.dtype.bytes = some e.bytes :=
  (foldlM_checkedMul e.dtype.bytes_le).mpr ⟨h.products, rfl⟩

theorem Extent.Sized.checkedSub (h : e.Sized) : checkedSub e.stop e.start = some e.bytes :=
  checkedSub_eq_some.mpr ⟨by rw [h.range]; omega, h.bytes_eq⟩

/-- The products are computed, and the range compared with the last one. -/
theorem Extent.not_sized {count : Nat} (h : ¬e.Sized)
    (hcount : e.shape.foldlM (checkedMul u64Max) e.dtype.bytes = some count) : Rust.checkedSub e.stop e.start ≠ some count :=
  fun hrange => h (e.sized_iff.mpr ⟨count, hcount, hrange⟩)

/-! ## Tensors of a header -/

theorem extents_cons {kv : String × Value} :
    extents (kv :: object) = (knownMember kv).toList ++ extents object := by
  rw [extents, List.filterMap_cons]
  cases knownMember kv <;> rfl

theorem Known.tail {kv : String × Value} (h : Known (kv :: object)) : Known object where
  sorted := (List.pairwise_cons.mp h.sorted).2
  named kv hkv := h.named kv (List.mem_cons_of_mem _ hkv)
  tensors kv hkv := h.tensors kv (List.mem_cons_of_mem _ hkv)

theorem mem_extents {t : String × Extent} (ht : t ∈ extents object) :
    t.1 ≠ "__metadata__" ∧ ∃ v, (t.1, v) ∈ object ∧ knownExtent v = some t.2 := by
  obtain ⟨kv, hkv, ht⟩ := List.mem_filterMap.mp ht
  rw [knownMember] at ht
  split at ht
  · cases ht
  · rename_i hkey
    obtain ⟨e, he, rfl⟩ := Option.map_eq_some_iff.mp ht
    exact ⟨hkey, kv.2, hkv, he⟩

/-- A header names a tensor once. -/
theorem Known.nodup (h : Known object) : ((extents object).map Prod.fst).Nodup := by
  rw [extents, List.map_filterMap]
  refine List.Pairwise.filterMap _ ?_ h.sorted
  intro kv kv' hlt key hkey key' hkey'
  have hfst : ∀ {kv : String × Value} {key : String}, (knownMember kv).map Prod.fst = some key → key = kv.1 := by
    intro kv key hkey
    obtain ⟨t, ht, rfl⟩ := Option.map_eq_some_iff.mp hkey
    rw [knownMember] at ht
    split at ht
    · cases ht
    · obtain ⟨e, -, rfl⟩ := Option.map_eq_some_iff.mp ht
      rfl
  rw [hfst hkey, hfst hkey']
  exact hlt.ne

/-- A map that entries are put in one after another. -/
def putAll {α β : Type} (f : α → β) (entries : List (String × α)) (out : ExtTreeMap String β) : ExtTreeMap String β :=
  entries.foldl (fun out t => out.insert t.1 (f t.2)) out

section
variable {α β : Type} {f : α → β} {entries : List (String × α)} {out : ExtTreeMap String β} {t : String × α}

@[simp] theorem putAll_nil : putAll f [] out = out := rfl
@[simp] theorem putAll_cons : putAll f (t :: entries) out = putAll f entries (out.insert t.1 (f t.2)) := rfl

theorem getElem?_putAll_of_notMem {key : String} (hkey : key ∉ entries.map Prod.fst) : (putAll f entries out)[key]? = out[key]? := by
  induction entries generalizing out with
  | nil => rfl
  | cons t entries ih =>
    obtain ⟨hne, hrest⟩ := not_or.mp fun h => hkey (List.mem_cons.mpr h)
    rw [putAll_cons, ih hrest, ExtTreeMap.getElem?_insert, if_neg]
    rw [Std.compare_eq_iff_eq]
    exact Ne.symm hne

theorem getElem?_putAll (hnodup : (entries.map Prod.fst).Nodup) (ht : t ∈ entries) :
    (putAll f entries out)[t.1]? = some (f t.2) := by
  induction entries generalizing out with
  | nil => cases ht
  | cons first entries ih =>
    obtain ⟨hfirst, hnodup⟩ := List.nodup_cons.mp hnodup
    rcases List.mem_cons.mp ht with rfl | ht
    · rw [putAll_cons, getElem?_putAll_of_notMem hfirst, ExtTreeMap.getElem?_insert_self]
    · exact ih hnodup ht

end

/-- The walk over the ranges and the test for what follows them accept the tilings. -/
theorem contiguous_iff {message : String} (hsize : size ≤ u64Max) (hsized : ∀ t ∈ tensors, t.2.Sized) :
    (∃ cursor, contiguous (tensors.map fun t => (t.2.start, t.2.stop)) message = .ok cursor ∧
      checkedAdd u64Max base cursor = some size) ↔
    Tiling.Tiles (tensors.map fun t => (base + t.2.start, base + t.2.stop)) base size := by
  have hvalid : ∀ r ∈ tensors.map (fun t => (t.2.start, t.2.stop)), r.1 ≤ r.2 := by
    intro r hr
    obtain ⟨t, ht, rfl⟩ := List.mem_map.mp hr
    have := (hsized t ht).range
    dsimp only
    omega
  have hshift : ∀ last, Tiling.Tiles (tensors.map fun t => (base + t.2.start, base + t.2.stop)) base (base + last) ↔
      Tiling.Tiles (tensors.map fun t => (t.2.start, t.2.stop)) 0 last := by
    intro last
    have := @Tiling.tiles_shift (tensors.map fun t => (t.2.start, t.2.stop)) 0 last base
    rwa [List.map_map] at this
  simp only [contiguous, okOr_eq_ok, checkedAdd_eq_some, Tiling.walk_insertionSort hvalid]
  constructor
  · rintro ⟨cursor, htiles, -, rfl⟩
    exact (hshift cursor).mpr htiles
  · intro htiles
    have hle := htiles.ordered
    refine ⟨size - base, (hshift (size - base)).mp ?_, by omega, by omega⟩
    rwa [Nat.add_sub_of_le hle]

/-! ## A checkpoint's header -/

def Extent.weight (shard : String) (base : Nat) (e : Extent) : Weight where
  shard := shard
  dtype := e.dtype
  shape := e.shape
  offset := base + e.start
  bytes := e.bytes

theorem parseMember_known (hknown : knownExtent v = some e) (hsize : size ≤ u64Max) {r : (Nat × Nat) × Weight} :
    Checkpoint.parseMember shard base size key v = .ok r ↔
      (e.Sized ∧ base + e.stop ≤ size) ∧ r = ((e.start, e.stop), e.weight shard base) := by
  obtain ⟨dtype, hdtype, hnamed, hshape, hpair, -⟩ := knownExtent_eq_some hknown
  have hread : Dtype.ofValue (v.index "dtype") = some e.dtype := by
    rw [hdtype]
    exact hnamed
  simp only [Checkpoint.parseMember, hread, hshape, hpair, okOr_some, ok_bind]
  by_cases hsized : e.Sized
  · have hlast : (checkedAdd u64Max base e.stop).all (fun last => decide (last > size)) = true ↔ ¬base + e.stop ≤ size := by
      rw [checkedAdd]
      split
      · simp
      · simp only [Option.all_none, true_iff]
        omega
    rw [hsized.foldlM, okOr_some, ok_bind, hsized.checkedSub]
    simp only [ne_eq, not_true_eq_false, false_or, hlast, hsized, true_and]
    split
    · rename_i hout
      simp [hout]
    · rename_i hin
      rw [not_not] at hin
      simp only [hin, true_and, Outcome.ok.injEq]
      exact eq_comm
  · simp only [hsized, false_and, iff_false]
    intro h
    obtain ⟨count, hcount, h⟩ := bind_eq_ok.mp h
    rw [if_pos (.inl (Extent.not_sized hsized (okOr_eq_ok.mp hcount)))] at h
    cases h

theorem parseMembers_known (hknown : Known object) (hsize : size ≤ u64Max) {ranges : List (Nat × Nat)}
    {out : ExtTreeMap String Weight} {r : List (Nat × Nat) × ExtTreeMap String Weight} :
    Checkpoint.parseMembers shard base size object ranges out = .ok r ↔
      (∀ t ∈ extents object, t.2.Sized ∧ base + t.2.stop ≤ size) ∧
        r = (ranges ++ (extents object).map fun t => (t.2.start, t.2.stop),
          putAll (Extent.weight shard base) (extents object) out) := by
  induction object generalizing ranges out with
  | nil =>
    simp only [Checkpoint.parseMembers, extents, List.filterMap_nil, List.not_mem_nil, false_implies, implies_true,
      List.map_nil, List.append_nil, putAll_nil, true_and, Outcome.ok.injEq]
    exact eq_comm
  | cons kv object ih =>
    obtain ⟨key, v⟩ := kv
    rw [Checkpoint.parseMembers, extents_cons, knownMember]
    dsimp only
    split
    · exact ih hknown.tail
    · rename_i hkey
      obtain ⟨e, he⟩ := Option.isSome_iff_exists.mp (hknown.tensors (key, v) List.mem_cons_self hkey)
      rw [he, bind_eq_ok]
      simp only [parseMember_known he hsize, Option.map_some, Option.toList_some, List.singleton_append,
        List.forall_mem_cons, List.map_cons, putAll_cons]
      constructor
      · rintro ⟨_, ⟨hfits, rfl⟩, hrest⟩
        obtain ⟨hall, rfl⟩ := (ih hknown.tail).mp hrest
        exact ⟨⟨hfits, hall⟩, by rw [List.append_assoc, List.singleton_append]⟩
      · rintro ⟨⟨hfits, hall⟩, rfl⟩
        refine ⟨_, ⟨hfits, rfl⟩, (ih hknown.tail).mpr ⟨hall, ?_⟩⟩
        rw [List.append_assoc, List.singleton_append]

theorem Exact.stop_le (h : Exact tensors base size) {t : String × Extent} (ht : t ∈ tensors) : base + t.2.stop ≤ size := by
  refine h.tiles.stop_le (List.mem_map_of_mem ht) ?_
  have := (h.sized t ht).range
  dsimp only
  omega

/-- The header is read without an error exactly when it is exact. -/
theorem parseHeader_known (hknown : Known object) (hjson : formats.json bytes = .ok (.object object)) (hsize : size ≤ u64Max)
    {out : ExtTreeMap String Weight} :
    Checkpoint.parseHeader formats bytes shard base size = .ok out ↔
      Exact (extents object) base size ∧ out = putAll (Extent.weight shard base) (extents object) ∅ := by
  rw [Checkpoint.parseHeader, hjson, ok_bind, Value.asObject, okOr_some, ok_bind, bind_eq_ok]
  simp only [parseMembers_known hknown hsize, List.nil_append]
  constructor
  · rintro ⟨_, ⟨hall, rfl⟩, h⟩
    obtain ⟨cursor, hwalk, h⟩ := bind_eq_ok.mp h
    split at h
    · cases h
    · rename_i hlast
      rw [not_not] at hlast
      obtain rfl := Outcome.ok.inj h
      have hsized : ∀ t ∈ extents object, t.2.Sized := fun t ht => (hall t ht).1
      exact ⟨⟨hsized, (contiguous_iff hsize hsized).mp ⟨cursor, hwalk, hlast⟩⟩, rfl⟩
  · rintro ⟨hexact, rfl⟩
    refine ⟨_, ⟨fun t ht => ⟨hexact.sized t ht, hexact.stop_le ht⟩, rfl⟩, ?_⟩
    obtain ⟨cursor, hwalk, hlast⟩ := (contiguous_iff hsize hexact.sized).mpr hexact.tiles
    rw [hwalk, ok_bind, hlast, if_neg (not_not.mpr rfl)]

/-! ## The inventory's header -/

def dtypeName : Dtype → String
  | .bf16 => "BF16"
  | .f32 => "F32"

theorem named_eq_some {text : String} {d : Dtype} (h : Dtype.named text = some d) : text = dtypeName d := by
  rw [Dtype.named] at h
  split at h
  · cases h
    assumption
  · split at h
    · cases h
      assumption
    · cases h

theorem dtypeBytes_name (d : Dtype) : Inventory.dtypeBytes (dtypeName d) = .ok d.bytes := by
  cases d <;> rfl

def Extent.descriptor (name : String) (base : Nat) (e : Extent) : TensorDescriptor where
  shard := name
  dtype := dtypeName e.dtype
  shape := e.shape
  offset := base + e.start
  bytes := e.bytes

/-- The inventory with one more tensor. -/
def recorded (result : Inventory) (key : String) (tensor : TensorDescriptor) : Inventory :=
  { result with
    tensors := result.tensors.insert key tensor
    storedTensorBytes := result.storedTensorBytes + tensor.bytes
    bytesByDtype := result.bytesByDtype.insert tensor.dtype (result.bytesByDtype.getD tensor.dtype 0 + tensor.bytes) }

def recordedAll (name : String) (base : Nat) (tensors : List (String × Extent)) (result : Inventory) : Inventory :=
  tensors.foldl (fun result t => recorded result t.1 (t.2.descriptor name base)) result

/-- The bytes of the tensors that a test selects. -/
def bytesOf (tensors : List (String × Extent)) (selected : Dtype → Bool) : Nat :=
  (tensors.map fun t => if selected t.2.dtype then t.2.bytes else 0).sum

/-- The inventory has room for more tensors: they are new, there are not too many of them, and their bytes can be added up. -/
structure Room (result : Inventory) (tensors : List (String × Extent)) : Prop where
  fresh : ∀ t ∈ tensors, t.1 ∉ result.tensors
  few : tensors ≠ [] → result.tensors.size + tensors.length ≤ 1000000
  stored : tensors ≠ [] → result.storedTensorBytes + bytesOf tensors (fun _ => true) ≤ u64Max
  byDtype : ∀ d, (∃ t ∈ tensors, t.2.dtype = d) →
    result.bytesByDtype.getD (dtypeName d) 0 + bytesOf tensors (· == d) ≤ u64Max

/-- What the inventory asks of a header beyond its ranges. -/
structure Admitted (map : Option (ExtTreeMap String String)) (name : String) (result : Inventory)
    (object : List (String × Value)) : Prop where
  metadata : ∀ v, ("__metadata__", v) ∈ object → v.strings.isSome
  owned : ∀ m, map = some m → ∀ t ∈ extents object, m[t.1]? = some name
  room : Room result (extents object)

variable {map : Option (ExtTreeMap String String)} {result : Inventory}

theorem record_eq_ok {tensor : TensorDescriptor} {r : Inventory} :
    Inventory.record result key tensor = .ok r ↔
      (key ∉ result.tensors ∧ result.tensors.size + 1 ≤ 1000000 ∧ result.storedTensorBytes + tensor.bytes ≤ u64Max ∧
        result.bytesByDtype.getD tensor.dtype 0 + tensor.bytes ≤ u64Max) ∧ r = recorded result key tensor := by
  rw [Inventory.record]
  split
  · rename_i hdup
    rw [ExtTreeMap.contains_iff_mem] at hdup
    simp [hdup]
  · rename_i hfresh
    rw [ExtTreeMap.contains_iff_mem] at hfresh
    have hsize : (result.tensors.insert key tensor).size = result.tensors.size + 1 := by
      rw [ExtTreeMap.size_insert, if_neg (mt ExtTreeMap.contains_iff_mem.mp hfresh)]
    dsimp only
    rw [hsize]
    split
    · simp only [reduceCtorEq, false_iff]
      omega
    · simp only [Inventory.add, bind_eq_ok, okOr_eq_ok, checkedAdd_eq_some, Outcome.ok.injEq]
      constructor
      · rintro ⟨_, ⟨hstored, rfl⟩, _, ⟨hcount, rfl⟩, rfl⟩
        exact ⟨⟨hfresh, by omega, hstored, hcount⟩, rfl⟩
      · rintro ⟨⟨-, -, hstored, hcount⟩, rfl⟩
        exact ⟨_, ⟨hstored, rfl⟩, _, ⟨hcount, rfl⟩, rfl⟩

theorem inspectMember_known (hknown : knownExtent v = some e) (hkey : key ≠ "") (hsize : size ≤ u64Max)
    {r : Inventory × (Nat × Nat)} :
    Inventory.inspectMember map name base size key v result = .ok r ↔
      (e.Sized ∧ base + e.stop ≤ size) ∧ (∀ m, map = some m → m[key]? = some name) ∧
        Inventory.record result key (e.descriptor name base) = .ok r.1 ∧ r.2 = (e.start, e.stop) := by
  obtain ⟨dtype, hdtype, hnamed, hshape, hpair, hrank⟩ := knownExtent_eq_some hknown
  obtain rfl := named_eq_some hnamed
  simp only [Inventory.inspectMember, if_neg hkey, hdtype, Value.asStr, hshape, hpair, okOr_some, ok_bind,
    if_neg (Nat.not_lt.mpr hrank), dtypeBytes_name]
  by_cases hsized : e.Sized
  · rw [hsized.foldlM, okOr_some, ok_bind, hsized.checkedSub, if_neg (not_not.mpr rfl), bind_eq_ok]
    simp only [Inventory.add, okOr_eq_ok, checkedAdd_eq_some, hsized, true_and]
    constructor
    · rintro ⟨_, ⟨hlast, rfl⟩, h⟩
      split at h
      · cases h
      · rename_i hin
        split at h
        · cases h
        · rename_i howned
          simp only [bind_eq_ok, okOr_eq_ok, checkedAdd_eq_some, Outcome.ok.injEq] at h
          obtain ⟨_, ⟨-, rfl⟩, result', hrecord, rfl⟩ := h
          refine ⟨Nat.not_lt.mp hin, fun m hm => ?_, hrecord, rfl⟩
          simpa [hm] using howned
    · rintro ⟨hin, howned, hrecord, hrange⟩
      have hstart : e.start ≤ e.stop := by
        have := hsized.range
        omega
      have hmap : ¬(map.any fun m => decide (m[key]? ≠ some name)) = true := by
        cases map with
        | none => simp
        | some m => simp [howned m rfl]
      refine ⟨_, ⟨hin.trans hsize, rfl⟩, ?_⟩
      rw [if_neg (Nat.not_lt.mpr hin), if_neg hmap]
      simp only [bind_eq_ok, okOr_eq_ok, checkedAdd_eq_some, Outcome.ok.injEq]
      exact ⟨_, ⟨by omega, rfl⟩, r.1, hrecord, by rw [← hrange]⟩
  · simp only [hsized, false_and, iff_false]
    intro h
    obtain ⟨count, hcount, h⟩ := bind_eq_ok.mp h
    rw [if_pos (Extent.not_sized hsized (okOr_eq_ok.mp hcount))] at h
    cases h

theorem dtypeName_inj {d d' : Dtype} : dtypeName d = dtypeName d' ↔ d = d' := by
  cases d <;> cases d' <;> decide

@[simp] theorem bytesOf_cons {t : String × Extent} {selected : Dtype → Bool} :
    bytesOf (t :: tensors) selected = (if selected t.2.dtype then t.2.bytes else 0) + bytesOf tensors selected := rfl

theorem count_recorded {d : Dtype} :
    (recorded result key (e.descriptor name base)).bytesByDtype.getD (dtypeName d) 0 =
      result.bytesByDtype.getD (dtypeName d) 0 + if e.dtype == d then e.bytes else 0 := by
  rw [recorded, ExtTreeMap.getD_insert]
  simp only [Std.compare_eq_iff_eq, Extent.descriptor, dtypeName_inj, beq_iff_eq]
  split
  · rename_i hd
    rw [hd]
  · rfl

/-- There is room for tensors when there is room for the first, and then for the others. -/
theorem room_cons {t : String × Extent} (hnew : t.1 ∉ tensors.map Prod.fst) :
    Room result (t :: tensors) ↔
      (t.1 ∉ result.tensors ∧ result.tensors.size + 1 ≤ 1000000 ∧ result.storedTensorBytes + t.2.bytes ≤ u64Max ∧
        result.bytesByDtype.getD (dtypeName t.2.dtype) 0 + t.2.bytes ≤ u64Max) ∧
      Room (recorded result t.1 (t.2.descriptor name base)) tensors := by
  have hsize : t.1 ∉ result.tensors →
      (recorded result t.1 (t.2.descriptor name base)).tensors.size = result.tensors.size + 1 := by
    intro hfresh
    rw [recorded, ExtTreeMap.size_insert, if_neg (mt ExtTreeMap.contains_iff_mem.mp hfresh)]
  constructor
  · rintro ⟨hfresh, hfew, hstored, hbyDtype⟩
    have hfew := hfew (List.cons_ne_nil _ _)
    have hstored := hstored (List.cons_ne_nil _ _)
    have hfirst := hbyDtype t.2.dtype ⟨t, List.mem_cons_self, rfl⟩
    have htfresh := hfresh t List.mem_cons_self
    rw [List.length_cons] at hfew
    rw [bytesOf_cons, if_pos rfl] at hstored
    rw [bytesOf_cons, if_pos (beq_self_eq_true _)] at hfirst
    refine ⟨⟨htfresh, by omega, by omega, by omega⟩, fun t' ht' hmem => ?_, fun _ => ?_, fun _ => ?_, ?_⟩
    · rcases ExtTreeMap.mem_insert.mp hmem with hkey | hmem
      · rw [Std.compare_eq_iff_eq] at hkey
        exact hnew (hkey ▸ List.mem_map_of_mem ht')
      · exact hfresh t' (List.mem_cons_of_mem _ ht') hmem
    · rw [hsize htfresh]
      omega
    · change result.storedTensorBytes + t.2.bytes + _ ≤ _
      omega
    · rintro d ⟨t', ht', hd⟩
      have hrest := hbyDtype d ⟨t', List.mem_cons_of_mem _ ht', hd⟩
      rw [bytesOf_cons] at hrest
      rw [count_recorded]
      omega
  · rintro ⟨⟨htfresh, hsmall, hadded, hcounted⟩, hfresh, hfew, hstored, hbyDtype⟩
    refine ⟨List.forall_mem_cons.mpr ⟨htfresh, fun t' ht' hmem => ?_⟩, fun _ => ?_, fun _ => ?_, ?_⟩
    · exact hfresh t' ht' (ExtTreeMap.mem_insert.mpr (.inr hmem))
    · rw [List.length_cons]
      by_cases hnil : tensors = []
      · subst hnil
        exact hsmall
      · have := hfew hnil
        rw [hsize htfresh] at this
        omega
    · rw [bytesOf_cons, if_pos rfl]
      by_cases hnil : tensors = []
      · subst hnil
        exact hadded
      · have : result.storedTensorBytes + t.2.bytes + _ ≤ _ := hstored hnil
        omega
    · rintro d ⟨t', ht', hd⟩
      rw [bytesOf_cons]
      by_cases hlater : ∃ t' ∈ tensors, t'.2.dtype = d
      · have := hbyDtype d hlater
        rw [count_recorded] at this
        omega
      · -- Only the first tensor has this dtype.
        have hzero : bytesOf tensors (· == d) = 0 := by
          rw [bytesOf, List.sum_eq_zero_iff]
          intro n hn
          obtain ⟨t', ht', rfl⟩ := List.mem_map.mp hn
          exact if_neg fun hd => hlater ⟨t', ht', beq_iff_eq.mp hd⟩
        obtain rfl : t' = t := by
          rcases List.mem_cons.mp ht' with rfl | ht'
          · rfl
          · exact absurd ⟨t', ht', hd⟩ hlater
        subst hd
        rw [if_pos (beq_self_eq_true _), hzero]
        exact hcounted

theorem room_nil : Room result [] where
  fresh := by simp
  few h := absurd rfl h
  stored h := absurd rfl h
  byDtype := by simp

theorem extents_metadata : extents (("__metadata__", v) :: object) = extents object := by
  rw [extents_cons, knownMember, if_pos rfl]
  rfl

theorem extents_tensor (hkey : key ≠ "__metadata__") (he : knownExtent v = some e) :
    extents ((key, v) :: object) = (key, e) :: extents object := by
  rw [extents_cons, knownMember, if_neg hkey, he]
  rfl

theorem admitted_metadata :
    Admitted map name result (("__metadata__", v) :: object) ↔ v.strings.isSome ∧ Admitted map name result object := by
  constructor
  · rintro ⟨hmetadata, howned, hroom⟩
    rw [extents_metadata] at howned hroom
    exact ⟨hmetadata v List.mem_cons_self, fun v hv => hmetadata v (List.mem_cons_of_mem _ hv), howned, hroom⟩
  · rintro ⟨hv, hmetadata, howned, hroom⟩
    refine ⟨fun v' hv' => ?_, by rwa [extents_metadata], by rwa [extents_metadata]⟩
    rcases List.mem_cons.mp hv' with heq | hv'
    · cases heq
      exact hv
    · exact hmetadata v' hv'

theorem admitted_tensor (hknown : Known ((key, v) :: object)) (hkey : key ≠ "__metadata__") (he : knownExtent v = some e)
    {r : Inventory} :
    Admitted map name result ((key, v) :: object) ∧ r = recorded result key (e.descriptor name base) ↔
      (∀ m, map = some m → m[key]? = some name) ∧ Inventory.record result key (e.descriptor name base) = .ok r ∧
        Admitted map name r object := by
  have hnew : key ∉ (extents object).map Prod.fst := by
    have hnodup := hknown.nodup
    rw [extents_tensor hkey he, List.map_cons] at hnodup
    exact (List.nodup_cons.mp hnodup).1
  have hroom := @room_cons (extents object) name base result (key, e) hnew
  rw [record_eq_ok]
  constructor
  · rintro ⟨⟨hmetadata, howned, hcons⟩, rfl⟩
    rw [extents_tensor hkey he] at howned hcons
    obtain ⟨hstep, hrest⟩ := hroom.mp hcons
    exact ⟨fun m hm => howned m hm _ List.mem_cons_self, ⟨hstep, rfl⟩, fun v hv => hmetadata v (List.mem_cons_of_mem _ hv),
      fun m hm t ht => howned m hm t (List.mem_cons_of_mem _ ht), hrest⟩
  · rintro ⟨hfirst, ⟨hstep, rfl⟩, hmetadata, howned, hrest⟩
    refine ⟨⟨fun v' hv' => ?_, fun m hm => ?_, ?_⟩, rfl⟩
    · rcases List.mem_cons.mp hv' with heq | hv'
      · exact absurd (Prod.mk.inj heq).1.symm hkey
      · exact hmetadata v' hv'
    · rw [extents_tensor hkey he]
      exact List.forall_mem_cons.mpr ⟨hfirst m hm, howned m hm⟩
    · rw [extents_tensor hkey he]
      exact hroom.mpr ⟨hstep, hrest⟩

theorem inspectMembers_known (hknown : Known object) (hsize : size ≤ u64Max) {ranges : List (Nat × Nat)}
    {r : Inventory × List (Nat × Nat)} :
    Inventory.inspectMembers map name base size object result ranges = .ok r ↔
      (∀ t ∈ extents object, t.2.Sized ∧ base + t.2.stop ≤ size) ∧ Admitted map name result object ∧
        r = (recordedAll name base (extents object) result, ranges ++ (extents object).map fun t => (t.2.start, t.2.stop)) := by
  induction object generalizing result ranges with
  | nil =>
    simp only [Inventory.inspectMembers, Outcome.ok.injEq]
    constructor
    · rintro rfl
      exact ⟨by simp [extents], ⟨by simp, by simp [extents], room_nil⟩, by simp [extents, recordedAll]⟩
    · rintro ⟨-, -, rfl⟩
      simp [extents, recordedAll]
  | cons kv object ih =>
    obtain ⟨key, v⟩ := kv
    rw [Inventory.inspectMembers]
    split
    · rename_i hkey
      subst hkey
      rw [admitted_metadata, extents_metadata]
      split
      · rename_i hbad
        simp [Option.isNone_iff_eq_none.mp hbad]
      · rename_i hgood
        have hsome : v.strings.isSome := by simpa [Option.isSome_iff_ne_none] using hgood
        rw [ih hknown.tail]
        simp only [hsome, true_and]
    · rename_i hkey
      obtain ⟨e, he⟩ := Option.isSome_iff_exists.mp (hknown.tensors (key, v) List.mem_cons_self hkey)
      have hcons := @admitted_tensor object v e key name base map result hknown hkey he
      rw [bind_eq_ok]
      simp only [inspectMember_known he (hknown.named _ List.mem_cons_self) hsize, extents_tensor hkey he,
        List.forall_mem_cons, List.map_cons]
      constructor
      · rintro ⟨⟨result', _⟩, ⟨hfits, howned, hrecord, rfl⟩, hrest⟩
        obtain ⟨hall, hadmitted, rfl⟩ := (ih hknown.tail).mp hrest
        obtain ⟨hwhole, hresult⟩ := hcons.mpr ⟨howned, hrecord, hadmitted⟩
        dsimp only at hresult
        subst hresult
        exact ⟨⟨hfits, hall⟩, hwhole, by rw [List.append_assoc, List.singleton_append]; rfl⟩
      · rintro ⟨⟨hfits, hall⟩, hadmitted, rfl⟩
        obtain ⟨howned, hrecord, hadmitted⟩ := hcons.mp ⟨hadmitted, rfl⟩
        refine ⟨(_, _), ⟨hfits, howned, hrecord, rfl⟩, (ih hknown.tail).mpr ⟨hall, hadmitted, ?_⟩⟩
        rw [List.append_assoc, List.singleton_append]
        rfl

theorem inspectHeader_known (hknown : Known object) (hsize : size ≤ u64Max) {r : Inventory} :
    Inventory.inspectHeader map name base size object result = .ok r ↔
      Exact (extents object) base size ∧ Admitted map name result object ∧ r = recordedAll name base (extents object) result := by
  rw [Inventory.inspectHeader, bind_eq_ok]
  simp only [inspectMembers_known hknown hsize, List.nil_append]
  constructor
  · rintro ⟨_, ⟨hall, hadmitted, rfl⟩, h⟩
    obtain ⟨cursor, hwalk, h⟩ := bind_eq_ok.mp h
    obtain ⟨last, hlast, h⟩ := bind_eq_ok.mp h
    split at h
    · cases h
    · rename_i hend
      rw [not_not] at hend
      obtain rfl := Outcome.ok.inj h
      rw [hend] at hlast
      have hsized : ∀ t ∈ extents object, t.2.Sized := fun t ht => (hall t ht).1
      exact ⟨⟨hsized, (contiguous_iff hsize hsized).mp ⟨cursor, hwalk, okOr_eq_ok.mp hlast⟩⟩, hadmitted, rfl⟩
  · rintro ⟨hexact, hadmitted, rfl⟩
    refine ⟨_, ⟨fun t ht => ⟨hexact.sized t ht, hexact.stop_le ht⟩, hadmitted, rfl⟩, ?_⟩
    obtain ⟨cursor, hwalk, hlast⟩ := (contiguous_iff hsize hexact.sized).mpr hexact.tiles
    rw [hwalk, ok_bind, Inventory.add, hlast, okOr_some, ok_bind, if_neg (not_not.mpr rfl)]

/-! ## Records -/

theorem tensors_recordedAll : (recordedAll name base tensors result).tensors =
    putAll (Extent.descriptor name base) tensors result.tensors := by
  induction tensors generalizing result with
  | nil => rfl
  | cons t tensors ih => exact ih

/-- The ranges of an exact header are in the file, and those of two tensors are apart. -/
theorem Exact.recorded (h : Exact tensors base size) {place : String → Option (Nat × Nat)}
    (hplace : ∀ t ∈ tensors, place t.1 = some (base + t.2.start, t.2.bytes)) : Recorded tensors base size place where
  range t ht := by rw [hplace t ht, (h.sized t ht).bytes_eq]
  inside t ht p hp := by
    rw [hplace t ht] at hp
    obtain rfl := Option.some.inj hp
    have hrange := (h.sized t ht).range
    have := h.stop_le ht
    dsimp only
    omega
  apart t ht t' ht' hne p p' hp hp' hpos hpos' := by
    rw [hplace t ht] at hp
    rw [hplace t' ht'] at hp'
    obtain rfl := Option.some.inj hp
    obtain rfl := Option.some.inj hp'
    have hrange := (h.sized t ht).range
    have hrange' := (h.sized t' ht').range
    have hapart := List.pairwise_map.mp h.tiles.apart
    have hsymm : Std.Symm fun t t' : String × Extent => base + t.2.start < base + t.2.stop → base + t'.2.start < base + t'.2.stop →
        base + t.2.stop ≤ base + t'.2.start ∨ base + t'.2.stop ≤ base + t.2.start := ⟨fun _ _ h hr hs => (h hs hr).symm⟩
    have := hapart.forall ht ht' (fun heq => hne (congrArg Prod.fst heq))
    dsimp only at hpos hpos' ⊢
    omega

end Inferfabric.Compiler
