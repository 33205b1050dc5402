-- SUMMARY: The index of an inspected checkpoint agrees with its headers, and what both checkers make of a header.
import IronPangu.Compiler.Checkpoint.Headers

open Rust Outcome Std Json

/-!
# Index and headers

An inspection reads the header of every shard that the index names. It owns each tensor
it finds to the shard it was found in, and counts: when it succeeds, the index has an
entry for the tensors found and for no others.
-/

namespace Inferfabric.Compiler

open Checkpoint (Weight Tally)

/-- A tensor in the header of a shard. -/
def InHeader (read : Bytes → Outcome String Value) (d : Directory) (shard key : String) : Prop :=
  ∃ file first bytes object, d.open_ shard = .ok file ∧ file.readExact 0 8 = .ok first ∧
    file.readExact 8 (fromLeBytes first) = .ok bytes ∧ read bytes = .ok (.object object) ∧
    key ≠ "__metadata__" ∧ ∃ v, (key, v) ∈ object

/-- The shard of each tensor, as the index has it. -/
def IndexMap (read : Bytes → Outcome String Value) (d : Directory) (map : ExtTreeMap String String) : Prop :=
  ∃ file index entries, d.open_ "model.safetensors.index.json" = .ok file ∧ read file.content = .ok index ∧
    (index.index "weight_map").strings = some entries ∧ map = .ofList entries

/-- The entries of the index are the tensors of the shards it names, each under its own shard. -/
def Agrees (read : Bytes → Outcome String Value) (d : Directory) (map : ExtTreeMap String String) : Prop :=
  ∀ key shard : String, map[key]? = some shard ↔ (∃ k : String, map[k]? = some shard) ∧ InHeader read d shard key

/-- What has been found in the shards read so far. -/
structure Found (read : Bytes → Outcome String Value) (d : Directory) (map : ExtTreeMap String String)
    (found shards : String → Prop) : Prop where
  listed : ∀ key, found key ↔ ∃ shard, shards shard ∧ InHeader read d shard key
  owned : ∀ shard, shards shard → ∀ key, InHeader read d shard key → map[key]? = some shard

variable {formats : Formats} {read : Bytes → Outcome String Value} {d : Directory} {map : ExtTreeMap String String}
  {object : List (String × Value)} {names : List String} {key name shard : String} {base size : Nat}

theorem mem_values : name ∈ values map ↔ ∃ key : String, map[key]? = some name := by
  simp only [values, List.mem_map, Prod.exists, ExtTreeMap.mem_toList_iff_getElem?_eq_some, exists_eq_right]

/-- Keys of one map that are keys of another as large are all its keys. -/
theorem mem_of_size_eq {α β : Type} {small : ExtTreeMap String α} {large : ExtTreeMap String β}
    (hsub : ∀ key ∈ small, key ∈ large) (hsize : small.size = large.size) (hkey : key ∈ large) : key ∈ small := by
  have hsubperm : small.keys.Subperm large.keys :=
    ExtTreeMap.nodup_keys.subperm fun key hkey => ExtTreeMap.mem_keys.mpr (hsub key (ExtTreeMap.mem_keys.mp hkey))
  have hperm := hsubperm.perm_of_length_le (by rw [ExtTreeMap.length_keys, ExtTreeMap.length_keys, hsize])
  exact ExtTreeMap.mem_keys.mp (hperm.mem_iff.mpr (ExtTreeMap.mem_keys.mpr hkey))

theorem Found.agrees {α : Type} {all : ExtTreeMap String α} {shards : String → Prop}
    (h : Found read d map (· ∈ all) shards) (hshards : ∀ shard, shards shard ↔ ∃ k : String, map[k]? = some shard)
    (hsize : all.size = map.size) : Agrees read d map := by
  have hsub : ∀ key ∈ all, key ∈ map := by
    intro key hkey
    obtain ⟨shard, hshard, hheader⟩ := (h.listed key).mp hkey
    exact ExtTreeMap.mem_iff_isSome_getElem?.mpr (by rw [h.owned shard hshard key hheader]; rfl)
  intro key shard
  constructor
  · intro hentry
    have hkey : key ∈ map := ExtTreeMap.mem_iff_isSome_getElem?.mpr (by rw [hentry]; rfl)
    obtain ⟨shard', hshard', hheader⟩ := (h.listed key).mp (mem_of_size_eq hsub hsize hkey)
    obtain rfl := Option.some.inj (hentry.symm.trans (h.owned shard' hshard' key hheader))
    exact ⟨⟨key, hentry⟩, hheader⟩
  · rintro ⟨hnamed, hheader⟩
    exact h.owned shard ((hshards shard).mpr hnamed) key hheader

/-- One more shard. -/
theorem Found.add {found found' shards shards' : String → Prop} (h : Found read d map found shards)
    (hfound : ∀ key, found' key ↔ found key ∨ InHeader read d name key)
    (howned : ∀ key, InHeader read d name key → map[key]? = some name)
    (hshards : ∀ shard, shards' shard ↔ shard = name ∨ shards shard) : Found read d map found' shards' where
  listed key := by
    rw [hfound, h.listed]
    constructor
    · rintro (⟨shard, hshard, hheader⟩ | hheader)
      · exact ⟨shard, (hshards shard).mpr (.inr hshard), hheader⟩
      · exact ⟨name, (hshards name).mpr (.inl rfl), hheader⟩
    · rintro ⟨shard, hshard, hheader⟩
      rcases (hshards shard).mp hshard with rfl | hshard
      · exact .inr hheader
      · exact .inl ⟨shard, hshard, hheader⟩
  owned shard hshard key hheader := by
    rcases (hshards shard).mp hshard with rfl | hshard
    · exact howned key hheader
    · exact h.owned shard hshard key hheader

/-- The tensors of a header, by its first member. -/
theorem tensor_metadata {kv : String × Value} (hkey : kv.1 = "__metadata__") :
    (key ≠ "__metadata__" ∧ ∃ v, (key, v) ∈ kv :: object) ↔ key ≠ "__metadata__" ∧ ∃ v, (key, v) ∈ object := by
  refine and_congr_right fun hne => exists_congr fun v => ?_
  rw [List.mem_cons, or_iff_right]
  rintro rfl
  exact hne hkey

theorem tensor_cons {kv : String × Value} (hkey : kv.1 ≠ "__metadata__") :
    (key ≠ "__metadata__" ∧ ∃ v, (key, v) ∈ kv :: object) ↔
      key = kv.1 ∨ key ≠ "__metadata__" ∧ ∃ v, (key, v) ∈ object := by
  constructor
  · rintro ⟨hne, v, hv⟩
    rcases List.mem_cons.mp hv with rfl | hv
    · exact .inl rfl
    · exact .inr ⟨hne, v, hv⟩
  · rintro (rfl | ⟨hne, v, hv⟩)
    · exact ⟨hkey, kv.2, List.mem_cons_self⟩
    · exact ⟨hne, v, List.mem_cons_of_mem _ hv⟩

theorem inHeader_iff {file : File} {first bytes : Bytes} (hfile : d.open_ name = .ok file)
    (hfirst : file.readExact 0 8 = .ok first) (hbytes : file.readExact 8 (fromLeBytes first) = .ok bytes)
    (hread : read bytes = .ok (.object object)) :
    InHeader read d name key ↔ key ≠ "__metadata__" ∧ ∃ v, (key, v) ∈ object := by
  constructor
  · rintro ⟨file', first', bytes', object', hfile', hfirst', hbytes', hread', hkey⟩
    obtain rfl := Outcome.ok.inj (hfile.symm.trans hfile')
    obtain rfl := Outcome.ok.inj (hfirst.symm.trans hfirst')
    obtain rfl := Outcome.ok.inj (hbytes.symm.trans hbytes')
    obtain rfl := Value.object.inj (Outcome.ok.inj (hread.symm.trans hread'))
    exact hkey
  · intro hkey
    exact ⟨file, first, bytes, object, hfile, hfirst, hbytes, hread, hkey⟩

/-! ## A checkpoint -/

theorem mem_parseMembers {ranges ranges' : List (Nat × Nat)} {out out' : ExtTreeMap String Weight}
    (h : Checkpoint.parseMembers shard base size object ranges out = .ok (ranges', out')) :
    key ∈ out' ↔ key ∈ out ∨ key ≠ "__metadata__" ∧ ∃ v, (key, v) ∈ object := by
  induction object generalizing ranges out with
  | nil =>
    cases h
    simp
  | cons kv object ih =>
    obtain ⟨first, v⟩ := kv
    rw [Checkpoint.parseMembers] at h
    split at h
    · rename_i hmeta
      rw [ih h, tensor_metadata hmeta]
    · rename_i hkey
      obtain ⟨⟨range, weight⟩, -, h⟩ := bind_eq_ok.mp h
      rw [ih h, ExtTreeMap.mem_insert, Std.compare_eq_iff_eq, tensor_cons hkey, eq_comm]
      tauto

theorem mem_addTensors {tensors : List (String × Weight)} {all all' : ExtTreeMap String Weight}
    (h : Checkpoint.addTensors map name tensors all = .ok all') :
    (∀ t ∈ tensors, map[t.1]? = some name) ∧ ∀ key, key ∈ all' ↔ key ∈ all ∨ ∃ weight, (key, weight) ∈ tensors := by
  induction tensors generalizing all with
  | nil =>
    cases h
    simp
  | cons t tensors ih =>
    obtain ⟨first, weight⟩ := t
    rw [Checkpoint.addTensors] at h
    split at h
    · cases h
    · rename_i hallowed
      obtain ⟨howned, -⟩ := not_or.mp hallowed
      obtain ⟨hall, hmem⟩ := ih h
      refine ⟨List.forall_mem_cons.mpr ⟨not_not.mp howned, hall⟩, fun key => ?_⟩
      rw [hmem, ExtTreeMap.mem_insert, Std.compare_eq_iff_eq]
      simp only [List.mem_cons, Prod.mk.injEq, exists_or, exists_and_left, exists_eq, and_true]
      rw [eq_comm]
      tauto

theorem localFile_eq_ok {file : File} (h : Checkpoint.localFile d name = .ok file) : d.open_ name = .ok file := by
  rw [Checkpoint.localFile] at h
  split at h
  · cases h
  · exact h

theorem mem_parseHeader {bytes : Bytes} {out : ExtTreeMap String Weight}
    (h : Checkpoint.parseHeader formats bytes name base size = .ok out) :
    ∃ object, formats.json bytes = .ok (.object object) ∧
      ∀ key, key ∈ out ↔ key ≠ "__metadata__" ∧ ∃ v, (key, v) ∈ object := by
  obtain ⟨value, hjson, h⟩ := bind_eq_ok.mp h
  obtain ⟨object, hobject, h⟩ := bind_eq_ok.mp h
  obtain ⟨⟨ranges, out'⟩, hmembers, h⟩ := bind_eq_ok.mp h
  obtain ⟨cursor, -, h⟩ := bind_eq_ok.mp h
  split at h
  · cases h
  · cases h
    cases value with
    | object members =>
      cases hobject
      refine ⟨object, hjson, fun key => ?_⟩
      rw [mem_parseMembers hmembers]
      simp
    | _ => cases hobject

theorem inspectShard_found {s s' : Tally} (h : Checkpoint.inspectShard formats d map name s = .ok s')
    (hfound : Found formats.json d map (· ∈ s.all) (· ∈ s.shards)) :
    Found formats.json d map (· ∈ s'.all) (· ∈ s'.shards) ∧ ∀ shard, shard ∈ s'.shards ↔ shard = name ∨ shard ∈ s.shards := by
  rw [Checkpoint.inspectShard] at h
  obtain ⟨file, hfile, h⟩ := bind_eq_ok.mp h
  obtain ⟨first, hfirst, h⟩ := bind_eq_ok.mp h
  dsimp only at h
  split at h
  · cases h
  · obtain ⟨bytes, hbytes, h⟩ := bind_eq_ok.mp h
    obtain ⟨tensors, htensors, h⟩ := bind_eq_ok.mp h
    obtain ⟨all, hall, h⟩ := bind_eq_ok.mp h
    obtain ⟨total, -, h⟩ := bind_eq_ok.mp h
    cases h
    obtain ⟨object, hjson, hmem⟩ := mem_parseHeader htensors
    obtain ⟨howned, hadded⟩ := mem_addTensors hall
    have hheader : ∀ key, InHeader formats.json d name key ↔ key ∈ tensors := fun key => by
      rw [inHeader_iff (localFile_eq_ok hfile) hfirst hbytes hjson, hmem]
    have htensor : ∀ key, key ∈ tensors ↔ ∃ weight, (key, weight) ∈ tensors.toList := by
      intro key
      rw [ExtTreeMap.mem_iff_isSome_getElem?, Option.isSome_iff_exists]
      simp only [ExtTreeMap.mem_toList_iff_getElem?_eq_some]
    have hshards : ∀ shard, shard ∈ s.shards.insert name ⟨file.size, formats.sha bytes⟩ ↔ shard = name ∨ shard ∈ s.shards := by
      intro shard
      rw [ExtTreeMap.mem_insert, Std.compare_eq_iff_eq, eq_comm]
    refine ⟨hfound.add (fun key => ?_) (fun key hkey => ?_) hshards, hshards⟩
    · rw [hadded, hheader, htensor]
    · obtain ⟨weight, hweight⟩ := (htensor key).mp ((hheader key).mp hkey)
      exact howned _ hweight

theorem inspectShards_found {s s' : Tally} (h : Checkpoint.inspectShards formats d map names s = .ok s')
    (hfound : Found formats.json d map (· ∈ s.all) (· ∈ s.shards)) :
    Found formats.json d map (· ∈ s'.all) (· ∈ s'.shards) ∧
      ∀ shard, shard ∈ s'.shards ↔ shard ∈ names ∨ shard ∈ s.shards := by
  induction names generalizing s with
  | nil =>
    cases h
    exact ⟨hfound, by simp⟩
  | cons name names ih =>
    rw [Checkpoint.inspectShards] at h
    split at h
    · rename_i hdone
      obtain ⟨hfound, hshards⟩ := ih h hfound
      refine ⟨hfound, fun shard => ?_⟩
      rw [hshards, List.mem_cons]
      constructor
      · tauto
      · rintro ((rfl | hname) | hshard)
        · exact .inr (ExtTreeMap.contains_iff_mem.mp hdone)
        · exact .inl hname
        · exact .inr hshard
    · obtain ⟨s₁, hshard, h⟩ := bind_eq_ok.mp h
      obtain ⟨hfound, hfirst⟩ := inspectShard_found hshard hfound
      obtain ⟨hfound, hshards⟩ := ih h hfound
      refine ⟨hfound, fun shard => ?_⟩
      rw [hshards, hfirst, List.mem_cons]
      tauto

theorem found_nothing : Found read d map (fun _ => False) (fun _ => False) where
  listed := by simp
  owned := by simp

/-- The index of an inspected checkpoint agrees with the headers. -/
theorem inspect_agrees {validateConfig : Value → Outcome String Unit} {encode : Checkpoint → Outcome String Bytes}
    {checkpoint : Checkpoint} (h : Checkpoint.inspect formats validateConfig encode d = .ok checkpoint) :
    ∃ map, IndexMap formats.json d map ∧ Agrees formats.json d map := by
  rw [Checkpoint.inspect] at h
  obtain ⟨_, -, h⟩ := bind_eq_ok.mp h
  obtain ⟨_, -, h⟩ := bind_eq_ok.mp h
  obtain ⟨_, -, h⟩ := bind_eq_ok.mp h
  obtain ⟨_, -, h⟩ := bind_eq_ok.mp h
  obtain ⟨indexFile, hfile, h⟩ := bind_eq_ok.mp h
  obtain ⟨indexBytes, hbytes, h⟩ := bind_eq_ok.mp h
  obtain ⟨index, hindex, h⟩ := bind_eq_ok.mp h
  obtain ⟨entries, hentries, h⟩ := bind_eq_ok.mp h
  dsimp only at h
  split at h
  · cases h
  · obtain ⟨s, hshards, h⟩ := bind_eq_ok.mp h
    split at h
    · cases h
    · rename_i hsize
      obtain ⟨hsize, -⟩ := not_or.mp hsize
      refine ⟨.ofList entries, ⟨indexFile, index, entries, localFile_eq_ok hfile, ?_, okOr_eq_ok.mp hentries, rfl⟩, ?_⟩
      · rw [Checkpoint.bounded, Compiler.read] at hbytes
        split at hbytes
        · cases hbytes
        · cases hbytes
          exact hindex
      · obtain ⟨hfound, hnames⟩ := inspectShards_found hshards (by simpa using found_nothing)
        refine hfound.agrees (fun shard => ?_) (not_not.mp hsize)
        rw [hnames, mem_values]
        simp

/-! ## The inventory -/

theorem inventoryFile_eq_ok {file : File} (h : Inventory.localFile d name = .ok file) : d.open_ name = .ok file := by
  rw [Inventory.localFile] at h
  split at h
  · cases h
  · exact h

theorem unique_of_parse {bytes : Bytes} {v : Value} (h : Inventory.parse formats bytes = .ok v) :
    formats.unique bytes = .ok v := by
  rw [Inventory.parse] at h
  split at h
  · cases h
  · exact h

theorem mem_record {result result' : Inventory} {tensor : Inventory.TensorDescriptor} {first : String}
    (h : Inventory.record result first tensor = .ok result') :
    key ∈ result'.tensors ↔ key = first ∨ key ∈ result.tensors := by
  obtain ⟨-, rfl⟩ := record_eq_ok.mp h
  change key ∈ result.tensors.insert first tensor ↔ _
  rw [ExtTreeMap.mem_insert, Std.compare_eq_iff_eq, eq_comm]

theorem shards_of_record {result result' : Inventory} {tensor : Inventory.TensorDescriptor}
    (h : Inventory.record result key tensor = .ok result') : result'.shards = result.shards := by
  obtain ⟨-, rfl⟩ := record_eq_ok.mp h
  rfl

theorem mem_inspectMember {v : Value} {first : String} {result result' : Inventory} {range : Nat × Nat}
    (h : Inventory.inspectMember (some map) name base size first v result = .ok (result', range)) :
    map[first]? = some name ∧ (∀ key, key ∈ result'.tensors ↔ key = first ∨ key ∈ result.tensors) ∧
      result'.shards = result.shards := by
  rw [Inventory.inspectMember] at h
  split at h
  · cases h
  · obtain ⟨dtype, -, h⟩ := bind_eq_ok.mp h
    obtain ⟨shape, -, h⟩ := bind_eq_ok.mp h
    split at h
    · cases h
    · obtain ⟨elementBytes, -, h⟩ := bind_eq_ok.mp h
      obtain ⟨bytes, -, h⟩ := bind_eq_ok.mp h
      obtain ⟨⟨start, stop⟩, -, h⟩ := bind_eq_ok.mp h
      dsimp only at h
      split at h
      · cases h
      · obtain ⟨last, -, h⟩ := bind_eq_ok.mp h
        split at h
        · cases h
        · split at h
          · cases h
          · rename_i howned
            obtain ⟨offset, -, h⟩ := bind_eq_ok.mp h
            obtain ⟨recorded, hrecord, h⟩ := bind_eq_ok.mp h
            cases h
            exact ⟨by simpa using howned, fun key => mem_record hrecord, shards_of_record hrecord⟩

theorem mem_inspectMembers {result result' : Inventory} {ranges ranges' : List (Nat × Nat)}
    (h : Inventory.inspectMembers (some map) name base size object result ranges = .ok (result', ranges')) :
    (∀ key, key ∈ result'.tensors ↔ key ∈ result.tensors ∨ key ≠ "__metadata__" ∧ ∃ v, (key, v) ∈ object) ∧
      (∀ key, (key ≠ "__metadata__" ∧ ∃ v, (key, v) ∈ object) → map[key]? = some name) ∧
      result'.shards = result.shards := by
  induction object generalizing result ranges with
  | nil =>
    cases h
    simp
  | cons kv object ih =>
    obtain ⟨first, v⟩ := kv
    rw [Inventory.inspectMembers] at h
    split at h
    · rename_i hmeta
      split at h
      · cases h
      · obtain ⟨hmem, howned, hshards⟩ := ih h
        refine ⟨fun key => ?_, fun key hkey => ?_, hshards⟩
        · rw [hmem, tensor_metadata hmeta]
        · exact howned key ((tensor_metadata hmeta).mp hkey)
    · rename_i hfirst
      obtain ⟨⟨result₁, range⟩, hmember, h⟩ := bind_eq_ok.mp h
      obtain ⟨hname, hadded, hkept⟩ := mem_inspectMember hmember
      obtain ⟨hmem, howned, hshards⟩ := ih h
      refine ⟨fun key => ?_, fun key hkey => ?_, hshards.trans hkept⟩
      · rw [hmem, hadded, tensor_cons hfirst]
        tauto
      · rcases (tensor_cons hfirst).mp hkey with rfl | hkey
        · exact hname
        · exact howned key hkey

theorem inspectShard_listed {result result' : Inventory} {budget budget' : Nat}
    (h : Inventory.inspectShard formats d (some map) name result budget = .ok (result', budget'))
    (hfound : Found formats.unique d map (· ∈ result.tensors) (· ∈ result.shards)) :
    Found formats.unique d map (· ∈ result'.tensors) (· ∈ result'.shards) ∧
      ∀ shard, shard ∈ result'.shards ↔ shard = name ∨ shard ∈ result.shards := by
  rw [Inventory.inspectShard] at h
  split at h
  · cases h
  · obtain ⟨file, hfile, h⟩ := bind_eq_ok.mp h
    obtain ⟨first, hfirst, h⟩ := bind_eq_ok.mp h
    obtain ⟨base, -, h⟩ := bind_eq_ok.mp h
    split at h
    · cases h
    · obtain ⟨total, -, h⟩ := bind_eq_ok.mp h
      split at h
      · cases h
      · obtain ⟨header, hheader, h⟩ := bind_eq_ok.mp h
        obtain ⟨v, hread, h⟩ := bind_eq_ok.mp h
        obtain ⟨object, hobject, h⟩ := bind_eq_ok.mp h
        obtain ⟨added, hadded, h⟩ := bind_eq_ok.mp h
        cases h
        obtain rfl : v = .object object := by
          cases v with
          | object members => exact congrArg Value.object (Option.some.inj (okOr_eq_ok.mp hobject))
          | _ => cases okOr_eq_ok.mp hobject
        obtain ⟨⟨result₁, ranges⟩, hmembers, hadded⟩ := bind_eq_ok.mp hadded
        obtain ⟨cursor, -, hadded⟩ := bind_eq_ok.mp hadded
        obtain ⟨last, -, hadded⟩ := bind_eq_ok.mp hadded
        split at hadded
        · cases hadded
        · cases hadded
          obtain ⟨hmem, howned, hkept⟩ := mem_inspectMembers hmembers
          have hiff : ∀ key, InHeader formats.unique d name key ↔ key ≠ "__metadata__" ∧ ∃ v, (key, v) ∈ object :=
            fun _ => inHeader_iff (inventoryFile_eq_ok hfile) hfirst hheader (unique_of_parse hread)
          have hshards : ∀ shard, shard ∈ added.shards.insert name ⟨file.size, fromLeBytes first, formats.sha header⟩ ↔
              shard = name ∨ shard ∈ result.shards := by
            intro shard
            rw [ExtTreeMap.mem_insert, Std.compare_eq_iff_eq, eq_comm, hkept]
          refine ⟨hfound.add (fun key => ?_) (fun key hkey => ?_) hshards, hshards⟩
          · rw [hmem, hiff]
          · exact howned key ((hiff key).mp hkey)

theorem inspectShards_listed {result result' : Inventory} {budget : Nat}
    (h : Inventory.inspectShards formats d (some map) names result budget = .ok result')
    (hfound : Found formats.unique d map (· ∈ result.tensors) (· ∈ result.shards)) :
    Found formats.unique d map (· ∈ result'.tensors) (· ∈ result'.shards) ∧
      ∀ shard, shard ∈ result'.shards ↔ shard ∈ names ∨ shard ∈ result.shards := by
  induction names generalizing result budget with
  | nil =>
    cases h
    exact ⟨hfound, by simp⟩
  | cons name names ih =>
    obtain ⟨⟨result₁, budget₁⟩, hshard, h⟩ := bind_eq_ok.mp h
    obtain ⟨hfound, hfirst⟩ := inspectShard_listed hshard hfound
    obtain ⟨hfound, hshards⟩ := ih h hfound
    refine ⟨hfound, fun shard => ?_⟩
    rw [hshards, hfirst, List.mem_cons]
    tauto

theorem readIndex_map {index : Inventory.Index} (h : Inventory.readIndex formats d = .ok index) :
    IndexMap formats.unique d index.map := by
  obtain ⟨file, hfile, h⟩ := bind_eq_ok.mp h
  obtain ⟨bytes, hbytes, h⟩ := bind_eq_ok.mp h
  obtain ⟨v, hread, h⟩ := bind_eq_ok.mp h
  obtain ⟨declared, -, h⟩ := bind_eq_ok.mp h
  obtain ⟨entries, hentries, h⟩ := bind_eq_ok.mp h
  dsimp only at h
  split at h
  · cases h
  · cases h
    refine ⟨file, v, entries, inventoryFile_eq_ok hfile, ?_, okOr_eq_ok.mp hentries, rfl⟩
    rw [Inventory.readBounded, Compiler.read] at hbytes
    split at hbytes
    · cases hbytes
    · cases hbytes
      exact unique_of_parse hread

/-- The index of an inventory, where there is one, agrees with the headers. -/
theorem inventory_agrees {encode : Inventory → Outcome String Bytes} {allowStaleIndexSize : Bool} {inventory : Inventory}
    (h : Inventory.inspect formats encode d allowStaleIndexSize = .ok inventory)
    (hindex : d.exists_ "model.safetensors.index.json" = true) :
    ∃ map, IndexMap formats.unique d map ∧ Agrees formats.unique d map := by
  obtain ⟨found, hread, h⟩ := bind_eq_ok.mp h
  rw [Inventory.findIndex, if_pos hindex] at hread
  obtain ⟨index, hindex, hsome⟩ := bind_eq_ok.mp hread
  cases hsome
  refine ⟨index.map, readIndex_map hindex, ?_⟩
  dsimp only [Option.map_some] at h
  split at h
  · cases h
  · obtain ⟨result, hshards, h⟩ := bind_eq_ok.mp h
    split at h
    · cases h
    · rename_i hcount
      obtain ⟨-, hsize⟩ := not_or.mp hcount
      obtain ⟨hfound, hnames⟩ := inspectShards_listed hshards (by simpa using found_nothing)
      have hsame : index.map.size = result.tensors.size := by simpa using hsize
      refine hfound.agrees (fun shard => ?_) hsame.symm
      rw [hnames, ExtTreeSet.mem_toList, ExtTreeSet.mem_ofList]
      simp [mem_values]

/-! ## Both checkers -/

/-- The place recorded for a weight. -/
def weightPlace (out : ExtTreeMap String Weight) (key : String) : Option (Nat × Nat) :=
  out[key]?.map fun w => (w.offset, w.bytes)

def descriptorPlace (result : Inventory) (key : String) : Option (Nat × Nat) :=
  result.tensors[key]?.map fun t => (t.offset, t.bytes)

/-- A checkpoint's header is accepted exactly when it is exact, and the inventory's when
it is also admitted. What is recorded then are the ranges of the tensors, and after
a whole inspection the index has the tensors of each shard and no others. -/
theorem headers_exact {bytes : Bytes} (hknown : Known object) (hjson : formats.json bytes = .ok (.object object))
    (hsize : size ≤ u64Max) :
    ((∃ out, Checkpoint.parseHeader formats bytes shard base size = .ok out) ↔ Exact (extents object) base size) ∧
    (∀ out, Checkpoint.parseHeader formats bytes shard base size = .ok out →
      (∀ key, key ∈ out ↔ key ∈ (extents object).map Prod.fst) ∧
        Recorded (extents object) base size (weightPlace out)) ∧
    (∀ map result, (∃ result', Inventory.inspectHeader map shard base size object result = .ok result') ↔
      Exact (extents object) base size ∧ Admitted map shard result object) ∧
    (∀ map result result', Inventory.inspectHeader map shard base size object result = .ok result' →
      (∀ key, key ∉ (extents object).map Prod.fst → result'.tensors[key]? = result.tensors[key]?) ∧
        Recorded (extents object) base size (descriptorPlace result')) ∧
    (∀ validateConfig encode d checkpoint, Checkpoint.inspect formats validateConfig encode d = .ok checkpoint →
      ∃ map, IndexMap formats.json d map ∧ Agrees formats.json d map) ∧
    (∀ encode d allowStaleIndexSize inventory, Inventory.inspect formats encode d allowStaleIndexSize = .ok inventory →
      d.exists_ "model.safetensors.index.json" = true →
        ∃ map, IndexMap formats.unique d map ∧ Agrees formats.unique d map) := by
  refine ⟨?_, fun out hout => ?_, fun map result => ?_, fun map result result' hresult => ?_,
    fun _ _ _ _ => inspect_agrees, fun _ _ _ _ => inventory_agrees⟩
  · simp only [parseHeader_known hknown hjson hsize]
    exact ⟨fun ⟨_, h, _⟩ => h, fun h => ⟨_, h, rfl⟩⟩
  · obtain ⟨hexact, rfl⟩ := (parseHeader_known hknown hjson hsize).mp hout
    refine ⟨fun key => ?_, hexact.recorded fun t ht => ?_⟩
    · rw [ExtTreeMap.mem_iff_isSome_getElem?]
      constructor
      · intro hkey
        by_contra hnew
        rw [getElem?_putAll_of_notMem hnew] at hkey
        simp at hkey
      · intro hkey
        obtain ⟨t, ht, rfl⟩ := List.mem_map.mp hkey
        rw [getElem?_putAll hknown.nodup ht]
        rfl
    · rw [weightPlace, getElem?_putAll hknown.nodup ht]
      rfl
  · simp only [inspectHeader_known hknown hsize]
    exact ⟨fun ⟨_, hexact, hadmitted, _⟩ => ⟨hexact, hadmitted⟩, fun ⟨hexact, hadmitted⟩ => ⟨_, hexact, hadmitted, rfl⟩⟩
  · obtain ⟨hexact, -, rfl⟩ := (inspectHeader_known hknown hsize).mp hresult
    refine ⟨fun key hkey => ?_, hexact.recorded fun t ht => ?_⟩
    · rw [tensors_recordedAll, getElem?_putAll_of_notMem hkey]
    · rw [descriptorPlace, tensors_recordedAll, getElem?_putAll hknown.nodup ht]
      rfl

/-- `{"a": {"data_offsets": [0, 4], "dtype": "BF16", "shape": [2]}}` -/
def sampleHeader : List (String × Value) :=
  [("a", .object [("data_offsets", .array [.number (.natural 0), .number (.natural 4)]), ("dtype", .string "BF16"),
    ("shape", .array [.number (.natural 2)])])]

/-- Libraries that read this header whatever they are given. -/
def sampleFormats : Formats where
  json := fun _ => .ok (.object sampleHeader)
  unique := fun _ => .ok (.object sampleHeader)
  unexpected := fun _ => ""
  sha := fun _ => ""

theorem known_sampleHeader : Known sampleHeader where
  sorted := List.pairwise_singleton _ _
  named kv hkv := by
    obtain rfl := List.mem_singleton.mp hkv
    decide
  tensors kv hkv _ := by
    obtain rfl := List.mem_singleton.mp hkv
    decide

theorem extents_sampleHeader : extents sampleHeader = [("a", ⟨.bf16, [2], 0, 4⟩)] :=
  rfl

theorem exact_sampleHeader : Exact (extents sampleHeader) 100 104 := by
  rw [extents_sampleHeader]
  constructor
  · intro t ht
    obtain rfl := List.mem_singleton.mp ht
    refine ⟨fun k => ?_, rfl⟩
    cases k <;> simp [Checkpoint.Dtype.bytes, u64Max]
  · refine (Tiling.walk_insertionSort ?_).mp rfl
    decide

theorem headers_exact_sample : ∃ out, Checkpoint.parseHeader sampleFormats [] "s" 100 104 = .ok out ∧
    Recorded (extents sampleHeader) 100 104 (weightPlace out) := by
  have h := @headers_exact sampleFormats sampleHeader "s" 100 104 [] known_sampleHeader rfl (by decide)
  obtain ⟨out, hout⟩ := h.1.mpr exact_sampleHeader
  exact ⟨out, hout, (h.2.1 out hout).2⟩

/-- The inventory refuses an exact header with a tensor that the index does not own to the shard. -/
theorem header_not_owned : Exact (extents sampleHeader) 100 104 ∧
    ¬∃ r, Inventory.inspectHeader (some ∅) "s" 100 104 sampleHeader { indexDeclaredBytes := none, indexSha256 := none } = .ok r := by
  refine ⟨exact_sampleHeader, ?_⟩
  rintro ⟨r, hr⟩
  obtain ⟨-, hadmitted, -⟩ := (inspectHeader_known known_sampleHeader (by decide)).mp hr
  have := hadmitted.owned ∅ rfl _ (by rw [extents_sampleHeader]; exact List.mem_cons_self)
  simp at this

end Inferfabric.Compiler
