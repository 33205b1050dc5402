-- SUMMARY: Checkpoint metadata: the header of each shard, and its agreement with the index.
import IronPangu.Lib.Json
import IronPangu.Lib.Method
import IronPangu.Lib.Tiling

open Rust Outcome Std Json

/-!
# Checkpoints

A checkpoint is a directory with a configuration, an index that names the shard of
each tensor, and the shards. A shard begins with the length of its header and the
header, a JSON object of tensors; their bytes follow. Only the configuration, the
index and the headers are read.
-/

namespace Inferfabric.Compiler

abbrev Bytes : Type := List UInt8

structure File where
  path : String
  content : Bytes
  /-- The length of a file is a `u64`. -/
  fits : content.length ≤ u64Max

def File.size (f : File) : Nat := f.content.length

/-- `u64::from_le_bytes` -/
def fromLeBytes (bytes : Bytes) : Nat := bytes.foldr (fun b n => b.toNat + 256 * n) 0

/-- `read_exact`, from a position on. -/
def File.readExact (f : File) (start count : Nat) : Outcome String Bytes :=
  if start + count ≤ f.size then .ok ((f.content.drop start).take count) else .err "failed to fill whole buffer"

structure Directory where
  /-- Whether a name is found in the directory. -/
  exists_ : String → Bool
  /-- The file of a name, once symbolic links are followed, opened. -/
  open_ : String → Outcome String File

/-- The libraries that read JSON and hash. -/
structure Formats where
  /-- Where a key is given twice, the last one counts. -/
  json : Bytes → Outcome String Value
  /-- A key given twice is an error. -/
  unique : Bytes → Outcome String Value
  /-- The error for a value that is no map from strings to strings. -/
  unexpected : Value → String
  sha : Bytes → String

/-- `MAX_JSON` and `MAX_METADATA` -/
def maxJson : Nat := 16 * 1024 * 1024

def read (f : File) (limit : Nat) (message : String) : Outcome String Bytes :=
  if f.size > limit then .err message else .ok f.content

/-- `values`, in the order of the keys. -/
def values (map : ExtTreeMap String String) : List String := map.toList.map Prod.snd

/-- A name that is not a single component of a path. -/
def strange (name : String) : Bool :=
  name.toList.any ("/\\:".toList.contains ·) || name == "" || name == "." || name == ".."

/-- Ranges, sorted, that each begin where the one before stops: where the last one stops. -/
def contiguous (ranges : List (Nat × Nat)) (message : String) : Outcome String Nat :=
  okOr (Tiling.walk 0 (ranges.insertionSort Tiling.le)) message

namespace Checkpoint

inductive Dtype where
  | bf16
  | f32
  deriving DecidableEq, Repr

def Dtype.bytes : Dtype → Nat
  | .bf16 => 2
  | .f32 => 4

def Dtype.named (name : String) : Option Dtype :=
  if name = "BF16" then some .bf16 else if name = "F32" then some .f32 else none

/-- A variant is written as its name, or as an object with nothing under its name. -/
def Dtype.ofValue : Value → Option Dtype
  | .string name => named name
  | .object [(name, .null)] => named name
  | _ => none

structure Weight where
  shard : String
  dtype : Dtype
  shape : List Nat
  /-- In the file, its prefix and header included. -/
  offset : Nat
  bytes : Nat
  deriving DecidableEq, Repr

structure Shard where
  bytes : Nat
  headerSha256 : String
  deriving DecidableEq, Repr

end Checkpoint

structure Checkpoint where
  configSha256 : String
  indexSha256 : String
  shards : ExtTreeMap String Checkpoint.Shard
  weights : ExtTreeMap String Checkpoint.Weight
  excluded : ExtTreeMap String Nat
  metadataSha256 : String

namespace Checkpoint

/-! ## Headers -/

def parseMember (shard : String) (base size : Nat) (key : String) (v : Value) :
    Outcome String ((Nat × Nat) × Weight) := do
  let dtype ← okOr (Dtype.ofValue (v.index "dtype")) s!"unsupported dtype: {key}"
  let shape ← okOr (v.index "shape").naturals "invalid shape"
  let (start, stop) ← okOr (v.index "data_offsets").pair "invalid offsets"
  let count ← okOr (shape.foldlM (checkedMul u64Max) dtype.bytes) "tensor size overflow"
  if checkedSub stop start ≠ some count ∨ (checkedAdd u64Max base stop).all (· > size) then
    .err s!"invalid tensor range {key}"
  else
    -- No later than `base + stop`, which is a `u64`.
    .ok ((start, stop), { shard, dtype, shape, offset := base + start, bytes := count })

def parseMembers (shard : String) (base size : Nat) :
    List (String × Value) → List (Nat × Nat) → ExtTreeMap String Weight →
      Outcome String (List (Nat × Nat) × ExtTreeMap String Weight)
  | [], ranges, out => .ok (ranges, out)
  | (key, v) :: object, ranges, out =>
    if key = "__metadata__" then parseMembers shard base size object ranges out
    else do
      let (range, weight) ← parseMember shard base size key v
      parseMembers shard base size object (ranges ++ [range]) (out.insert key weight)

def parseHeader (formats : Formats) (bytes : Bytes) (shard : String) (base size : Nat) :
    Outcome String (ExtTreeMap String Weight) := do
  let value ← formats.json bytes
  let object ← okOr value.asObject "header must be an object"
  let (ranges, out) ← parseMembers shard base size object [] ∅
  let cursor ← contiguous ranges "overlapping or non-contiguous tensor ranges"
  if checkedAdd u64Max base cursor ≠ some size then .err "unindexed trailing tensor data" else .ok out

/-! ## The schema -/

/-- `PREFIX` -/
def textPrefix : String := "model.language_model."

def layerSchema (i : Nat) : List (String × Dtype × List Nat) :=
  [("input_layernorm.weight", .bf16, [2048]), ("post_attention_layernorm.weight", .bf16, [2048]),
    ("mlp.gate_proj.weight", .bf16, [6144, 2048]), ("mlp.up_proj.weight", .bf16, [6144, 2048]),
    ("mlp.down_proj.weight", .bf16, [2048, 6144])] ++
  if i % 4 = 3 then
    [("self_attn.q_norm.weight", .bf16, [256]), ("self_attn.k_norm.weight", .bf16, [256]),
      ("self_attn.q_proj.weight", .bf16, [4096, 2048]), ("self_attn.k_proj.weight", .bf16, [512, 2048]),
      ("self_attn.v_proj.weight", .bf16, [512, 2048]), ("self_attn.o_proj.weight", .bf16, [2048, 2048])]
  else
    [("linear_attn.A_log", .f32, [16]), ("linear_attn.norm.weight", .f32, [128]),
      ("linear_attn.dt_bias", .bf16, [16]), ("linear_attn.conv1d.weight", .bf16, [6144, 1, 4]),
      ("linear_attn.in_proj_a.weight", .bf16, [16, 2048]), ("linear_attn.in_proj_b.weight", .bf16, [16, 2048]),
      ("linear_attn.in_proj_qkv.weight", .bf16, [6144, 2048]), ("linear_attn.in_proj_z.weight", .bf16, [2048, 2048]),
      ("linear_attn.out_proj.weight", .bf16, [2048, 2048])]

def schema : ExtTreeMap String (Dtype × List Nat) :=
  .ofList <|
    [(textPrefix ++ "embed_tokens.weight", .bf16, [248320, 2048]), (textPrefix ++ "norm.weight", .bf16, [2048])] ++
    (List.range 24).flatMap fun i => (layerSchema i).map fun w => (textPrefix ++ s!"layers.{i}." ++ w.1, w.2)

def checkSchema (all : ExtTreeMap String Weight) : List (String × Dtype × List Nat) → Outcome String Unit
  | [] => .ok ()
  | (key, dtype, shape) :: expected => do
    let w ← okOr all[key]? s!"missing weight {key}"
    if w.dtype ≠ dtype ∨ w.shape ≠ shape then .err s!"weight dtype/shape mismatch: {key}"
    else checkSchema all expected

def group (key : String) : Option String :=
  if key.startsWith "model.visual." then some "vision" else if key.startsWith "mtp." then some "mtp" else none

/-- The weights of the schema, and how many others there are in each group. -/
def classify : List (String × Weight) → ExtTreeMap String Weight → ExtTreeMap String Nat →
    Outcome String (ExtTreeMap String Weight × ExtTreeMap String Nat)
  | [], weights, excluded => .ok (weights, excluded)
  | (key, w) :: all, weights, excluded =>
    if schema.contains key then classify all (weights.insert key w) excluded
    else do
      let g ← okOr (group key) s!"unexpected checkpoint tensor {key}"
      classify all weights (excluded.insert g (excluded.getD g 0 + 1))

/-! ## Inspection -/

def localFile (d : Directory) (name : String) : Outcome String File :=
  if strange name then .err s!"invalid checkpoint filename {name}" else d.open_ name

def bounded (f : File) : Outcome String Bytes := read f maxJson "metadata exceeds 16 MiB"

/-- What the shards read so far hold. -/
structure Tally where
  all : ExtTreeMap String Weight
  shards : ExtTreeMap String Shard
  total : Nat

def addTensors (map : ExtTreeMap String String) (name : String) :
    List (String × Weight) → ExtTreeMap String Weight → Outcome String (ExtTreeMap String Weight)
  | [], all => .ok all
  | (key, weight) :: tensors, all =>
    if map[key]? ≠ some name ∨ all.contains key then .err "index/header mismatch or duplicate tensor"
    else addTensors map name tensors (all.insert key weight)

def inspectShard (formats : Formats) (d : Directory) (map : ExtTreeMap String String) (name : String) (s : Tally) :
    Outcome String Tally := do
  let file ← localFile d name
  let first ← file.readExact 0 8
  let n := fromLeBytes first
  if n = 0 ∨ n > maxJson ∨ (checkedAdd u64Max n 8).all (· > file.size) then .err "invalid safetensors header size"
  else do
    let bytes ← file.readExact 8 n
    let tensors ← parseHeader formats bytes name (8 + n) file.size
    let all ← addTensors map name tensors.toList s.all
    let total ← okOr (checkedAdd u64Max s.total (file.size - 8 - n)) "checkpoint size overflow"
    .ok { all, shards := s.shards.insert name ⟨file.size, formats.sha bytes⟩, total }

/-- One shard for each entry of the index, but none twice. -/
def inspectShards (formats : Formats) (d : Directory) (map : ExtTreeMap String String) :
    List String → Tally → Outcome String Tally
  | [], s => .ok s
  | name :: names, s =>
    if s.shards.contains name then inspectShards formats d map names s
    else do
      let s ← inspectShard formats d map name s
      inspectShards formats d map names s

/-- The configuration's values are not modelled: `validateConfig` checks them. -/
def inspect (formats : Formats) (validateConfig : Value → Outcome String Unit)
    (encode : Checkpoint → Outcome String Bytes) (d : Directory) : Outcome String Checkpoint := do
  let configFile ← localFile d "config.json"
  let config ← bounded configFile
  let configValue ← formats.json config
  validateConfig configValue
  let indexFile ← localFile d "model.safetensors.index.json"
  let indexBytes ← bounded indexFile
  let index ← formats.json indexBytes
  let entries ← okOr (index.index "weight_map").strings (formats.unexpected (index.index "weight_map"))
  let map : ExtTreeMap String String := .ofList entries
  if map.isEmpty then .err "empty weight map"
  else do
    let s ← inspectShards formats d map (values map) ⟨∅, ∅, 0⟩
    if s.all.size ≠ map.size ∨ ((index.index "metadata").index "total_size").asU64 ≠ some s.total then
      .err "index size/count mismatch"
    else do
      checkSchema s.all schema.toList
      let (weights, excluded) ← classify s.all.toList ∅ ∅
      let result : Checkpoint :=
        { configSha256 := formats.sha config, indexSha256 := formats.sha indexBytes, shards := s.shards
          weights, excluded, metadataSha256 := "" }
      let encoded ← encode result
      .ok { result with metadataSha256 := formats.sha encoded }

end Checkpoint

end Inferfabric.Compiler
