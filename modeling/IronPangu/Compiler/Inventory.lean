-- SUMMARY: The inventory of the tensors a checkpoint stores: its own reading of the headers and of the index.
import IronPangu.Compiler.Checkpoint

open Rust Outcome Std Json

/-!
# Inventory

The inventory reads the headers of any architecture's checkpoint. It knows more dtypes
than a checkpoint of the text model has, bounds what it reads, and adds up the bytes of
all tensors and of each dtype. A checkpoint without an index is a single shard.
-/

namespace Inferfabric.Compiler

namespace Inventory

structure TensorDescriptor where
  shard : String
  dtype : String
  shape : List Nat
  offset : Nat
  bytes : Nat
  deriving DecidableEq, Repr

structure Shard where
  fileBytes : Nat
  headerBytes : Nat
  headerSha256 : String
  deriving DecidableEq, Repr

end Inventory

structure Inventory where
  scope : String := "stored tensor inventory; no architecture binding or runtime placement"
  payloadVerified : Bool := false
  storedTensorBytes : Nat := 0
  indexDeclaredBytes : Option Nat
  indexSizeMatches : Bool := true
  bytesByDtype : ExtTreeMap String Nat := ∅
  tensorCount : Nat := 0
  tensors : ExtTreeMap String Inventory.TensorDescriptor := ∅
  shards : ExtTreeMap String Inventory.Shard := ∅
  indexSha256 : Option String
  auxiliarySha256 : ExtTreeMap String String := ∅
  metadataSha256 : String := ""
  capacityNote : String := "Stored checkpoint bytes are not peak HBM or a device-count estimate. Include rank replication, post-load transforms, staging, cache/state, activation, workspace, communication and graph reserves separately."

namespace Inventory

def dtypeBytes (s : String) : Outcome String Nat :=
  if s ∈ ["BOOL", "U8", "I8", "F8_E4M3", "F8_E5M2"] then .ok 1
  else if s ∈ ["BF16", "F16", "I16", "U16"] then .ok 2
  else if s ∈ ["F32", "I32", "U32"] then .ok 4
  else if s ∈ ["F64", "I64", "U64"] then .ok 8
  else .err s!"unsupported stored dtype {s}"

def add (a b : Nat) : Outcome String Nat := okOr (checkedAdd u64Max a b) "metadata arithmetic overflow"

/-! ## Headers -/

/-- Add a tensor to the inventory. -/
def record (result : Inventory) (key : String) (tensor : TensorDescriptor) : Outcome String Inventory :=
  if result.tensors.contains key then .err "duplicate tensor across shards"
  else
    let tensors := result.tensors.insert key tensor
    if tensors.size > 1000000 then .err "too many tensors"
    else do
      let stored ← add result.storedTensorBytes tensor.bytes
      let count ← add (result.bytesByDtype.getD tensor.dtype 0) tensor.bytes
      .ok { result with
        tensors
        storedTensorBytes := stored
        bytesByDtype := result.bytesByDtype.insert tensor.dtype count }

def inspectMember (map : Option (ExtTreeMap String String)) (name : String) (base size : Nat) (key : String)
    (t : Value) (result : Inventory) : Outcome String (Inventory × (Nat × Nat)) :=
  if key = "" then .err "empty tensor name"
  else do
    let dtype ← okOr (t.index "dtype").asStr "missing dtype"
    let shape ← okOr (t.index "shape").naturals "invalid shape"
    if shape.length > 16 then .err "tensor rank exceeds 16"
    else do
      let elementBytes ← dtypeBytes dtype
      let bytes ← okOr (shape.foldlM (checkedMul u64Max) elementBytes) "tensor size overflow"
      let (start, stop) ← okOr (t.index "data_offsets").pair "invalid offsets"
      if checkedSub stop start ≠ some bytes then .err s!"invalid tensor range {key}"
      else do
        let last ← add base stop
        if last > size then .err s!"invalid tensor range {key}"
        else if map.any (fun m => m[key]? ≠ some name) then .err "index/header ownership mismatch"
        else do
          let offset ← add base start
          let result ← record result key { shard := name, dtype, shape, offset, bytes }
          .ok (result, (start, stop))

def inspectMembers (map : Option (ExtTreeMap String String)) (name : String) (base size : Nat) :
    List (String × Value) → Inventory → List (Nat × Nat) → Outcome String (Inventory × List (Nat × Nat))
  | [], result, ranges => .ok (result, ranges)
  | (key, t) :: obj, result, ranges =>
    if key = "__metadata__" then
      if t.strings.isNone then .err "invalid safetensors metadata"
      else inspectMembers map name base size obj result ranges
    else do
      let (result, range) ← inspectMember map name base size key t result
      inspectMembers map name base size obj result (ranges ++ [range])

/-- The tensors of a header, and that they fill the shard. -/
def inspectHeader (map : Option (ExtTreeMap String String)) (name : String) (base size : Nat)
    (obj : List (String × Value)) (result : Inventory) : Outcome String Inventory := do
  let (result, ranges) ← inspectMembers map name base size obj result []
  let cursor ← contiguous ranges "tensor ranges overlap or have holes"
  let last ← add base cursor
  if last ≠ size then .err "unindexed trailing shard bytes" else .ok result

/-! ## Inspection -/

def localFile (d : Directory) (name : String) : Outcome String File :=
  if strange name then .err "checkpoint filenames must be local basenames" else d.open_ name

/-- `json::read_bounded` -/
def readBounded (f : File) (limit : Nat) : Outcome String Bytes :=
  read f limit s!"{f.path} exceeds metadata limit {limit} bytes"

/-- `json::parse` -/
def parse (formats : Formats) (bytes : Bytes) : Outcome String Value :=
  if bytes.length > maxJson then .err "metadata exceeds 16 MiB" else formats.unique bytes

/-- `budget` header bytes have been read before. -/
def inspectShard (formats : Formats) (d : Directory) (map : Option (ExtTreeMap String String)) (name : String)
    (result : Inventory) (budget : Nat) : Outcome String (Inventory × Nat) :=
  if !name.endsWith ".safetensors" then .err "index must name safetensors files"
  else do
    let f ← localFile d name
    let first ← f.readExact 0 8
    let n := fromLeBytes first
    let base ← add n 8
    if n = 0 ∨ n > maxJson ∨ base > f.size then .err "invalid safetensors header length"
    else do
      let budget ← add budget n
      if budget > 256 * 1024 * 1024 then .err "aggregate headers exceed 256 MiB"
      else do
        let header ← f.readExact 8 n
        let v ← parse formats header
        let obj ← okOr v.asObject "header must be object"
        let result ← inspectHeader map name base f.size obj result
        .ok ({ result with shards := result.shards.insert name ⟨f.size, n, formats.sha header⟩ }, budget)

def inspectShards (formats : Formats) (d : Directory) (map : Option (ExtTreeMap String String)) :
    List String → Inventory → Nat → Outcome String Inventory
  | [], result, _ => .ok result
  | name :: names, result, budget => do
    let (result, budget) ← inspectShard formats d map name result budget
    inspectShards formats d map names result budget

structure Index where
  sha256 : String
  declared : Option Nat
  map : ExtTreeMap String String

def readDeclared (index : Value) : Outcome String (Option Nat) :=
  match (index.get "metadata").bind (·.get "total_size") with
  | none => .ok none
  | some n => do
    let n ← okOr n.asU64 "invalid index total_size"
    .ok (some n)

def readIndex (formats : Formats) (d : Directory) : Outcome String Index := do
  let f ← localFile d "model.safetensors.index.json"
  let b ← readBounded f maxJson
  let v ← parse formats b
  let declared ← readDeclared v
  let entries ← okOr (v.index "weight_map").strings "invalid weight_map"
  let map : ExtTreeMap String String := .ofList entries
  if map.isEmpty ∨ map.size > 1000000 then .err "invalid weight_map count"
  else .ok { sha256 := formats.sha b, declared, map }

def findIndex (formats : Formats) (d : Directory) : Outcome String (Option Index) :=
  if d.exists_ "model.safetensors.index.json" then do
    let index ← readIndex formats d
    .ok (some index)
  else .ok none

def auxiliaryNames : List String :=
  ["config.json", "tokenizer.json", "tokenizer_config.json", "generation_config.json", "special_tokens_map.json",
    "chat_template.jinja"]

def readAuxiliary (formats : Formats) (d : Directory) :
    List String → ExtTreeMap String String → Outcome String (ExtTreeMap String String)
  | [], hashes => .ok hashes
  | name :: names, hashes =>
    if d.exists_ name then do
      let f ← localFile d name
      let b ← readBounded f (if name = "tokenizer.json" then 64 * 1024 * 1024 else maxJson)
      readAuxiliary formats d names (hashes.insert name (formats.sha b))
    else readAuxiliary formats d names hashes

/-- The `Debug` form of an optional number. -/
def debug : Option Nat → String
  | none => "None"
  | some n => s!"Some({n})"

def inspect (formats : Formats) (encode : Inventory → Outcome String Bytes) (d : Directory)
    (allowStaleIndexSize : Bool) : Outcome String Inventory := do
  let index ← findIndex formats d
  let map := index.map (·.map)
  let names : ExtTreeSet String := match map with
    | some map => .ofList (values map)
    | none => .ofList ["model.safetensors"]
  if names.size > 4096 then .err "too many shards"
  else do
    let expected := index.bind (·.declared)
    let result ← inspectShards formats d map names.toList
      { indexDeclaredBytes := expected, indexSha256 := index.map (·.sha256) } 0
    let result := { result with tensorCount := result.tensors.size }
    if result.tensorCount = 0 ∨ map.any (fun m => m.size ≠ result.tensorCount) then
      .err "checkpoint index size/count mismatch"
    else
      let matched := expected.all (· == result.storedTensorBytes)
      if !matched && !allowStaleIndexSize then
        .err s!"checkpoint index total_size mismatch: declared {debug expected}, measured {result.storedTensorBytes}; metadata-only audit can explicitly allow stale index size"
      else do
        let auxiliary ← readAuxiliary formats d auxiliaryNames ∅
        let result := { result with indexSizeMatches := matched, auxiliarySha256 := auxiliary }
        let encoded ← encode result
        .ok { result with metadataSha256 := formats.sha encoded }

end Inventory

end Inferfabric.Compiler
