-- SUMMARY: The startup compiler: model specs, their validation, and the program of each rank of the two meshes.
import IronPangu.Ir.Serving

open Rust

/-!
# Rank programs

`compile` emits one program for each rank of the prefill and the decode mesh. The
communications of a program are numbered by one running sequence number, which every
block of the program advances.
-/

namespace Inferfabric.Compiler.Ranks

inductive Layer where
  | full
  | delta
  deriving DecidableEq, Repr

inductive Role where
  | prefill
  | decode
  deriving DecidableEq, Repr

structure Mesh where
  tp : Nat
  cp : Nat
  sp : Bool
  deriving DecidableEq, Repr

structure Model where
  name : String
  hidden : Nat
  intermediate : Nat
  vocab : Nat
  queryHeads : Nat
  kvHeads : Nat
  headDim : Nat
  deltaHeads : Nat
  deltaDim : Nat
  convWidth : Nat
  layers : List Layer
  deriving DecidableEq, Repr

structure Spec where
  model : Model
  prefill : Mesh
  decode : Mesh
  pageTokens : Nat
  tokenBudget : Nat
  batchBuckets : List Nat
  contextBuckets : List Nat
  deriving DecidableEq, Repr

/-! ## Validation -/

def Spec.dimensions (s : Spec) : List Nat :=
  [s.model.hidden, s.model.intermediate, s.model.vocab, s.model.queryHeads, s.model.kvHeads, s.model.headDim,
    s.model.deltaHeads, s.model.deltaDim, s.model.convWidth, s.pageTokens, s.tokenBudget]

def Model.sharded (m : Model) : List Nat := [m.hidden, m.intermediate, m.queryHeads, m.kvHeads, m.deltaHeads]

def Model.validateMesh (m : Model) (mesh : Mesh) : Result Unit :=
  if ¬[1, 2].contains mesh.tp ∨ ¬[1, 2].contains mesh.cp then invalid "only TP/CP 1 or 2 supported"
  else if m.sharded.any fun n => n % mesh.tp != 0 then invalid "non-divisible TP shard"
  else if mesh.sp ∧ mesh.tp = 1 then invalid "SP requires TP=2"
  else .ok ()

def validateBuckets (buckets : List Nat) : Result Unit :=
  if buckets.isEmpty ∨ buckets.head? = some 0 ∨ (buckets.zip buckets.tail).any fun (a, b) => a ≥ b then
    invalid "buckets must be positive, ascending and unique"
  else .ok ()

def Spec.validate (s : Spec) : Result Unit :=
  if s.model.name.isEmpty ∨ s.model.layers.isEmpty ∨ s.dimensions.contains 0 then
    invalid "names, layers and dimensions must be nonzero"
  else if s.dimensions.any (· > 16777216) ∨ (s.batchBuckets ++ s.contextBuckets).any (· > 16777216) then
    invalid "dimension exceeds skeleton metadata limit"
  else if s.model.queryHeads % s.model.kvHeads ≠ 0 then invalid "Q heads must divide into KV groups"
  else do
    s.model.validateMesh s.prefill
    s.model.validateMesh s.decode
    if s.decode.cp ≠ 1 ∨ s.decode.sp ∨ s.prefill.tp ≠ s.decode.tp then
      invalid "decode CP/SP and differing PD TP widths are unsupported"
    else do
      validateBuckets s.batchBuckets
      validateBuckets s.contextBuckets
      -- Metadata expansion is bounded here; the hardware's capacity is the backend's to check.
      if s.model.layers.length > 4096 ∨ s.batchBuckets.length > 64 ∨ s.contextBuckets.length > 64 then
        invalid "metadata exceeds skeleton limits"
      else return ()

/-! ## Artifacts -/

inductive BackendKind where
  | mock
  | ascend
  deriving DecidableEq, Repr

structure Target where
  backend : BackendKind
  soc : String
  toolchain : String
  kernelRevision : String
  flags : List String
  deriving DecidableEq, Repr

structure Rank where
  role : Role
  tp : Nat
  cp : Nat
  deriving DecidableEq, Repr

inductive StateKind where
  | kv
  | recurrent
  | conv
  deriving DecidableEq, Repr

structure StateLayout where
  layer : Nat
  kind : StateKind
  shape : List Nat
  dtype : String
  deriving DecidableEq, Repr

/-- A peer is a context-parallel index. -/
inductive CommOp where
  | allReduce
  | allGather
  | reduceScatter
  | send (peer : Nat)
  | receive (peer : Nat)
  deriving DecidableEq, Repr

inductive Instruction where
  | kernel (layer : Option Nat) (name : String)
  | communication (group : String) (sequence : Nat) (op : CommOp) (tensor : String)
  | fence
  deriving DecidableEq, Repr

structure RankPlan where
  rank : Rank
  states : List StateLayout
  instructions : List Instruction
  deriving DecidableEq, Repr

def formatVersion : Nat := 1

structure Artifact where
  version : Nat
  key : String
  target : Target
  spec : Spec
  ranks : List RankPlan
  deriving DecidableEq, Repr

/-! ## Emission -/

/-- Instructions emitted from the running sequence number on, and the number after them. -/
abbrev Emit : Type := Nat → List Instruction × Nat

namespace Emit

def nothing : Emit := fun seq => ([], seq)

def andThen (first second : Emit) : Emit := fun seq =>
  ((first seq).1 ++ (second (first seq).2).1, (second (first seq).2).2)

def all (blocks : List Emit) : Emit := blocks.foldr andThen nothing

def when (condition : Bool) (block : Emit) : Emit := if condition then block else nothing

def kernels (layer : Option Nat) (names : List String) : Emit := fun seq => (names.map (.kernel layer), seq)

/-- A communication at the running number, which advances. -/
def communicate (group : String) (op : CommOp) (tensor : String) : Emit := fun seq =>
  ([.communication group seq op tensor], seq + 1)

end Emit

def Role.debug : Role → String
  | .prefill => "Prefill"
  | .decode => "Decode"

def Rank.tpGroup (r : Rank) : String := r.role.debug ++ "/tp/cp" ++ toString r.cp

def Rank.cpGroup (r : Rank) : String := r.role.debug ++ "/cp/tp" ++ toString r.tp

/-- One step of the ring: the context shard goes to the next rank and comes from the previous. -/
def ringStep (mesh : Mesh) (rank : Rank) (layer step : Nat) : Emit := fun seq =>
  ([.communication rank.cpGroup seq (.send ((rank.cp + 1) % mesh.cp)) "kv_context_shard",
    .communication rank.cpGroup seq (.receive ((rank.cp + mesh.cp - 1) % mesh.cp)) "kv_context_shard",
    .kernel (some layer) ("causal_attention_online_softmax_merge_" ++ toString step)], seq + 1)

def fullLayer (mesh : Mesh) (rank : Rank) (layer : Nat) : Emit := .all [
  .kernels (some layer) ["qkv_projection", "qk_norm_rope", "paged_attention_local"],
  .when (mesh.cp > 1) (.all ((List.range' 1 (mesh.cp - 1)).map (ringStep mesh rank layer))),
  .kernels (some layer) ["attention_output_gate"]]

/-- The hybrid boundary travels along the context-parallel ranks, one number for each hop. -/
def deltaLayer (mesh : Mesh) (rank : Rank) (layer : Nat) : Emit := fun seq =>
  ((if rank.cp > 0 then
      [.communication rank.cpGroup (seq + rank.cp - 1) (.receive (rank.cp - 1)) ("hybrid_boundary_layer" ++ toString layer)]
    else []) ++
    ["delta_projection", "causal_conv", "qk_l2_norm_decay_beta", "gated_delta", "gated_norm"].map (.kernel (some layer)) ++
    (if rank.cp + 1 < mesh.cp then
      [.communication rank.cpGroup (seq + rank.cp) (.send (rank.cp + 1)) ("hybrid_boundary_layer" ++ toString layer)]
    else []),
   seq + (mesh.cp - 1))

def mixer (mesh : Mesh) (rank : Rank) (layer : Nat) : Layer → Emit
  | .full => fullLayer mesh rank layer
  | .delta => deltaLayer mesh rank layer

def gatherTokens (mesh : Mesh) (rank : Rank) (tensor : String) : Emit :=
  .when mesh.sp (.communicate rank.tpGroup .allGather tensor)

/-- The partial sums of a branch are added over the tensor-parallel ranks. -/
def residual (mesh : Mesh) (rank : Rank) (layer : Nat) (branch : String) : Emit := .all [
  .when (mesh.tp > 1) (.communicate rank.tpGroup (if mesh.sp then .reduceScatter else .allReduce)
    (branch ++ "_partial_hidden")),
  .kernels (some layer) ["residual_add"]]

def layerProgram (mesh : Mesh) (rank : Rank) (layer : Layer) (i : Nat) : Emit := .all [
  .kernels (some i) ["input_norm"],
  gatherTokens mesh rank "normalized_token_shards",
  mixer mesh rank i layer,
  .kernels (some i) ["output_projection"],
  residual mesh rank i "attention",
  .kernels (some i) ["post_norm"],
  gatherTokens mesh rank "normalized_token_shards",
  .kernels (some i) ["mlp_up_gate_silu", "mlp_down"],
  residual mesh rank i "mlp"]

def rankProgram (layers : List Layer) (mesh : Mesh) (rank : Rank) : Emit := .all [
  .kernels none [if mesh.sp then "embedding_sequence_shard" else "embedding"],
  .all (layers.zipIdx.map fun (layer, i) => layerProgram mesh rank layer i),
  .kernels none ["final_norm"],
  gatherTokens mesh rank "final_normalized_token_shards",
  .kernels none ["lm_head", "sample_logits"],
  fun seq => ([.fence], seq)]

def layerStates (s : Spec) (mesh : Mesh) (layer : Layer) (i : Nat) : List StateLayout :=
  let m := s.model
  match layer with
  | .full => [⟨i, .kv, [2, s.pageTokens, m.kvHeads / mesh.tp, m.headDim], "bf16"⟩]
  | .delta => [⟨i, .recurrent, [m.deltaHeads / mesh.tp, m.deltaDim, m.deltaDim], "fp32"⟩,
      ⟨i, .conv, [3 * m.deltaHeads / mesh.tp * m.deltaDim, m.convWidth], "bf16"⟩]

def rankPlan (s : Spec) (mesh : Mesh) (rank : Rank) : RankPlan :=
  ⟨rank, s.model.layers.zipIdx.flatMap fun (layer, i) => layerStates s mesh layer i,
    (rankProgram s.model.layers mesh rank 0).1⟩

def meshRanks (s : Spec) (role : Role) (mesh : Mesh) : List RankPlan :=
  (List.range mesh.cp).flatMap fun cp => (List.range mesh.tp).map fun tp => rankPlan s mesh ⟨role, tp, cp⟩

/-- `key` hashes the spec, the target and the compiler's own sources. -/
def compile (key : Spec → Target → Result String) (s : Spec) (target : Target) : Result Artifact := do
  s.validate
  let ranks := meshRanks s .prefill s.prefill ++ meshRanks s .decode s.decode
  return ⟨formatVersion, ← key s target, target, s, ranks⟩

end Inferfabric.Compiler.Ranks
