-- SUMMARY: The tensor-parallel linear operation: the weight each rank is given, what preparing the operation computes, and a run of it on all ranks.
import IronPangu.Execution.Plan
import IronPangu.Lib.Copying

/-!
# Linear operations

A weight is held whole or as the rank's own rows. Preparing a linear operation fixes
every address it will use; a run multiplies, gathers the ranks' parts and copies them
into rows. The device library is a parameter: what it is relied on for is `Runtime.Works`.
-/

namespace Inferfabric.Native.Acl

open Execution (Checked ensure)

/-! ## Device memory -/

/-- A block of device memory. -/
structure Buffer where
  ptr : Nat
  bytes : Nat
  deriving DecidableEq, Repr

/-- Two blocks that share no byte. -/
def Buffer.Apart (b c : Buffer) : Prop := b.ptr + b.bytes ≤ c.ptr ∨ c.ptr + c.bytes ≤ b.ptr

def Buffer.Inside (b c : Buffer) : Prop := c.ptr ≤ b.ptr ∧ b.ptr + b.bytes ≤ c.ptr + c.bytes

abbrev Memory (β : Type) : Type := Nat → β

/-- A bf16 element: two bytes. -/
def element {β : Type} (memory : Memory β) (address : Nat) : β × β := (memory address, memory (address + 1))

/-- A view of bf16 elements, with its strides in elements. -/
structure Tensor where
  ptr : Nat
  rows : Nat
  cols : Nat
  rowStride : Nat
  colStride : Nat
  deriving DecidableEq, Repr

namespace Tensor

variable {β : Type}

def address (t : Tensor) (i j : Nat) : Nat := t.ptr + (i * t.rowStride + j * t.colStride) * 2

def row (t : Tensor) (memory : Memory β) (i : Nat) : List (β × β) :=
  (List.range t.cols).map fun j => element memory (t.address i j)

def column (t : Tensor) (memory : Memory β) (j : Nat) : List (β × β) :=
  (List.range t.rows).map fun i => element memory (t.address i j)

/-- The bytes of a view. -/
def Covers (t : Tensor) (a : Nat) : Prop :=
  ∃ i < t.rows, ∃ j < t.cols, a = t.address i j ∨ a = t.address i j + 1

/-- `rows` times `cols` elements, transposed as a view or not. -/
def new (ptr rows cols : Nat) (transpose : Bool) : Tensor where
  ptr := ptr
  rows := if transpose then cols else rows
  cols := if transpose then rows else cols
  rowStride := if transpose then 1 else cols
  colStride := if transpose then cols else 1

end Tensor

/-! ## The device library -/

/-- The calls on the device library. An allocation is told what is allocated already;
    the all-gather of a group has the memories of all its ranks. -/
structure Runtime (β : Type) where
  malloc : List Buffer → Nat → Checked Nat
  memcpy : Copying.Range → Memory β → Memory β
  matmul : Tensor → Tensor → Tensor → Memory β → Memory β
  allGather : Nat → Nat → (Nat → Nat) → (Nat → Nat) → (Nat → Memory β) → Nat → Memory β

/-- What the device library is documented to do, where `dot` is the arithmetic of one
    element of a product. -/
structure Runtime.Works {β : Type} (rt : Runtime β) (dot : List (β × β) → List (β × β) → β × β) : Prop where
  malloc : ∀ heap bytes ptr, rt.malloc heap bytes = .ok ptr → ∀ b ∈ heap, Buffer.Apart ⟨ptr, bytes⟩ b
  memcpy : ∀ (r : Copying.Range) memory,
    Buffer.Apart ⟨r.source, r.bytes⟩ ⟨r.destination, r.bytes⟩ → rt.memcpy r memory = Copying.copy r memory
  matmul : ∀ (a b out : Tensor) memory, a.cols = b.rows → out.rows = a.rows → out.cols = b.cols →
    out.rowStride = out.cols → out.colStride = 1 →
    (∀ address, out.Covers address → ¬a.Covers address ∧ ¬b.Covers address) →
    ∀ i < out.rows, ∀ j < out.cols,
      element (rt.matmul a b out memory) (out.address i j) = dot (a.row memory i) (b.column memory j)
  /-- `count` elements from each of the ranks, in their order. -/
  allGather : ∀ world count (send receive : Nat → Nat) (memories : Nat → Memory β), ∀ rank < world,
    (∀ peer < world, Buffer.Apart ⟨send peer, count * 2⟩ ⟨receive peer, world * (count * 2)⟩) →
    ∀ peer < world, ∀ i < count * 2, rt.allGather world count send receive memories rank
      (receive rank + (peer * (count * 2) + i)) = memories peer (send peer + i)

/-! ## Sessions -/

structure Session where
  /-- Every block the device has given out. -/
  heap : List Buffer
  buffers : List (Nat × Buffer)
  scratchPool : List (List Buffer)
  tpRank : Nat
  tpWorld : Nat
  dedicatedActivations : Bool
  next : Nat

namespace Session

variable {β : Type}

def new (rank world : Nat) (dedicated : Bool) : Session := ⟨[], [], [], rank, world, dedicated, 1⟩

def region (s : Session) (id offset bytes : Nat) : Checked Nat :=
  match s.buffers.lookup id with
  | none => .error "invalid allocation region"
  | some b =>
    if offset > b.bytes ∨ bytes > b.bytes - offset then .error "invalid allocation region"
    else .ok (b.ptr + offset)

/-- `inferfabric_acl_allocate` -/
def allocate (rt : Runtime β) (s : Session) (bytes : Nat) : Checked (Nat × Session) :=
  if bytes = 0 then .error "invalid allocation"
  else do
    let ptr ← rt.malloc s.heap bytes
    .ok (s.next, { s with
      heap := ⟨ptr, bytes⟩ :: s.heap
      buffers := (s.next, ⟨ptr, bytes⟩) :: s.buffers
      next := s.next + 1 })

/-- `inferfabric_acl_buffer_view` -/
def bufferView (s : Session) (parent offset bytes : Nat) : Checked (Nat × Session) :=
  if bytes = 0 ∨ offset % 512 ≠ 0 then .error "invalid aligned buffer view"
  else do
    let ptr ← s.region parent offset bytes
    .ok (s.next, { s with
      buffers := (s.next, ⟨ptr, bytes⟩) :: s.buffers
      next := s.next + 1 })

/-- The smallest block that is large enough. -/
def bestBlock (bytes : Nat) (versions : List Buffer) : Option Buffer :=
  versions.foldl
    (fun best block => if block.bytes ≥ bytes ∧ best.all (block.bytes < ·.bytes) then some block else best) none

/-- The pool with room for a slot. -/
def padded (s : Session) (slot : Nat) : List (List Buffer) :=
  s.scratchPool ++ List.replicate (slot + 1 - s.scratchPool.length) []

/-- `slot_storage` of the scratch pool. -/
def slotStorage (rt : Runtime β) (s : Session) (slot bytes : Nat) : Checked (Nat × Session) :=
  match bestBlock bytes ((s.padded slot).getD slot []) with
  | some block => .ok (block.ptr, { s with scratchPool := s.padded slot })
  | none => do
    let ptr ← rt.malloc s.heap bytes
    .ok (ptr, { s with
      heap := ⟨ptr, bytes⟩ :: s.heap
      scratchPool := (s.padded slot).modify slot (· ++ [⟨ptr, bytes⟩]) })

/-- `Linear::scratch`, at the operation's cursor. -/
def scratch (rt : Runtime β) (s : Session) (cursor bytes : Nat) : Checked (Nat × Session) :=
  if s.dedicatedActivations = false then s.slotStorage rt cursor bytes
  else do
    let ptr ← rt.malloc s.heap bytes
    .ok (ptr, { s with heap := ⟨ptr, bytes⟩ :: s.heap })

end Session

/-! ## Preparing -/

structure Gather where
  send : Nat
  receive : Nat
  count : Nat
  deriving DecidableEq, Repr

/-- A prepared operation: a product, at most one gather, and copies. The operator's
    workspace is its own. -/
structure Linear where
  a : Tensor
  b : Tensor
  out : Tensor
  gather : Option Gather
  copies : List Copying.Range
  deriving DecidableEq, Repr

/-- The copies from `[rank, row, column]` to `[row, column]`. -/
def rowCopies (world m n localN gathered result : Nat) : List Copying.Range :=
  (List.range world).flatMap fun rank => (List.range m).map fun row =>
    { source := gathered + (rank * m + row) * localN * 2
      destination := result + (row * n + rank * localN) * 2
      bytes := localN * 2 }

/-- Where a rank's rows begin in its weight. The embedding stays whole for the lookup, and
    is sliced here for the tied head. -/
def weightOffset (s : Session) (weight : Buffer) (n k : Nat) : Nat :=
  if weight.bytes = n * k * 2 then s.tpRank * (n / s.tpWorld) * k * 2 else 0

/-- `inferfabric_acl_linear_prepare`. A size below one is refused like zero. -/
def linearPrepare {β : Type} (rt : Runtime β) (s : Session) (x w y m n k : Nat) : Checked (Linear × Session) :=
  if m = 0 ∨ n = 0 ∨ k = 0 ∨ m > 1048576 ∨ n > 1048576 ∨ k > 1048576 ∨ x = y ∨ w = y then
    .error "invalid linear arguments"
  else do
    let a ← s.region x 0 (m * k * 2)
    ensure (n % s.tpWorld = 0) "matmul output width is not divisible by TP"
    let localN := n / s.tpWorld
    match s.buffers.lookup w with
    | none => .error "map::at"
    | some weight => do
      let b ← s.region w (weightOffset s weight n k) (localN * k * 2)
      let result ← s.region y 0 (m * n * 2)
      if s.tpWorld > 1 then do
        let (localResult, s) ← s.scratch rt 0 (m * localN * 2)
        let (gathered, s) ← s.scratch rt 1 (m * n * 2)
        .ok ({
          a := .new a m k false
          b := .new b localN k true
          out := .new localResult m localN false
          gather := some ⟨localResult, gathered, m * localN⟩
          copies := rowCopies s.tpWorld m n localN gathered result }, s)
      else
        .ok ({
          a := .new a m k false
          b := .new b localN k true
          out := .new result m localN false
          gather := none
          copies := [] }, s)

/-! ## Running -/

/-- The product of an operation. -/
def Linear.stage {β : Type} (op : Linear) (rt : Runtime β) (memory : Memory β) : Memory β :=
  rt.matmul op.a op.b op.out memory

def Linear.send (op : Linear) : Nat := (op.gather.map Gather.send).getD 0

def Linear.receive (op : Linear) : Nat := (op.gather.map Gather.receive).getD 0

/-- The gathers of a group, which all its ranks meet in. -/
def gatherAll {β : Type} (rt : Runtime β) (world : Nat) (ops : Nat → Linear) (memories : Nat → Memory β) :
    Nat → Memory β :=
  match (ops 0).gather with
  | none => memories
  | some gather =>
    rt.allGather world gather.count (fun rank => (ops rank).send) (fun rank => (ops rank).receive) memories

/-- `Linear::run` on every rank of a group. -/
def runAll {β : Type} (rt : Runtime β) (world : Nat) (ops : Nat → Linear) (memories : Nat → Memory β)
    (rank : Nat) : Memory β :=
  let gathered := gatherAll rt world ops fun rank => (ops rank).stage rt (memories rank)
  (ops rank).copies.foldl (fun memory r => rt.memcpy r memory) (gathered rank)

/-! ## Uploading -/

/-- The rows of a rank. -/
def shardOf {β : Type} (world rank : Nat) (bytes : List β) : List β :=
  (bytes.drop (rank * (bytes.length / world))).take (bytes.length / world)

/-- Embeddings and convolutions are uploaded whole. -/
def replicated (name : String) : Bool :=
  name.endsWith "embed_tokens.weight" || (name.splitOn "conv1d").length > 1

/-- What `upload` writes to the device for a weight without a transformation. -/
def upload {β : Type} (world rank : Nat) (name : String) (shape : List Nat) (bytes : List β) : Checked (List β) :=
  match shape with
  | [rows, _] =>
    if world > 1 ∧ replicated name = false then
      if rows % world ≠ 0 then .error "weight rows not divisible by TP" else .ok (shardOf world rank bytes)
    else .ok bytes
  | _ => .ok bytes

end Inferfabric.Native.Acl
