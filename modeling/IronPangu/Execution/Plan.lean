-- SUMMARY: The native token plan: its nodes and limits, the storage contract of a paged state, and the layout of a packed sequence batch.
import IronPangu.Lib.Method

/-!
# Native execution plans

What the native library knows of a program. A native function that throws does so
with the text of its `runtime_error`; nothing here changes anything before it
throws, so an error is just that text.
-/

namespace Inferfabric.Execution

/-- What a native function returns, or the text it throws. -/
abbrev Checked (α : Type) : Type := Except String α

/-- `if (!condition) throw std::runtime_error(message);` -/
def ensure (condition : Prop) [Decidable condition] (message : String) : Checked Unit :=
  if condition then .ok () else .error message

@[simp] theorem ensure_eq_ok {condition : Prop} [Decidable condition] {message : String} :
    ensure condition message = .ok () ↔ condition := by
  simp [ensure]

theorem ensure_pos {condition : Prop} [Decidable condition] {message : String} (h : condition) :
    ensure condition message = .ok () :=
  ensure_eq_ok.mpr h

/-! ## Nodes -/

/-- `isspace` in the C locale. -/
def isSpace (c : Char) : Bool := c ∈ [' ', '\t', '\n', '\x0b', '\x0c', '\r']

/-- The value of a run of decimal digits. -/
def decimal (digits : List Char) : Nat := digits.foldl (fun n c => 10 * n + (c.toNat - '0'.toNat)) 0

/-- `std::stoull`: the value at the front of a text and where it ends. A minus
    sign negates modulo `2^64`. -/
def stoull (text : List Char) : Checked (Nat × Nat) :=
  let blank := text.takeWhile isSpace
  let rest := text.drop blank.length
  let sign := rest.head?.filter fun c => c = '-' ∨ c = '+'
  let digits := (rest.drop sign.toList.length).takeWhile Char.isDigit
  let value := decimal digits
  if digits = [] then .error "stoull"
  else if value > Rust.u64Max then .error "stoull"
  else
    .ok (if sign = some '-' then (Rust.u64Max + 1 - value) % (Rust.u64Max + 1) else value,
      blank.length + sign.toList.length + digits.length)

structure Node where
  dtype : String
  kernel : String
  logicalNode : Nat
  kind : Nat
  width : Nat
  name : String
  op : String
  inputs : List Nat
  attrs : List (String × String)
  deriving DecidableEq, Repr

namespace Node

/-- `attrs.at(key)`. -/
def text (n : Node) (key : String) : Checked String :=
  match n.attrs.lookup key with
  | some value => .ok value
  | none => .error "map::at"

def integer (n : Node) (key : String) : Checked Nat := do
  let s ← n.text key
  let (value, last) ← stoull s.toList
  if last ≠ s.toList.length ∨ value > 20000000 ∨ s.toList.head? = some '-' then
    .error "invalid plan integer"
  else .ok value

/-- `is_paged_state` -/
def isPagedState (n : Node) : Bool :=
  n.op == "index_cache_append" || n.op == "cache_append" || n.op == "cache_norm_rope_append" ||
    n.op == "cache_c8_norm_rope_append"

end Node

/-! ## Plans -/

structure Plan where
  context : Nat
  eos : Nat
  residentSequences : Nat
  prefillTokens : Nat
  uncapturedPrefill : Bool
  prefillVariants : List Nat
  sharedPages : Bool
  nodes : List Node
  deriving DecidableEq, Repr

namespace Plan

def supportsPrefill (p : Plan) (count : Nat) : Bool :=
  if p.uncapturedPrefill then count > 1 && count ≤ p.prefillTokens
  else p.prefillVariants.any (· == count)

end Plan

/-! ## Storage of a paged state -/

structure SlidingWindowLayout where
  context : Nat
  window : Nat
  chunk : Nat
  pageTokens : Nat
  physicalPages : Nat
  deriving DecidableEq, Repr

namespace SlidingWindowLayout

/-- A window plus the later queries in a chunk can straddle an extra page. -/
def new (c w q p : Nat) : Checked SlidingWindowLayout :=
  if c = 0 ∨ w = 0 ∨ q = 0 ∨ p = 0 ∨ q > c then .error "invalid sliding window layout"
  else
    let retained := w + q - 1
    -- No subtraction wraps: the dimensions are positive.
    let pages := (retained + p - 2) / p + 1
    let full := (c + p - 1) / p
    let pages := min pages full
    if pages * p > Rust.u32Max then .error "sliding window capacity overflow"
    else .ok ⟨c, w, q, p, pages⟩

end SlidingWindowLayout

structure PagedStateContract where
  pageTokens : Nat
  capacityTokens : Nat
  logicalTokens : Nat
  deriving DecidableEq, Repr

namespace PagedStateContract

def tableEntries (c : PagedStateContract) : Nat := c.capacityTokens / c.pageTokens

def validateCount (c : PagedStateContract) (count : Nat) (shared : Bool) : Checked Unit :=
  ensure (¬(count = 0 ∨ count > c.tableEntries ∨ (shared = false ∧ count ≠ c.tableEntries)))
    "page binding count exceeds planned state capacity/policy"

end PagedStateContract

/-- The window of the attention nodes that read a cache; `0` before the first. -/
def attentionWindow (plan : Plan) (node : Node) : Nat → List Node → Checked Nat
  | window, [] => .ok window
  | window, consumer :: consumers =>
    match consumer.op == "latent_attention", consumer.inputs[1]? with
    | true, some source =>
      match plan.nodes[source]? with
      | none => .error "vector::_M_range_check"
      | some origin =>
        if origin.name = node.name then do
          let next ← consumer.integer "window"
          if window ≠ 0 ∧ window ≠ next then .error "cache consumers disagree on window"
          else attentionWindow plan node next consumers
        else attentionWindow plan node window consumers
    | _, _ => attentionWindow plan node window consumers

/-- The whole context in pages. -/
def fullContract (context pageTokens : Nat) : Checked PagedStateContract :=
  let rounded := (context + pageTokens - 1) / pageTokens * pageTokens
  if rounded > Rust.u32Max then .error "paged state capacity overflow"
  else .ok ⟨pageTokens, rounded, 0⟩

/-- `paged_state_contract` -/
def pagedStateContract (plan : Plan) (node : Node) : Checked PagedStateContract :=
  if plan.context = 0 ∨ node.isPagedState = false then .error "unregistered paged state"
  else if node.op = "index_cache_append" then do
    let pageTokens ← node.integer "page_tokens"
    if pageTokens ≠ 64 then .error "unsupported index page layout"
    else fullContract plan.context pageTokens
  else if node.op = "cache_c8_norm_rope_append" then fullContract plan.context 32
  else do
    let window ← attentionWindow plan node 0 plan.nodes
    if window = 0 then .error "paged cache has no attention window"
    else do
      let ring ← SlidingWindowLayout.new plan.context window plan.prefillTokens 16
      .ok ⟨16, ring.physicalPages * 16, plan.context⟩

/-! ## Sequence batches -/

/-- Each resident occurs at most once in a submission. -/
structure SequenceSlice where
  resident : Nat
  position : Nat
  tokens : Nat
  sample : Bool
  deriving DecidableEq, Repr

structure SequenceBatch where
  starts : List Nat
  residents : List Nat
  positions : List Nat
  rowResidents : List Nat
  queryEnds : List Nat
  priorLengths : List Nat
  kvLengths : List Nat
  lengths : List Nat
  sampleRows : List Nat
  sampleResidents : List Nat
  deriving DecidableEq, Repr

namespace SequenceBatch

/-- `INT32_MAX`. -/
def int32Max : Nat := 2147483647

/-- Preflight everything before allocating metadata or touching device state. -/
def preflight (residentCapacity tokenBudget context : Nat) :
    List Nat → Nat → List SequenceSlice → Checked Unit
  | _, _, [] => .ok ()
  | seen, total, s :: sequences =>
    if s.resident ≥ residentCapacity ∨ s.resident ∈ seen ∨ s.tokens = 0 ∨ s.position + s.tokens > context then
      .error "invalid sequence batch member"
    else if total + s.tokens > tokenBudget then .error "sequence batch token budget exceeded"
    else preflight residentCapacity tokenBudget context (s.resident :: seen) (total + s.tokens) sequences

/-- Append one member to the layout. -/
def add (out : SequenceBatch) (s : SequenceSlice) : SequenceBatch :=
  let rows := List.range s.tokens
  let positions := out.positions ++ rows.map (s.position + ·)
  { starts := out.starts ++ [positions.length]
    residents := out.residents ++ [s.resident]
    positions := positions
    rowResidents := out.rowResidents ++ rows.map fun _ => s.resident
    queryEnds := out.queryEnds ++ [positions.length]
    priorLengths := out.priorLengths ++ [s.position]
    kvLengths := out.kvLengths ++ [s.position + s.tokens]
    lengths := out.lengths ++ rows.map (s.position + · + 1)
    sampleRows := if s.sample then out.sampleRows ++ [positions.length - 1] else out.sampleRows
    sampleResidents := if s.sample then out.sampleResidents ++ [s.resident] else out.sampleResidents }

def empty : SequenceBatch where
  starts := [0]
  residents := []
  positions := []
  rowResidents := []
  queryEnds := []
  priorLengths := []
  kvLengths := []
  lengths := []
  sampleRows := []
  sampleResidents := []

def make (sequences : List SequenceSlice) (residentCapacity tokenBudget context : Nat) :
    Checked SequenceBatch :=
  if sequences = [] ∨ residentCapacity = 0 ∨ tokenBudget = 0 ∨ context = 0 ∨
      residentCapacity > int32Max ∨ tokenBudget > int32Max ∨ context > int32Max then
    .error "invalid sequence batch limits"
  else do
    preflight residentCapacity tokenBudget context [] 0 sequences
    .ok (sequences.foldl add empty)

end SequenceBatch

end Inferfabric.Execution
