-- SUMMARY: Reading token programs on the native side: the header of each version, the instructions, and the checks on the way.
import IronPangu.Lib.Decoder
import IronPangu.Native.Initialization

open Rust Outcome Decoding

/-!
# Reading token plans

The native reader takes a token program from a file. The version in the magic decides
which fields the header has; the nodes are checked one by one as they are read, the output
and the reachability after the last.
-/

namespace Inferfabric.Native.TokenPlan

open Initialization (Bytes)

structure Node where
  dtype : Bytes
  kernel : Bytes
  logicalNode : Nat
  kind : Nat
  width : Nat
  name : Bytes
  op : Bytes
  inputs : List Nat
  /-- The entries of the map, in the order they were inserted. -/
  attrs : List (Bytes × Bytes)
  deriving DecidableEq, Repr

structure Plan where
  physical : Bool
  context : Nat
  eos : Nat
  output : Nat
  residentSequences : Nat
  prefillTokens : Nat
  prefillFamily : Bool
  uncapturedPrefill : Bool
  prefillVariants : List Nat
  bulkCollectiveDomain : Bool
  compactOutputRows : Bool
  outputRowSource : Nat
  outputRowWidth : Nat
  outputRowFirst : Nat
  outputRowLast : Nat
  sharedPages : Bool
  nodes : List Node
  uses : List Nat
  deriving DecidableEq, Repr

abbrev Reader (α : Type) : Type := Decoder String α

/-- The bytes of a string literal. -/
def ascii (s : String) : Bytes := s.toList.map fun c => UInt8.ofNat c.toNat

def number : Reader Nat := Decoding.number "truncated token plan" 4

def str : Reader Bytes := do
  let n ← number
  check (¬(n = 0 ∨ n > 1024)) "token plan string bound"
  let v ← times (byte "invalid token plan string") n
  check (0 ∉ v) "invalid token plan string"
  Pure.pure v

/-! ## The header -/

/-- `IFTOKN0` and the digit of a version. -/
def tag (version : Nat) : Bytes := ascii "IFTOKN0" ++ [UInt8.ofNat (0x30 + version)]

def versionOf (magic : Bytes) : Option Nat := (List.range' 1 9).find? fun version => tag version = magic

/-- The magic, one of nine. -/
def readVersion : Reader Nat := do
  let magic ← times (byte "missing/unsupported execution plan") 8
  match versionOf magic with
  | none => Method.fail "missing/unsupported execution plan"
  | some version => Pure.pure version

def uncaptured (version : Nat) : Bool := version == 7 || version == 8 || version == 9

def hasResidents (version : Nat) : Bool := version == 3 || version == 4 || version == 5 || version == 6 || uncaptured version

def hasPrefill (version : Nat) : Bool := version == 4 || version == 5 || version == 6 || uncaptured version

/-- A field that only some headers have. -/
def numberIf (present : Bool) (default : Nat) : Reader Nat := if present then number else Pure.pure default

/-- The loop over the exact variants, with the one before. -/
def readVariants (prefillTokens : Nat) : Nat → Nat → Reader (List Nat)
  | 0, previous => do
    check (previous = prefillTokens) "prefill family maximum"
    Pure.pure []
  | more + 1, previous => do
    let n ← number
    check (¬(n ≤ previous ∨ n > prefillTokens ∨ n &&& (n - 1) ≠ 0)) "exact prefill variant bounds/order"
    let variants ← readVariants prefillTokens more n
    Pure.pure (n :: variants)

/-- Shared pages, and the exact prefill variants. -/
def readFamily (version prefillTokens : Nat) : Reader (Bool × List Nat) :=
  if uncaptured version then do
    let shared ← number
    check (shared ≤ 1) "uncaptured prefill shared-page flag"
    Pure.pure (shared ≠ 0, [])
  else if version = 6 then do
    let shared ← number
    let variants ← number
    check (¬(shared > 1 ∨ variants = 0 ∨ variants > 5)) "prefill family header"
    let variants ← readVariants prefillTokens variants 1
    Pure.pure (shared ≠ 0, variants)
  else Pure.pure (version = 5, if prefillTokens > 1 then [prefillTokens] else [])

/-- Whether the output rows are compact. -/
def readCompact (version : Nat) : Reader Bool :=
  if version = 9 then do
    let compact ← number
    check (compact ≤ 1) "bulk domain output-row flag"
    Pure.pure (compact ≠ 0)
  else Pure.pure (version = 8)

/-- Source, width, first and last of the compact output rows. -/
def readOutputRows (compact : Bool) (count output : Nat) : Reader (Nat × Nat × Nat × Nat) :=
  if compact then do
    let source ← number
    let width ← number
    let first ← number
    let last ← number
    check (¬(source ≥ first ∨ first ≥ count ∨ last ≠ output ∨ output ≠ count - 1)) "compact output range"
    Pure.pure (source, width, first, last)
  else Pure.pure (0, 0, 0, 0)

/-- A plan without nodes, and the number of nodes it is to have. -/
def readHeader : Reader (Plan × Nat) := do
  let version ← readVersion
  let context ← number
  let eos ← number
  let output ← number
  let count ← number
  let residentSequences ← numberIf (hasResidents version) 1
  let prefillTokens ← numberIf (hasPrefill version) 1
  check (¬(prefillTokens = 0 ∨ (if uncaptured version then prefillTokens ≠ 4096 else prefillTokens > 32) ∨
    prefillTokens &&& (prefillTokens - 1) ≠ 0 ∨ prefillTokens > context)) "prefill token capacity"
  let family ← readFamily version prefillTokens
  check (¬(residentSequences = 0 ∨ residentSequences > 64)) "resident sequence capacity"
  check (¬(context = 0 ∨ context > 65536 ∨ eos ≥ 151552 ∨ count = 0 ∨ count > 10000 ∨ output ≥ count)) "token plan bounds"
  let compact ← readCompact version
  let rows ← readOutputRows compact count output
  Pure.pure ({
    physical := version ≠ 1
    context
    eos
    output
    residentSequences
    prefillTokens
    prefillFamily := version = 6
    uncapturedPrefill := uncaptured version
    prefillVariants := family.2
    bulkCollectiveDomain := version = 9
    compactOutputRows := compact
    outputRowSource := rows.1
    outputRowWidth := rows.2.1
    outputRowFirst := rows.2.2.1
    outputRowLast := rows.2.2.2
    sharedPages := family.1
    nodes := []
    uses := List.replicate count 0 }, count)

/-! ## The nodes -/

def readInput (i : Nat) : Reader Nat := do
  let id ← number
  check (id < i) "non-topological plan"
  Pure.pure id

/-- The loop over the attributes, with the map so far. -/
def readAttrs : Nat → List (Bytes × Bytes) → Reader (List (Bytes × Bytes))
  | 0, attrs => Pure.pure attrs
  | more + 1, attrs => do
    let k ← str
    let v ← str
    check ((attrs.lookup k).isNone) "duplicate attribute"
    readAttrs more (attrs ++ [(k, v)])

/-- Type, kernel and logical node of a physical instruction. -/
def readStorage (physical : Bool) (count kind : Nat) : Reader (Bytes × Bytes × Nat) :=
  if physical then do
    let dtype ← str
    let kernel ← str
    let logicalNode ← number
    check (¬(logicalNode ≥ count ∨ (if kind = 0 then dtype ≠ ascii "bf16" ∧ dtype ≠ ascii "f16" ∧ dtype ≠ ascii "f32"
      else dtype ≠ ascii "opaque"))) "physical storage contract"
    Pure.pure (dtype, kernel, logicalNode)
  else Pure.pure ([], [], 0)

def readNode (p : Plan) (count i : Nat) (names : List Bytes) : Reader Node := do
  let kind ← number
  let width ← number
  let name ← str
  let op ← str
  check (¬((p.residentSequences > 1 ∨ p.prefillTokens > 1 ∨ p.sharedPages) ∧ op = ascii "cache_quantize_append"))
    "resident slots require paged cache operators"
  check (¬(kind > (if p.physical then 9 else 4) ∨
    (width > 200000 ∧ ¬(p.physical ∧ op = ascii "cache_dequantize" ∧ width = (p.context + 15) / 16 * 16 * 576)) ∨
    names.contains name)) "invalid node descriptor"
  let inputs ← number
  check (inputs ≤ 8) "node input bound"
  let inputs ← times (readInput i) inputs
  let attrs ← number
  check (attrs ≤ 16) "node attribute bound"
  let attrs ← readAttrs attrs []
  let storage ← readStorage p.physical count kind
  Pure.pure { dtype := storage.1, kernel := storage.2.1, logicalNode := storage.2.2, kind, width, name, op, inputs, attrs }

/-- The loop over the nodes, with those read. -/
def readNodes (p : Plan) (count : Nat) : Nat → List Node → Reader (List Node)
  | 0, nodes => Pure.pure nodes
  | more + 1, nodes => do
    let node ← readNode p count nodes.length (nodes.map (·.name))
    readNodes p count more (nodes ++ [node])

/-- How often each value is read, the output once more. -/
def countUses (count output : Nat) (nodes : List Node) : List Nat :=
  ((nodes.flatMap (·.inputs)) ++ [output]).foldl (fun uses id => uses.modify id (· + 1)) (List.replicate count 0)

def readPlan : Reader Plan := do
  let header ← readHeader
  let nodes ← readNodes header.1 header.2 header.2 []
  Pure.pure { header.1 with nodes, uses := countUses header.2 header.1.output nodes }

/-! ## The checks after the last node -/

/-- An operation of the compact range, with the nodes before and after it. -/
def compactOperation (p : Plan) (i : Nat) (n : Node) : Bool :=
  [ascii "norm", ascii "linear", ascii "gather", ascii "cast", ascii "copy"].contains n.op ||
    (n.op == ascii "gather_heads" && i < p.outputRowLast && p.nodes[i + 1]?.any fun next =>
      next.op == ascii "head_to_token" && n.width == next.width && (n.attrs.lookup (ascii "heads")).isSome &&
        n.attrs.lookup (ascii "heads") == next.attrs.lookup (ascii "heads")) ||
    (n.op == ascii "head_to_token" && i > p.outputRowFirst && p.nodes[i - 1]?.any fun previous =>
      previous.op == ascii "gather_heads")

def checkCompactNode (p : Plan) (i : Nat) : Outcome String Unit := do
  let n ← unwrap p.nodes[i]?
  if n.kind ≠ 0 ∨ n.inputs ≠ [if i = p.outputRowFirst then p.outputRowSource else i - 1] then .err "compact output dependency"
  else if compactOperation p i n = false then .err "unsafe compact output operation"
  else .ok ()

def checkCompact (p : Plan) : Outcome String Unit :=
  if p.compactOutputRows then do
    let source ← unwrap p.nodes[p.outputRowSource]?
    if source.kind ≠ 0 ∨ source.width ≠ p.outputRowWidth ∨ p.outputRowWidth = 0 then .err "compact output source"
    else do
      let _ ← collect (checkCompactNode p) (List.range' p.outputRowFirst (p.outputRowLast + 1 - p.outputRowFirst))
      .ok ()
  else .ok ()

/-- The values the output depends on; the loop goes down from the last node. -/
def live (p : Plan) : List Nat :=
  p.nodes.zipIdx.reverse.foldl (fun live node => if node.2 ∈ live then live ∪ node.1.inputs else live) [p.output]

def checkPlan (p : Plan) : Outcome String Unit := do
  let output ← unwrap p.nodes[p.output]?
  if output.kind ≠ 0 ∨ output.width ≠ 151552 then .err "invalid plan output/trailing data"
  else do
    checkCompact p
    if (live p).length ≠ p.nodes.length then .err "unreachable plan node" else .ok ()

/-- `Plan::read`, of the bytes of a file. -/
def Plan.read (input : Bytes) : Outcome String Plan :=
  match readPlan input with
  | (.ok p, []) => do
    checkPlan p
    .ok p
  | (.ok _, _ :: _) => .err "invalid plan output/trailing data"
  | (.err e, _) => .err e
  | (.panic, _) => .panic

end Inferfabric.Native.TokenPlan
