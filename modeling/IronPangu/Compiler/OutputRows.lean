-- SUMMARY: Planning compact output rows: the suffix of a token program that may run on the sampled rows only.
import IronPangu.Lib.Method

open Rust Std

/-!
# Compact output rows

A program computes a value of one row for each token, but only the rows that are sampled
are wanted of its output. The planner walks back from the output over instructions that
treat each row by itself; the native reader checks the range it is given once more.
-/

namespace Inferfabric.Compiler.Rows

structure Instruction where
  op : String
  inputs : List Nat
  attrs : ExtTreeMap String String
  kind : Nat
  width : Nat

structure OutputRows where
  source : Nat
  sourceWidth : Nat
  /-- The range of the suffix, its end included. -/
  first : Nat
  last : Nat
  deriving DecidableEq, Repr

/-! ## The planner -/

/-- The closed list of operations that preserve independent rows. -/
def rowOps : List String := ["norm", "linear", "gather", "cast", "copy"]

def independent (node : Instruction) : Bool :=
  node.kind == 0 && node.inputs.length == 1 && rowOps.contains node.op

/-- Rank-major storage is only moved together with its conversion back to rows. -/
def gathersHeads (gather node : Instruction) : Bool :=
  gather.op == "gather_heads" && gather.kind == 0 && gather.inputs.length == 1 &&
    gather.width == node.width && gather.attrs["heads"]?.isSome && gather.attrs["heads"]? == node.attrs["heads"]?

def firstInput (node : Instruction) : Outcome String Nat := Outcome.unwrap node.inputs[0]?

def independentStep (nodes : List Instruction) (n : Instruction) : Outcome String Bool :=
  if independent n then do
    let i ← firstInput n
    let input ← Outcome.unwrap nodes[i]?
    return input.kind == 0
  else return false

def pairStep (nodes : List Instruction) (uses : List Nat) (stop : Nat) (n : Instruction) : Outcome String (Option Nat) :=
  if stop > 0 ∧ n.op = "head_to_token" ∧ n.inputs = [stop - 1] ∧ n.kind = 0 then do
    let gather ← Outcome.unwrap nodes[stop - 1]?
    let used ← Outcome.unwrap uses[stop - 1]?
    return if gathersHeads gather n ∧ used = 1 then some (stop - 1) else none
  else return none

def suffixStep (nodes : List Instruction) (uses : List Nat) (stop : Nat) : Outcome String (Option Nat) := do
  let n ← Outcome.unwrap nodes[stop]?
  let alone ← independentStep nodes n
  if alone then return some stop else pairStep nodes uses stop n

/-- The loop of the planner; every turn moves `first` down, so `first` turns are enough. -/
def extend (nodes : List Instruction) (uses : List Nat) : Nat → Nat → Outcome String Nat
  | 0, first => .ok first
  | fuel + 1, first =>
    if first = 0 then .ok first
    else do
      let n ← Outcome.unwrap nodes[first]?
      let input ← firstInput n
      let used ← Outcome.unwrap uses[input]?
      if input + 1 ≠ first ∨ used ≠ 1 then .ok first
      else do
        let step ← suffixStep nodes uses input
        match step with
        | none => .ok first
        | some start => extend nodes uses fuel start

/-- How often each value is read. -/
def countUses (nodes : List Instruction) : List Nat :=
  (List.range nodes.length).map fun i => (nodes.flatMap Instruction.inputs).count i

def topological (nodes : List Instruction) : Bool := nodes.zipIdx.all fun (n, id) => n.inputs.all fun i => i < id

def planFrom (nodes : List Instruction) (output first : Nat) : Outcome String (Option OutputRows) := do
  let n ← Outcome.unwrap nodes[first]?
  let source ← firstInput n
  let s ← Outcome.unwrap nodes[source]?
  return if s.kind ≠ 0 ∨ s.width = 0 then none else some ⟨source, s.width, first, output⟩

def plan (nodes : List Instruction) (output : Nat) : Outcome String (Option OutputRows) :=
  if output ≥ nodes.length ∨ topological nodes = false then
    .err "output row analysis requires a topological program"
  else if output + 1 ≠ nodes.length then .ok none
  else do
    let step ← suffixStep nodes (countUses nodes) output
    match step with
    | none => .ok none
    | some start => do
      let first ← extend nodes (countUses nodes) start start
      planFrom nodes output first

/-! ## The native reader -/

/-- A number as it is written to a plan file. -/
def word (n : Nat) : Nat := n % 2 ^ 32

def encodeNode (n : Instruction) : Instruction :=
  { n with inputs := n.inputs.map word, kind := word n.kind, width := word n.width }

def encodeRows (r : OutputRows) : OutputRows := ⟨word r.source, word r.sourceWidth, word r.first, word r.last⟩

/-- One instruction of the range. -/
def checkNode (nodes : List Instruction) (r : OutputRows) (i : Nat) : Outcome String Unit := do
  let n ← Outcome.unwrap nodes[i]?
  if n.kind ≠ 0 ∨ n.inputs.length ≠ 1 ∨ n.inputs[0]? ≠ some (if i = r.first then r.source else i - 1) then
    .err "compact output dependency"
  else
    let ordinary := rowOps.contains n.op
    let pair := n.op == "gather_heads" && i < r.last &&
      (nodes[i + 1]?).any fun next => next.op == "head_to_token" && n.width == next.width &&
        n.attrs["heads"]?.isSome && next.attrs["heads"]?.isSome && n.attrs["heads"]? == next.attrs["heads"]?
    let layout := n.op == "head_to_token" && i > r.first && (nodes[i - 1]?).any fun previous => previous.op == "gather_heads"
    if ordinary || pair || layout then .ok () else .err "unsafe compact output operation"

/-- What the native reader checks of a range it is given. -/
def checkRows (nodes : List Instruction) (output : Nat) (r : OutputRows) : Outcome String Unit := do
  if r.source ≥ r.first ∨ r.first ≥ nodes.length ∨ r.last ≠ output ∨ output ≠ nodes.length - 1 then
    .err "compact output range"
  else do
    let s ← Outcome.unwrap nodes[r.source]?
    if s.kind ≠ 0 ∨ s.width ≠ r.sourceWidth ∨ r.sourceWidth = 0 then .err "compact output source"
    else do
      let _ ← Outcome.collect (checkNode nodes r) (List.range' r.first (r.last + 1 - r.first))
      return ()

/-- The bounds of `Program::validate`, which every program passes before it is encoded. -/
structure Validated (maxContext : Nat) (nodes : List Instruction) : Prop where
  context : maxContext ≤ 65536
  length : nodes.length ≤ 10000
  kinds : ∀ n ∈ nodes, n.kind ≤ 9
  widths : ∀ n ∈ nodes, n.width ≤ 200000 ∨ n.op = "cache_dequantize" ∧ n.width = (maxContext + 15) / 16 * 16 * 576

/-! ## Execution -/

/-- What each instruction does to its inputs, values of one row a token, and to the state. -/
abbrev Semantics (σ ρ : Type) : Type := Instruction → List (List ρ) → σ → List ρ × σ

section

variable {σ ρ : Type}

/-- The values computed so far, and the state. -/
def execute (sem : Semantics σ ρ) (st : List (List ρ) × σ) (n : Instruction) : List (List ρ) × σ :=
  let (value, s) := sem n (n.inputs.map fun i => st.1.getD i []) st.2
  (st.1 ++ [value], s)

def run (sem : Semantics σ ρ) (nodes : List Instruction) (st : List (List ρ) × σ) : List (List ρ) × σ :=
  nodes.foldl (execute sem) st

/-- The rows at some positions, in the order of the positions. -/
def select (rows : List Nat) (value : List ρ) : List ρ := rows.filterMap fun row => value[row]?

/-- The whole program on all rows, selected at the end. -/
def runAll (sem : Semantics σ ρ) (nodes : List Instruction) (output : Nat) (rows : List Nat) (s : σ) : List ρ × σ :=
  let st := run sem nodes ([], s)
  (select rows (st.1.getD output []), st.2)

/-- The prefix on all rows, the suffix on the selected ones. -/
def runCompact (sem : Semantics σ ρ) (nodes : List Instruction) (r : OutputRows) (rows : List Nat) (s : σ) : List ρ × σ :=
  let st := run sem (nodes.take r.first) ([], s)
  let selected := st.1.set r.source (select rows (st.1.getD r.source []))
  let st' := run sem (nodes.drop r.first) (selected, st.2)
  (st'.1.getD r.last [], st'.2)

/-- The listed operations treat each row by itself and leave the state alone; gathered heads
    do so together with the conversion that follows them. -/
structure RowWise (sem : Semantics σ ρ) : Prop where
  ordinary : ∀ n, independent n = true → ∃ f : ρ → ρ, ∀ v s, sem n [v] s = (v.map f, s)
  pair : ∀ gather n, gathersHeads gather n = true → n.op = "head_to_token" →
    ∃ f : ρ → ρ, ∀ v s, sem n [(sem gather [v] s).1] (sem gather [v] s).2 = (v.map f, s)

end

end Inferfabric.Compiler.Rows
