-- SUMMARY: The prefix index: a compressed radix tree over token lists whose nodes carry checkpoints, and the operations on it.
import IronPangu.Ir.ArithmeticHistory
import IronPangu.Lib.Ordered
import IronPangu.Lib.Scan
import IronPangu.Lib.SortedAssoc

open Rust Std

/-!
# The prefix index

Host metadata about published prefixes. The tree compresses runs of tokens into
edges; an entry records the length and the arithmetic history of a published
prefix, and the node its tokens lead to carries its id.
-/

namespace Inferfabric.Runtime

open Ir

structure CheckpointId where
  index : Nat
  generation : Nat
  deriving DecidableEq, Repr

instance : Ord CheckpointId :=
  ⟨compareLex (compareOn CheckpointId.index) (compareOn CheckpointId.generation)⟩

instance : TransOrd CheckpointId :=
  inferInstanceAs
    (TransCmp (compareLex (compareOn CheckpointId.index) (compareOn CheckpointId.generation)))

instance : LawfulEqOrd CheckpointId :=
  lawfulEqCmp_compareLex (f := CheckpointId.index) (g := CheckpointId.generation) (by
    rintro ⟨i, g⟩ ⟨i', g'⟩ hi hg
    cases hi; cases hg; rfl)

structure Match where
  matchedTokens : Nat
  checkpoint : Option (CheckpointId × Nat)
  deriving DecidableEq, Repr

/-! ## The tree -/

inductive Node where
  | mk (edge : List Nat) (checkpoints : ExtTreeSet CheckpointId) (children : List (Nat × Node))

namespace Node

def edge : Node → List Nat
  | .mk edge _ _ => edge

def checkpoints : Node → ExtTreeSet CheckpointId
  | .mk _ checkpoints _ => checkpoints

def children : Node → List (Nat × Node)
  | .mk _ _ children => children

/-- `Node::default`. -/
def default : Node := .mk [] ∅ []

/-- Cut the edge: a new node ends where the first `common` tokens do, and the old
    one hangs below it. A whole edge is not cut. -/
def split (common : Nat) : Node → Node
  | .mk edge checkpoints children =>
    match edge.drop common with
    | [] => .mk edge checkpoints children
    | first :: rest =>
      -- Splitting a token edge creates metadata, never a checkpoint.
      .mk (edge.take common) ∅ [(first, .mk (first :: rest) checkpoints children)]

/-- `Node::insert`. Every turn of the recursion consumes a token when edges start
    with the token they are stored under, so the number of tokens is fuel enough. -/
def insert : Nat → Node → List Nat → CheckpointId → Node
  | _, .mk edge checkpoints children, [], id => .mk edge (checkpoints.insert id) children
  | 0, node, _ :: _, _ => node
  | fuel + 1, .mk edge checkpoints children, token :: tokens, id =>
    match SortedAssoc.find token children with
    | none =>
      .mk edge checkpoints
        (SortedAssoc.insert token (.mk (token :: tokens) (ExtTreeSet.ofList [id]) []) children)
    | some child =>
      let common := Scan.common child.edge (token :: tokens)
      .mk edge checkpoints
        (SortedAssoc.insert token
          (insert fuel (child.split common) ((token :: tokens).drop common) id) children)

/-- Join a node that only leads to its one child with that child. -/
def merge : Node → Node
  | .mk edge checkpoints [(token, suffix)] =>
    if checkpoints.isEmpty then .mk (edge ++ suffix.edge) suffix.checkpoints suffix.children
    else .mk edge checkpoints [(token, suffix)]
  | node => node

/-- Whether a node is worth keeping. -/
def retained (node : Node) : Bool := !node.checkpoints.isEmpty || !node.children.isEmpty

mutual

def remove (id : CheckpointId) : Node → Node
  | .mk edge checkpoints children => .mk edge (checkpoints.erase id) (removeBelow id children)

/-- The `retain` over the children. -/
def removeBelow (id : CheckpointId) : List (Nat × Node) → List (Nat × Node)
  | [] => []
  | (token, child) :: rest =>
    let child := (remove id child).merge
    if child.retained then (token, child) :: removeBelow id rest else removeBelow id rest

end

theorem sizeOf_lt_of_mem {node child : Node} {token : Nat} (h : (token, child) ∈ node.children) :
    sizeOf child < sizeOf node := by
  have hmem := List.sizeOf_lt_of_mem h
  obtain ⟨edge, checkpoints, children⟩ := node
  simp only [Node.children, Prod.mk.sizeOf_spec, Node.mk.sizeOf_spec] at hmem ⊢
  omega

end Node

/-! ## The index -/

structure Entry where
  boundary : Nat
  history : ArithmeticHistory
  deriving DecidableEq, Repr

/-- Whether a lookup may hand out an entry. -/
def Entry.restorable (entry : Entry) (history : ArithmeticHistory) (maxRestore : Nat) : Result Bool :=
  if entry.boundary ≤ maxRestore then entry.history.samePrefix history entry.boundary else .ok false

structure PrefixIndex where
  identity : PrefixIdentity
  index : Nat
  generation : Nat
  alignment : Nat
  maxEntries : Nat
  maxTokenUnits : Nat
  tokenUnits : Nat
  root : Node
  entries : ExtTreeMap CheckpointId Entry

namespace PrefixIndex

/-- `PrefixIndex::new`. `nextIndex` is the process-wide identity counter, handed
    back incremented. -/
def new (identity : PrefixIdentity) (alignment maxEntries maxTokenUnits nextIndex : Nat) :
    Result (PrefixIndex × Nat) :=
  if !identity.compatible identity ∨ alignment = 0 ∨ maxEntries = 0 ∨ maxTokenUnits = 0 then
    invalid "invalid prefix index identity/capacity"
  else
    match checkedAdd u64Max nextIndex 1 with
    | none => invalid "prefix index identities exhausted"
    | some counter =>
      .ok ({
        identity := identity
        index := nextIndex
        generation := 0
        alignment := alignment
        maxEntries := maxEntries
        maxTokenUnits := maxTokenUnits
        tokenUnits := 0
        root := Node.default
        entries := ∅ }, counter)

def len (s : PrefixIndex) : Nat := s.entries.size

def isEmpty (s : PrefixIndex) : Bool := s.entries.isEmpty

/-- The condition under which an insertion is refused. -/
def refused (s : PrefixIndex) (identity : PrefixIdentity) (boundary units : Nat)
    (history : ArithmeticHistory) : Result Bool :=
  if !s.identity.compatible identity ∨ boundary = 0 then
    .ok true
  else do
    let misaligned ← Outcome.rem boundary s.alignment
    .ok (misaligned ≠ 0 ∨ history.tokens ≠ boundary ∨ s.len ≥ s.maxEntries ∨ units > s.maxTokenUnits)

/-- The checks of an insertion; what they let through is its boundary, the units then in
    use and its id. -/
def admission (s : PrefixIndex) (identity : PrefixIdentity) (tokens : List Nat)
    (history : ArithmeticHistory) : Result (Nat × Nat × CheckpointId) := do
  let boundary ← Outcome.okOr (tryFrom u32Max tokens.length) (.invalid "prefix length overflow")
  let units ← Outcome.okOr (checkedAdd u64Max s.tokenUnits boundary) (.invalid "prefix metadata overflow")
  let refused ← s.refused identity boundary units history
  if refused then
    invalid "prefix identity, history, alignment or metadata capacity"
  else do
    let generation ← Outcome.okOr (checkedAdd u64Max s.generation 1)
      (.invalid "checkpoint generations exhausted")
    .ok (boundary, units, ⟨s.index, generation⟩)

def insert (identity : PrefixIdentity) (tokens : List Nat) (history : ArithmeticHistory) :
    Method PrefixIndex Error CheckpointId := do
  let (boundary, units, id) ← Method.read fun s => s.admission identity tokens history
  Method.modify fun s => { s with
    root := s.root.insert tokens.length tokens id
    entries := s.entries.insert id ⟨boundary, history⟩
    generation := id.generation
    tokenUnits := units }
  pure id

/-- The checkpoints of a node a lookup passes: the last one that is restorable
    stands. -/
def visit (s : PrefixIndex) (history : ArithmeticHistory) (maxRestore : Nat) :
    List CheckpointId → Match → Result Match
  | [], result => .ok result
  | id :: ids, result => do
    let entry ← Outcome.unwrap s.entries[id]?
    let restorable ← entry.restorable history maxRestore
    visit s history maxRestore ids
      (if restorable then { result with checkpoint := some (id, entry.boundary) } else result)

/-- The walk of a lookup, at a node `offset` tokens down. -/
def walk (s : PrefixIndex) (tokens : List Nat) (history : ArithmeticHistory) (maxRestore : Nat)
    (node : Node) (offset : Nat) (result : Match) : Result Match :=
  match tokens[offset]? with
  | none => .ok result
  | some token =>
    match _hchild : SortedAssoc.find token node.children with
    | none => .ok result
    | some child =>
      let common := Scan.common child.edge (tokens.drop offset)
      -- `offset as u32`
      let result := { result with matchedTokens := (offset + common) % (u32Max + 1) }
      if common ≠ child.edge.length then
        .ok result
      else do
        let result ← s.visit history maxRestore child.checkpoints.toList result
        walk s tokens history maxRestore child (offset + common) result
termination_by node
decreasing_by exact Node.sizeOf_lt_of_mem (SortedAssoc.mem_of_find _hchild)

def lookup (s : PrefixIndex) (identity : PrefixIdentity) (tokens : List Nat)
    (history : ArithmeticHistory) (maxRestore : Nat) : Result Match :=
  let result : Match := ⟨0, none⟩
  if !s.identity.compatible identity then .ok result
  else s.walk tokens history maxRestore s.root 0 result

def remove (id : CheckpointId) : Method PrefixIndex Error Bool := do
  let s ← Method.get
  match s.entries[id]? with
  | none => pure false
  | some entry => do
    Method.modify fun s => { s with entries := s.entries.erase id, root := s.root.remove id }
    let units ← Method.read fun s => Outcome.sub s.tokenUnits entry.boundary
    Method.modify fun s => { s with tokenUnits := units }
    pure true

end PrefixIndex

end Inferfabric.Runtime
