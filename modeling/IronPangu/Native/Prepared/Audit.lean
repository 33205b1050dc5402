-- SUMMARY: The audit of a recording, the arena layout bound from it, and sequences of operations to replay.
import IronPangu.Native.Prepared.Exclusive

open Rust Method Std

/-!
# Audits

An audit lists the blocks of a context as slots of one arena, and for each instruction
the slots it used. Binding turns the latter into request envelopes.
-/

namespace Inferfabric.Native.Prepared

/-- The blocks in order, each at the next aligned offset. -/
def auditSlots : Nat → List Block → List Slot
  | _, [] => []
  | offset, b :: bs => ⟨(offset + 511) / 512 * 512, b.bytes⟩ :: auditSlots ((offset + 511) / 512 * 512 + b.bytes) bs

def auditBytes : Nat → List Block → Nat
  | offset, [] => offset
  | offset, b :: bs => auditBytes ((offset + 511) / 512 * 512 + b.bytes) bs

namespace Context

/-- The slot of the workspace, or -1 where there is none. -/
def workspaceSlot (c : Context) : Int :=
  match c.workspace with
  | none => -1
  | some pointer =>
    match c.owned[pointer]? with
    | none => -1
    | some i => i

def capacity (c : Context) (slot : Nat) : Nat :=
  match c.blocks[slot]? with
  | none => 0
  | some b => b.bytes

/-- The requests an instruction may make: bounded by the largest slot it was seen with. -/
def requestEnvelope (c : Context) (slots : ExtTreeSet Nat) : Envelope where
  maxRequestBytes := ((slots.toList.filter fun slot : Nat => (slot : Int) != c.workspaceSlot).map c.capacity).foldl max 0
  workspace := slots.toList.any fun slot : Nat => (slot : Int) == c.workspaceSlot

def requestEnvelopes (c : Context) : ExtTreeMap Int Envelope :=
  c.instructionSlots.map fun _ slots => c.requestEnvelope slots

/-- The layout bound from the audit of a context. -/
def audit (c : Context) : ArenaLayout where
  bytes := auditBytes 0 c.blocks
  slots := auditSlots 0 c.blocks
  bindings := ∅
  envelopes := c.requestEnvelopes
  pooled := true
  workspaceSlot := c.workspaceSlot

end Context

/-! ## Replayable operations -/

/-- A release names the acquire whose lease it ends. -/
inductive Op where
  | instruction (id : Int)
  | acquire (bytes : Nat) (granted : Option Nat)
  | release (lease : Nat)
  | workspace (bytes : Nat)
  | bounded (enabled : Bool)
  | leave
  | complete
  deriving DecidableEq, Repr

namespace Op

/-- The call an operation makes, given the leases so far. -/
def call (leases : List Nat) : Op → Option Call
  | .instruction id => some (.instruction id)
  | .acquire bytes granted => some (.acquire bytes granted)
  | .release lease => leases[lease]?.map .release
  | .workspace bytes => some (.workspace bytes none)
  | .bounded enabled => some (.bounded enabled)
  | .leave => some .leave
  | .complete => some .complete

/-- The lease an operation adds. -/
def lease (reply : Option Nat) : Op → List Nat
  | .acquire .. => reply.toList
  | .instruction _ | .release _ | .workspace _ | .bounded _ | .leave | .complete => []

end Op

/-- A session, and the addresses of all its leases in order. -/
structure Replay where
  session : Session
  leases : List Nat

namespace Replay

def onSession {α : Type} (m : Method Session String α) : Method Replay String α := fun r =>
  ((m r.session).1, { r with session := (m r.session).2 })

def step (op : Op) : Method Replay String (Option Nat) := do
  let r ← Method.get
  let call ← Method.lift (Outcome.unwrap (op.call r.leases))
  let reply ← onSession (Session.step call)
  Method.modify fun r => { r with leases := r.leases ++ op.lease reply }
  return reply

def start (c : Context) : Replay where
  session := Session.start c
  leases := []

/-- What the device grants an operation is not in use. -/
def Granted (r : Replay) (op : Op) : Prop := ∀ call, op.call r.leases = some call → r.session.Granted call

instance (r : Replay) : DecidablePred r.Granted := fun op =>
  inferInstanceAs (Decidable (∀ call ∈ op.call r.leases, r.session.Granted call))

/-- A buffer is acquired outside any bounded scope. -/
def Unbounded (r : Replay) : Op → Prop
  | .acquire .. => r.session.context.boundedBuffers = false
  | .instruction _ | .release _ | .workspace _ | .bounded _ | .leave | .complete => True

instance (r : Replay) : DecidablePred r.Unbounded := fun op =>
  match op with
  | .acquire .. => inferInstanceAs (Decidable (_ = _))
  | .instruction _ | .release _ | .workspace _ | .bounded _ | .leave | .complete => isTrue trivial

/-- The buffers in use lie inside the arena and apart from each other. -/
structure Packed (base bytes : Nat) (r : Replay) : Prop where
  inside : ∀ q m, r.session.context.Live q m → base ≤ q ∧ q + m ≤ base + bytes
  apart : ∀ q m q' m', r.session.context.Live q m → r.session.context.Live q' m' → q ≠ q' →
    q + m ≤ q' ∨ q' + m' ≤ q
  held : r.session.held.Nodup ∧ ∀ q ∈ r.session.held, ∃ m, r.session.context.Live q m

/-- Two replies name the same block: by its address in the recording, by its slot in the arena. -/
def SameBlock (base : Nat) (last : Context) : Outcome String (Option Nat) → Outcome String (Option Nat) → Prop
  | .ok none, .ok none => True
  | .ok (some pointer), .ok (some pointer') =>
    ∃ (i : Nat) (b : Block) (s : Slot), last.blocks[i]? = some b ∧ b.data = pointer ∧
      last.audit.slots[i]? = some s ∧ pointer' = base + s.offset
  | _, _ => False

end Replay

end Inferfabric.Native.Prepared
