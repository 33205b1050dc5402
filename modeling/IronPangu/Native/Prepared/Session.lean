-- SUMMARY: Sessions on one prepared context, and who holds each block under any sequence of calls.
import IronPangu.Native.Prepared.Frozen

open Rust Method Std

/-!
# Sessions

Callers hold the buffers they acquired, and the context holds its workspace. Growing the
workspace gives the old one back first: where the larger one cannot be had, the context
is left with a workspace that it does not hold.
-/

namespace Inferfabric.Native.Prepared

/-- A context, its open scopes, and the buffers its callers hold. -/
structure Session where
  context : Context
  scopes : List Context.Scope
  held : List Nat

/-- Scopes are entered and left one inside the other, also when they are unwound. -/
inductive Call where
  | acquire (bytes : Nat) (granted : Option Nat)
  | release (pointer : Nat)
  | workspace (bytes : Nat) (granted : Option Nat)
  | capture (begun : Bool)
  | bounded (enabled : Bool)
  | leave
  | instruction (id : Int)
  | complete
  deriving DecidableEq, Repr

namespace Session

def onContext {α : Type} (m : Method Context String α) : Method Session String α := fun s =>
  ((m s.context).1, { s with context := (m s.context).2 })

def take (bytes : Nat) (granted : Option Nat) : Method Session String (Option Nat) := do
  let pointer ← onContext (Context.acquire bytes false granted)
  Method.modify fun s => { s with held := pointer :: s.held }
  return some pointer

def give (pointer : Nat) : Method Session String (Option Nat) := do
  onContext (Context.release pointer)
  Method.modify fun s => { s with held := s.held.erase pointer }
  return none

def enter (scope : Method Context String Context.Scope) : Method Session String (Option Nat) := do
  let scope ← onContext scope
  Method.modify fun s => { s with scopes := scope :: s.scopes }
  return none

def leave : Method Session String (Option Nat) := do
  let s ← Method.get
  match s.scopes with
  | [] => return none
  | scope :: scopes => do
    onContext (Context.leave scope)
    Method.modify fun s => { s with scopes := scopes }
    return none

/-- One call, and the address it returns. -/
def step : Call → Method Session String (Option Nat)
  | .acquire bytes granted => take bytes granted
  | .release pointer => give pointer
  | .workspace bytes granted => onContext (Context.workspaceFor bytes granted)
  | .capture begun => enter (Context.enterCapture begun)
  | .bounded enabled => enter (Context.enterBounded enabled)
  | .leave => leave
  | .instruction id => do
    onContext (Context.setInstruction id)
    return none
  | .complete => do
    onContext Context.complete
    return none

/-- A session on a new context. -/
def start (c : Context) : Session where
  context := c
  scopes := []
  held := []

/-! ## Exclusive buffers -/

/-- How many hold the buffer at an address. -/
def owners (s : Session) (pointer : Nat) : Nat := s.held.count pointer + s.context.workspace.toList.count pointer

/-- How often a block waits in the free lists. -/
def waits (s : Session) (i : Nat) : Nat := (s.context.free.toList.flatMap Prod.snd).count i

/-- Every block either waits once and is not live, or is live and held once. -/
structure Exclusive (s : Session) : Prop where
  blocks : ∀ (i : Nat) b, s.context.blocks[i]? = some b →
    (b.live = false ∧ s.waits i = 1 ∧ s.owners b.data = 0) ∨ (b.live = true ∧ s.waits i = 0 ∧ s.owners b.data = 1)
  workspace : ∀ pointer, s.context.workspace = some pointer →
    ∃ b ∈ s.context.blocks, b.data = pointer ∧ b.live = true ∧ s.context.workspaceBytes ≤ b.bytes

/-- An acquired buffer is not the workspace. -/
def Apart (ev : Event Session String Call (Option Nat)) : Prop :=
  ∀ bytes granted pointer, ev.call = .acquire bytes granted → ev.reply = .ok (some pointer) →
    ev.before.context.workspace ≠ some pointer ∧ ev.after.context.workspace ≠ some pointer

/-- What the device grants a call is not in use. -/
def Granted (s : Session) : Call → Prop
  | .acquire _ granted | .workspace _ granted => s.context.Fresh granted
  | .release _ | .capture _ | .bounded _ | .leave | .instruction _ | .complete => True

instance (s : Session) : DecidablePred (Granted s) := fun call =>
  match call with
  | .acquire _ granted | .workspace _ granted => inferInstanceAs (Decidable (s.context.Fresh granted))
  | .release _ | .capture _ | .bounded _ | .leave | .instruction _ | .complete => isTrue trivial

/-! ## What keeps them exclusive -/

/-- There is storage for a workspace of this size once the present one went back. -/
def Room (c : Context) (bytes : Nat) (granted : Option Nat) : Prop :=
  (∃ b ∈ c.blocks, (b.live = false ∨ c.workspace = some b.data) ∧
    (b.bytes = bytes ∨ c.boundedBuffers = true ∧ bytes ≤ b.bytes)) ∨
  (c.capturing = false ∧ granted ≠ none)

/-- A call that does not give the workspace away, and does not grow one that was not
    planned where there is no room. -/
def Proper (s : Session) : Call → Prop
  | .release pointer => s.context.workspace ≠ some pointer
  | .workspace bytes granted =>
    s.context.workspacePlanned = true ∨ s.context.workspace = none ∨ bytes ≤ s.context.workspaceBytes ∨
      Room s.context bytes granted
  | .acquire .. | .capture _ | .bounded _ | .leave | .instruction _ | .complete => True

instance (c : Context) (bytes : Nat) (granted : Option Nat) : Decidable (Room c bytes granted) :=
  inferInstanceAs (Decidable (_ ∨ _))

instance (s : Session) : DecidablePred (Proper s) := fun call =>
  match call with
  | .release _ => inferInstanceAs (Decidable (_ ≠ _))
  | .workspace .. => inferInstanceAs (Decidable (_ ∨ _ ∨ _ ∨ _))
  | .acquire .. | .capture _ | .bounded _ | .leave | .instruction _ | .complete => isTrue trivial

end Session

end Inferfabric.Native.Prepared
