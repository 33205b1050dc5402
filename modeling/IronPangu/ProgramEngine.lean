-- SUMMARY: The native program engine: the state its threads share, and what each function of its interface checks, writes and submits.
import IronPangu.Execution.Plan

/-!
# The native program engine

A function of the interface runs on the caller's thread. It hands commands to the
rank threads and waits for them, so it is modelled by where it next stops: it has
returned, it has thrown, or it has come to a submission, with the rest of it to be
resumed with what the submission returns.
-/

namespace Inferfabric.ProgramEngine

open Execution

inductive Command where
  | reset | token | prefill | batch | bindPages | selectResident | resetResident | planStateCopy
  | executeStateCopy
  deriving DecidableEq, Repr

/-- The arguments of `submit`. -/
structure Submission where
  command : Command
  token : Nat
  pos : Nat
  want : Nat
  deriving DecidableEq, Repr

structure Engine where
  program : Plan
  /-- `loads.size()` -/
  ranks : Nat
  ready : Nat
  finished : Nat
  generation : Nat
  command : Command
  input : Nat
  position : Nat
  sample : Nat
  output : Nat
  activeResident : Nat
  nextPositions : List Nat
  chunkTokens : List Nat
  batchMembers : List SequenceSlice
  batchSampleRows : List Nat
  batchOutputs : List Nat
  vocabulary : Nat
  bindingComponent : String
  bindingPages : List Int
  stopping : Bool
  failure : String
  deriving DecidableEq, Repr

namespace Engine

/-- The engine as its constructor leaves it. -/
def new (program : Plan) (ranks vocabulary : Nat) : Engine where
  program := program
  ranks := ranks
  ready := 0
  finished := 0
  generation := 0
  command := .reset
  input := 0
  position := 0
  sample := 0
  output := 0
  activeResident := 0
  nextPositions := List.replicate program.residentSequences 0
  chunkTokens := []
  batchMembers := []
  batchSampleRows := []
  batchOutputs := []
  vocabulary := vocabulary
  bindingComponent := ""
  bindingPages := []
  stopping := false
  failure := ""

/-- `next_positions[slot]` of a slot in bounds. -/
def nextPosition (e : Engine) (slot : Nat) : Nat := e.nextPositions.getD slot 0

end Engine

/-! ## Scripts -/

/-- Where a function next stops. -/
inductive Progress (α : Type) where
  | done (value : α) (e : Engine)
  | threw (message : String) (e : Engine)
  | submit (s : Submission) (e : Engine) (resume : Nat → Engine → Progress α)

def Progress.andThen {α β : Type} : Progress α → (α → Engine → Progress β) → Progress β
  | .done a e, f => f a e
  | .threw message e, _ => .threw message e
  | .submit s e resume, f => .submit s e fun output e => (resume output e).andThen f

/-- A function of the interface. -/
def Script (α : Type) : Type := Engine → Progress α

namespace Script

variable {α β : Type}

instance : Monad Script where
  pure a := fun e => .done a e
  bind m f := fun e => (m e).andThen f

def get : Script Engine := fun e => .done e e

def modify (f : Engine → Engine) : Script Unit := fun e => .done () (f e)

/-- Throw what a check throws. -/
def check (o : Checked α) : Script α := fun e =>
  match o with
  | .ok a => .done a e
  | .error message => .threw message e

/-- `if (!condition) throw std::runtime_error(message);` -/
def require (condition : Engine → Bool) (message : String) : Script Unit := fun e =>
  if condition e then .done () e else .threw message e

def submit (s : Submission) : Script Nat := fun e => .submit s e fun output e => .done output e

theorem pure_run (a : α) (e : Engine) : (Pure.pure a : Script α) e = .done a e := rfl
theorem bind_run (m : Script α) (f : α → Script β) (e : Engine) : (m >>= f) e = (m e).andThen f := rfl
@[simp] theorem get_run (e : Engine) : get e = .done e e := rfl
@[simp] theorem modify_run (f : Engine → Engine) (e : Engine) : modify f e = .done () (f e) := rfl
@[simp] theorem submit_run (s : Submission) (e : Engine) :
    submit s e = .submit s e fun output e => .done output e := rfl

end Script

/-! ## Residents -/

/-- `inferfabric_program_reset` -/
def reset : Script Unit := do
  let _ ← Script.submit ⟨.reset, 0, 0, 0⟩
  Script.modify fun e => { e with nextPositions := e.nextPositions.map fun _ => 0, activeResident := 0 }

/-- Submit a selection unless the resident is selected already. -/
def submitSelection (e : Engine) (slot : Nat) : Script Unit :=
  if slot ≠ e.activeResident then do
    let _ ← Script.submit ⟨.selectResident, slot, e.nextPosition slot, 0⟩
    pure ()
  else pure ()

/-- `inferfabric_program_select_resident` -/
def selectResident (slot : Nat) : Script Unit := do
  let e ← Script.get
  Script.require (fun e => slot < e.nextPositions.length) "resident selection bounds"
  submitSelection e slot
  Script.modify fun e => { e with activeResident := slot }

/-- `inferfabric_program_reset_resident` -/
def resetResident (slot : Nat) : Script Unit := do
  Script.require (fun e => slot < e.nextPositions.length) "resident reset bounds"
  let _ ← Script.submit ⟨.resetResident, slot, 0, 0⟩
  Script.modify fun e => { e with nextPositions := e.nextPositions.set slot 0 }

/-- `inferfabric_program_copy_resident` -/
def copyResident (source destination boundary : Nat) : Script Unit := do
  Script.require (fun e => decide (¬(source = destination ∨ source ≥ e.nextPositions.length ∨
      destination ≥ e.nextPositions.length ∨ boundary = 0 ∨ boundary > e.program.context ∨
      e.nextPosition source ≠ boundary ∨ e.nextPosition destination ≠ 0)))
    "state copy requires completed source and reset destination"
  let _ ← Script.submit ⟨.planStateCopy, source, destination, boundary⟩
  let _ ← Script.submit ⟨.executeStateCopy, 0, 0, 0⟩
  Script.modify fun e => { e with nextPositions := e.nextPositions.set destination boundary }

/-! ## Page bindings -/

/-- The one node that fits, `found` so far. -/
def uniqueNode (fits : Node → Bool) (ambiguous : String) : Option Node → List Node → Checked (Option Node)
  | found, [] => .ok found
  | found, node :: nodes =>
    if fits node then
      if found.isSome then .error ambiguous else uniqueNode fits ambiguous (some node) nodes
    else uniqueNode fits ambiguous found nodes

/-- Write a page list to the shared buffers and have one rank bind it. -/
def submitPages (rank : Nat) (component : String) (pages : List Int) : Script Unit := do
  Script.modify fun e => { e with bindingComponent := component, bindingPages := pages }
  let _ ← Script.submit ⟨.bindPages, rank, 0, 0⟩
  pure ()

/-- `inferfabric_program_bind_pages` -/
def bindPages (rank : Nat) (component : String) (pages : List Int) : Script Unit := do
  Script.require (fun e => e.nextPosition e.activeResident = 0 && rank < e.ranks)
    "invalid page binding arguments"
  let e ← Script.get
  let found ← Script.check (uniqueNode (fun node => node.name == component && node.isPagedState)
    "ambiguous named cache state" none e.program.nodes)
  match found with
  | none => Script.check (.error "unregistered named cache state")
  | some node => do
    let contract ← Script.check (pagedStateContract e.program node)
    Script.check (contract.validateCount pages.length e.program.sharedPages)
    submitPages rank component pages

/-- `inferfabric_program_bind_state` -/
def bindState (rank logicalNode : Nat) (pages : List Int) : Script Unit := do
  let e ← Script.get
  let found ← Script.check (uniqueNode (fun node => node.logicalNode == logicalNode && node.isPagedState)
    "ambiguous cache state binding" none e.program.nodes)
  match found, e.program.sharedPages with
  | some node, true => do
    Script.require (fun e => e.nextPosition e.activeResident = 0 && rank < e.ranks)
      "invalid shared page binding"
    let contract ← Script.check (pagedStateContract e.program node)
    Script.check (contract.validateCount pages.length true)
    submitPages rank node.name pages
  | _, _ => Script.check (.error "unregistered shared cache state")

/-! ## Invocations -/

/-- `inferfabric_program_token` -/
def token (token position sample : Nat) : Script Nat := do
  Script.require (fun e => decide (¬(sample > 1 ∨ position ≠ e.nextPosition e.activeResident ∨
      position ≥ e.program.context ∨ token ≥ e.vocabulary)))
    "invalid program token/position/output"
  let output ← Script.submit ⟨.token, token, position, sample⟩
  Script.modify fun e => { e with
    nextPositions := e.nextPositions.modify e.activeResident (· + 1) }
  pure output

/-- `inferfabric_program_prefill` -/
def prefill (tokens : List Nat) (position sample : Nat) : Script Nat := do
  Script.require (fun e => decide (¬(sample > 1 ∨ tokens.length ≤ 1 ∨
      e.program.supportsPrefill tokens.length = false ∨ position ≠ e.nextPosition e.activeResident ∨
      position > e.program.context ∨ tokens.length > e.program.context - position)))
    "invalid program prefill shape/position/output"
  Script.require (fun e => tokens.all (· < e.vocabulary)) "invalid prefill token"
  Script.modify fun e => { e with chunkTokens := tokens }
  let output ← Script.submit ⟨.prefill, 0, position, sample⟩
  Script.modify fun e => { e with
    nextPositions := e.nextPositions.modify e.activeResident (· + tokens.length) }
  pure output

/-- `IFProgramSequenceV1` -/
structure Sequence where
  resident : Nat
  position : Nat
  tokenCount : Nat
  sample : Nat
  deriving DecidableEq, Repr

def Sequence.slice (s : Sequence) : SequenceSlice := ⟨s.resident, s.position, s.tokenCount, s.sample ≠ 0⟩

/-- Whether a sequence continues its resident. -/
def Engine.continues (e : Engine) (s : Sequence) : Bool :=
  s.sample ≤ 1 && s.resident < e.nextPositions.length && s.position == e.nextPosition s.resident

/-- Advance the residents of a batch. -/
def advance (positions : List Nat) (members : List SequenceSlice) : List Nat :=
  members.foldl (fun positions s => positions.modify s.resident (· + s.tokens)) positions

/-- `inferfabric_program_batch` -/
def batch (sequences : List Sequence) (tokens : List Nat) (outputCapacity : Nat) : Script (List Nat) := do
  Script.require (fun e => decide (¬(sequences = [] ∨ sequences.length > e.program.residentSequences ∨
      tokens = [] ∨ tokens.length > e.program.prefillTokens ∨ e.program.uncapturedPrefill = false)))
    "invalid sequence batch arguments"
  Script.require (fun e => sequences.all e.continues) "invalid sequence continuation"
  let members := sequences.map Sequence.slice
  let e ← Script.get
  let layout ← Script.check
    (SequenceBatch.make members e.program.residentSequences e.program.prefillTokens e.program.context)
  Script.require (fun _ => layout.positions.length == tokens.length && layout.sampleRows.length ≤ outputCapacity)
    "batch token/output extent"
  Script.require (fun e => tokens.all (· < e.vocabulary)) "invalid batch token"
  Script.modify fun e => { e with
    batchMembers := members
    batchSampleRows := layout.sampleRows
    chunkTokens := tokens }
  let _ ← Script.submit ⟨.batch, 0, 0, 0⟩
  Script.require (fun e => e.batchOutputs.length == layout.sampleRows.length) "batch sampler output count"
  Script.modify fun e => { e with nextPositions := advance e.nextPositions e.batchMembers }
  let e ← Script.get
  pure e.batchOutputs

/-! ## Requests -/

/-- A call of the interface. -/
inductive Request where
  | reset
  | selectResident (slot : Nat)
  | resetResident (slot : Nat)
  | copyResident (source destination boundary : Nat)
  | bindPages (rank : Nat) (component : String) (pages : List Int)
  | bindState (rank logicalNode : Nat) (pages : List Int)
  | token (token position sample : Nat)
  | prefill (tokens : List Nat) (position sample : Nat)
  | batch (sequences : List Sequence) (tokens : List Nat) (outputCapacity : Nat)
  deriving DecidableEq, Repr

/-- A call and what it writes to the caller's outputs. -/
def serve : Request → Script (List Nat)
  | .reset => do reset; pure []
  | .selectResident slot => do selectResident slot; pure []
  | .resetResident slot => do resetResident slot; pure []
  | .copyResident source destination boundary => do copyResident source destination boundary; pure []
  | .bindPages rank component pages => do bindPages rank component pages; pure []
  | .bindState rank logicalNode pages => do bindState rank logicalNode pages; pure []
  | .token id position sample => do
    let output ← token id position sample
    pure [output]
  | .prefill tokens position sample => do
    let output ← prefill tokens position sample
    pure [output]
  | .batch sequences tokens outputCapacity => batch sequences tokens outputCapacity

end Inferfabric.ProgramEngine
