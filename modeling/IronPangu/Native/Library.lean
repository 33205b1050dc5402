-- SUMMARY: The native engine as the library behind the host engine: its state after the calls made so far, and how it answers them.
import IronPangu.Native.Engine.Open
import IronPangu.ProgramEngine.Served

open Rust

/-!
# The loaded library

The host engine sees the native engine through its calls alone, so the state of
the library is a function of the calls made so far. What the device comes back with
may be anything.
-/

namespace Inferfabric.Native

open Inferfabric.Ir Inferfabric.Runtime
open Inferfabric.Execution (Plan PagedStateContract SequenceSlice)
open Inferfabric.ProgramEngine (Request Device served serve)

/-- `IFProgramSequenceV1` of a member of a batch. -/
def BatchInput.sequence (input : BatchInput) : ProgramEngine.Sequence :=
  ⟨input.resident, input.position, input.tokens.length, input.sample.toNat⟩

/-- The call of the interface that a foreign call is. An audit is not one. -/
def Foreign.request : Foreign → Option Request
  | .reset => some .reset
  | .token id position sample => some (.token id position sample.toNat)
  | .prefill tokens position sample => some (.prefill tokens position sample.toNat)
  | .batch inputs =>
    some (.batch (inputs.map BatchInput.sequence) (inputs.flatMap BatchInput.tokens)
      (inputs.filter BatchInput.sample).length)
  | .selectResident slot => some (.selectResident slot)
  | .resetResident slot => some (.resetResident slot)
  | .copyResident source destination boundary => some (.copyResident source destination boundary)
  | .bindState rank node pages => some (.bindState rank node (pages.map Int.ofNat))
  | .bindPages rank component pages => some (.bindPages rank component (pages.map Int.ofNat))
  | .audit .. => none

/-- The limits a plan is read with. -/
structure Bounded (program : Plan) : Prop where
  residents : program.residentSequences ≤ 64
  prefillTokens : program.prefillTokens ≤ 4096
  context : program.context ≤ 65536

/-- An opened library. -/
structure Library where
  program : Plan
  bounded : Bounded program
  ranks : Nat
  vocabulary : Nat
  /-- What the device comes back with for the first of the calls. -/
  device : List Foreign → Device

namespace Library

/-- A call on the native engine. -/
def perform (l : Library) (calls : List Foreign) (call : Foreign) (e : ProgramEngine.Engine) :
    Except String (List Nat) × ProgramEngine.Engine :=
  match call.request with
  | some request => served (l.device (call :: calls)) (serve request) e
  | none => (.ok [], e)

/-- The native engine after the calls, the latest first. -/
def after (l : Library) : List Foreign → ProgramEngine.Engine
  | [] => .new l.program l.ranks l.vocabulary
  | call :: calls => (l.perform calls call (l.after calls)).2

/-- The answer to the latest call: `call` returns -1 for an exception. -/
def answer (l : Library) : List Foreign → Answer
  | [] => ⟨0, "", []⟩
  | call :: calls =>
    match (l.perform calls call (l.after calls)).1 with
    | .ok output => ⟨0, "", output⟩
    | .error message => ⟨-1, message, []⟩

/-- The device samples one token for each member of a batch that asks for one. -/
def Works (l : Library) : Prop :=
  ∀ inputs calls, (l.device (.batch inputs :: calls)).rows.length = (inputs.filter BatchInput.sample).length

/-- The world of a host engine that has loaded the library. -/
structure Behind (l : Library) (w : World) : Prop where
  prefillFn : w.prefillFn = true
  batchFn : w.batchFn = true
  bindPagesFn : w.bindPagesFn = true
  bindStateFn : w.bindStateFn = true
  selectResidentFn : w.selectResidentFn = true
  resetResidentFn : w.resetResidentFn = true
  copyResidentFn : w.copyResidentFn = true
  answer : w.answer = l.answer

/-- What the library reports of its program. -/
def report (l : Library) (inventory : Result String) : Report where
  inventory := inventory
  abiVersion := 1
  opened := .ok ()
  null := false
  info := .ok (l.program.context, l.vocabulary, l.program.eos)
  residentCapacity := some (.ok l.program.residentSequences)
  prefillCapacity := some (.ok l.program.prefillTokens)
  prefillMode := some (.ok l.program.uncapturedPrefill.toNat)
  prefillSizes := some (.ok l.program.prefillVariants)
  prefillVariants := none
  sharedPages := some (.ok l.program.sharedPages.toNat)

end Library

/-! ## What a call does -/

/-- What an accepted call does to the positions and the selected resident. -/
def Foreign.moves : Foreign → List Nat × Nat → List Nat × Nat
  | .reset, (positions, _) => (positions.map fun _ => 0, 0)
  | .token .., (positions, active) => (positions.modify active (· + 1), active)
  | .prefill tokens .., (positions, active) => (positions.modify active (· + tokens.length), active)
  | .batch inputs, (positions, active) =>
    (ProgramEngine.advance positions (inputs.map fun input => input.sequence.slice), active)
  | .selectResident slot, (positions, _) => (positions, slot)
  | .resetResident slot, (positions, active) => (positions.set slot 0, active)
  | .copyResident _ destination boundary, (positions, active) => (positions.set destination boundary, active)
  | .bindState .., residents | .bindPages .., residents | .audit .., residents => residents

/-- The positions and the selected resident of the native engine. -/
def residentsOf (e : ProgramEngine.Engine) : List Nat × Nat := (e.nextPositions, e.activeResident)

/-- A call leaves the program alone. -/
structure SameProgram (e e' : ProgramEngine.Engine) : Prop where
  program : e'.program = e.program
  ranks : e'.ranks = e.ranks
  vocabulary : e'.vocabulary = e.vocabulary

/-- A call that throws moves nothing, and one that returns moves what it says. -/
def Performed (call : Foreign) (e : ProgramEngine.Engine)
    (result : Except String (List Nat) × ProgramEngine.Engine) : Prop :=
  SameProgram e result.2 ∧ residentsOf result.2 =
    match result.1 with
    | .ok _ => call.moves (residentsOf e)
    | .error _ => residentsOf e

section

variable {l : Library} {calls : List Foreign} {e : ProgramEngine.Engine} {device : Device}

theorem SameProgram.refl (e : ProgramEngine.Engine) : SameProgram e e := ⟨rfl, rfl, rfl⟩

/-- A request that returns nothing, from what its function does. -/
theorem served_done {m : ProgramEngine.Script Unit} :
    served device (do m; Pure.pure [] : ProgramEngine.Script (List Nat)) e =
      match served device m e with
      | (.ok _, e) => (.ok [], e)
      | (.error message, e) => (.error message, e) := by
  rw [ProgramEngine.served_bind]
  obtain ⟨reply, e'⟩ := served device m e
  cases reply <;> rfl

theorem served_output {m : ProgramEngine.Script Nat} :
    served device (do let output ← m; Pure.pure [output] : ProgramEngine.Script (List Nat)) e =
      match served device m e with
      | (.ok output, e) => (.ok [output], e)
      | (.error message, e) => (.error message, e) := by
  rw [ProgramEngine.served_bind]
  obtain ⟨reply, e'⟩ := served device m e
  cases reply <;> rfl

theorem served_output_ok {m : ProgramEngine.Script Nat} {output : Nat} (h : (served device m e).1 = .ok output) :
    (served device (do let output ← m; Pure.pure [output] : ProgramEngine.Script (List Nat)) e).1 =
      .ok [output] := by
  rw [served_output]
  rcases hrun : served device m e with ⟨reply, e'⟩
  rw [hrun] at h
  obtain rfl : reply = .ok output := h
  rfl

theorem performed (l : Library) (calls : List Foreign) (call : Foreign) (e : ProgramEngine.Engine) :
    Performed call e (l.perform calls call e) := by
  cases call with
  | reset =>
    simp only [Library.perform, Foreign.request, serve, served_done, ProgramEngine.served_reset]
    exact ⟨⟨rfl, rfl, rfl⟩, rfl⟩
  | token id position sample =>
    simp only [Library.perform, Foreign.request, serve, served_output, ProgramEngine.served_token]
    split_ifs
    · exact ⟨⟨rfl, rfl, rfl⟩, rfl⟩
    · exact ⟨.refl e, rfl⟩
  | prefill tokens position sample =>
    simp only [Library.perform, Foreign.request, serve, served_output]
    obtain ⟨message, h⟩ | h := ProgramEngine.served_prefill
        (l.device (.prefill tokens position sample :: calls)) e tokens position sample.toNat
    · rw [h]
      exact ⟨.refl e, rfl⟩
    · rw [h]
      exact ⟨⟨rfl, rfl, rfl⟩, rfl⟩
  | batch inputs =>
    simp only [Library.perform, Foreign.request, serve]
    obtain ⟨message, e', h, hstill⟩ | ⟨e', h, -, hstill⟩ := ProgramEngine.served_batch
        (l.device (.batch inputs :: calls)) e (inputs.map BatchInput.sequence)
        (inputs.flatMap BatchInput.tokens) (inputs.filter BatchInput.sample).length
    · rw [h]
      exact ⟨⟨hstill.program, hstill.ranks, hstill.vocabulary⟩,
        Prod.ext hstill.positions hstill.active⟩
    · rw [h]
      refine ⟨⟨hstill.program, hstill.ranks, hstill.vocabulary⟩, Prod.ext ?_ hstill.active⟩
      rw [residentsOf, hstill.positions]
      simp [Foreign.moves, residentsOf, Function.comp_def]
  | selectResident slot =>
    simp only [Library.perform, Foreign.request, serve, served_done, ProgramEngine.served_selectResident]
    split_ifs
    · exact ⟨⟨rfl, rfl, rfl⟩, rfl⟩
    · exact ⟨.refl e, rfl⟩
  | resetResident slot =>
    simp only [Library.perform, Foreign.request, serve, served_done, ProgramEngine.served_resetResident]
    split_ifs
    · exact ⟨⟨rfl, rfl, rfl⟩, rfl⟩
    · exact ⟨.refl e, rfl⟩
  | copyResident source destination boundary =>
    simp only [Library.perform, Foreign.request, serve, served_done, ProgramEngine.served_copyResident]
    split_ifs
    · exact ⟨⟨rfl, rfl, rfl⟩, rfl⟩
    · exact ⟨.refl e, rfl⟩
  | bindState rank node pages =>
    simp only [Library.perform, Foreign.request, serve, served_done]
    obtain ⟨message, h⟩ | ⟨component, h⟩ := ProgramEngine.served_bindState
        (l.device (.bindState rank node pages :: calls)) e rank node (pages.map Int.ofNat)
    · rw [h]
      exact ⟨.refl e, rfl⟩
    · rw [h]
      exact ⟨⟨rfl, rfl, rfl⟩, rfl⟩
  | bindPages rank component pages =>
    simp only [Library.perform, Foreign.request, serve, served_done]
    obtain ⟨message, h⟩ | h := ProgramEngine.served_bindPages
        (l.device (.bindPages rank component pages :: calls)) e rank component
        (pages.map Int.ofNat)
    · rw [h]
      exact ⟨.refl e, rfl⟩
    · rw [h]
      exact ⟨⟨rfl, rfl, rfl⟩, rfl⟩
  | audit sequence slot => exact ⟨.refl e, rfl⟩

end

namespace Library

variable (l : Library) (calls : List Foreign) (call : Foreign)

/-- The positions and the selected resident after the calls. -/
def residents : List Nat × Nat := residentsOf (l.after calls)

/-- The latest call has been accepted. -/
def Accepts : Prop := (l.answer (call :: calls)).status = 0

instance : Decidable (l.Accepts calls call) := inferInstanceAs (Decidable (_ = _))

theorem accepts_iff : l.Accepts calls call ↔ ∃ output, (l.perform calls call (l.after calls)).1 = .ok output := by
  simp only [Accepts, answer]
  cases (l.perform calls call (l.after calls)).1 <;> simp

/-- The program is the one that was loaded. -/
theorem after_program : SameProgram (.new l.program l.ranks l.vocabulary) (l.after calls) := by
  induction calls with
  | nil => exact .refl _
  | cons call calls ih =>
    obtain ⟨h, -⟩ := performed l calls call (l.after calls)
    exact ⟨h.program.trans ih.program, h.ranks.trans ih.ranks, h.vocabulary.trans ih.vocabulary⟩

/-- One call of the library. -/
theorem residents_cons : l.residents (call :: calls) =
    if l.Accepts calls call then call.moves (l.residents calls) else l.residents calls := by
  obtain ⟨-, h⟩ := performed l calls call (l.after calls)
  have hiff := l.accepts_iff calls call
  rw [residents, after, h]
  cases hresult : (l.perform calls call (l.after calls)).1 with
  | ok output => rw [if_pos (hiff.mpr ⟨output, hresult⟩), residents]
  | error message =>
    have hrefused : ¬l.Accepts calls call := by
      rw [hiff, hresult]
      rintro ⟨output, houtput⟩
      cases houtput
    rw [if_neg hrefused, residents]

end Library

end Inferfabric.Native
