-- SUMMARY: The functions of the native interface leave alone what the lock guards.
import IronPangu.ProgramEngine

/-!
# What the caller leaves alone

Outside `submit` the caller's thread touches its own bookkeeping and the argument
buffers only. One rule for each way of building a script carries this through the
functions of the interface.
-/

namespace Inferfabric.ProgramEngine

open Execution

/-- The caller changes none of the fields that are guarded by the lock. -/
structure Engine.Keeps (e e' : Engine) : Prop where
  ranks : e'.ranks = e.ranks
  ready : e'.ready = e.ready
  finished : e'.finished = e.finished
  generation : e'.generation = e.generation
  command : e'.command = e.command
  input : e'.input = e.input
  position : e'.position = e.position
  sample : e'.sample = e.sample
  stopping : e'.stopping = e.stopping
  failure : e'.failure = e.failure

theorem Engine.Keeps.refl (e : Engine) : e.Keeps e := by constructor <;> rfl

theorem Engine.Keeps.trans {e e' e'' : Engine} (h : e.Keeps e') (h' : e'.Keeps e'') : e.Keeps e'' where
  ranks := h'.ranks.trans h.ranks
  ready := h'.ready.trans h.ready
  finished := h'.finished.trans h.finished
  generation := h'.generation.trans h.generation
  command := h'.command.trans h.command
  input := h'.input.trans h.input
  position := h'.position.trans h.position
  sample := h'.sample.trans h.sample
  stopping := h'.stopping.trans h.stopping
  failure := h'.failure.trans h.failure

variable {α β : Type} {e e' : Engine}

/-- Wherever it stops, a function leaves the guarded fields as it found them. -/
def Progress.Owned (e : Engine) : Progress α → Prop
  | .done _ e' => e.Keeps e'
  | .threw _ e' => e.Keeps e'
  | .submit _ e' resume => e.Keeps e' ∧ ∀ output e'', (resume output e'').Owned e''

theorem Progress.Owned.of_keeps {p : Progress α} (hkeeps : e.Keeps e') (h : p.Owned e') : p.Owned e := by
  cases p with
  | done => exact hkeeps.trans h
  | threw => exact hkeeps.trans h
  | submit => exact ⟨hkeeps.trans h.1, h.2⟩

theorem Progress.Owned.andThen {p : Progress α} {f : α → Engine → Progress β} (h : p.Owned e)
    (hf : ∀ a e, (f a e).Owned e) : (p.andThen f).Owned e := by
  induction p generalizing e with
  | done a e' => exact .of_keeps h (hf a e')
  | threw => exact h
  | submit s e' resume ih => exact ⟨h.1, fun output e'' => ih output e'' (h.2 output e'')⟩

namespace Script

def Owned (m : Script α) : Prop := ∀ e, (m e).Owned e

theorem Owned.pure (a : α) : Owned (Pure.pure a : Script α) := Engine.Keeps.refl

theorem Owned.bind {m : Script α} {f : α → Script β} (hm : Owned m) (hf : ∀ a, Owned (f a)) :
    Owned (m >>= f) :=
  fun e => (hm e).andThen fun a => hf a

theorem Owned.get : Owned Script.get := Engine.Keeps.refl

theorem Owned.check (o : Checked α) : Owned (Script.check o) := by
  intro e
  cases o <;> exact .refl e

theorem Owned.require (condition : Engine → Bool) (message : String) :
    Owned (Script.require condition message) := by
  intro e
  unfold Script.require
  split <;> exact .refl e

theorem Owned.submit (s : Submission) : Owned (Script.submit s) := fun e => ⟨.refl e, fun _ => .refl⟩

theorem Owned.modify {f : Engine → Engine} (h : ∀ e : Engine, e.Keeps (f e)) : Owned (Script.modify f) := h

end Script

open Script

theorem owned_submitPages (rank : Nat) (component : String) (pages : List Int) :
    Owned (submitPages rank component pages) := by
  apply Owned.bind
  · exact .modify fun e => by constructor <;> rfl
  · intro _
    exact .bind (.submit _) fun _ => .pure ()

theorem owned_reset : Owned reset := by
  apply Owned.bind (.submit _)
  intro _
  exact .modify fun e => by constructor <;> rfl

theorem owned_selectResident (slot : Nat) : Owned (selectResident slot) := by
  apply Owned.bind .get
  intro e
  apply Owned.bind (.require _ _)
  intro _
  apply Owned.bind
  · unfold submitSelection
    split
    · exact .bind (.submit _) fun _ => .pure ()
    · exact .pure ()
  · intro _
    exact .modify fun e => by constructor <;> rfl

theorem owned_resetResident (slot : Nat) : Owned (resetResident slot) := by
  apply Owned.bind (.require _ _)
  intro _
  apply Owned.bind (.submit _)
  intro _
  exact .modify fun e => by constructor <;> rfl

theorem owned_copyResident (source destination boundary : Nat) :
    Owned (copyResident source destination boundary) := by
  apply Owned.bind (.require _ _)
  intro _
  apply Owned.bind (.submit _)
  intro _
  apply Owned.bind (.submit _)
  intro _
  exact .modify fun e => by constructor <;> rfl

theorem owned_bindPages (rank : Nat) (component : String) (pages : List Int) :
    Owned (bindPages rank component pages) := by
  apply Owned.bind (.require _ _)
  intro _
  apply Owned.bind .get
  intro e
  apply Owned.bind (.check _)
  rintro (_ | node)
  · exact .check _
  · apply Owned.bind (.check _)
    intro contract
    exact .bind (.check _) fun _ => owned_submitPages _ _ _

theorem owned_bindState (rank logicalNode : Nat) (pages : List Int) :
    Owned (bindState rank logicalNode pages) := by
  apply Owned.bind .get
  intro e
  apply Owned.bind (.check _)
  intro found
  split
  · apply Owned.bind (.require _ _)
    intro _
    apply Owned.bind (.check _)
    intro contract
    exact .bind (.check _) fun _ => owned_submitPages _ _ _
  · exact .check _

theorem owned_token (id position sample : Nat) : Owned (token id position sample) := by
  apply Owned.bind (.require _ _)
  intro _
  apply Owned.bind (.submit _)
  intro output
  apply Owned.bind
  · exact .modify fun e => by constructor <;> rfl
  · intro _
    exact .pure output

theorem owned_prefill (tokens : List Nat) (position sample : Nat) :
    Owned (prefill tokens position sample) := by
  apply Owned.bind (.require _ _)
  intro _
  apply Owned.bind (.require _ _)
  intro _
  apply Owned.bind
  · exact .modify fun e => by constructor <;> rfl
  · intro _
    apply Owned.bind (.submit _)
    intro output
    apply Owned.bind
    · exact .modify fun e => by constructor <;> rfl
    · intro _
      exact .pure output

theorem owned_batch (sequences : List Sequence) (tokens : List Nat) (outputCapacity : Nat) :
    Owned (batch sequences tokens outputCapacity) := by
  apply Owned.bind (.require _ _)
  intro _
  apply Owned.bind (.require _ _)
  intro _
  apply Owned.bind .get
  intro e
  apply Owned.bind (.check _)
  intro layout
  apply Owned.bind (.require _ _)
  intro _
  apply Owned.bind (.require _ _)
  intro _
  apply Owned.bind
  · exact .modify fun e => by constructor <;> rfl
  · intro _
    apply Owned.bind (.submit _)
    intro _
    apply Owned.bind (.require _ _)
    intro _
    apply Owned.bind
    · exact .modify fun e => by constructor <;> rfl
    · intro _
      exact .bind .get fun e => .pure _

/-- No call of the interface touches a guarded field outside `submit`. -/
theorem owned_serve (request : Request) : Owned (serve request) := by
  cases request with
  | reset => exact .bind owned_reset fun _ => .pure _
  | selectResident slot => exact .bind (owned_selectResident slot) fun _ => .pure _
  | resetResident slot => exact .bind (owned_resetResident slot) fun _ => .pure _
  | copyResident source destination boundary =>
    exact .bind (owned_copyResident source destination boundary) fun _ => .pure _
  | bindPages rank component pages => exact .bind (owned_bindPages rank component pages) fun _ => .pure _
  | bindState rank logicalNode pages => exact .bind (owned_bindState rank logicalNode pages) fun _ => .pure _
  | token id position sample => exact .bind (owned_token id position sample) fun _ => .pure _
  | prefill tokens position sample => exact .bind (owned_prefill tokens position sample) fun _ => .pure _
  | batch sequences tokens outputCapacity => exact owned_batch sequences tokens outputCapacity

end Inferfabric.ProgramEngine
