-- SUMMARY: The engine as a machine: its public calls, the residents each of them may write, and the runs from an opened engine.
import IronPangu.Native.Engine.Frames

open Rust Std

namespace Inferfabric.Native

open Inferfabric.Ir Inferfabric.Runtime

namespace Engine

inductive Op where
  | token (token position : Nat) (sample : Bool)
  | prefill (tokens : List Nat) (position : Nat) (sample : Bool)
  | batch (inputs : List BatchInput)
  | selectResident (slot : Nat)
  | reset
  | resetResident (slot : Nat)
  | releaseResident (slot : Nat)
  | prepareResident (slot tokens : Nat)
  | copyResident (source destination boundary : Nat)
  | sealResident (slot : Nat)
  | restoreSnapshot (snapshot : Snapshot) (destination : Nat)
  | retireSnapshot (snapshot : Snapshot)
  | bindPages (rank : Nat) (component : String) (pages : List Nat)
  deriving DecidableEq, Repr

inductive Reply where
  | sampled (output : Option Nat)
  | batch (outputs : List (Option Nat))
  | snapshot (snapshot : Snapshot)
  | done
  deriving DecidableEq, Repr

def step : Op → Call Reply
  | .token value position sample => do return .sampled (← token value position sample)
  | .prefill tokens position sample => do return .sampled (← prefill tokens position sample)
  | .batch inputs => do return .batch (← batch inputs)
  | .selectResident slot => do
    selectResident slot
    return .done
  | .reset => do
    reset
    return .done
  | .resetResident slot => do
    resetResident slot
    return .done
  | .releaseResident slot => do
    releaseResident slot
    return .done
  | .prepareResident slot tokens => do
    prepareResident slot tokens
    return .done
  | .copyResident source destination boundary => do
    copyResident source destination boundary
    return .done
  | .sealResident slot => do return .snapshot (← sealResident slot)
  | .restoreSnapshot snapshot destination => do
    restoreSnapshot snapshot destination
    return .done
  | .retireSnapshot snapshot => do
    retireSnapshot snapshot
    return .done
  | .bindPages rank component pages => do
    bindPages rank component pages
    return .done

/-- The residents a call may write. -/
def Op.targets (e : Engine) : Op → Nat → Prop
  | .token _ _ _ => (e.selected = ·)
  | .prefill _ _ _ => (e.selected = ·)
  | .batch inputs => fun slot => ∃ input ∈ inputs, input.resident = slot
  | .selectResident _ => fun _ => False
  | .reset => fun _ => True
  | .resetResident slot => (slot = ·)
  | .releaseResident slot => (slot = ·)
  | .prepareResident slot _ => (slot = ·)
  | .copyResident _ destination _ => (destination = ·)
  | .sealResident _ => fun _ => False
  | .restoreSnapshot _ destination => (destination = ·)
  | .retireSnapshot snapshot => (snapshot.slot = ·)
  | .bindPages _ _ _ => fun _ => False

/-- The residents a call may seal or unseal. -/
def Op.reseals : Op → Nat → Prop
  | .sealResident slot => (slot = ·)
  | .retireSnapshot snapshot => (snapshot.slot = ·)
  | _ => fun _ => False

/-- Returning a reply changes nothing. -/
theorem after_return {α : Type} (m : Call α) (wrap : α → Reply) (e : Engine) :
    ((do return wrap (← m) : Call Reply) e).2 = (m e).2 := by
  rw [Method.bind_run]
  rcases m e with ⟨_ | _ | _, e'⟩ <;> rfl

theorem return_eq_ok {α : Type} {m : Call α} {wrap : α → Reply} {e e' : Engine} {reply : Reply}
    (h : (do return wrap (← m) : Call Reply) e = (.ok reply, e')) :
    ∃ a, m e = (.ok a, e') ∧ reply = wrap a := by
  obtain ⟨a, t, hm, hreply⟩ := Method.bind_eq_ok.mp h
  obtain ⟨ha, rfl⟩ := Prod.mk.inj hreply
  exact ⟨a, hm, (Outcome.ok.inj ha).symm⟩

theorem return_eq_err {α : Type} {m : Call α} {wrap : α → Reply} {e : Engine} {error : Error}
    (h : ((do return wrap (← m) : Call Reply) e).1 = .err error) : (m e).1 = .err error := by
  rw [Method.bind_run] at h
  rcases hrun : m e with ⟨_ | _ | _, e'⟩ <;> rw [hrun] at h
  · cases h
  · cases h
    rfl
  · cases h

/-- No call writes a sealed resident it has not for a target. -/
theorem kept_step (op : Op) (e : Engine) :
    Kept (op.targets e) op.reseals e (step op e).2 := by
  cases op with
  | token value position sample =>
    rw [step, after_return]
    exact kept_token rfl value position sample
  | prefill tokens position sample =>
    rw [step, after_return]
    exact kept_prefill rfl tokens position sample
  | batch inputs =>
    rw [step, after_return]
    exact kept_batch fun input hinput => ⟨input, hinput, rfl⟩
  | selectResident slot =>
    rw [step, after_return]
    exact keeps_selectResident slot e
  | reset =>
    rw [step, after_return]
    exact keeps_reset e
  | resetResident slot =>
    rw [step, after_return]
    exact keeps_resetResident rfl e
  | releaseResident slot =>
    rw [step, after_return]
    exact keeps_releaseResident rfl e
  | prepareResident slot tokens =>
    rw [step, after_return]
    exact keeps_prepareResident rfl tokens e
  | copyResident source destination boundary =>
    rw [step, after_return]
    exact keeps_copyResident source rfl boundary e
  | sealResident slot =>
    rw [step, after_return]
    exact keeps_sealResident rfl e
  | restoreSnapshot snapshot destination =>
    rw [step, after_return]
    exact keeps_restoreSnapshot snapshot rfl e
  | retireSnapshot snapshot =>
    rw [step, after_return]
    exact keeps_retireSnapshot rfl rfl e
  | bindPages rank component pages =>
    rw [step, after_return]
    exact keeps_bindPages rank component pages e

/-! ## Opened engines -/

/-- The engine a library opened for a manifest starts as. -/
structure Opened (m : Manifest) (e : Engine) : Prop where
  valid : m.validate = .ok ()
  capacity : prefillCapacity m = .ok e.prefillTokens
  start : e = unopened m e.world e.prefillTokens e.shared
  unshared : m.sharedPages = false → e.shared = none
  shared : m.sharedPages = true → ∃ s nextPool counter, e.shared = some s ∧
    SharedState.new m nextPool = .ok (s, counter) ∧ e.world.bindStateFn = true ∧
    e.world.selectResidentFn = true ∧ e.world.resetResidentFn = true
  residents : 1 < m.residentSequences →
    e.world.selectResidentFn = true ∧ e.world.resetResidentFn = true

theorem checkReport_eq_ok {e : Engine} {m : Manifest} {report : Report}
    (h : e.checkReport m report = .ok ()) :
    (1 < m.residentSequences → e.world.selectResidentFn = true ∧ e.world.resetResidentFn = true) ∧
      (m.sharedPages = true → e.world.bindStateFn = true ∧ e.world.selectResidentFn = true ∧
        e.world.resetResidentFn = true) := by
  simp only [checkReport, Outcome.bind_eq_ok] at h
  obtain ⟨info, -, residents, -, h⟩ := h
  split at h
  · simp at h
  rename_i hresidents
  obtain ⟨chunk, -, h⟩ := Outcome.bind_eq_ok.mp h
  split at h
  · simp at h
  obtain ⟨mode, -, h⟩ := Outcome.bind_eq_ok.mp h
  split at h
  · simp at h
  obtain ⟨-, h⟩ := Outcome.check_bind_eq_ok.mp h
  obtain ⟨shared, -, h⟩ := Outcome.bind_eq_ok.mp h
  split at h
  · simp at h
  rename_i hshared
  push Not at hresidents hshared
  refine ⟨fun hmany => ?_, fun hpages => ?_⟩
  · simpa using hresidents.2 (hresidents.1 ▸ hmany)
  · have hone : shared ≠ 0 := by
      rw [hshared.1, hpages]
      decide
    simpa using hshared.2 hone

theorem opened_of_open {m : Manifest} {program : String} {world : World} {report : Report}
    {nextPool counter : Nat} {e : Engine}
    (h : open_ m program world report nextPool = .ok (e, counter)) : Opened m e := by
  simp only [open_, Outcome.bind_eq_ok] at h
  obtain ⟨contract, hmanifest, inventory, -, h⟩ := h
  split at h
  · simp at h
  split at h
  · simp at h
  obtain ⟨prefillTokens, hcapacity, h⟩ := Outcome.bind_eq_ok.mp h
  obtain ⟨⟨shared, counter'⟩, hshared, h⟩ := Outcome.bind_eq_ok.mp h
  obtain ⟨-, h⟩ := Outcome.check_bind_eq_ok.mp h
  split at h
  · simp at h
  obtain ⟨hreport, h⟩ := Outcome.check_bind_eq_ok.mp h
  obtain ⟨rfl, rfl⟩ := Prod.mk.inj (Outcome.ok.inj h)
  have hcontract : m.validate = .ok () ∧ contract = m := by
    simp only [manifest, Outcome.check_bind_eq_ok] at hmanifest
    obtain ⟨hvalid, hmanifest⟩ := hmanifest
    split at hmanifest
    · simp at hmanifest
    · obtain ⟨_, -, hsame⟩ := Outcome.bind_eq_ok.mp hmanifest
      exact ⟨hvalid, (Outcome.ok.inj hsame).symm⟩
  obtain ⟨hvalid, rfl⟩ := hcontract
  obtain ⟨hresidents, hpages⟩ := checkReport_eq_ok hreport
  refine ⟨hvalid, hcapacity, rfl, fun hunshared => ?_, fun hpaged => ?_, hresidents⟩
  · simp only [newShared, hunshared, Bool.false_eq_true, if_false] at hshared
    exact ((Prod.mk.inj (Outcome.ok.inj hshared)).1).symm
  · simp only [newShared, hpaged, if_true, Outcome.bind_eq_ok] at hshared
    obtain ⟨⟨s, nextPool'⟩, hnew, hshared⟩ := hshared
    obtain ⟨rfl, rfl⟩ := Prod.mk.inj (Outcome.ok.inj hshared)
    exact ⟨s, nextPool, _, rfl, hnew, hpages hpaged⟩

end Engine

end Inferfabric.Native
