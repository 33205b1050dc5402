-- SUMMARY: The native interface while the device work succeeds: what each call does to the positions and the selection, and when it is accepted.
import IronPangu.Execution.SequenceBatch
import IronPangu.ProgramEngine.Workers

/-!
# Calls on a working device

When every submission returns, a call of the interface is a function of the
engine. A call that throws has moved no resident, and its checks are the only
reason it throws for.
-/

namespace Inferfabric.ProgramEngine

open Execution

variable {α β : Type} {device : Device} {e : Engine}

/-- What rank 0 leaves of a finished command. -/
def Engine.finished0 (e : Engine) (s : Submission) (device : Device) : Engine :=
  { e with batchOutputs := if s.command = .batch then device.rows else e.batchOutputs }

/-- Run a call on to its end: every submission returns. -/
def Progress.complete (device : Device) : Progress α → Except String α × Engine
  | .done a e => (.ok a, e)
  | .threw message e => (.error message, e)
  | .submit s e resume => (resume device.sampled (e.finished0 s device)).complete device

/-- A call on the device. -/
def served (device : Device) (m : Script α) (e : Engine) : Except String α × Engine :=
  (m e).complete device

theorem Progress.complete_andThen (p : Progress α) (f : α → Engine → Progress β) :
    (p.andThen f).complete device =
      match p.complete device with
      | (.ok a, e) => (f a e).complete device
      | (.error message, e) => (.error message, e) := by
  induction p with
  | done a e => rfl
  | threw message e => rfl
  | submit s e resume ih => exact ih _ _

theorem served_bind (m : Script α) (f : α → Script β) :
    served device (m >>= f) e =
      match served device m e with
      | (.ok a, e) => served device (f a) e
      | (.error message, e) => (.error message, e) :=
  Progress.complete_andThen (m e) f

@[simp] theorem served_pure (a : α) : served device (pure a : Script α) e = (.ok a, e) := rfl
@[simp] theorem served_get : served device Script.get e = (.ok e, e) := rfl
@[simp] theorem served_modify (f : Engine → Engine) : served device (Script.modify f) e = (.ok (), f e) :=
  rfl
@[simp] theorem served_submit (s : Submission) :
    served device (Script.submit s) e = (.ok device.sampled, e.finished0 s device) := rfl

theorem served_require_pos {condition : Engine → Bool} {message : String} (h : condition e = true) :
    served device (Script.require condition message) e = (.ok (), e) := by
  rw [served, Script.require, if_pos h]
  rfl

theorem served_require_neg {condition : Engine → Bool} {message : String} (h : ¬condition e = true) :
    served device (Script.require condition message) e = (.error message, e) := by
  rw [served, Script.require, if_neg h]
  rfl

theorem served_check (o : Checked α) :
    served device (Script.check o) e =
      match o with
      | .ok a => (.ok a, e)
      | .error message => (.error message, e) := by
  cases o <;> rfl

theorem served_submit_ne {s : Submission} (h : s.command ≠ .batch) :
    served device (Script.submit s) e = (.ok device.sampled, e) := by
  rw [served_submit, Engine.finished0, if_neg h]

/-! ## Residents -/

theorem served_reset : served device reset e =
    (.ok (), { e with nextPositions := e.nextPositions.map fun _ => 0, activeResident := 0 }) := by
  rw [reset, served_bind, served_submit_ne (by simp)]
  rfl

theorem served_selectResident (slot : Nat) : served device (selectResident slot) e =
    if slot < e.nextPositions.length then (.ok (), { e with activeResident := slot })
    else (.error "resident selection bounds", e) := by
  rw [selectResident, served_bind, served_get]
  simp only [served_bind]
  by_cases hslot : slot < e.nextPositions.length
  · rw [if_pos hslot, served_require_pos (by simpa using hslot)]
    have hsubmitted : served device (submitSelection e slot) e = (.ok (), e) := by
      unfold submitSelection
      split
      · rw [served_bind, served_submit_ne (by simp)]
        rfl
      · rfl
    dsimp only
    rw [hsubmitted]
    rfl
  · rw [if_neg hslot, served_require_neg (by simpa using hslot)]

theorem served_resetResident (slot : Nat) : served device (resetResident slot) e =
    if slot < e.nextPositions.length then (.ok (), { e with nextPositions := e.nextPositions.set slot 0 })
    else (.error "resident reset bounds", e) := by
  rw [resetResident, served_bind]
  by_cases hslot : slot < e.nextPositions.length
  · rw [if_pos hslot, served_require_pos (by simpa using hslot)]
    simp only [served_bind]
    rw [served_submit_ne (by simp)]
    rfl
  · rw [if_neg hslot, served_require_neg (by simpa using hslot)]

/-- The checks of a copy. -/
def Copyable (e : Engine) (source destination boundary : Nat) : Prop :=
  ¬(source = destination ∨ source ≥ e.nextPositions.length ∨ destination ≥ e.nextPositions.length ∨
    boundary = 0 ∨ boundary > e.program.context ∨ e.nextPosition source ≠ boundary ∨
    e.nextPosition destination ≠ 0)

instance (source destination boundary : Nat) : Decidable (Copyable e source destination boundary) :=
  inferInstanceAs (Decidable (¬_))

theorem served_copyResident (source destination boundary : Nat) :
    served device (copyResident source destination boundary) e =
      if Copyable e source destination boundary then
        (.ok (), { e with nextPositions := e.nextPositions.set destination boundary })
      else (.error "state copy requires completed source and reset destination", e) := by
  rw [copyResident, served_bind]
  by_cases hcopy : Copyable e source destination boundary
  · rw [if_pos hcopy, served_require_pos (decide_eq_true hcopy)]
    simp only [served_bind]
    rw [served_submit_ne (by simp)]
    dsimp only
    rw [served_submit_ne (by simp)]
    rfl
  · rw [if_neg hcopy, served_require_neg (by simpa [Copyable] using hcopy)]

/-! ## Page bindings -/

/-- The buffers a binding leaves behind. -/
def Engine.bound (e : Engine) (component : String) (pages : List Int) : Engine :=
  { e with bindingComponent := component, bindingPages := pages }

theorem served_submitPages (rank : Nat) (component : String) (pages : List Int) :
    served device (submitPages rank component pages) e = (.ok (), e.bound component pages) := by
  rw [submitPages, served_bind, served_modify]
  simp only [served_bind]
  rw [served_submit_ne (by simp)]
  rfl

theorem served_bindPages (device : Device) (e : Engine) (rank : Nat) (component : String) (pages : List Int) :
    (∃ message, served device (bindPages rank component pages) e = (.error message, e)) ∨
      served device (bindPages rank component pages) e = (.ok (), e.bound component pages) := by
  rw [bindPages, served_bind]
  by_cases hrank : (e.nextPosition e.activeResident = 0 && rank < e.ranks : Bool) = true
  · rw [served_require_pos hrank]
    simp only [served_bind, served_get, served_check]
    cases uniqueNode (fun node => node.name == component && node.isPagedState)
        "ambiguous named cache state" none e.program.nodes with
    | error message => exact .inl ⟨_, rfl⟩
    | ok found =>
      cases found with
      | none => exact .inl ⟨_, rfl⟩
      | some node =>
        simp only [served_bind, served_check]
        cases pagedStateContract e.program node with
        | error message => exact .inl ⟨_, rfl⟩
        | ok contract =>
          cases hcount : contract.validateCount pages.length e.program.sharedPages with
          | error message => exact .inl ⟨message, by simp only [hcount]⟩
          | ok u =>
            simp only [hcount]
            exact .inr (served_submitPages _ _ _)
  · rw [served_require_neg hrank]
    exact .inl ⟨_, rfl⟩

theorem served_bindState (device : Device) (e : Engine) (rank logicalNode : Nat) (pages : List Int) :
    (∃ message, served device (bindState rank logicalNode pages) e = (.error message, e)) ∨
      ∃ component, served device (bindState rank logicalNode pages) e = (.ok (), e.bound component pages) := by
  rw [bindState, served_bind, served_get]
  simp only [served_bind, served_check]
  cases uniqueNode (fun node => node.logicalNode == logicalNode && node.isPagedState)
      "ambiguous cache state binding" none e.program.nodes with
  | error message => exact .inl ⟨_, rfl⟩
  | ok found =>
    dsimp only
    split
    · rename_i node _
      rw [served_bind]
      by_cases hrank : (e.nextPosition e.activeResident = 0 && rank < e.ranks : Bool) = true
      · rw [served_require_pos hrank]
        simp only [served_bind, served_check]
        cases pagedStateContract e.program node with
        | error message => exact .inl ⟨_, rfl⟩
        | ok contract =>
          cases hcount : contract.validateCount pages.length true with
          | error message => exact .inl ⟨message, by simp only [hcount]⟩
          | ok u =>
            simp only [hcount]
            exact .inr ⟨_, served_submitPages _ _ _⟩
      · rw [served_require_neg hrank]
        exact .inl ⟨_, rfl⟩
    · rw [served_check]
      exact .inl ⟨_, rfl⟩

/-- A shared page list that fits a registered node is bound. -/
theorem served_bindState_ok {rank logicalNode : Nat} {pages : List Int} {node : Node}
    {contract : PagedStateContract} (hposition : e.nextPosition e.activeResident = 0)
    (hrank : rank < e.ranks) (hshared : e.program.sharedPages = true)
    (hnode : uniqueNode (fun node => node.logicalNode == logicalNode && node.isPagedState)
      "ambiguous cache state binding" none e.program.nodes = .ok (some node))
    (hcontract : pagedStateContract e.program node = .ok contract) (hpos : pages ≠ [])
    (hcount : pages.length ≤ contract.tableEntries) :
    served device (bindState rank logicalNode pages) e = (.ok (), e.bound node.name pages) := by
  have hvalid : contract.validateCount pages.length true = .ok () := by
    apply ensure_pos
    simp [hpos, hcount]
  rw [bindState, served_bind, served_get]
  simp only [served_bind, served_check, hnode, hshared]
  rw [served_require_pos (by simp [hposition, hrank])]
  simp only [hcontract, hvalid]
  exact served_submitPages _ _ _

/-! ## Invocations -/

/-- The checks of a token. -/
def Tokenable (e : Engine) (id position sample : Nat) : Prop :=
  ¬(sample > 1 ∨ position ≠ e.nextPosition e.activeResident ∨ position ≥ e.program.context ∨
    id ≥ e.vocabulary)

instance (id position sample : Nat) : Decidable (Tokenable e id position sample) :=
  inferInstanceAs (Decidable (¬_))

theorem served_token (id position sample : Nat) : served device (token id position sample) e =
    if Tokenable e id position sample then
      (.ok device.sampled, { e with nextPositions := e.nextPositions.modify e.activeResident (· + 1) })
    else (.error "invalid program token/position/output", e) := by
  rw [token, served_bind]
  by_cases h : Tokenable e id position sample
  · rw [if_pos h, served_require_pos (decide_eq_true h)]
    simp only [served_bind]
    rw [served_submit_ne (by simp)]
    rfl
  · rw [if_neg h, served_require_neg (by simpa [Tokenable] using h)]

/-- The checks of a packed prefill before its tokens. -/
def Prefillable (e : Engine) (tokens : List Nat) (position sample : Nat) : Prop :=
  ¬(sample > 1 ∨ tokens.length ≤ 1 ∨ e.program.supportsPrefill tokens.length = false ∨
    position ≠ e.nextPosition e.activeResident ∨ position > e.program.context ∨
    tokens.length > e.program.context - position)

instance (tokens : List Nat) (position sample : Nat) : Decidable (Prefillable e tokens position sample) :=
  inferInstanceAs (Decidable (¬_))

theorem served_prefill (device : Device) (e : Engine) (tokens : List Nat) (position sample : Nat) :
    (∃ message, served device (prefill tokens position sample) e = (.error message, e)) ∨
      served device (prefill tokens position sample) e = (.ok device.sampled, { e with
        chunkTokens := tokens
        nextPositions := e.nextPositions.modify e.activeResident (· + tokens.length) }) := by
  rw [prefill, served_bind]
  by_cases h : Prefillable e tokens position sample
  · rw [served_require_pos (decide_eq_true h)]
    simp only [served_bind]
    by_cases hall : tokens.all (· < e.vocabulary) = true
    · rw [served_require_pos hall]
      right
      simp only [served_modify]
      rw [served_submit_ne (by simp)]
      rfl
    · rw [served_require_neg hall]
      exact .inl ⟨_, rfl⟩
  · rw [served_require_neg (by simpa [Prefillable] using h)]
    exact .inl ⟨_, rfl⟩

theorem served_prefill_ok {tokens : List Nat} {position sample : Nat}
    (h : Prefillable e tokens position sample) (hvocabulary : ∀ t ∈ tokens, t < e.vocabulary) :
    (served device (prefill tokens position sample) e).1 = .ok device.sampled := by
  rw [prefill, served_bind, served_require_pos (decide_eq_true h)]
  simp only [served_bind]
  rw [served_require_pos (by simpa using hvocabulary)]
  rfl

/-! ## Batches -/

/-- What a call that throws leaves as it is. -/
structure Still (e e' : Engine) : Prop where
  program : e'.program = e.program
  ranks : e'.ranks = e.ranks
  vocabulary : e'.vocabulary = e.vocabulary
  positions : e'.nextPositions = e.nextPositions
  active : e'.activeResident = e.activeResident

theorem Still.refl (e : Engine) : Still e e := ⟨rfl, rfl, rfl, rfl, rfl⟩

/-- The number of sampled rows of a batch. -/
def sampledRows (sequences : List Sequence) : Nat := (sequences.filter fun s => s.sample ≠ 0).length

theorem make_sampleRows {sequences : List Sequence} {residentCapacity tokenBudget context : Nat}
    {layout : SequenceBatch}
    (h : SequenceBatch.make (sequences.map Sequence.slice) residentCapacity tokenBudget context = .ok layout) :
    layout.positions.length = (sequences.map (·.tokenCount)).sum ∧
      layout.sampleRows.length = sampledRows sequences := by
  have hpacks := SequenceBatch.packs_of_make h
  constructor
  · rw [hpacks.sizes.1]
    simp [Sequence.slice, Function.comp_def]
  · rw [hpacks.sampleRows, SequenceBatch.lastRows_length]
    simp [sampledRows, List.filter_map, Sequence.slice, Function.comp_def]

theorem require_bind {condition : Engine → Bool} {message : String} (f : Unit → Script α) :
    (Script.require condition message >>= f) e = if condition e then f () e else .threw message e := by
  simp only [bind, Script.require]
  split <;> rfl

theorem served_require_bind {condition : Engine → Bool} {message : String} (f : Unit → Script α) :
    served device (Script.require condition message >>= f) e =
      if condition e then served device (f ()) e else (.error message, e) := by
  rw [served_bind]
  by_cases h : condition e = true
  · rw [served_require_pos h, if_pos h]
  · rw [served_require_neg h, if_neg h]

theorem served_check_bind {o : Checked β} (f : β → Script α) :
    served device (Script.check o >>= f) e =
      match o with
      | .ok b => served device (f b) e
      | .error message => (.error message, e) := by
  rw [served_bind, served_check]
  cases o <;> rfl

/-- The part of a batch from its submission on. -/
theorem served_submitBatch (rows : List Nat) (members : List SequenceSlice) (hmembers : e.batchMembers = members) :
    served device (do
        let _ ← Script.submit ⟨.batch, 0, 0, 0⟩
        Script.require (fun e => e.batchOutputs.length == rows.length) "batch sampler output count"
        Script.modify fun e => { e with nextPositions := advance e.nextPositions e.batchMembers }
        let e ← Script.get
        pure e.batchOutputs : Script (List Nat)) e =
      if device.rows.length = rows.length then
        (.ok device.rows, { e with
          batchOutputs := device.rows
          nextPositions := advance e.nextPositions members })
      else (.error "batch sampler output count", { e with batchOutputs := device.rows }) := by
  rw [served_bind, served_submit]
  dsimp only
  rw [served_require_bind]
  subst hmembers
  by_cases h : device.rows.length = rows.length
  · rw [if_pos h, if_pos (by simpa [Engine.finished0] using h)]
    rfl
  · rw [if_neg h, if_neg (by simpa [Engine.finished0] using h)]
    rfl

theorem served_batch (device : Device) (e : Engine) (sequences : List Sequence) (tokens : List Nat)
    (outputCapacity : Nat) :
    (∃ message e', served device (batch sequences tokens outputCapacity) e = (.error message, e') ∧
      Still e e') ∨
    ∃ e', served device (batch sequences tokens outputCapacity) e = (.ok device.rows, e') ∧
      device.rows.length = sampledRows sequences ∧
      Still { e with nextPositions := advance e.nextPositions (sequences.map Sequence.slice) } e' := by
  rw [batch, served_require_bind]
  split
  case isFalse => exact .inl ⟨_, e, rfl, .refl e⟩
  rw [served_require_bind]
  split
  case isFalse => exact .inl ⟨_, e, rfl, .refl e⟩
  rw [served_bind, served_get]
  dsimp only
  rw [served_check_bind]
  split
  case h_2 => exact .inl ⟨_, e, rfl, .refl e⟩
  rename_i layout hlayout
  rw [served_require_bind]
  split
  case isFalse => exact .inl ⟨_, e, rfl, .refl e⟩
  rw [served_require_bind]
  split
  case isFalse => exact .inl ⟨_, e, rfl, .refl e⟩
  rw [served_bind, served_modify]
  dsimp only
  rw [served_submitBatch layout.sampleRows _ rfl]
  split
  case isTrue hrows =>
    exact .inr ⟨_, rfl, hrows.trans (make_sampleRows hlayout).2, rfl, rfl, rfl, rfl, rfl⟩
  case isFalse => exact .inl ⟨_, _, rfl, rfl, rfl, rfl, rfl, rfl⟩

/-- The checks of a batch. -/
structure Batchable (e : Engine) (sequences : List Sequence) (tokens : List Nat) (outputCapacity : Nat) :
    Prop where
  uncaptured : e.program.uncapturedPrefill = true
  limits : e.program.residentSequences ≤ SequenceBatch.int32Max ∧
    e.program.prefillTokens ≤ SequenceBatch.int32Max ∧ e.program.context ≤ SequenceBatch.int32Max
  count : sequences ≠ [] ∧ sequences.length ≤ e.program.residentSequences
  extent : tokens.length ≤ e.program.prefillTokens ∧ tokens.length = (sequences.map (·.tokenCount)).sum
  residents : e.nextPositions.length ≤ e.program.residentSequences
  continues : ∀ s ∈ sequences, e.continues s = true
  members : ∀ s ∈ sequences, s.tokenCount ≠ 0 ∧ s.position + s.tokenCount ≤ e.program.context
  distinct : (sequences.map (·.resident)).Nodup
  output : sampledRows sequences ≤ outputCapacity
  vocabulary : ∀ t ∈ tokens, t < e.vocabulary

theorem Batchable.make {sequences : List Sequence} {tokens : List Nat} {outputCapacity : Nat}
    (h : Batchable e sequences tokens outputCapacity) :
    ∃ layout, SequenceBatch.make (sequences.map Sequence.slice) e.program.residentSequences
      e.program.prefillTokens e.program.context = .ok layout := by
  obtain ⟨s, hs⟩ := List.exists_mem_of_ne_nil _ h.count.1
  have hcontinues := fun s hs => h.continues s hs
  simp only [Engine.continues, Bool.and_eq_true, decide_eq_true_eq] at hcontinues
  have hresident := fun s hs => (hcontinues s hs).1.2.trans_le h.residents
  have hcapacity := hresident s hs
  obtain ⟨htokens, hcontext⟩ := h.members s hs
  have hcount : s.tokenCount ≤ e.program.prefillTokens :=
    (List.single_le_sum (by simp) _ (List.mem_map_of_mem hs)).trans (h.extent.2 ▸ h.extent.1)
  obtain ⟨hlimit, hlimit', hlimit''⟩ := h.limits
  refine ⟨_, SequenceBatch.make_eq_ok.mpr ⟨⟨?_, by simpa using h.count.1, ?_, ?_, ?_⟩, rfl⟩⟩
  · unfold SequenceBatch.Limits
    omega
  · intro slice hslice
    obtain ⟨s, hs, rfl⟩ := List.mem_map.mp hslice
    exact ⟨hresident s hs, h.members s hs⟩
  · simpa [Sequence.slice, Function.comp_def] using h.distinct
  · simpa [Sequence.slice, Function.comp_def, ← h.extent.2] using h.extent.1

theorem served_batch_ok {sequences : List Sequence} {tokens : List Nat} {outputCapacity : Nat}
    (h : Batchable e sequences tokens outputCapacity) (hrows : device.rows.length = sampledRows sequences) :
    (served device (batch sequences tokens outputCapacity) e).1 = .ok device.rows := by
  obtain ⟨layout, hlayout⟩ := h.make
  obtain ⟨hpositions, hsampled⟩ := make_sampleRows hlayout
  have htokens : tokens ≠ [] := by
    obtain ⟨s, hs⟩ := List.exists_mem_of_ne_nil _ h.count.1
    have hcount := List.single_le_sum (by simp) _ (List.mem_map_of_mem (f := (·.tokenCount)) hs)
    have := (h.members s hs).1
    rintro rfl
    have := h.extent.2
    simp only [List.length_nil] at this
    omega
  rw [batch, served_require_bind, if_pos (by simp [h.count, htokens, h.extent.1, h.uncaptured]),
    served_require_bind, if_pos (by simpa using h.continues), served_bind, served_get]
  dsimp only
  rw [served_check_bind, hlayout]
  dsimp only
  rw [served_require_bind, if_pos (by simp [hpositions, hsampled, h.extent.2, h.output]), served_require_bind,
    if_pos (by simpa using h.vocabulary), served_bind, served_modify]
  dsimp only
  rw [served_submitBatch layout.sampleRows _ rfl, if_pos (hrows.trans hsampled.symm)]

/-- A batch that cannot be laid out throws before anything is changed or submitted. -/
theorem batch_refused {sequences : List Sequence} {tokens : List Nat} {outputCapacity : Nat} {refusal : String}
    (h : SequenceBatch.make (sequences.map Sequence.slice) e.program.residentSequences e.program.prefillTokens
      e.program.context = .error refusal) :
    ∃ message, batch sequences tokens outputCapacity e = .threw message e := by
  have hget : ∀ f : Engine → Script (List Nat), (Script.get >>= f) e = f e e := fun _ => rfl
  have hcheck : ∀ f : SequenceBatch → Script (List Nat),
      (Script.check (.error refusal : Checked SequenceBatch) >>= f) e = .threw refusal e := fun _ => rfl
  rw [batch, require_bind]
  split
  case isFalse => exact ⟨_, rfl⟩
  rw [require_bind]
  split
  case isFalse => exact ⟨_, rfl⟩
  rw [hget, h, hcheck]
  exact ⟨_, rfl⟩

end Inferfabric.ProgramEngine
