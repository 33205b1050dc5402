-- SUMMARY: When the host engine's record of the residents is the native engine's, and which calls the native engine then accepts.
import IronPangu.Native.Engine.Audits
import IronPangu.Native.Library

open Rust Method Std

/-!
# The host engine beside its library

The host engine never asks the native engine for its positions. It refuses what its
own record does not allow, and takes the native checks to be no stricter.
-/

namespace Inferfabric.Native

open Inferfabric.Ir Inferfabric.Runtime
open Inferfabric.Execution (Plan PagedStateContract SequenceBatch SequenceSlice)
open Inferfabric.ProgramEngine (Request Device served serve)

namespace Library

variable {l : Library} {calls calls' : List Foreign} {call : Foreign} {n : Nat}

/-- Every call of the interface after the first `n` calls is accepted. -/
def Passed (l : Library) (n : Nat) : List Foreign → Prop
  | [] => True
  | call :: calls => (n ≤ calls.length → call.isNative = true → l.Accepts calls call) ∧ l.Passed n calls

theorem passed_of_le (h : calls.length ≤ n) : l.Passed n calls := by
  induction calls with
  | nil => trivial
  | cons call calls ih =>
    simp only [List.length_cons] at h
    exact ⟨fun hn => absurd hn (by omega), ih (by omega)⟩

theorem Passed.accepts {older : List Foreign} (h : l.Passed n calls) (hsuffix : (call :: older) <:+ calls)
    (hn : n ≤ older.length) (hnative : call.isNative = true) : l.Accepts older call := by
  induction calls with
  | nil => cases List.suffix_nil.mp hsuffix
  | cons c calls ih =>
    rcases List.suffix_cons_iff.mp hsuffix with heq | hsuffix
    · cases heq
      exact h.1 hn hnative
    · exact ih h.2 hsuffix

theorem program_after (l : Library) (calls : List Foreign) : (l.after calls).program = l.program :=
  (l.after_program calls).program

theorem vocabulary_after (l : Library) (calls : List Foreign) : (l.after calls).vocabulary = l.vocabulary :=
  (l.after_program calls).vocabulary

theorem sampledRows_sequence (inputs : List BatchInput) :
    ProgramEngine.sampledRows (inputs.map BatchInput.sequence) = (inputs.filter BatchInput.sample).length := by
  have hsample : ∀ input : BatchInput, decide (input.sequence.sample ≠ 0) = input.sample := by
    intro input
    cases hs : input.sample <;> simp [BatchInput.sequence, hs]
  simp only [ProgramEngine.sampledRows, List.filter_map, List.length_map, Function.comp_def, hsample]

/-- An accepted batch has one output for each member that samples. -/
theorem output_length {inputs : List BatchInput} (h : l.Accepts calls (.batch inputs)) :
    (l.answer (.batch inputs :: calls)).output.length = (inputs.filter BatchInput.sample).length := by
  obtain ⟨output, houtput⟩ := (l.accepts_iff calls (.batch inputs)).mp h
  rw [answer, houtput]
  rw [perform, Foreign.request] at houtput
  obtain ⟨message, e', hrun, -⟩ | ⟨e', hrun, hrows, -⟩ := ProgramEngine.served_batch
      (l.device (.batch inputs :: calls)) (l.after calls) (inputs.map BatchInput.sequence)
      (inputs.flatMap BatchInput.tokens) (inputs.filter BatchInput.sample).length
  · simp only [serve, hrun] at houtput
    cases houtput
  · simp only [serve, hrun] at houtput
    rw [← Except.ok.inj houtput, hrows, sampledRows_sequence]

/-- The native engine does not see an audit. -/
theorem residents_audit (sequence slot : Nat) : l.residents (.audit sequence slot :: calls) = l.residents calls :=
  rfl

end Library

/-- The node of a shared cache state. -/
def pagedNode (program : Plan) (logicalNode : Nat) : Execution.Checked (Option Execution.Node) :=
  ProgramEngine.uniqueNode (fun node => node.logicalNode == logicalNode && node.isPagedState)
    "ambiguous cache state binding" none program.nodes

/-- The manifest is one of the library's program: its devices are there, and so is the
    node of every paged state, with room for the pages of a resident. -/
structure Describes (m : Manifest) (l : Library) : Prop where
  ranks : m.identity.devices.length ≤ l.ranks
  nodes : ∀ state ∈ m.states, ∀ pageTokens rowBytes encoding,
    state.storage = .pages pageTokens rowBytes encoding → ∃ node contract,
      pagedNode l.program state.logicalNode = .ok (some node) ∧
      Execution.pagedStateContract l.program node = .ok contract ∧
      state.capacityTokens / pageTokens ≤ contract.tableEntries

namespace Engine

variable {l : Library} {legal : Prop} {n : Nat} {e e' : Engine} {call : Foreign} {slot : Nat}

/-- What the host engine knows of its library's program. -/
structure Agrees (l : Library) (e : Engine) : Prop where
  behind : l.Behind e.world
  capacity : e.histories.length = l.program.residentSequences
  imported : e.importedTokens.length = e.histories.length
  seals : e.sealedLeases.length = e.histories.length
  prefillTokens : e.prefillTokens = l.program.prefillTokens
  uncaptured : e.uncapturedPrefill = l.program.uncapturedPrefill
  prefillVariants : e.prefillVariants = l.program.prefillVariants
  variants : ∀ v ∈ e.variants, v.maxContext = l.program.context
  modes : ∀ v ∈ e.variants, v.phase = .prefill → v.graphCapable = false →
    l.program.uncapturedPrefill = true

/-- The positions and the selected resident the host engine has on record. -/
def recordOf (e : Engine) : List Nat × Nat := (e.histories.map fun h => h.value.tokens, e.selected)

/-- The record is what the native engine has. -/
structure Mirrors (l : Library) (e : Engine) : Prop extends Agrees l e where
  residents : l.residents e.calls = e.recordOf
  selected : e.selected < e.histories.length
  context : ∀ h ∈ e.histories, h.value.tokens ≤ l.program.context

/-- The record is right, and where the call was legal nothing has been refused since
    the first `n` calls. -/
structure Steady (l : Library) (legal : Prop) (n : Nat) (e : Engine) : Prop extends Mirrors l e where
  passed : legal → l.Passed n e.calls

/-- Two engines that differ in their pools and seals alone. -/
structure Alike (e e' : Engine) : Prop where
  world : e'.world = e.world
  histories : e'.histories = e.histories
  selected : e'.selected = e.selected
  imported : e'.importedTokens.length = e.importedTokens.length
  seals : e'.sealedLeases.length = e.sealedLeases.length
  prefillTokens : e'.prefillTokens = e.prefillTokens
  uncaptured : e'.uncapturedPrefill = e.uncapturedPrefill
  prefillVariants : e'.prefillVariants = e.prefillVariants
  variants : e'.variants = e.variants

/-- Two engines with the same record after the same calls. -/
structure Beside (e e' : Engine) : Prop extends Alike e e' where
  calls : e'.calls = e.calls

theorem Alike.refl (e : Engine) : Alike e e := ⟨rfl, rfl, rfl, rfl, rfl, rfl, rfl, rfl, rfl⟩

theorem Alike.trans {e'' : Engine} (h : Alike e e') (h' : Alike e' e'') : Alike e e'' where
  world := h'.world.trans h.world
  histories := h'.histories.trans h.histories
  selected := h'.selected.trans h.selected
  imported := h'.imported.trans h.imported
  seals := h'.seals.trans h.seals
  prefillTokens := h'.prefillTokens.trans h.prefillTokens
  uncaptured := h'.uncaptured.trans h.uncaptured
  prefillVariants := h'.prefillVariants.trans h.prefillVariants
  variants := h'.variants.trans h.variants

theorem Beside.refl (e : Engine) : Beside e e := ⟨.refl e, rfl⟩

theorem Beside.trans {e'' : Engine} (h : Beside e e') (h' : Beside e' e'') : Beside e e'' :=
  ⟨h.toAlike.trans h'.toAlike, h'.calls.trans h.calls⟩

instance : Steps Beside := ⟨Beside.refl, Beside.trans⟩

theorem alike_called (e : Engine) (call : Foreign) : Alike e (e.called call) :=
  ⟨rfl, rfl, rfl, rfl, rfl, rfl, rfl, rfl, rfl⟩

theorem Quiet.beside (h : Quiet e e') : Beside e e' := by
  obtain ⟨f, rfl, -⟩ := h
  exact ⟨⟨rfl, rfl, rfl, rfl, rfl, rfl, rfl, rfl, rfl⟩, rfl⟩

theorem Agrees.alike (h : Agrees l e) (ha : Alike e e') : Agrees l e' where
  behind := ha.world ▸ h.behind
  capacity := ha.histories ▸ h.capacity
  imported := (ha.imported.trans h.imported).trans (congrArg List.length ha.histories).symm
  seals := (ha.seals.trans h.seals).trans (congrArg List.length ha.histories).symm
  prefillTokens := ha.prefillTokens.trans h.prefillTokens
  uncaptured := ha.uncaptured.trans h.uncaptured
  prefillVariants := ha.prefillVariants.trans h.prefillVariants
  variants := ha.variants ▸ h.variants
  modes := ha.variants ▸ h.modes

/-- The record is kept where the native engine has moved nothing. -/
theorem Mirrors.alike (h : Mirrors l e) (ha : Alike e e') (hcalls : l.residents e'.calls = l.residents e.calls) :
    Mirrors l e' where
  toAgrees := h.toAgrees.alike ha
  residents := by rw [hcalls, h.residents, recordOf, recordOf, ha.histories, ha.selected]
  selected := by rw [ha.histories, ha.selected]; exact h.selected
  context := by rw [ha.histories]; exact h.context

theorem Steady.beside (h : Steady l legal n e) (hb : Beside e e') : Steady l legal n e' where
  toMirrors := h.toMirrors.alike hb.toAlike (congrArg _ hb.calls)
  passed hlegal := hb.calls ▸ h.passed hlegal

theorem Steady.start (h : Mirrors l e) : Steady l legal e.calls.length e :=
  ⟨h, fun _ => Library.passed_of_le le_rfl⟩

theorem Steady.audited (h : Steady l legal n e) (sequence : Nat) :
    Steady l legal n (e.called (.audit sequence slot)) where
  toMirrors := h.toMirrors.alike (alike_called e _) rfl
  passed hlegal := ⟨fun _ hnative => (by cases hnative), h.passed hlegal⟩

/-- The native engine has refused a call: nothing has moved on either side. -/
theorem Steady.refused (h : Steady l legal n e) (hb : Beside (e.called call) e')
    (hrefused : ¬l.Accepts e.calls call) (haccepts : legal → l.Accepts e.calls call) :
    Steady l legal n e' where
  toMirrors := by
    refine h.toMirrors.alike ((alike_called e call).trans hb.toAlike) ?_
    rw [hb.calls, called, Library.residents_cons, if_neg hrefused]
  passed hlegal := absurd (haccepts hlegal) hrefused

/-- The native engine has accepted a call, and the record has been moved as it moves
    the residents. -/
theorem Steady.moved (h : Steady l legal n e) (histories : List CompletedHistory) (selected : Nat)
    (hb : Beside (e.called call) e') (haccepts : l.Accepts e.calls call)
    (hlength : histories.length = e.histories.length)
    (hcontext : ∀ h ∈ histories, h.value.tokens ≤ l.program.context) (hselected : selected < histories.length)
    (hrecord : (histories.map fun h => h.value.tokens, selected) = call.moves e.recordOf) :
    Steady l legal n { e' with histories := histories, selected := selected } where
  behind := hb.world ▸ h.behind
  capacity := hlength.trans h.capacity
  imported := (hb.imported.trans h.imported).trans hlength.symm
  seals := (hb.seals.trans h.seals).trans hlength.symm
  prefillTokens := hb.prefillTokens.trans h.prefillTokens
  uncaptured := hb.uncaptured.trans h.uncaptured
  prefillVariants := hb.prefillVariants.trans h.prefillVariants
  variants := hb.variants ▸ h.variants
  modes := hb.variants ▸ h.modes
  residents := by
    have hcalls : e'.calls = call :: e.calls := hb.calls
    rw [hcalls, Library.residents_cons, if_pos haccepts, h.residents, ← hrecord]
    rfl
  selected := hselected
  context := hcontext
  passed hlegal := by
    have hcalls : e'.calls = call :: e.calls := hb.calls
    exact hcalls ▸ ⟨fun _ _ => haccepts, h.passed hlegal⟩

/-! ## Which calls are accepted -/

theorem Mirrors.positions (h : Mirrors l e) :
    (l.after e.calls).nextPositions = e.histories.map fun h => h.value.tokens :=
  congrArg Prod.fst h.residents

theorem Mirrors.active (h : Mirrors l e) : (l.after e.calls).activeResident = e.selected :=
  congrArg Prod.snd h.residents

theorem Mirrors.length (h : Mirrors l e) : (l.after e.calls).nextPositions.length = e.histories.length := by
  rw [h.positions, List.length_map]

theorem Mirrors.position {history : CompletedHistory} (h : Mirrors l e)
    (hslot : e.histories[slot]? = some history) : (l.after e.calls).nextPosition slot = history.value.tokens := by
  rw [ProgramEngine.Engine.nextPosition, h.positions, List.getD_eq_getElem?_getD, List.getElem?_map, hslot]
  rfl

theorem toNat_not_gt {b : Bool} : ¬b.toNat > 1 := by cases b <;> decide

theorem accepts_reset (calls : List Foreign) : l.Accepts calls .reset := by
  rw [Library.accepts_iff, Library.perform, Foreign.request]
  simp only [serve, served_done, ProgramEngine.served_reset]
  exact ⟨_, rfl⟩

theorem Mirrors.accepts_select (h : Mirrors l e) (hslot : slot < e.histories.length) :
    l.Accepts e.calls (.selectResident slot) := by
  rw [Library.accepts_iff, Library.perform, Foreign.request]
  simp only [serve, served_done, ProgramEngine.served_selectResident]
  rw [if_pos (h.length ▸ hslot)]
  exact ⟨_, rfl⟩

theorem Mirrors.selected_of_accepts (h : Mirrors l e) (haccepts : l.Accepts e.calls (.selectResident slot)) :
    slot < e.histories.length := by
  rw [Library.accepts_iff, Library.perform, Foreign.request] at haccepts
  simp only [serve, served_done, ProgramEngine.served_selectResident] at haccepts
  by_contra hslot
  rw [if_neg (h.length ▸ hslot)] at haccepts
  obtain ⟨output, houtput⟩ := haccepts
  cases houtput

theorem Mirrors.accepts_resetResident (h : Mirrors l e) (hslot : slot < e.histories.length) :
    l.Accepts e.calls (.resetResident slot) := by
  rw [Library.accepts_iff, Library.perform, Foreign.request]
  simp only [serve, served_done, ProgramEngine.served_resetResident]
  rw [if_pos (h.length ▸ hslot)]
  exact ⟨_, rfl⟩

theorem Mirrors.accepts_copy {source destination boundary : Nat} {history history' : CompletedHistory}
    (h : Mirrors l e) (hsource : e.histories[source]? = some history)
    (hdestination : e.histories[destination]? = some history') (hne : source ≠ destination)
    (hboundary : boundary ≠ 0) (htokens : history.value.tokens = boundary)
    (hempty : history'.value.tokens = 0) : l.Accepts e.calls (.copyResident source destination boundary) := by
  rw [Library.accepts_iff, Library.perform, Foreign.request]
  simp only [serve, served_done, ProgramEngine.served_copyResident]
  have hcontext := h.context history (List.mem_of_getElem? hsource)
  have hcopy : ProgramEngine.Copyable (l.after e.calls) source destination boundary := by
    rw [ProgramEngine.Copyable, h.length, h.position hsource, h.position hdestination, l.program_after]
    have := (List.getElem?_eq_some_iff.mp hsource).1
    have := (List.getElem?_eq_some_iff.mp hdestination).1
    omega
  rw [if_pos hcopy]
  exact ⟨_, rfl⟩

theorem Mirrors.accepts_token {id position : Nat} {sample : Bool} {history : CompletedHistory}
    (h : Mirrors l e) (hhistory : e.histories[e.selected]? = some history)
    (hposition : position = history.value.tokens) (hcontext : position < l.program.context)
    (hid : id < l.vocabulary) : l.Accepts e.calls (.token id position sample) := by
  rw [Library.accepts_iff, Library.perform, Foreign.request]
  simp only [serve, served_output, ProgramEngine.served_token]
  have htoken : ProgramEngine.Tokenable (l.after e.calls) id position sample.toNat := by
    rw [ProgramEngine.Tokenable, h.active, h.position hhistory, l.program_after, l.vocabulary_after]
    have := @toNat_not_gt sample
    omega
  rw [if_pos htoken]
  exact ⟨_, rfl⟩

theorem Mirrors.accepts_prefill {tokens : List Nat} {position : Nat} {sample : Bool}
    {history : CompletedHistory} (h : Mirrors l e) (hhistory : e.histories[e.selected]? = some history)
    (hposition : position = history.value.tokens) (hcontext : position + tokens.length ≤ l.program.context)
    (hcount : 1 < tokens.length) (hsupports : l.program.supportsPrefill tokens.length = true)
    (htokens : ∀ t ∈ tokens, t < l.vocabulary) : l.Accepts e.calls (.prefill tokens position sample) := by
  have hprefill : ProgramEngine.Prefillable (l.after e.calls) tokens position sample.toNat := by
    rw [ProgramEngine.Prefillable, h.active, h.position hhistory, l.program_after, hsupports]
    have := @toNat_not_gt sample
    simp only [Bool.true_eq_false, false_or]
    omega
  rw [Library.accepts_iff, Library.perform, Foreign.request]
  exact ⟨_, served_output_ok (ProgramEngine.served_prefill_ok hprefill (by rwa [l.vocabulary_after]))⟩

/-- A batch whose members continue their residents and fit the plan is accepted. -/
theorem Mirrors.accepts_batch {inputs : List BatchInput} (h : Mirrors l e) (hworks : l.Works)
    (huncaptured : l.program.uncapturedPrefill = true) (hcount : inputs ≠ [])
    (hlength : inputs.length ≤ l.program.residentSequences)
    (htotal : (inputs.flatMap BatchInput.tokens).length ≤ l.program.prefillTokens)
    (hdistinct : (inputs.map BatchInput.resident).Nodup)
    (hmembers : ∀ input ∈ inputs, ∃ history, e.histories[input.resident]? = some history ∧
      input.position = history.value.tokens ∧ input.tokens ≠ [] ∧
      input.position + input.tokens.length ≤ l.program.context)
    (hvocabulary : ∀ input ∈ inputs, ∀ t ∈ input.tokens, t < l.vocabulary) :
    l.Accepts e.calls (.batch inputs) := by
  have hsampled := Library.sampledRows_sequence inputs
  have hbatch : ProgramEngine.Batchable (l.after e.calls) (inputs.map BatchInput.sequence)
      (inputs.flatMap BatchInput.tokens) (inputs.filter BatchInput.sample).length := by
    obtain ⟨hresidents, hbudget, hcontext⟩ := l.bounded
    constructor
    case limits =>
      rw [l.program_after, SequenceBatch.int32Max]
      omega
    case continues =>
      rintro _ hs
      obtain ⟨input, hinput, rfl⟩ := List.mem_map.mp hs
      obtain ⟨history, hhistory, hposition, -⟩ := hmembers input hinput
      have hbound := (List.getElem?_eq_some_iff.mp hhistory).1
      have := @toNat_not_gt input.sample
      simp only [ProgramEngine.Engine.continues, BatchInput.sequence, h.length, h.position hhistory, hposition,
        beq_self_eq_true, Bool.and_true, Bool.and_eq_true, decide_eq_true_eq]
      omega
    case members =>
      rintro _ hs
      obtain ⟨input, hinput, rfl⟩ := List.mem_map.mp hs
      obtain ⟨history, -, -, hne, hcontext⟩ := hmembers input hinput
      rw [l.program_after]
      exact ⟨by simpa [BatchInput.sequence] using hne, hcontext⟩
    case vocabulary =>
      rw [l.vocabulary_after]
      intro t ht
      obtain ⟨input, hinput, ht⟩ := List.mem_flatMap.mp ht
      exact hvocabulary input hinput t ht
    case extent =>
      rw [l.program_after]
      exact ⟨htotal, by simp [BatchInput.sequence, Function.comp_def, List.length_flatMap]⟩
    case uncaptured => rw [l.program_after, huncaptured]
    case count => simpa [l.program_after, hcount] using hlength
    case residents => rw [l.program_after, h.length, h.capacity]
    case distinct => simpa [BatchInput.sequence, Function.comp_def] using hdistinct
    case output => rw [hsampled]
  rw [Library.accepts_iff, Library.perform, Foreign.request]
  exact ⟨_, ProgramEngine.served_batch_ok hbatch (by rw [hworks, hsampled])⟩

/-- A page list that its state's node has room for is accepted for a resident that has been reset. -/
theorem Mirrors.accepts_bindState {rank logicalNode : Nat} {pages : List Nat} {node : Execution.Node}
    {contract : PagedStateContract} {history : CompletedHistory} (h : Mirrors l e)
    (hhistory : e.histories[e.selected]? = some history) (hempty : history.value.tokens = 0)
    (hshared : l.program.sharedPages = true) (hrank : rank < l.ranks)
    (hnode : pagedNode l.program logicalNode = .ok (some node))
    (hcontract : Execution.pagedStateContract l.program node = .ok contract) (hpages : pages ≠ [])
    (hcount : pages.length ≤ contract.tableEntries) : l.Accepts e.calls (.bindState rank logicalNode pages) := by
  rw [Library.accepts_iff, Library.perform, Foreign.request]
  simp only [serve, served_done]
  have hposition : (l.after e.calls).nextPosition (l.after e.calls).activeResident = 0 := by
    rw [h.active, h.position hhistory, hempty]
  have hranks : rank < (l.after e.calls).ranks := by
    rwa [(l.after_program e.calls).ranks]
  rw [← l.program_after e.calls] at hshared hnode hcontract
  rw [ProgramEngine.served_bindState_ok hposition hranks hshared hnode hcontract (by simpa using hpages)
    (by simpa using hcount)]
  exact ⟨_, rfl⟩

end Engine

end Inferfabric.Native
