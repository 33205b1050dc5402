-- SUMMARY: A batch that the host engine accepts is laid out by the native engine, and every sampled token goes back to the member whose last row it is.
import IronPangu.Native.Engine.Configuration
import IronPangu.Native.Mirror.Runs

open Rust Method Std

/-!
# The geometry of a batch

The host engine packs a batch, checks every member against its own history and hands
the descriptors to the library, which lays the rows out. Outputs come back by position.
-/

namespace Inferfabric.Native.Engine

open Inferfabric.Ir Inferfabric.Runtime
open Inferfabric.Execution (SequenceBatch SequenceSlice)
open Inferfabric.Execution.SequenceBatch

variable {l : Library} {m : Manifest} {e e' : Engine} {inputs : List BatchInput}

/-! ## The configuration of a run -/

theorem configured_reset : Keeps SameConfiguration reset := by
  unfold reset
  refine (keeps_require _ _).bind fun _ => ?_
  refine keeps_get.bind fun e => ?_
  split
  · exact configured_resetUnshared
  · exact (Keeps.forEach configured_resetResident _).bind fun _ => configured_selectResident 0

theorem configured_bindPages (rank : Nat) (component : String) (pages : List Nat) :
    Keeps SameConfiguration (bindPages rank component pages) := by
  unfold bindPages
  refine (keeps_require _ _).bind fun _ => ?_
  refine (keeps_require _ _).bind fun _ => ?_
  refine (keeps_lift _).bind fun pages => ?_
  refine (keeps_lift _).bind fun _ => ?_
  exact (configured_foreign _).bind fun answer => keeps_lift _

/-- No call changes what the engine was opened with. -/
theorem configured_step (op : Op) : Keeps SameConfiguration (step op) := by
  cases op with
  | token value position sample => exact (configured_token value position sample).bind fun _ => keeps_pure _
  | prefill tokens position sample => exact (configured_prefill tokens position sample).bind fun _ => keeps_pure _
  | batch inputs => exact (configured_batch inputs).bind fun _ => keeps_pure _
  | selectResident slot => exact (configured_selectResident slot).bind fun _ => keeps_pure _
  | reset => exact configured_reset.bind fun _ => keeps_pure _
  | resetResident slot => exact (configured_resetResident slot).bind fun _ => keeps_pure _
  | releaseResident slot => exact (configured_releaseResident slot).bind fun _ => keeps_pure _
  | prepareResident slot tokens => exact (configured_prepareResident slot tokens).bind fun _ => keeps_pure _
  | copyResident source destination boundary =>
    exact (configured_copyResident source destination boundary).bind fun _ => keeps_pure _
  | sealResident slot => exact (configured_sealResident slot).bind fun _ => keeps_pure _
  | restoreSnapshot snapshot destination =>
    exact (configured_restoreSnapshot snapshot destination).bind fun _ => keeps_pure _
  | retireSnapshot snapshot => exact (configured_retireSnapshot snapshot).bind fun _ => keeps_pure _
  | bindPages rank component pages => exact (configured_bindPages rank component pages).bind fun _ => keeps_pure _

theorem configured_final (ops : List Op) (e : Engine) : SameConfiguration e (final step ops e) :=
  final_induction (P := SameConfiguration e) (Steps.refl e)
    (fun t op ht => Steps.trans ht (configured_step op t)) ops

/-! ## What the host accepts -/

/-- The checks a batch passes before anything is reserved for it. -/
def checkBatch (e : Engine) (inputs : List BatchInput) : Result (List (BatchInput × Variant)) := do
  let (tokens, digest) ← packBatch e.world.sha256 inputs e.histories.length e.prefillTokens
  let base ← batchBaseVariant e.variants tokens
  Outcome.collect (batchMember e base digest) inputs.zipIdx

/-- The slices the library lays out for a batch. -/
def slices (inputs : List BatchInput) : List SequenceSlice := inputs.map fun input => input.sequence.slice

/-- What the host engine and its library agree on for good. -/
structure Compiled (l : Library) (e : Engine) : Prop where
  answer : e.world.answer = l.answer
  capacity : e.histories.length = l.program.residentSequences
  prefillTokens : e.prefillTokens = l.program.prefillTokens
  variants : ∀ v ∈ e.variants, v.maxContext = l.program.context

theorem Agrees.compiled (h : Agrees l e) : Compiled l e :=
  ⟨h.behind.answer, h.capacity, h.prefillTokens, h.variants⟩

theorem Compiled.final (h : Compiled l e) (ops : List Op) : Compiled l (final step ops e) := by
  have hconfigured := configured_final ops e
  have hkept := kept_final ops e
  exact ⟨hconfigured.world ▸ h.answer, hkept.histories.trans h.capacity,
    hconfigured.prefillTokens.trans h.prefillTokens, hconfigured.variants ▸ h.variants⟩

/-- What the host accepts has good members, within the limits of the program. -/
theorem Compiled.admissible {members : List (BatchInput × Variant)} (h : Compiled l e)
    (hok : checkBatch e inputs = .ok members) :
    Limits l.program.residentSequences l.program.prefillTokens l.program.context ∧ slices inputs ≠ [] ∧
      Admissible l.program.residentSequences l.program.prefillTokens l.program.context (slices inputs) := by
  simp only [checkBatch, Outcome.bind_eq_ok] at hok
  obtain ⟨⟨tokens, digest⟩, hpacked, base, hbase, hmembers⟩ := hok
  obtain ⟨hsome, hlength, htotal, hbudget, htokens, hdistinct⟩ := packBatch_eq_ok hpacked
  obtain ⟨hinputs, hchecked⟩ := batchMembers_eq_ok hmembers
  have hcontext := h.variants base (List.mem_of_find?_eq_some (Outcome.okOr_eq_ok.mp hbase))
  have hfits : ∀ s ∈ slices inputs, Fits l.program.residentSequences l.program.context s := by
    intro s hs
    obtain ⟨input, hinput, rfl⟩ := List.mem_map.mp hs
    obtain ⟨member, hmember, rfl⟩ := List.mem_map.mp (hinputs ▸ hinput)
    obtain ⟨hwidth, history, hhistory, hcheck⟩ := hchecked member hmember
    obtain ⟨-, hcount, -, -, -, hend⟩ := ArithmeticHistory.checkAppend_eq_ok.mp hcheck
    have hresident := (List.getElem?_eq_some_iff.mp hhistory).1
    exact ⟨h.capacity ▸ hresident, hcount.ne', (hwidth.trans hcontext) ▸ hend⟩
  have hsum : ((slices inputs).map (·.tokens)).sum = tokens := by
    rw [htotal, List.length_flatMap, slices, List.map_map]
    rfl
  obtain ⟨input, hinput⟩ := List.exists_mem_of_ne_nil _ hsome
  have hfit := hfits _ (List.mem_map_of_mem hinput)
  have hpositive : input.sequence.slice.tokens ≤ tokens :=
    hsum ▸ List.single_le_sum (by simp) _ (List.mem_map_of_mem (List.mem_map_of_mem hinput))
  obtain ⟨hresidents, hprefill, hwide⟩ := l.bounded
  rw [h.prefillTokens] at hbudget
  obtain ⟨hresident, hpos, hend⟩ := hfit
  refine ⟨?_, by simpa [slices] using hsome, hfits, ?_, hsum.trans_le hbudget⟩
  · unfold Limits int32Max
    omega
  · simpa [slices, Function.comp_def, ProgramEngine.Sequence.slice, BatchInput.sequence] using hdistinct

/-! ## Whose the outputs are -/

/-- What the members of a batch come back with, where `f` is the token of a row: a
    member that samples has that of its last row. -/
def attributed (f : Nat → Nat) (inputs : List BatchInput) : List (Option Nat) :=
  inputs.zipIdx.map fun (input, i) =>
    if input.sample then some (f (offset (slices inputs) (i + 1) - 1)) else none

/-- Outputs in the order of the sampling members go to these members. -/
theorem samples_filter (g : BatchInput × Nat → Nat) (inputs : List BatchInput) (start : Nat) :
    samples inputs (((inputs.zipIdx start).filter (·.1.sample)).map g) =
      (inputs.zipIdx start).map fun x => if x.1.sample then some (g x) else none := by
  induction inputs generalizing start with
  | nil => rfl
  | cons input inputs ih =>
    cases hs : input.sample <;> simp [samples, hs, ih]

theorem lastRows_slices (inputs : List BatchInput) : lastRows (slices inputs) =
    (inputs.zipIdx.filter (·.1.sample)).map fun (_, i) => offset (slices inputs) (i + 1) - 1 := by
  have hsample : ∀ input : BatchInput, input.sequence.slice.sample = input.sample := by
    intro input
    cases hs : input.sample <;> simp [BatchInput.sequence, ProgramEngine.Sequence.slice, hs]
  have hfilter : (slices inputs).zipIdx.filter (·.1.sample) =
      (inputs.zipIdx.filter (·.1.sample)).map (Prod.map (fun input => input.sequence.slice) id) := by
    rw [slices, List.zipIdx_map, List.filter_map]
    simp only [Function.comp_def, Prod.map_fst, hsample]
  rw [lastRows, hfilter, List.map_map]
  rfl

theorem samples_lastRows (f : Nat → Nat) (inputs : List BatchInput) :
    samples inputs ((lastRows (slices inputs)).map f) = attributed f inputs := by
  rw [lastRows_slices, List.map_map, attributed]
  exact samples_filter (fun x => f (offset (slices inputs) (x.2 + 1) - 1)) inputs 0

theorem finishInvocation_status {ticket : Option Ticket} {answer : Answer} {u : Unit}
    (h : finishInvocation ticket answer e = (.ok u, e')) : answer.status = 0 := by
  have hcheck : ∀ u, check answer = .ok u → answer.status = 0 := by
    intro u hu
    by_contra hstatus
    rw [check, if_neg hstatus] at hu
    exact invalid_ne_ok hu
  rw [finishInvocation, Method.get_bind_eq_ok] at h
  cases hshared : e.shared with
  | none =>
    rw [hshared] at h
    exact hcheck u (Prod.mk.inj h).1
  | some shared =>
    cases hresult : check answer with
    | ok v => exact hcheck v hresult
    | err error =>
      rw [hshared, hresult] at h
      obtain ⟨_, _, -, hfail⟩ := Method.bind_eq_ok.mp h
      cases (Prod.mk.inj hfail).1
    | panic =>
      rw [hshared, hresult] at h
      obtain ⟨_, _, -, hfail⟩ := Method.bind_eq_ok.mp h
      cases (Prod.mk.inj hfail).1

/-- A batch that returns has passed the checks, and returns what the library answered. -/
theorem batch_eq_ok {outputs : List (Option Nat)} (h : batch inputs e = (.ok outputs, e')) :
    (∃ members, checkBatch e inputs = .ok members) ∧
      (e.world.answer (.batch inputs :: e.calls)).status = 0 ∧
      outputs = samples inputs (e.world.answer (.batch inputs :: e.calls)).output := by
  rw [batch] at h
  obtain ⟨_, -, h⟩ := Method.read_bind_eq_ok.mp h
  rw [Method.get_bind_eq_ok] at h
  obtain ⟨packed, hpacked, h⟩ := Method.lift_bind_eq_ok.mp h
  obtain ⟨base, hbase, h⟩ := Method.lift_bind_eq_ok.mp h
  obtain ⟨members, hmembers, h⟩ := Method.lift_bind_eq_ok.mp h
  obtain ⟨ticket, t, hticket, h⟩ := Method.bind_eq_ok.mp h
  obtain ⟨answer, t', hanswer, h⟩ := Method.bind_eq_ok.mp h
  obtain ⟨_, u, hfinished, h⟩ := Method.bind_eq_ok.mp h
  have hbeside : Beside e t := by
    have hquiet := quiet_submitBatch inputs e
    rw [hticket] at hquiet
    exact hquiet.beside
  have hchecked : checkBatch e inputs = .ok members := by
    rw [checkBatch, hpacked]
    simp only [Outcome.ok_bind, hbase, hmembers]
  obtain ⟨ha, -⟩ := Prod.mk.inj hanswer
  have hfrom : answer = e.world.answer (.batch inputs :: e.calls) := by
    rw [← Outcome.ok.inj ha, hbeside.world, hbeside.calls]
  refine ⟨⟨members, hchecked⟩, hfrom ▸ finishInvocation_status hfinished, ?_⟩
  dsimp only at h
  split at h
  · obtain ⟨_, _, -, hfail⟩ := Method.bind_eq_ok.mp h
    cases (Prod.mk.inj hfail).1
  · obtain ⟨_, _, -, hdone⟩ := Method.bind_eq_ok.mp h
    rw [← hfrom, ← Outcome.ok.inj (Prod.mk.inj hdone).1]

/-- An accepted batch is answered with what the device has sampled. -/
theorem output_rows {calls : List Foreign} (h : l.Accepts calls (.batch inputs)) :
    (l.answer (.batch inputs :: calls)).output = (l.device (.batch inputs :: calls)).rows := by
  obtain ⟨output, houtput⟩ := (l.accepts_iff calls (.batch inputs)).mp h
  rw [Library.answer, houtput]
  rw [Library.perform, Foreign.request] at houtput
  obtain ⟨message, e', hrun, -⟩ | ⟨e', hrun, -, -⟩ := ProgramEngine.served_batch
      (l.device (.batch inputs :: calls)) (l.after calls) (inputs.map BatchInput.sequence)
      (inputs.flatMap BatchInput.tokens) (inputs.filter BatchInput.sample).length
  · simp only [ProgramEngine.serve, hrun] at houtput
    cases houtput
  · simp only [ProgramEngine.serve, hrun] at houtput
    exact (Except.ok.inj houtput).symm

/-! ## The geometry -/

/-- In every run of an engine opened on a library, a batch that passes the host's checks
    is laid out by the library, as its members say, and the sampled tokens that come back
    are those of the members that asked for one. What the library does not lay out it
    refuses with nothing submitted. -/
theorem batch_geometry {program : String} {inventory : Result String} {nextPool counter : Nat} {world : World}
    {e₀ : Engine} (hopen : open_ m program world (l.report inventory) nextPool = .ok (e₀, counter))
    (hbehind : l.Behind world) (ops : List Op) (inputs : List BatchInput) :
    let e := final step ops e₀
    let p := l.program
    (∀ members, checkBatch e inputs = .ok members →
      ∃ layout, make (slices inputs) p.residentSequences p.prefillTokens p.context = .ok layout) ∧
    (∀ outputs e' f, batch inputs e = (.ok outputs, e') →
      (l.device (.batch inputs :: e.calls)).rows = (lastRows (slices inputs)).map f →
      outputs = attributed f inputs) ∧
    (∀ sequences residentCapacity tokenBudget context layout,
      make sequences residentCapacity tokenBudget context = .ok layout →
      Packs sequences layout ∧ Narrow layout) ∧
    (∀ sequences residentCapacity tokenBudget context,
      (∃ message, make sequences residentCapacity tokenBudget context = .error message) ↔
        ¬Limits residentCapacity tokenBudget context ∨ sequences = [] ∨
        (∃ s ∈ sequences, ¬Fits residentCapacity context s) ∨ ¬(sequences.map (·.resident)).Nodup ∨
        tokenBudget < (sequences.map (·.tokens)).sum) ∧
    ∀ (native : ProgramEngine.Engine) sequences tokens outputCapacity refusal,
      make (sequences.map ProgramEngine.Sequence.slice) native.program.residentSequences
        native.program.prefillTokens native.program.context = .error refusal →
      ∃ message, ProgramEngine.batch sequences tokens outputCapacity native = .threw message native := by
  intro e p
  have hcompiled : Compiled l e := (opened_mirrors hopen hbehind).toAgrees.compiled.final ops
  refine ⟨fun members hok => ⟨_, make_eq_ok.mpr ⟨hcompiled.admissible hok, rfl⟩⟩, ?_,
    fun _ _ _ _ _ h => ⟨packs_of_make h, narrow_of_make h⟩, fun _ _ _ _ => make_error_iff,
    fun _ _ _ _ _ h => ProgramEngine.batch_refused h⟩
  intro outputs e' f hrun hrows
  obtain ⟨-, hstatus, rfl⟩ := batch_eq_ok hrun
  rw [hcompiled.answer] at hstatus ⊢
  rw [output_rows hstatus, hrows, samples_lastRows]

/-- Two members, the second of which samples. -/
theorem batch_geometry_paged :
    let e := final step [.prepareResident 0 2, .token 5 0 true, .prepareResident 1 3] pagedEngine
    let inputs : List BatchInput := [⟨0, 1, [5], false⟩, ⟨1, 0, [3, 4, 5], true⟩]
    (∃ layout, make (slices inputs) 2 4096 4096 = .ok layout) ∧
      (batch inputs e).1 = .ok (attributed (fun _ => 0) inputs) ∧
      attributed (fun row => row) inputs = [none, some 3] := by
  intro e inputs
  obtain ⟨hmake, houtputs, -⟩ := batch_geometry paged_open paged_behind
    [.prepareResident 0 2, .token 5 0 true, .prepareResident 1 3] inputs
  have hok : (batch inputs e).1 = .ok [none, some 0] := by decide +kernel
  have hrows : (pagedLibrary.device (.batch inputs :: e.calls)).rows = (lastRows (slices inputs)).map fun _ => 0 :=
    rfl
  generalize hrun : batch inputs e = result at hok ⊢
  obtain ⟨reply, e'⟩ := result
  obtain rfl : reply = .ok [none, some 0] := hok
  obtain ⟨⟨members, hmembers⟩, -⟩ := batch_eq_ok hrun
  exact ⟨hmake members hmembers, congrArg _ (houtputs _ e' _ hrun hrows), rfl⟩

/-- The empty batch is refused, and it has no bad member. -/
theorem make_empty : ¬((∃ message, make [] 2 4096 4096 = .error message) ↔
    (∃ s ∈ ([] : List SequenceSlice), ¬Fits 2 4096 s) ∨ ¬(([] : List SequenceSlice).map (·.resident)).Nodup ∨
      4096 < (([] : List SequenceSlice).map (·.tokens)).sum) := by
  rw [make_error_iff]
  simp

end Inferfabric.Native.Engine
