-- SUMMARY: When the ranks read the arguments that were submitted, and a run in which one does not.
import IronPangu.ProgramEngine.Broadcast

/-!
# The arguments of a command

The scalar arguments of a command are written under the lock, after `submit` has
found the group available. The buffers are written before: a call that `submit` is
going to refuse has already replaced them.
-/

namespace Inferfabric.ProgramEngine

open Execution Trace
open Inferfabric.ProgramEngine.Group

variable {log : List Observation} {g g' : Group} {program : Plan} {ranks vocabulary : Nat}

/-- A call leaves the arguments of every command that a rank has taken up and not
    yet executed as they are. -/
def Undisturbed (g : Group) : Step → Prop
  | .call request => ∀ rank seen order, g.workers[rank]? = some (.taken seen order) →
      (g.settle (serve request g.engine)).engine.buffers.arguments rank order =
        g.engine.buffers.arguments rank order
  | _ => True

/-- The commands that are taken up still have the arguments they were submitted with. -/
structure Reads (log : List Observation) (g : Group) : Prop where
  past : Faithful log
  held : ∀ {rank seen : Nat} {order : Submission}, g.workers[rank]? = some (.taken seen order) →
    ∃ buffers : Buffers, .submitted seen order buffers ∈ log ∧
      g.engine.buffers.arguments rank order = buffers.arguments rank order

theorem Faithful.append {more : List Observation} (h : Faithful log)
    (hmore : ∀ rank generation order arguments, .executed rank generation order arguments ∈ more →
      ∃ buffers : Buffers, .submitted generation order buffers ∈ log ∧
        arguments = buffers.arguments rank order) : Faithful (log ++ more) := by
  intro rank generation order arguments hmem
  rcases List.mem_append.mp hmem with hmem | hmem
  · obtain ⟨buffers, hsubmitted, heq⟩ := h _ _ _ _ hmem
    exact ⟨buffers, List.mem_append_left _ hsubmitted, heq⟩
  · obtain ⟨buffers, hsubmitted, heq⟩ := hmore _ _ _ _ hmem
    exact ⟨buffers, List.mem_append_left _ hsubmitted, heq⟩

/-- A step of a rank: what it takes up it finds with the current buffers, and what
    it executes it has taken up. -/
theorem Reads.acted {rank : Nat} {w w' : Worker} {e' : Engine} {seen : List Observation}
    (h : Reads log g) (hcoherent : Coherent log g) (hw : g.workers[rank]? = some w)
    (hact : Acted g rank w seen w' e') : Reads (log ++ seen) (g.move rank w' e') := by
  have hbuffers : (g.move rank w' e').engine.buffers = g.engine.buffers := hact.continues.buffers
  constructor
  · apply h.past.append
    intro r generation order arguments hmem
    cases hact with
    | execute device =>
      cases List.mem_singleton.mp hmem
      exact h.held hw
    | throwing t =>
      cases List.mem_singleton.mp hmem
      exact h.held hw
    | _ => simp at hmem
  · intro r taken order hr
    have hr' : (g.workers.set rank w')[r]? = some (.taken taken order) := hr
    rw [hbuffers]
    by_cases hne : rank = r
    · subst hne
      obtain ⟨hlt, -⟩ := List.getElem?_eq_some_iff.mp hw
      rw [List.getElem?_set_self hlt] at hr'
      cases hact with
      | take hgo hnew =>
        cases hr'
        have hwait : g.caller.inSubmit = true := by
          rcases hcoherent.worker hw with ⟨hseen, -⟩ | ⟨-, hwait | hstop, -⟩
          · exact absurd hseen.symm hnew
          · exact hwait
          · rw [hstop] at hgo
            cases hgo
        exact ⟨_, List.mem_append_left _ (hcoherent.current hwait).2, rfl⟩
      | _ => cases hr'
    · rw [List.getElem?_set_ne hne] at hr'
      obtain ⟨buffers, hsubmitted, heq⟩ := h.held hr'
      exact ⟨buffers, List.mem_append_left _ hsubmitted, heq⟩

/-- A step of the caller that leaves the arguments of the taken commands alone. -/
theorem Reads.caller {more : List Observation} (h : Reads log g) (hworkers : g'.workers = g.workers)
    (hmore : ∀ rank generation order arguments, .executed rank generation order arguments ∉ more)
    (hsame : ∀ rank seen order, g.workers[rank]? = some (.taken seen order) →
      g'.engine.buffers.arguments rank order = g.engine.buffers.arguments rank order) :
    Reads (log ++ more) g' := by
  constructor
  · exact h.past.append fun rank generation order arguments hmem =>
      absurd hmem (hmore rank generation order arguments)
  · intro rank seen order hw
    rw [hworkers] at hw
    obtain ⟨buffers, hsubmitted, heq⟩ := h.held hw
    exact ⟨buffers, List.mem_append_left _ hsubmitted, (hsame rank seen order hw).trans heq⟩

/-- Only the caller's code between two submissions writes the buffers. -/
theorem Reads.step {label : Step} (h : Reads log g) (hcoherent : Coherent log g)
    (hallowed : Undisturbed g label) (hstep : g.step label = some g') :
    Reads (log ++ g.observe label) g' := by
  cases label with
  | rank rank action =>
    simp only [Group.step] at hstep
    obtain ⟨w, hw, hact⟩ := Option.bind_eq_some_iff.mp hstep
    obtain ⟨w', e', rfl, hacted⟩ := acted_of_act hact
    simp only [observe, hw]
    exact h.acted hcoherent hw hacted
  | started =>
    refine h.caller (caller_workers (fun _ _ heq => by cases heq) hstep)
      (fun _ _ _ _ hmem => by cases hmem) fun _ _ _ _ => ?_
    simp only [Group.step, Group.started] at hstep
    repeat' split at hstep
    all_goals first
      | obtain rfl := Option.some.inj hstep
        rfl
      | cases hstep
  | call request =>
    refine h.caller (caller_workers (fun _ _ heq => by cases heq) hstep)
      (fun _ _ _ _ hmem => by cases hmem) fun rank seen order hw => ?_
    simp only [Group.step] at hstep
    split at hstep
    · obtain rfl := Option.some.inj hstep
      exact hallowed rank seen order hw
    · cases hstep
  | submit =>
    refine h.caller (caller_workers (fun _ _ heq => by cases heq) hstep) ?_ fun _ _ _ _ => ?_
    · intro _ _ _ _ hmem
      simp only [observe] at hmem
      repeat' split at hmem
      all_goals simp at hmem
    · simp only [Group.step, Group.submit] at hstep
      repeat' split at hstep
      all_goals first
        | obtain rfl := Option.some.inj hstep
          rfl
        | cases hstep
  | wake =>
    refine h.caller (caller_workers (fun _ _ heq => by cases heq) hstep) ?_ fun rank seen order hw => ?_
    · intro _ _ _ _ hmem
      simp only [observe] at hmem
      split at hmem <;> simp at hmem
    · simp only [Group.step, Group.wake] at hstep
      split at hstep
      · rename_i hcaller
        split at hstep
        · obtain rfl := Option.some.inj hstep
          rfl
        · rename_i hfailure
          split at hstep
          · rename_i hfinished
            -- Every rank has finished: none holds a command.
            have hwaiting := hcoherent.all_finished (by rw [hcaller]; rfl) (not_not.mp hfailure) hfinished
              _ (List.mem_of_getElem? hw)
            cases hwaiting
          · cases hstep
      · cases hstep
  | close =>
    refine h.caller (caller_workers (fun _ _ heq => by cases heq) hstep)
      (fun _ _ _ _ hmem => by cases hmem) fun _ _ _ _ => ?_
    simp only [Group.step] at hstep
    repeat' split at hstep
    all_goals first
      | obtain rfl := Option.some.inj hstep
        rfl
      | cases hstep

theorem reads_reached
    (h : Reached Group.step Group.observe Undisturbed (Group.new program ranks vocabulary) log g) :
    Coherent log g ∧ Reads log g := by
  induction h with
  | start =>
    refine ⟨coherent_new, fun _ _ _ _ hmem => (by cases hmem), fun hw => ?_⟩
    cases List.eq_of_mem_replicate (List.mem_of_getElem? hw)
  | step _ hallowed hstep ih => exact ⟨ih.1.step hstep, ih.2.step ih.1 hallowed hstep⟩

/-- The ranks stay in step in every run, and read the submitted arguments in every
    run whose calls disturb no taken command. -/
theorem broadcast
    (h : Reached Group.step Group.observe (fun _ _ => True) (Group.new program ranks vocabulary) log g) :
    InStep ranks log ∧
      (Reached Group.step Group.observe Undisturbed (Group.new program ranks vocabulary) log g →
        Faithful log) :=
  ⟨in_step h, fun hundisturbed => (reads_reached hundisturbed).2.past⟩

/-! ## A rank fails while another has its command -/

/-- A plan with a prefill of two tokens. -/
def chunkedPlan : Plan where
  context := 64
  eos := 2
  residentSequences := 1
  prefillTokens := 2
  uncapturedPrefill := false
  prefillVariants := [2]
  sharedPages := false
  nodes := [⟨"bf16", "builtin", 0, 0, 2560, "embedding", "embedding", [], [("vocab", "151552")]⟩,
    ⟨"bf16", "builtin", 1, 0, 151552, "logits", "linear", [0], []⟩]

/-- Every rank becomes ready. -/
def startGroup (ranks : Nat) : List Step := (List.range ranks).map (.rank · .prepare) ++ [.started]

/-- Every rank takes up a command. -/
def takeCommand (ranks : Nat) : List Step := .submit :: (List.range ranks).map (.rank · .take)

/-- Every rank executes its command and finishes. -/
def finishCommand (ranks : Nat) : List Step :=
  (List.range ranks).map (.rank · (.execute (.ok ⟨0, []⟩))) ++ (List.range ranks).map (.rank · .finish) ++
    [.wake]

def prefillOrder : Submission := ⟨.prefill, 0, 0, 0⟩

def Step.isCall : Step → Bool
  | .call _ => true
  | _ => false

theorem undisturbed_of_not_call {label : Step} (h : label.isCall = false) : Undisturbed g label := by
  cases label with
  | call request => cases h
  | _ => trivial

/-- What is seen of one prefill on two ranks. -/
def prefillLog : List Observation :=
  [.submitted 1 prefillOrder ⟨[5, 6], [], [], "", []⟩, .taken 0 1 prefillOrder, .taken 1 1 prefillOrder,
    .executed 0 1 prefillOrder (.chunk [5, 6]), .executed 1 1 prefillOrder (.chunk [5, 6]),
    .finished 0 1, .finished 1 1, .returned 1]

theorem broadcast_sample : InStep 2 prefillLog ∧ Faithful prefillLog := by
  have hfree : ∀ labels : List Step, (labels.all fun label => !label.isCall) = true →
      ∀ label ∈ labels, ∀ v, Undisturbed v label := by
    intro labels hall label hmem v
    exact undisturbed_of_not_call (by simpa using List.all_eq_true.mp hall label hmem)
  obtain ⟨g, hopen, hworkers, g', hcall, hwalk⟩ : ∃ g : Group,
      walk Group.step Group.observe (startGroup 2) (Group.new chunkedPlan 2 151552) = some ([], g) ∧
      g.workers = [.waiting 0, .waiting 0] ∧
      ∃ g', g.step (.call (.prefill [5, 6] 0 0)) = some g' ∧
        ∃ g'', walk Group.step Group.observe (takeCommand 2 ++ finishCommand 2) g' =
          some (prefillLog, g'') :=
    ⟨_, rfl, rfl, _, rfl, _, rfl⟩
  obtain ⟨g'', hwalk⟩ := hwalk
  have hundisturbed : Undisturbed g (.call (.prefill [5, 6] 0 0)) := by
    intro rank seen order hw
    rw [hworkers] at hw
    have hmem := List.mem_of_getElem? hw
    simp at hmem
  have hcalled := (Reached.start.walk (hfree (startGroup 2) rfl) hopen).step hundisturbed hcall
  have hrun := hcalled.walk (hfree (takeCommand 2 ++ finishCommand 2) rfl) hwalk
  exact ⟨(broadcast hrun.any).1, (broadcast hrun.any).2 hrun⟩

/-- Rank 0 throws in a prefill; the caller's next prefill replaces the tokens before
    it is refused, and rank 1 executes the first one on them. -/
def failedPrefill : List Step :=
  startGroup 8 ++ [.call (.prefill [5, 6] 0 0)] ++ takeCommand 8 ++ [.rank 0 (.execute (.error .other)),
    .rank 0 .handle, .wake, .call (.prefill [7, 8] 0 0), .rank 1 (.execute (.ok ⟨0, []⟩))]

theorem disturbed_prefill : ∃ log g,
    Reached Group.step Group.observe (fun _ _ => True) (Group.new chunkedPlan 8 151552) log g ∧
      .submitted 1 prefillOrder ⟨[5, 6], [], [], "", []⟩ ∈ log ∧
      .executed 1 1 prefillOrder (.chunk [7, 8]) ∈ log ∧ ¬Faithful log := by
  obtain ⟨g, hwalk⟩ : ∃ g, walk Group.step Group.observe failedPrefill
      (Group.new chunkedPlan 8 151552) =
      some ([.submitted 1 prefillOrder ⟨[5, 6], [], [], "", []⟩] ++
        (List.range 8).map (.taken · 1 prefillOrder) ++
        [.executed 0 1 prefillOrder (.chunk [5, 6]), .failed 0,
          .executed 1 1 prefillOrder (.chunk [7, 8])], g) := ⟨_, rfl⟩
  refine ⟨_, g, reached_of_walk hwalk, by decide, by decide, fun hfaithful => ?_⟩
  obtain ⟨buffers, hsubmitted, hread⟩ := hfaithful 1 1 prefillOrder (.chunk [7, 8]) (by decide)
  have hbuffers : buffers = ⟨[5, 6], [], [], "", []⟩ := by simpa using hsubmitted
  subst hbuffers
  cases hread

end Inferfabric.ProgramEngine
