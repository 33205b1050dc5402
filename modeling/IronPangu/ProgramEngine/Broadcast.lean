-- SUMMARY: Every rank of the worker group executes the submitted commands in order, and what a rank reads of their arguments.
import IronPangu.ProgramEngine.Owned
import IronPangu.ProgramEngine.Workers

/-!
# Command broadcast

While no rank has failed, a caller that is not inside `submit` finds every rank
waiting with the current generation behind it. Counting the finished ranks keeps
that up; a failure ends it for good, because nothing is submitted after it. The
argument buffers are not part of this: a caller whose submission has failed may
call again while a rank still has the failed command to execute.
-/

namespace Inferfabric.ProgramEngine

open Execution Trace
open Inferfabric.ProgramEngine.Group

/-! ## Reading a log -/

/-- The commands submitted so far, with their generations. -/
def submitted (log : List Observation) : List (Nat × Submission) :=
  log.filterMap fun
    | .submitted generation order _ => some (generation, order)
    | _ => none

/-- The commands a rank has executed so far, with the generations it has for them. -/
def executions (rank : Nat) (log : List Observation) : List (Nat × Submission) :=
  log.filterMap fun
    | .executed r generation order _ => if r = rank then some (generation, order) else none
    | _ => none

/-- What has to come before an observation. -/
def Justified (ranks : Nat) (before : List Observation) : Observation → Prop
  | .submitted .. => ∀ rank, .failed rank ∉ before
  | .taken .. => ∀ rank, .failed rank ∉ before
  | .executed rank generation order _ => .taken rank generation order ∈ before
  | .finished rank generation => ∃ order arguments, .executed rank generation order arguments ∈ before
  | .returned generation => ∀ rank < ranks, .finished rank generation ∈ before
  | .failed _ => True

/-- The ranks execute one sequence of commands, `submit` returns when all of them
    have finished, and a failure is final. -/
structure InStep (ranks : Nat) (log : List Observation) : Prop where
  /-- The generations are 1, 2, 3 and so on. -/
  generations : (submitted log).map Prod.fst = List.range' 1 (submitted log).length
  sequence : ∀ rank, executions rank log <+: submitted log
  order : Preceded (Justified ranks) log

/-- Every rank reads the arguments that were there when the command was submitted. -/
def Faithful (log : List Observation) : Prop :=
  ∀ rank generation order arguments, .executed rank generation order arguments ∈ log →
    ∃ buffers : Buffers, .submitted generation order buffers ∈ log ∧
      arguments = buffers.arguments rank order

variable {log : List Observation} {g g' : Group} {rank : Nat}

theorem submitted_append (more : List Observation) :
    submitted (log ++ more) = submitted log ++ submitted more :=
  List.filterMap_append

theorem executions_append (more : List Observation) :
    executions rank (log ++ more) = executions rank log ++ executions rank more :=
  List.filterMap_append

/-! ## What one rank does -/

/-- Everything a step of a rank can do: where it stood, what is seen, where it
    stands and the engine it leaves. -/
inductive Acted (g : Group) (rank : Nat) : Worker → List Observation → Worker → Engine → Prop where
  | prepare : Acted g rank .preparing [] (.waiting 0) { g.engine with ready := g.engine.ready + 1 }
  | stop {seen : Nat} (hstop : g.engine.stopping = true) :
    Acted g rank (.waiting seen) [] .leaving g.engine
  | take {seen : Nat} (hgo : g.engine.stopping = false) (hnew : g.engine.generation ≠ seen) :
    Acted g rank (.waiting seen) [.taken rank g.engine.generation g.order]
      (.taken g.engine.generation g.order) g.engine
  | execute {seen : Nat} {order : Submission} (device : Device) :
    Acted g rank (.taken seen order) [.executed rank seen order (g.engine.buffers.arguments rank order)]
      (executedAs seen order device) g.engine
  | throwing {seen : Nat} {order : Submission} (e : Thrown) :
    Acted g rank (.taken seen order) [.executed rank seen order (g.engine.buffers.arguments rank order)]
      (.thrown e) g.engine
  | finish {seen : Nat} {order : Submission} {next : Nat} {nextBatch : List Nat} :
    Acted g rank (.executed seen order next nextBatch) [.finished rank seen] (.waiting seen)
      (finish g.engine rank order next nextBatch)
  | failing (e : Thrown) : Acted g rank .preparing [] (.thrown e) g.engine
  | leaving (e : Thrown) : Acted g rank .leaving [] (.thrown e) g.engine
  | leave : Acted g rank .leaving [] .ended g.engine
  | handle {e : Thrown} : Acted g rank (.thrown e) [.failed rank] .ended (recordFailure g.engine rank e)

theorem acted_of_act {w : Worker} {action : Action} (h : g.act rank w action = some g') :
    ∃ w' e', g' = g.move rank w' e' ∧ Acted g rank w (g.observeRank rank w action) w' e' := by
  cases w with
  | preparing =>
    cases action with
    | prepare => exact ⟨_, _, (Option.some.inj h).symm, .prepare⟩
    | raise e => exact ⟨_, _, (Option.some.inj h).symm, .failing e⟩
    | _ => cases h
  | waiting seen =>
    cases action with
    | take =>
      simp only [act, Group.take] at h
      simp only [observeRank]
      split at h
      · rename_i hstop
        rw [if_pos hstop]
        exact ⟨_, _, (Option.some.inj h).symm, .stop hstop⟩
      · rename_i hgo
        rw [if_neg hgo]
        split at h
        · rename_i hnew
          exact ⟨_, _, (Option.some.inj h).symm, .take (by simpa using hgo) hnew⟩
        · cases h
    | _ => cases h
  | taken seen order =>
    cases action with
    | execute outcome =>
      cases outcome with
      | ok device => exact ⟨_, _, (Option.some.inj h).symm, .execute device⟩
      | error e => exact ⟨_, _, (Option.some.inj h).symm, .throwing e⟩
    | _ => cases h
  | executed seen order next nextBatch =>
    cases action with
    | finish => exact ⟨_, _, (Option.some.inj h).symm, .finish⟩
    | _ => cases h
  | leaving =>
    cases action with
    | raise e => exact ⟨_, _, (Option.some.inj h).symm, .leaving e⟩
    | leave => exact ⟨_, _, (Option.some.inj h).symm, .leave⟩
    | _ => cases h
  | thrown e =>
    cases action with
    | handle => exact ⟨_, _, (Option.some.inj h).symm, .handle⟩
    | _ => cases h
  | ended => cases action <;> cases h

/-! ## The invariant -/

namespace Caller

/-- `start` has returned and the engine is not closed. -/
def serving : Caller → Bool
  | .idle | .submitting .. | .waiting _ => true
  | .opening | .unwinding | .closed => false

def inSubmit : Caller → Bool
  | .waiting _ => true
  | _ => false

/-- `start` has not returned, or has thrown. -/
def starting : Caller → Bool
  | .opening | .unwinding => true
  | _ => false

def gone : Caller → Bool
  | .closed => true
  | _ => false

/-- What is left of the current call does not touch the guarded fields. -/
def Owned : Caller → Prop
  | .submitting _ resume | .waiting resume => ∀ output e, (resume output e).Owned e
  | _ => True

end Caller

/-- A rank may have a command it has not finished. -/
def Pending (g : Group) : Prop := g.caller.inSubmit = true ∨ g.engine.stopping = true

/-- What a rank has executed, by where it stands. -/
def Worker.At (log : List Observation) (g : Group) (rank : Nat) : Worker → Prop
  | .preparing => g.engine.generation = 0 ∧ g.caller.serving = false
  | .waiting seen =>
    (seen = g.engine.generation ∧ executions rank log = submitted log ∧
      (0 < seen → .finished rank seen ∈ log)) ∨
    (seen + 1 = g.engine.generation ∧ Pending g ∧
      ∃ order, submitted log = executions rank log ++ [(g.engine.generation, order)])
  | .taken seen order =>
    seen = g.engine.generation ∧ Pending g ∧ submitted log = executions rank log ++ [(seen, order)] ∧
      .taken rank seen order ∈ log
  | .executed seen order _ _ =>
    seen = g.engine.generation ∧ Pending g ∧ executions rank log = submitted log ∧
      ∃ arguments, .executed rank seen order arguments ∈ log
  | .leaving => g.engine.stopping = true
  | .thrown _ | .ended => True

/-- Where the ranks stand while none has failed. -/
def Steady (g : Group) : Prop :=
  match g.caller with
  | .opening => g.engine.ready ≤ g.workers.count (.waiting 0)
  | .idle | .submitting .. => ∀ w ∈ g.workers, w = .waiting g.engine.generation
  | .waiting _ => g.engine.finished = g.workers.count (.waiting g.engine.generation)
  | .unwinding | .closed => True

structure Coherent (log : List Observation) (g : Group) : Prop where
  size : g.workers.length = g.engine.ranks
  failed : g.engine.failure ≠ "" → g.engine.stopping = true
  stopped : g.engine.stopping = true → g.engine.failure ≠ "" ∨ g.caller.gone = true
  starting : g.caller.starting = true → g.engine.generation = 0
  generations : (submitted log).map Prod.fst = List.range' 1 g.engine.generation
  sequence : ∀ rank, executions rank log <+: submitted log
  worker : ∀ {rank : Nat} {w : Worker}, g.workers[rank]? = some w → w.At log g rank
  steady : g.engine.stopping = false → Steady g
  current : g.caller.inSubmit = true →
    (∃ earlier, submitted log = earlier ++ [(g.engine.generation, g.order)]) ∧
      .submitted g.engine.generation g.order g.engine.buffers ∈ log
  final : ∀ {rank}, .failed rank ∈ log → g.engine.stopping = true
  owned : g.caller.Owned
  order : Preceded (Justified g.engine.ranks) log

/-- Where a rank stands does not depend on what the others do. -/
theorem Worker.At.weaken (g' : Group) (more : List Observation) {w : Worker} (h : w.At log g rank)
    (hgeneration : g'.engine.generation = g.engine.generation)
    (hserving : g'.caller.serving = true → g.caller.serving = true)
    (hpending : Pending g → Pending g') (hstopping : g.engine.stopping = true → g'.engine.stopping = true)
    (hsubmitted : submitted more = []) (hexecutions : executions rank more = []) :
    w.At (log ++ more) g' rank := by
  have hsub : submitted (log ++ more) = submitted log := by
    rw [submitted_append, hsubmitted, List.append_nil]
  have hexec : executions rank (log ++ more) = executions rank log := by
    rw [executions_append, hexecutions, List.append_nil]
  have hmem : ∀ {o}, o ∈ log → o ∈ log ++ more := fun ho => List.mem_append_left _ ho
  cases w with
  | preparing =>
    refine ⟨hgeneration.trans h.1, ?_⟩
    by_contra hne
    exact absurd (hserving (by simpa using hne)) (by simp [h.2])
  | waiting seen =>
    simp only [Worker.At, hsub, hexec, hgeneration]
    rcases h with ⟨hseen, hall, hfinished⟩ | ⟨hseen, hpend, hbehind⟩
    · exact .inl ⟨hseen, hall, fun hpos => hmem (hfinished hpos)⟩
    · exact .inr ⟨hseen, hpending hpend, hbehind⟩
  | taken seen order =>
    obtain ⟨hseen, hpend, hbehind, htaken⟩ := h
    simp only [Worker.At, hsub, hexec, hgeneration]
    exact ⟨hseen, hpending hpend, hbehind, hmem htaken⟩
  | executed seen order next nextBatch =>
    obtain ⟨hseen, hpend, hall, arguments, hexecuted⟩ := h
    simp only [Worker.At, hsub, hexec, hgeneration]
    exact ⟨hseen, hpending hpend, hall, arguments, hmem hexecuted⟩
  | leaving => exact hstopping h
  | thrown e => trivial
  | ended => trivial

/-! ## A rank's step -/

theorem recordFailure_stopping (e : Engine) (rank : Nat) (t : Thrown) :
    (recordFailure e rank t).stopping = true := by
  cases t <;> rfl

theorem recordFailure_failure (e : Engine) (rank : Nat) (t : Thrown) :
    (recordFailure e rank t).failure ≠ "" := by
  cases t with
  | exception what =>
    simp only [recordFailure]
    split
    · simp [String.append_eq_empty_iff]
    · assumption
  | other =>
    simp only [recordFailure]
    decide

/-- What every step of a rank leaves as it was. -/
structure Engine.Continues (e e' : Engine) : Prop where
  ranks : e'.ranks = e.ranks
  generation : e'.generation = e.generation
  command : e'.command = e.command
  input : e'.input = e.input
  position : e'.position = e.position
  sample : e'.sample = e.sample
  buffers : e'.buffers = e.buffers
  /-- The group stops by a failure, if it does. -/
  stopping : (e'.stopping = e.stopping ∧ e'.failure = e.failure) ∨ (e'.stopping = true ∧ e'.failure ≠ "")

section

variable {w w' : Worker} {e' : Engine} {seen : List Observation}

theorem Acted.continues (h : Acted g rank w seen w' e') : g.engine.Continues e' := by
  cases h with
  | handle =>
    rename_i t
    refine { ranks := ?_, generation := ?_, command := ?_, input := ?_, position := ?_, sample := ?_,
             buffers := ?_, stopping := .inr ⟨recordFailure_stopping _ _ t, recordFailure_failure _ _ t⟩ }
    all_goals cases t <;> rfl
  | _ => exact ⟨rfl, rfl, rfl, rfl, rfl, rfl, rfl, .inl ⟨rfl, rfl⟩⟩

theorem Acted.submitted (h : Acted g rank w seen w' e') : submitted seen = [] := by
  cases h <;> rfl

theorem Acted.executions_other (h : Acted g rank w seen w' e') {r : Nat} (hr : rank ≠ r) :
    executions r seen = [] := by
  cases h <;> first | rfl | simp [executions, hr]

theorem Acted.length_le_one (h : Acted g rank w seen w' e') : seen.length ≤ 1 := by
  cases h <;> simp

/-- A rank that has nothing to take does not move while the group goes on. -/
theorem Acted.not_waiting (h : Acted g rank w seen w' e') (hbefore : g.engine.stopping = false)
    (hgo : e'.stopping = false) : w ≠ .waiting g.engine.generation := by
  rintro rfl
  cases h with
  | stop hstop => rw [hbefore] at hstop; cases hstop
  | take _ hnew => exact hnew rfl

theorem executions_executed {generation : Nat} {order : Submission} {arguments : Arguments} :
    executions rank [.executed rank generation order arguments] = [(generation, order)] := by
  simp [executions]

namespace Coherent

/-- What a step of a rank observes has been prepared by the steps before it. -/
theorem justified (h : Coherent log g) (hw : g.workers[rank]? = some w)
    (hact : Acted g rank w seen w' e') : ∀ o ∈ seen, Justified g.engine.ranks log o := by
  have hat := h.worker hw
  cases hact with
  | take hgo hnew =>
    refine List.forall_mem_singleton.mpr fun r hfailed => ?_
    rw [h.final hfailed] at hgo
    cases hgo
  | execute device => exact List.forall_mem_singleton.mpr hat.2.2.2
  | throwing t => exact List.forall_mem_singleton.mpr hat.2.2.2
  | finish =>
    obtain ⟨arguments, hexecuted⟩ := hat.2.2.2
    exact List.forall_mem_singleton.mpr ⟨_, arguments, hexecuted⟩
  | handle => exact List.forall_mem_singleton.mpr trivial
  | _ => exact List.forall_mem_nil _

/-- The rank that has taken a step stands where its executions say. -/
theorem at_acted (h : Coherent log g) (hw : g.workers[rank]? = some w)
    (hact : Acted g rank w seen w' e') : w'.At (log ++ seen) (g.move rank w' e') rank := by
  have hat := h.worker hw
  have hcontinues := hact.continues
  have hsub : ProgramEngine.submitted (log ++ seen) = ProgramEngine.submitted log := by
    rw [submitted_append, hact.submitted, List.append_nil]
  have hgeneration : (g.move rank w' e').engine.generation = g.engine.generation := hcontinues.generation
  have hempty : executions rank log = ProgramEngine.submitted log → executions rank (log ++ []) =
      ProgramEngine.submitted (log ++ []) := by simp only [List.append_nil, imp_self]
  cases hact with
  | prepare =>
    obtain ⟨hzero, -⟩ := hat
    have hnone : ProgramEngine.submitted log = [] := by
      have := h.generations
      rwa [hzero, List.range'_zero, List.map_eq_nil_iff] at this
    have hexec : executions rank log = [] := List.prefix_nil.mp (hnone ▸ h.sequence rank)
    refine .inl ⟨hzero.symm, hempty (by rw [hexec, hnone]), fun hpos => absurd hpos (lt_irrefl 0)⟩
  | stop hstop => exact hstop
  | take hgo hnew =>
    rcases hat with ⟨hseen, -⟩ | ⟨-, hpend, order, hbehind⟩
    · exact absurd hseen.symm hnew
    · have hwait : g.caller.inSubmit = true := by
        rcases hpend with hwait | hstop
        · exact hwait
        · rw [hstop] at hgo
          cases hgo
      obtain ⟨⟨earlier, hcurrent⟩, -⟩ := h.current hwait
      obtain ⟨hearlier, -⟩ := List.append_inj' (hbehind.symm.trans hcurrent) rfl
      refine ⟨rfl, .inl hwait, ?_, List.mem_append_right _ List.mem_cons_self⟩
      rw [hsub, hcurrent, ← hearlier, executions_append]
      exact (congrArg (· ++ _) (List.append_nil _)).symm
  | execute device =>
    obtain ⟨hseen, hpend, hbehind, htaken⟩ := hat
    refine ⟨hseen, hpend, ?_, _, List.mem_append_right _ List.mem_cons_self⟩
    rw [hsub, executions_append, executions_executed, hbehind]
  | throwing t => trivial
  | finish =>
    obtain ⟨hseen, hpend, hall, -⟩ := hat
    refine .inl ⟨hseen, ?_, fun _ => List.mem_append_right _ List.mem_cons_self⟩
    rw [hsub, ← hall, executions_append]
    exact List.append_nil _
  | failing t => trivial
  | leaving t => trivial
  | leave => trivial
  | handle => trivial

/-- The ranks that have finished are still counted, as long as none has failed. -/
theorem steady_acted (h : Coherent log g) (hw : g.workers[rank]? = some w)
    (hact : Acted g rank w seen w' e') (hgo : e'.stopping = false) : Steady (g.move rank w' e') := by
  have hcontinues := hact.continues
  have hbefore : g.engine.stopping = false := by
    rcases hcontinues.stopping with ⟨hsame, -⟩ | ⟨hstop, -⟩
    · rw [← hsame, hgo]
    · rw [hstop] at hgo
      cases hgo
  have hat := h.worker hw
  have hsteady := h.steady hbefore
  obtain ⟨hlt, hget⟩ := List.getElem?_eq_some_iff.mp hw
  have hcount : ∀ a, (g.workers.set rank w').count a =
      g.workers.count a - (if w == a then 1 else 0) + (if w' == a then 1 else 0) := by
    intro a
    rw [List.count_set hlt, hget]
  have hpos : w ∈ g.workers := hget ▸ List.getElem_mem hlt
  have hpend : Pending g → g.caller.inSubmit = true := by
    rintro (hwait | hstop)
    · exact hwait
    · rw [hbefore] at hstop
      cases hstop
  unfold Steady at hsteady ⊢
  simp only [Group.move, hcontinues.generation]
  cases hcaller : g.caller with
  | opening =>
    -- Before `start` returns nothing is submitted, so only preparing ranks move.
    have hzero := h.starting (by rw [hcaller]; rfl)
    have hidle : g.caller.inSubmit = false := by rw [hcaller]; rfl
    simp only [hcaller] at hsteady
    simp only [hcount]
    cases hact with
    | prepare => simpa using hsteady
    | stop hstop => rw [hbefore] at hstop; cases hstop
    | take _ hnew =>
      rcases hat with ⟨hseen, -⟩ | ⟨hseen, -⟩
      · exact absurd hseen.symm hnew
      · omega
    | execute device => simp [hpend hat.2.1] at hidle
    | throwing t => simp [hpend hat.2.1] at hidle
    | finish => simp [hpend hat.2.1] at hidle
    | failing t => simpa using hsteady
    | leaving t => rw [hat] at hbefore; cases hbefore
    | leave => rw [hat] at hbefore; cases hbefore
    | handle => rw [recordFailure_stopping] at hgo; cases hgo
  | idle =>
    simp only [hcaller] at hsteady
    exact absurd (hsteady w hpos) (hact.not_waiting hbefore hgo)
  | submitting s resume =>
    simp only [hcaller] at hsteady
    exact absurd (hsteady w hpos) (hact.not_waiting hbefore hgo)
  | waiting resume =>
    have hserving : g.caller.serving = true := by rw [hcaller]; rfl
    simp only [hcaller] at hsteady
    simp only [hcount]
    cases hact with
    | prepare => simp [hat.2] at hserving
    | stop hstop => rw [hbefore] at hstop; cases hstop
    | take _ hnew => simpa [hnew.symm] using hsteady
    | execute device => simpa [executedAs] using hsteady
    | throwing t => simpa using hsteady
    | finish => simpa [finish, hat.1] using hsteady
    | failing t => simp [hat.2] at hserving
    | leaving t => rw [hat] at hbefore; cases hbefore
    | leave => rw [hat] at hbefore; cases hbefore
    | handle => rw [recordFailure_stopping] at hgo; cases hgo
  | unwinding => trivial
  | closed => trivial

/-- An executed command is the next one of the sequence. -/
theorem executes (h : Coherent log g) (hw : g.workers[rank]? = some w)
    (hact : Acted g rank w seen w' e') : executions rank (log ++ seen) <+: ProgramEngine.submitted log := by
  have hat := h.worker hw
  rw [executions_append]
  cases hact with
  | execute device =>
    rw [executions_executed, ← hat.2.2.1]
  | throwing t =>
    rw [executions_executed, ← hat.2.2.1]
  | _ => exact (List.append_nil _).symm ▸ h.sequence rank

/-- A step of a rank keeps the invariant. -/
theorem acted (h : Coherent log g) (hw : g.workers[rank]? = some w) (hact : Acted g rank w seen w' e') :
    Coherent (log ++ seen) (g.move rank w' e') := by
  have hcontinues := hact.continues
  have hsub : ProgramEngine.submitted (log ++ seen) = ProgramEngine.submitted log := by
    rw [submitted_append, hact.submitted, List.append_nil]
  have hstopping : g.engine.stopping = true → e'.stopping = true := by
    rcases hcontinues.stopping with ⟨hsame, -⟩ | ⟨hstop, -⟩
    · exact hsame.trans
    · exact fun _ => hstop
  have hat := h.at_acted hw hact
  exact {
    size := by
      show (g.workers.set rank w').length = e'.ranks
      rw [List.length_set, h.size, hcontinues.ranks]
    failed := fun hfailure => by
      rcases hcontinues.stopping with ⟨hsame, heq⟩ | ⟨hstop, -⟩
      · exact hsame.trans (h.failed (heq ▸ hfailure))
      · exact hstop
    stopped := fun hstop => by
      rcases hcontinues.stopping with ⟨hsame, heq⟩ | ⟨-, hfailure⟩
      · exact (h.stopped (hsame ▸ hstop)).imp_left fun hfailure => by
          show e'.failure ≠ ""
          rwa [heq]
      · exact .inl hfailure
    starting := fun hstart => hcontinues.generation.trans (h.starting hstart)
    generations := by
      rw [hsub, h.generations]
      exact congrArg (fun n => List.range' 1 n) hcontinues.generation.symm
    sequence := fun r => by
      by_cases hr : rank = r
      · subst hr
        rw [hsub]
        exact h.executes hw hact
      · rw [hsub, executions_append, hact.executions_other hr, List.append_nil]
        exact h.sequence r
    worker := fun {r x} hx => by
      by_cases hr : rank = r
      · subst hr
        obtain ⟨hlt, -⟩ := List.getElem?_eq_some_iff.mp hw
        have hx' : (g.workers.set rank w')[rank]? = some x := hx
        rw [List.getElem?_set_self hlt] at hx'
        rwa [← Option.some.inj hx']
      · have hx' : (g.workers.set rank w')[r]? = some x := hx
        rw [List.getElem?_set_ne hr] at hx'
        exact (h.worker hx').weaken _ _ hcontinues.generation id (Or.imp_right hstopping) hstopping
          hact.submitted (hact.executions_other hr)
    steady := h.steady_acted hw hact
    current := fun hwait => by
      have horder : (g.move rank w' e').order = g.order := by
        simp only [Group.order, Group.move, hcontinues.command, hcontinues.input, hcontinues.position,
          hcontinues.sample]
      have hgeneration : (g.move rank w' e').engine.generation = g.engine.generation :=
        hcontinues.generation
      have hbuffers : (g.move rank w' e').engine.buffers = g.engine.buffers := hcontinues.buffers
      obtain ⟨hlast, hmem⟩ := h.current hwait
      rw [horder, hgeneration, hbuffers, hsub]
      exact ⟨hlast, List.mem_append_left _ hmem⟩
    final := fun {r} hfailed => by
      rcases List.mem_append.mp hfailed with hfailed | hfailed
      · exact hstopping (h.final hfailed)
      · cases hact with
        | handle => exact recordFailure_stopping _ _ _
        | _ => simp at hfailed
    owned := h.owned
    order := by
      have hranks : (g.move rank w' e').engine.ranks = g.engine.ranks := hcontinues.ranks
      rw [hranks]
      exact h.order.append hact.length_le_one (h.justified hw hact) }

end Coherent

end

/-! ## The caller's steps -/

theorem settle_workers (p : Progress (List Nat)) : (g.settle p).workers = g.workers := by
  cases p <;> rfl

/-- The caller is between two submissions. -/
def Caller.Between : Caller → Prop
  | .idle | .submitting .. => True
  | _ => False

namespace Coherent

/-- A caller that is outside `submit` while the group goes on finds every rank
    waiting; it may then stop anywhere outside `submit`. -/
theorem release (h : Coherent log g) {e' : Engine} {c : Caller} (hkeeps : g.engine.Keeps e')
    (hserving : g.caller.serving = true) (hc : c.Between) (howned : c.Owned)
    (hall : g.engine.stopping = false → ∀ w ∈ g.workers, w = .waiting g.engine.generation) :
    Coherent log { g with engine := e', caller := c } := by
  have hnot : c.serving = true ∧ c.inSubmit = false ∧ c.starting = false := by
    cases c with
    | idle => exact ⟨rfl, rfl, rfl⟩
    | submitting s resume => exact ⟨rfl, rfl, rfl⟩
    | _ => exact hc.elim
  exact {
    size := h.size.trans hkeeps.ranks.symm
    failed := fun hfailure => hkeeps.stopping.trans (h.failed (hkeeps.failure ▸ hfailure))
    stopped := fun hstop => by
      refine .inl ?_
      show e'.failure ≠ ""
      rw [hkeeps.failure]
      refine (h.stopped (hkeeps.stopping ▸ hstop)).resolve_right fun hgone => ?_
      cases hcaller : g.caller <;> simp [hcaller, Caller.gone, Caller.serving] at hgone hserving
    starting := fun hstart => absurd hstart (by simp [hnot.2.2])
    generations := h.generations.trans (congrArg (fun n => List.range' 1 n) hkeeps.generation.symm)
    sequence := h.sequence
    worker := fun {rank w} hw => by
      by_cases hstop : g.engine.stopping = true
      · have := (h.worker hw).weaken { g with engine := e', caller := c } [] hkeeps.generation
          (fun _ => hserving) (fun _ => .inr (hkeeps.stopping.trans hstop)) hkeeps.stopping.trans rfl rfl
        rwa [List.append_nil] at this
      · have hwaiting := hall (by simpa using hstop) w (List.mem_of_getElem? hw)
        subst hwaiting
        rcases h.worker hw with ⟨hseen, hdone, hfinished⟩ | ⟨hseen, -⟩
        · exact .inl ⟨hseen.trans hkeeps.generation.symm, hdone, hfinished⟩
        · omega
    steady := fun hgo => by
      have hwaiting := hall (hkeeps.stopping ▸ hgo)
      have hsame : e'.generation = g.engine.generation := hkeeps.generation
      cases c with
      | idle => simpa only [Steady, hsame] using hwaiting
      | submitting s resume => simpa only [Steady, hsame] using hwaiting
      | _ => exact hc.elim
    current := fun hwait => absurd hwait (by simp [hnot.2.1])
    final := fun hfailed => hkeeps.stopping.trans (h.final hfailed)
    owned := howned
    order := hkeeps.ranks ▸ h.order }

/-- The caller runs on to where it next stops. -/
theorem settle (h : Coherent log g) {p : Progress (List Nat)} (hp : p.Owned g.engine)
    (hserving : g.caller.serving = true)
    (hall : g.engine.stopping = false → ∀ w ∈ g.workers, w = .waiting g.engine.generation) :
    Coherent log (g.settle p) := by
  cases p with
  | done a e => exact h.release hp hserving trivial trivial hall
  | threw message e => exact h.release hp hserving trivial trivial hall
  | submit s e resume => exact h.release hp.1 hserving trivial hp.2 hall

/-- A caller that has not stopped the group is refused after a failure only. -/
theorem available (h : Coherent log g) (hserving : g.caller.serving = true) :
    g.unavailable = false ↔ g.engine.stopping = false := by
  have hstop : g.engine.failure ≠ "" → g.engine.stopping = true := h.failed
  by_cases hfailure : g.engine.failure = ""
  · simp [Group.unavailable, hfailure]
  · simp [Group.unavailable, hfailure, hstop hfailure]

/-- A new generation: every rank is one command behind. -/
theorem submit (h : Coherent log g) {s : Submission} {resume : Nat → Engine → Progress (List Nat)}
    (hcaller : g.caller = .submitting s resume) (hgo : g.unavailable = false) :
    Coherent (log ++ [.submitted (g.engine.generation + 1) s g.engine.buffers]) (g.submit s resume) := by
  have hserving : g.caller.serving = true := by rw [hcaller]; rfl
  have hbefore := (h.available hserving).mp hgo
  have hwaiting : ∀ w ∈ g.workers, w = .waiting g.engine.generation := by
    have := h.steady hbefore
    simpa only [Steady, hcaller] using this
  have hsub : ProgramEngine.submitted (log ++ [.submitted (g.engine.generation + 1) s g.engine.buffers]) =
      ProgramEngine.submitted log ++ [(g.engine.generation + 1, s)] := submitted_append _
  have hexec : ∀ rank, executions rank
      (log ++ [.submitted (g.engine.generation + 1) s g.engine.buffers]) = executions rank log := by
    intro rank
    rw [executions_append]
    exact List.append_nil _
  have howned : (Caller.submitting s resume).Owned := hcaller ▸ h.owned
  have heq : g.submit s resume = { g with
      engine := { g.engine with
        command := s.command
        input := s.token
        position := s.pos
        sample := s.want
        finished := 0
        generation := g.engine.generation + 1 }
      caller := .waiting resume } := by
    rw [Group.submit, if_neg (by simp [hgo])]
  rw [heq]
  exact {
    size := h.size
    failed := h.failed
    stopped := fun hstop => absurd hstop (by simp [hbefore])
    starting := fun hstart => by cases hstart
    generations := by
      rw [hsub, List.map_append, h.generations, List.range'_1_concat]
      simp [Nat.add_comm]
    sequence := fun rank => by
      rw [hsub, hexec]
      exact (h.sequence rank).trans (List.prefix_append _ _)
    worker := fun {rank w} hw => by
      have hw' : g.workers[rank]? = some w := hw
      have := hwaiting w (List.mem_of_getElem? hw')
      subst this
      rcases h.worker hw' with ⟨-, hdone, -⟩ | ⟨hseen, -⟩
      · exact .inr ⟨rfl, .inl rfl, s, by rw [hsub, hexec, hdone]⟩
      · omega
    steady := fun _ => by
      show 0 = g.workers.count (.waiting (g.engine.generation + 1))
      refine (List.count_eq_zero.mpr fun hmem => ?_).symm
      have := hwaiting _ hmem
      simp at this
    current := fun _ => ⟨⟨_, hsub⟩, List.mem_append_right _ List.mem_cons_self⟩
    final := fun {rank} hfailed => by
      rcases List.mem_append.mp hfailed with hfailed | hfailed
      · exact h.final hfailed
      · simp at hfailed
    owned := howned
    order := h.order.concat fun rank hfailed => by
      rw [h.final hfailed] at hbefore
      cases hbefore }

/-- `start` returns when every rank has become ready. -/
theorem started (h : Coherent log g) (hcaller : g.caller = .opening) (hstep : g.started = some g') :
    Coherent log g' := by
  have hzero := h.starting (by rw [hcaller]; rfl)
  unfold Group.started at hstep
  split at hstep
  · obtain rfl := Option.some.inj hstep
    exact { h with
      stopped := fun hstop => .inl (by assumption)
      starting := fun _ => hzero
      worker := fun {rank w} hw => by
        have hweak := (h.worker hw).weaken { g with caller := .unwinding } [] rfl
          (fun hserve => by cases hserve)
          (fun hpend => hpend.imp_left fun hwait => by simp [hcaller, Caller.inSubmit] at hwait) id rfl rfl
        rwa [List.append_nil] at hweak
      steady := fun _ => trivial
      current := fun hwait => by cases hwait
      owned := trivial }
  · rename_i hfailure
    split at hstep
    · rename_i hready
      obtain rfl := Option.some.inj hstep
      have hgo : g.engine.stopping = false := by
        by_contra hstop
        rcases h.stopped (by simpa using hstop) with hne | hgone
        · exact hfailure hne
        · simp [hcaller, Caller.gone] at hgone
      have hcount : g.workers.count (.waiting 0) = g.workers.length := by
        have hle := h.steady hgo
        simp only [Steady, hcaller, hready, ← h.size] at hle
        exact le_antisymm List.count_le_length hle
      have hwaiting : ∀ w ∈ g.workers, w = .waiting 0 := fun w hw =>
        (List.count_eq_length.mp hcount w hw).symm
      exact { h with
        stopped := fun hstop => absurd hstop (by simp [hgo])
        starting := fun hstart => by cases hstart
        worker := fun {rank w} hw => by
          have hw' : g.workers[rank]? = some w := hw
          have := hwaiting w (List.mem_of_getElem? hw')
          subst this
          rcases h.worker hw' with ⟨hseen, hdone, hfinished⟩ | ⟨hseen, -⟩
          · exact .inl ⟨hseen, hdone, hfinished⟩
          · omega
        steady := fun _ => by simpa only [Steady, hzero] using hwaiting
        current := fun hwait => by cases hwait
        owned := trivial }
    · cases hstep

/-- Closing stops the group. -/
theorem close (h : Coherent log g) (hcaller : g.caller = .idle ∨ g.caller = .unwinding) :
    Coherent log g.close := by
  exact { h with
    failed := fun _ => rfl
    stopped := fun _ => .inr rfl
    starting := fun hstart => by cases hstart
    worker := fun {rank w} hw => by
      have hweak := (h.worker hw).weaken g.close [] rfl (fun hserve => by cases hserve)
        (fun _ => .inr rfl) (fun _ => rfl) rfl rfl
      rwa [List.append_nil] at hweak
    steady := fun hgo => by cases hgo
    current := fun hwait => by cases hwait
    final := fun _ => rfl
    owned := trivial }

/-- A return of `submit` is seen. -/
theorem returned {generation : Nat} (h : Coherent log g)
    (hfinished : ∀ rank < g.engine.ranks, .finished rank generation ∈ log) :
    Coherent (log ++ [.returned generation]) g := by
  have hsub : ProgramEngine.submitted (log ++ [.returned generation]) = ProgramEngine.submitted log := by
    rw [submitted_append]
    exact List.append_nil _
  exact { h with
    generations := hsub ▸ h.generations
    sequence := fun rank => by
      rw [hsub, executions_append]
      exact (List.append_nil _).symm ▸ h.sequence rank
    worker := fun hw => (h.worker hw).weaken g _ rfl id id id rfl rfl
    current := fun hwait => by
      obtain ⟨hlast, hmem⟩ := h.current hwait
      exact ⟨hsub ▸ hlast, List.mem_append_left _ hmem⟩
    final := fun {rank} hfailed => by
      rcases List.mem_append.mp hfailed with hfailed | hfailed
      · exact h.final hfailed
      · simp at hfailed
    order := h.order.concat hfinished }

/-- Something has been submitted when the caller waits. -/
theorem generation_pos (h : Coherent log g) (hwait : g.caller.inSubmit = true) :
    0 < g.engine.generation := by
  obtain ⟨⟨earlier, hlast⟩, -⟩ := h.current hwait
  have hlength := congrArg List.length h.generations
  rw [hlast] at hlength
  simp only [List.length_map, List.length_append, List.length_range', List.length_singleton] at hlength
  omega

/-- Counting to the number of ranks without a failure means that all are waiting. -/
theorem all_finished (h : Coherent log g) (hwait : g.caller.inSubmit = true)
    (hfailure : g.engine.failure = "") (hfinished : g.engine.finished = g.engine.ranks) :
    ∀ w ∈ g.workers, w = .waiting g.engine.generation := by
  have hgo : g.engine.stopping = false := by
    by_contra hstop
    rcases h.stopped (by simpa using hstop) with hne | hgone
    · exact hne hfailure
    · cases hcaller : g.caller <;> simp [hcaller, Caller.gone, Caller.inSubmit] at hgone hwait
  have hcount := h.steady hgo
  cases hcaller : g.caller with
  | waiting resume =>
    simp only [Steady, hcaller, hfinished, ← h.size] at hcount
    exact fun w hw => (List.count_eq_length.mp hcount.symm w hw).symm
  | _ => simp [hcaller, Caller.inSubmit] at hwait

/-- `submit` returns when every rank has finished. -/
theorem wake (h : Coherent log g) {resume : Nat → Engine → Progress (List Nat)}
    (hcaller : g.caller = .waiting resume) (hstep : g.wake resume = some g') :
    Coherent (log ++ if g.engine.failure ≠ "" then [] else [.returned g.engine.generation]) g' := by
  have hserving : g.caller.serving = true := by rw [hcaller]; rfl
  have howned : (Caller.waiting resume).Owned := hcaller ▸ h.owned
  unfold Group.wake at hstep
  split at hstep
  · rename_i hfailure
    obtain rfl := Option.some.inj hstep
    rw [if_pos hfailure, List.append_nil]
    exact h.release (.refl _) hserving trivial trivial fun hgo => by
      rw [h.failed hfailure] at hgo
      cases hgo
  · rename_i hfailure
    rw [if_neg hfailure]
    split at hstep
    · rename_i hfinished
      obtain rfl := Option.some.inj hstep
      have hwaiting := h.all_finished (by rw [hcaller]; rfl) (not_not.mp hfailure) hfinished
      have hsettled := h.settle (howned g.engine.output g.engine) hserving fun _ => hwaiting
      have hranks : (g.settle (resume g.engine.output g.engine)).engine.ranks = g.engine.ranks := by
        rw [← hsettled.size, ← h.size, settle_workers]
      refine hsettled.returned fun rank hrank => ?_
      rw [hranks, ← h.size] at hrank
      have hw : g.workers[rank]? = some (.waiting g.engine.generation) :=
        List.getElem?_eq_some_iff.mpr ⟨hrank, hwaiting _ (List.getElem_mem hrank)⟩
      rcases h.worker hw with ⟨-, -, hdone⟩ | ⟨hseen, -⟩
      · exact hdone (h.generation_pos (by rw [hcaller]; rfl))
      · omega
    · cases hstep

/-- Every step keeps the invariant. -/
theorem step (h : Coherent log g) {label : Step} (hstep : g.step label = some g') :
    Coherent (log ++ g.observe label) g' := by
  cases label with
  | rank rank action =>
    simp only [Group.step] at hstep
    obtain ⟨w, hw, hact⟩ := Option.bind_eq_some_iff.mp hstep
    obtain ⟨w', e', rfl, hacted⟩ := acted_of_act hact
    simp only [observe, hw]
    exact h.acted hw hacted
  | started =>
    simp only [Group.step] at hstep
    rw [show g.observe .started = [] from rfl, List.append_nil]
    split at hstep
    · exact h.started (by assumption) hstep
    · cases hstep
  | call request =>
    simp only [Group.step] at hstep
    rw [show g.observe (.call request) = [] from rfl, List.append_nil]
    split at hstep
    · rename_i hcaller
      obtain rfl := Option.some.inj hstep
      refine h.settle (owned_serve request g.engine) (by rw [hcaller]; rfl) fun hgo => ?_
      simpa only [Steady, hcaller] using h.steady hgo
    · cases hstep
  | submit =>
    simp only [Group.step] at hstep
    split at hstep
    · rename_i s resume hcaller
      obtain rfl := Option.some.inj hstep
      have hserving : g.caller.serving = true := by rw [hcaller]; rfl
      simp only [observe, hcaller]
      by_cases hgo : g.unavailable = true
      · rw [if_pos hgo, List.append_nil, Group.submit, if_pos hgo]
        refine h.release (.refl _) hserving trivial trivial fun hbefore => ?_
        rw [(h.available hserving).mpr hbefore] at hgo
        cases hgo
      · rw [if_neg hgo]
        exact h.submit hcaller (by simpa using hgo)
    · cases hstep
  | wake =>
    simp only [Group.step] at hstep
    split at hstep
    · exact h.wake (by assumption) hstep
    · cases hstep
  | close =>
    simp only [Group.step] at hstep
    rw [show g.observe .close = [] from rfl, List.append_nil]
    split at hstep
    · obtain rfl := Option.some.inj hstep
      exact h.close (.inl (by assumption))
    · obtain rfl := Option.some.inj hstep
      exact h.close (.inr (by assumption))
    · cases hstep

end Coherent

/-! ## Runs -/

variable {program : Plan} {ranks vocabulary : Nat}

theorem coherent_new : Coherent [] (Group.new program ranks vocabulary) where
  size := List.length_replicate
  failed hfailure := absurd rfl hfailure
  stopped hstop := by cases hstop
  starting _ := rfl
  generations := rfl
  sequence _ := List.prefix_refl _
  worker {rank w} hw := by
    obtain rfl := List.eq_of_mem_replicate (List.mem_of_getElem? hw)
    exact ⟨rfl, rfl⟩
  steady _ := Nat.zero_le _
  current hwait := by cases hwait
  final hfailed := by cases hfailed
  owned := trivial
  order := preceded_nil

theorem submit_workers (s : Submission) (resume : Nat → Engine → Progress (List Nat)) :
    (g.submit s resume).workers = g.workers := by
  unfold Group.submit
  split <;> rfl

/-- The caller moves no rank. -/
theorem caller_workers {label : Step} (hlabel : ∀ rank action, label ≠ .rank rank action)
    (h : g.step label = some g') : g'.workers = g.workers := by
  cases label with
  | rank rank action => exact absurd rfl (hlabel rank action)
  | started =>
    simp only [Group.step, Group.started] at h
    repeat' split at h
    all_goals first
      | obtain rfl := Option.some.inj h
        rfl
      | cases h
  | call request =>
    simp only [Group.step] at h
    split at h
    · obtain rfl := Option.some.inj h
      exact settle_workers _
    · cases h
  | submit =>
    simp only [Group.step] at h
    split at h
    · obtain rfl := Option.some.inj h
      exact submit_workers _ _
    · cases h
  | wake =>
    simp only [Group.step, Group.wake] at h
    repeat' split at h
    · obtain rfl := Option.some.inj h
      rfl
    · obtain rfl := Option.some.inj h
      exact settle_workers _
    all_goals cases h
  | close =>
    simp only [Group.step] at h
    split at h
    · obtain rfl := Option.some.inj h
      rfl
    · obtain rfl := Option.some.inj h
      rfl
    · cases h

theorem step_workers_length {label : Step} (h : g.step label = some g') :
    g'.workers.length = g.workers.length := by
  cases label with
  | rank rank action =>
    simp only [Group.step] at h
    obtain ⟨w, -, hact⟩ := Option.bind_eq_some_iff.mp h
    obtain ⟨w', e', rfl, -⟩ := acted_of_act hact
    exact List.length_set
  | _ => exact congrArg List.length (caller_workers (fun _ _ heq => by cases heq) h)

theorem coherent_reached {allowed : Group → Step → Prop}
    (h : Reached Group.step Group.observe allowed (Group.new program ranks vocabulary) log g) :
    Coherent log g ∧ g.workers.length = ranks := by
  induction h with
  | start => exact ⟨coherent_new, List.length_replicate⟩
  | step _ _ hstep ih => exact ⟨ih.1.step hstep, (step_workers_length hstep).trans ih.2⟩

/-- Whatever its steps, the ranks of a group stay in step. -/
theorem in_step {allowed : Group → Step → Prop}
    (h : Reached Group.step Group.observe allowed (Group.new program ranks vocabulary) log g) :
    InStep ranks log := by
  obtain ⟨hcoherent, hlength⟩ := coherent_reached h
  have hcount : (submitted log).length = g.engine.generation := by
    have := congrArg List.length hcoherent.generations
    simpa using this
  exact {
    generations := hcount ▸ hcoherent.generations
    sequence := hcoherent.sequence
    order := by
      rw [← hlength, hcoherent.size]
      exact hcoherent.order }

end Inferfabric.ProgramEngine
