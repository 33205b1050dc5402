-- SUMMARY: What a request is owed: the tokens that the device makes of it alone, in order, and one ending.
import IronPangu.Scheduler.Live

open Rust Method Outcome Std

/-!
# Delivery

`solo` runs a request by itself, the whole prompt in one step. A log of admissions and
events serves a request when what it reports are the tokens of `solo`, up to the first
that ends it, and nothing behind the end.
-/

namespace Inferfabric.Scheduler

open Compiler.Ranks (Artifact)
open Mock (StepInput StepOutput fed answer executeOne Runnable)

variable {spec : Spec} {prompt tokens : List Nat}

/-! ## A request by itself -/

/-- The output behind the token of a number, of a request that is run alone. -/
def solo (spec : Spec) (prompt : List Nat) : Nat → Result StepOutput
  | 0 => executeOne spec ⟨0, 0, prompt, .empty spec, ⟨0, 0, []⟩⟩
  | k + 1 => do
    let output ← solo spec prompt k
    executeOne spec ⟨0, 0, [output.nextToken], output.state, ⟨0, 0, []⟩⟩

/-- The token after some others. -/
def following (spec : Spec) (tokens : List Nat) : Nat := Mock.nextToken spec (tokens.getLast?.getD 0) tokens.length

/-- The prompt and the first tokens generated from it. -/
def transcript (spec : Spec) (prompt : List Nat) : Nat → List Nat
  | 0 => prompt
  | k + 1 => transcript spec prompt k ++ [following spec (transcript spec prompt k)]

@[simp] theorem length_transcript (k : Nat) : (transcript spec prompt k).length = prompt.length + k := by
  induction k with
  | zero => rfl
  | succ k ih => rw [transcript, List.length_append, ih, List.length_singleton, Nat.add_assoc]

theorem following_lt (h : 0 < spec.model.vocab) : following spec tokens < spec.model.vocab := Mock.nextToken_lt h

theorem transcript_lt (h : ∀ token ∈ prompt, token < spec.model.vocab) (hvocab : 0 < spec.model.vocab) (k : Nat) :
    ∀ token ∈ transcript spec prompt k, token < spec.model.vocab := by
  induction k with
  | zero => exact h
  | succ k ih =>
    intro token htoken
    rcases List.mem_append.mp htoken with htoken | htoken
    · exact ih token htoken
    · exact List.mem_singleton.mp htoken ▸ following_lt hvocab

theorem runnable_fed {i : StepInput} (hstate : i.state = fed spec tokens) (hnonempty : i.tokens ≠ [])
    (hroom : tokens.length + i.tokens.length ≤ spec.maxContext) (hvocabulary : ∀ token ∈ i.tokens, token < spec.model.vocab) :
    Runnable spec i where
  formed := hstate ▸ Mock.fed_formed
  nonempty := hnonempty
  room := by rwa [hstate, Mock.fed_consumed]
  vocabulary := hvocabulary

/-- The answer on a state that was fed before. -/
theorem answer_fed {i : StepInput} (hstate : i.state = fed spec tokens) (hnonempty : i.tokens ≠ []) :
    answer spec i = ⟨i.request, i.epoch, following spec (tokens ++ i.tokens), fed spec (tokens ++ i.tokens)⟩ := by
  have hlast : (tokens ++ i.tokens).getLast? = i.tokens.getLast? := List.getLast?_append_of_ne_nil tokens hnonempty
  rw [answer, following, hlast, hstate, Mock.fed_append, Mock.fed_consumed, List.length_append]

theorem solo_run (hprompt : prompt ≠ []) (h : ∀ token ∈ prompt, token < spec.model.vocab) (k : Nat)
    (hroom : prompt.length + k ≤ spec.maxContext) :
    solo spec prompt k = .ok ⟨0, 0, following spec (transcript spec prompt k), fed spec (transcript spec prompt k)⟩ := by
  have hvocab : 0 < spec.model.vocab := by
    obtain ⟨token, htoken⟩ := List.exists_mem_of_ne_nil _ hprompt
    exact (Nat.zero_le token).trans_lt (h token htoken)
  induction k with
  | zero =>
    have hempty : HybridState.empty spec = fed spec [] := rfl
    have hrunnable : Runnable spec ⟨0, 0, prompt, .empty spec, ⟨0, 0, []⟩⟩ :=
      runnable_fed hempty hprompt (by simpa using hroom) h
    rw [solo, Mock.executeOne_run hrunnable]
    exact congrArg Outcome.ok (@answer_fed spec [] _ hempty hprompt)
  | succ k ih =>
    have hrunnable : Runnable spec ⟨0, 0, [following spec (transcript spec prompt k)], fed spec (transcript spec prompt k),
        ⟨0, 0, []⟩⟩ := by
      refine runnable_fed rfl (List.cons_ne_nil _ _) ?_ ?_
      · rwa [length_transcript, List.length_singleton, Nat.add_assoc]
      · exact List.forall_mem_singleton.mpr (following_lt hvocab)
    rw [solo, ih ((Nat.le_succ _).trans hroom), ok_bind, Mock.executeOne_run hrunnable]
    exact congrArg Outcome.ok (answer_fed rfl (List.cons_ne_nil _ _))

/-! ## Logs -/

/-- An admission, or an event that was reported. -/
inductive Entry where
  | admitted (request : Request) (stopTokens : List Nat)
  | event (event : Event)
  deriving DecidableEq, Repr

def Entry.request : Entry → Nat
  | .admitted r _ => r.id
  | .event e => e.request

/-- The token of a number, of a request by itself. -/
def Generated (spec : Spec) (request : Request) (k token : Nat) : Prop :=
  ∃ output, solo spec request.prompt k = .ok output ∧ output.nextToken = token

/-- A token that ends the request whenever it comes. -/
def Stops (request : Request) (stopTokens : List Nat) (token : Nat) : Prop :=
  request.eos = some token ∨ token ∈ stopTokens

/-- The events of a request that goes on, with the tokens so far. -/
inductive Generates (spec : Spec) (request : Request) (stopTokens : List Nat) : Nat → List Event → Prop where
  | start : Generates spec request stopTokens 0 []
  | token {k token : Nat} {events : List Event} (h : Generates spec request stopTokens k events)
      (htoken : Generated spec request k token) (hgoes : ¬Stops request stopTokens token) (hmore : k + 1 < request.maxNewTokens) :
      Generates spec request stopTokens (k + 1) (events ++ [⟨request.id, some token, none⟩])

/-- The events of a request that has ended. -/
inductive Finishes (spec : Spec) (request : Request) (stopTokens : List Nat) : List Event → Prop where
  | stop {k token : Nat} {events : List Event} (h : Generates spec request stopTokens k events)
      (htoken : Generated spec request k token) (hstops : Stops request stopTokens token) :
      Finishes spec request stopTokens (events ++ [⟨request.id, some token, some .stop⟩])
  | length {k token : Nat} {events : List Event} (h : Generates spec request stopTokens k events)
      (htoken : Generated spec request k token) (hgoes : ¬Stops request stopTokens token) (hlast : k + 1 = request.maxNewTokens) :
      Finishes spec request stopTokens (events ++ [⟨request.id, some token, some .length⟩])
  | abort {k : Nat} {events : List Event} (h : Generates spec request stopTokens k events) :
      Finishes spec request stopTokens (events ++ [⟨request.id, none, some .abort⟩])
  | error {k : Nat} {events : List Event} (h : Generates spec request stopTokens (k + 1) events) :
      Finishes spec request stopTokens (events ++ [⟨request.id, none, some (.error "KV growth")⟩])

/-- The job of a request with a number of tokens. -/
structure Job.Of (job : Job) (request : Request) (stopTokens : List Nat) (k : Nat) : Prop where
  request : job.request = { request with submitAt := 0, cancelAt := none }
  stopTokens : job.stopTokens = stopTokens
  generated : job.generated = k

/-- The log of one request number: lives that have ended, and one that has not while there is a job. -/
inductive Serves (spec : Spec) : List Entry → Option Job → Prop where
  | fresh : Serves spec [] none
  | ongoing {entries : List Entry} {request : Request} {stopTokens : List Nat} {k : Nat} {events : List Event} {job : Job}
      (h : Serves spec entries none) (hevents : Generates spec request stopTokens k events) (hjob : job.Of request stopTokens k) :
      Serves spec (entries ++ .admitted request stopTokens :: events.map .event) (some job)
  | ended {entries : List Entry} {request : Request} {stopTokens : List Nat} {events : List Event}
      (h : Serves spec entries none) (hevents : Finishes spec request stopTokens events) :
      Serves spec (entries ++ .admitted request stopTokens :: events.map .event) none

variable {entries : List Entry} {event : Event} {job job' : Job}

/-- An ongoing life, opened. -/
theorem Serves.life (h : Serves spec entries (some job)) :
    ∃ before request stopTokens k events, entries = before ++ .admitted request stopTokens :: events.map .event ∧
      Serves spec before none ∧ Generates spec request stopTokens k events ∧ job.Of request stopTokens k := by
  cases h with
  | ongoing h hevents hjob => exact ⟨_, _, _, _, _, rfl, h, hevents, hjob⟩

/-- A request leaves with an event that ends it. -/
theorem Serves.leave (h : Serves spec entries (some job))
    (hends : ∀ request stopTokens k events, Generates spec request stopTokens k events → job.Of request stopTokens k →
      Finishes spec request stopTokens (events ++ [event])) : Serves spec (entries ++ [.event event]) none := by
  obtain ⟨before, request, stopTokens, k, events, rfl, hbefore, hevents, hjob⟩ := h.life
  have hended := Serves.ended hbefore (hends request stopTokens k events hevents hjob)
  rwa [List.map_append, List.map_singleton, ← List.cons_append, ← List.append_assoc] at hended

/-- A request goes on with a token. -/
theorem Serves.goOn (h : Serves spec entries (some job))
    (hgoes : ∀ request stopTokens k events, Generates spec request stopTokens k events → job.Of request stopTokens k →
      Generates spec request stopTokens (k + 1) (events ++ [event]))
    (hof : ∀ request stopTokens k, job.Of request stopTokens k → job'.Of request stopTokens (k + 1)) :
    Serves spec (entries ++ [.event event]) (some job') := by
  obtain ⟨before, request, stopTokens, k, events, rfl, hbefore, hevents, hjob⟩ := h.life
  have hongoing := Serves.ongoing hbefore (hgoes request stopTokens k events hevents hjob) (hof request stopTokens k hjob)
  rwa [List.map_append, List.map_singleton, ← List.cons_append, ← List.append_assoc] at hongoing

/-- Jobs may change where their requests are at the same point. -/
theorem Serves.same (h : Serves spec entries (some job)) (hrequest : job'.request = job.request)
    (hstop : job'.stopTokens = job.stopTokens) (hgenerated : job'.generated = job.generated) : Serves spec entries (some job') := by
  obtain ⟨before, request, stopTokens, k, events, rfl, hbefore, hevents, hjob⟩ := h.life
  exact .ongoing hbefore hevents ⟨hrequest.trans hjob.request, hstop.trans hjob.stopTokens, hgenerated.trans hjob.generated⟩

end Inferfabric.Scheduler
