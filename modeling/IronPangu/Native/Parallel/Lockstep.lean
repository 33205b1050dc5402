-- SUMMARY: Dispatches that return Ok found every rank in step, and no reply is read for another command.
import IronPangu.Native.Parallel

open Rust

/-!
# Lockstep

A peer that has not failed is either in step, with nothing left to answer, or it has
one command to answer, the one being dispatched. Peers are sent to and read from in
order, so behind a peer that is gone no reply is read any more: what is left unread
there never answers a later command.
-/

namespace Inferfabric.Native.Parallel

open Ir

/-! ## Histories -/

/-- The commands dispatched, in order. -/
def begun (log : List Observation) : List Command :=
  log.filterMap fun
    | .dispatched command => some command
    | _ => none

/-- The commands a rank has executed, in order, and whether each succeeded. -/
def executions (rank : Nat) (log : List Observation) : List (Command × Bool) :=
  log.filterMap fun
    | .executed r command success => if r = rank then some (command, success) else none
    | _ => none

/-- The engine after commands that all succeeded. -/
def ran (engine : Engine) (commands : List Command) : Engine := final (execute none) commands engine

section
variable {log seen : List Observation} {rank : Nat}

@[simp] theorem begun_append : begun (log ++ seen) = begun log ++ begun seen := List.filterMap_append

@[simp] theorem executions_append : executions rank (log ++ seen) = executions rank log ++ executions rank seen :=
  List.filterMap_append

theorem begun_performed (performed : List (Command × Bool)) :
    begun (performed.map fun (command, success) => .executed rank command success) = [] := by
  induction performed with
  | nil => rfl
  | cons _ _ ih => exact ih

theorem executions_performed (r : Nat) (performed : List (Command × Bool)) :
    executions r (performed.map fun (command, success) => .executed rank command success) =
      if rank = r then performed else [] := by
  induction performed with
  | nil => simp [executions]
  | cons x performed ih =>
    simp only [executions, List.map_cons] at ih ⊢
    by_cases h : rank = r <;> simp_all

end

/-- A device that fails only fails more commands. -/
theorem execute_eq_ok {device : Option Error} {command : Command} {e e' : Engine}
    (h : execute device command e = (.ok (), e')) : (execute none command e).2 = e' := by
  cases device with
  | none => rw [h]
  | some error =>
    cases command with
    | reset lane =>
      simp only [execute, Engine.resetSlot, Method.bind_eq_ok, Engine.check] at h
      obtain ⟨_, _, _, _, _, hcheck, _⟩ := h
      simp at hcheck
    | consume tokens =>
      simp only [execute, Engine.consumeBatch] at h ⊢
      split at h
      · simp_all
      · simp only [Method.bind_eq_ok, Engine.check] at h
        obtain ⟨_, _, _, _, _, _, _, _, hcheck, _⟩ := h
        simp at hcheck
    | stop => simpa [execute] using congrArg Prod.snd h

theorem ran_concat {engine e e' : Engine} {commands : List Command} {device : Option Error} {command : Command}
    (he : e = ran engine commands) (h : execute device command e = (.ok (), e')) :
    e' = ran engine (commands ++ [command]) := by
  rw [ran, final_concat, ← ran, ← he]
  exact (execute_eq_ok h).symm

/-! ## Peers -/

/-- A peer that has executed these commands, all of them successfully. -/
structure Caught (engine : Engine) (commands : List Command) (executed : List (Command × Bool)) (p : Peer) : Prop where
  executed : executed = commands.map (·, true)
  engine : p.engine = ran engine commands

/-- A peer in step, with nothing to answer. -/
structure InStep (engine : Engine) (commands : List Command) (executed : List (Command × Bool)) (p : Peer) : Prop where
  noCommands : p.commands = []
  noResults : p.results = []
  stage : p.stage = .waiting ∨ p.stage = .left
  caught : Caught engine commands executed p

/-- A peer that will not reply any more. -/
structure Mute (p : Peer) : Prop where
  results : p.results = []
  stage : p.stage = .left

/-- A peer that has one command to answer, or has answered it. -/
inductive Answering (engine : Engine) (commands : List Command) (command : Command) (serial : Nat)
    (executed : List (Command × Bool)) (p : Peer) : Prop where
  | sent (hcommands : p.commands = [(serial, command)]) (hresults : p.results = []) (hstage : p.stage = .waiting)
      (caught : Caught engine commands executed p)
  | received (hcommands : p.commands = []) (hresults : p.results = []) (hstage : p.stage = .executing serial command)
      (caught : Caught engine commands executed p)
  | executed (hcommands : p.commands = []) (hresults : p.results = []) (hstage : p.stage = .replying ⟨serial, .ok ()⟩)
      (caught : Caught engine (commands ++ [command]) executed p)
  | failed (message : String) (hresults : p.results = []) (hstage : p.stage = .replying ⟨serial, .error message⟩)
  | replied (hcommands : p.commands = []) (hresults : p.results = [⟨serial, .ok ()⟩])
      (hstage : p.stage = .waiting ∨ p.stage = .left) (caught : Caught engine (commands ++ [command]) executed p)
  | refused (message : String) (hresults : p.results = [⟨serial, .error message⟩]) (hstage : p.stage = .left)
  | lost (mute : Mute p)

/-- Kept by every step of the peer's thread. -/
def Stable (P : List (Command × Bool) → Peer → Prop) : Prop :=
  ∀ executed p action p', P executed p → p.step action = some p' → P (executed ++ p.performed action) p'

section
variable {engine : Engine} {commands : List Command} {command : Command} {serial : Nat}
variable {executed : List (Command × Bool)} {p p' : Peer} {action : Action}

/-- A thread that has ended drops its ends of the channels, and nothing else. -/
theorem step_left (hstage : p.stage = .left) (h : p.step action = some p') :
    p.performed action = [] ∧ p'.stage = .left ∧ p'.results = p.results ∧ p'.commands = p.commands ∧
      p'.engine = p.engine ∧ (p.commandsDropped = true → p'.commandsDropped = true) := by
  cases action <;> simp_all [Peer.step, Peer.receive, Peer.performed] <;> subst h <;> simp_all

/-- A peer with nothing to take waits, or exits. -/
theorem step_waiting (hstage : p.stage = .waiting) (hcommands : p.commands = []) (h : p.step action = some p') :
    p.performed action = [] ∧ p' = { p with stage := .left } := by
  cases action <;> simp_all [Peer.step, Peer.receive, Peer.performed]

theorem commandsDropped_step (h : p.step action = some p') (hdropped : p.commandsDropped = true) :
    p'.commandsDropped = true := by
  cases action with
  | receive =>
    simp only [Peer.step, Peer.receive] at h
    split at h <;> simp_all <;> (subst h; rfl)
  | execute device =>
    simp only [Peer.step] at h
    split at h
    · split at h <;> simp_all <;> subst h <;> rfl
    · cases h
  | reply =>
    simp only [Peer.step] at h
    split at h <;> simp_all <;> subst h <;> rfl
  | exit | dropCommands | dropResults =>
    simp only [Peer.step] at h
    split at h <;> simp_all <;> subst h <;> simp_all

theorem mute_exit (hresults : p.results = []) (h : p.step .exit = some p') : Mute p' := by
  simp only [Peer.step] at h
  split at h
  · cases h
  · obtain rfl := Option.some.inj h
    exact ⟨hresults, rfl⟩

theorem stable_mute : Stable fun _ p => Mute p := by
  intro executed p action p' hmute h
  obtain ⟨-, hstage, hresults, -⟩ := step_left hmute.stage h
  exact ⟨hresults.trans hmute.results, hstage⟩

theorem stable_inStep : Stable (InStep engine commands) := by
  intro executed p action p' hp h
  rcases hp.stage with hstage | hstage
  · obtain ⟨hnone, rfl⟩ := step_waiting hstage hp.noCommands h
    rw [hnone, List.append_nil]
    exact ⟨hp.noCommands, hp.noResults, .inr rfl, hp.caught.executed, hp.caught.engine⟩
  · obtain ⟨hnone, hstage', hresults, hcommands, hengine, -⟩ := step_left hstage h
    rw [hnone, List.append_nil]
    exact ⟨hcommands.trans hp.noCommands, hresults.trans hp.noResults, .inr hstage', hp.caught.executed,
      hengine.trans hp.caught.engine⟩

theorem stable_answering (hstop : command ≠ .stop) : Stable (Answering engine commands command serial) := by
  intro executed p action p' hp h
  cases hp with
  | sent hcommands hresults hstage caught =>
    cases action with
    | receive =>
      have hstep : p.step .receive = some { p with commands := [], stage := .executing serial command } := by
        cases command <;> simp_all [Peer.step, Peer.receive]
      obtain rfl := Option.some.inj (h.symm.trans hstep)
      exact .received rfl hresults rfl ⟨by simpa [Peer.performed] using caught.executed, caught.engine⟩
    | exit => exact .lost (mute_exit hresults h)
    | execute _ | reply | dropCommands | dropResults => simp [Peer.step, hstage] at h
  | received hcommands hresults hstage caught =>
    cases action with
    | execute device =>
      rcases hrun : execute device command p.engine with ⟨⟨⟩ | error | _, e⟩
      · have hstep : p.step (.execute device) = some { p with engine := e, stage := .replying ⟨serial, .ok ()⟩ } := by
          simp [Peer.step, hstage, hrun]
        obtain rfl := Option.some.inj (h.symm.trans hstep)
        refine .executed hcommands hresults rfl ⟨?_, ran_concat caught.engine hrun⟩
        simp [Peer.performed, hstage, hrun, caught.executed]
      · have hstep : p.step (.execute device) =
            some { p with engine := e, stage := .replying ⟨serial, .error (Error.display error)⟩ } := by
          simp [Peer.step, hstage, hrun]
        obtain rfl := Option.some.inj (h.symm.trans hstep)
        exact .failed _ hresults rfl
      · have hstep : p.step (.execute device) = some { p with engine := e, stage := .left } := by
          simp [Peer.step, hstage, hrun]
        obtain rfl := Option.some.inj (h.symm.trans hstep)
        exact .lost ⟨hresults, rfl⟩
    | exit => exact .lost (mute_exit hresults h)
    | receive | reply | dropCommands | dropResults => simp [Peer.step, Peer.receive, hstage] at h
  | executed hcommands hresults hstage caught =>
    cases action with
    | reply =>
      have hstep : p.step .reply = some { p with results := [⟨serial, .ok ()⟩], stage := .waiting } := by
        simp [Peer.step, hstage, hresults, Except.isOk, Except.toBool]
      obtain rfl := Option.some.inj (h.symm.trans hstep)
      exact .replied hcommands rfl (.inl rfl) ⟨by simpa [Peer.performed] using caught.executed, caught.engine⟩
    | exit => exact .lost (mute_exit hresults h)
    | receive | execute _ | dropCommands | dropResults => simp [Peer.step, Peer.receive, hstage] at h
  | failed message hresults hstage =>
    cases action with
    | reply =>
      have hstep : p.step .reply = some { p with results := [⟨serial, .error message⟩], stage := .left } := by
        simp [Peer.step, hstage, hresults, Except.isOk, Except.toBool]
      obtain rfl := Option.some.inj (h.symm.trans hstep)
      exact .refused message rfl rfl
    | exit => exact .lost (mute_exit hresults h)
    | receive | execute _ | dropCommands | dropResults => simp [Peer.step, Peer.receive, hstage] at h
  | replied hcommands hresults hstage caught =>
    rcases hstage with hstage | hstage
    · obtain ⟨hnone, rfl⟩ := step_waiting hstage hcommands h
      rw [hnone, List.append_nil]
      exact .replied hcommands hresults (.inr rfl) ⟨caught.executed, caught.engine⟩
    · obtain ⟨hnone, hstage', hresults', hcommands', hengine, -⟩ := step_left hstage h
      rw [hnone, List.append_nil]
      exact .replied (hcommands'.trans hcommands) (hresults'.trans hresults) (.inr hstage')
        ⟨caught.executed, hengine.trans caught.engine⟩
  | refused message hresults hstage =>
    obtain ⟨-, hstage', hresults', -⟩ := step_left hstage h
    exact .refused message (hresults'.trans hresults) hstage'
  | lost mute => exact .lost (stable_mute executed p action p' mute h)

end

/-! ## The engine set -/

namespace EngineSet

/-- The peer at an index, if there is one, with what it has executed. -/
def At (log : List Observation) (s : EngineSet) (i : Nat) (P : List (Command × Bool) → Peer → Prop) : Prop :=
  ∀ p, s.peers[i]? = some p → P (executions (i + 1) log) p

/-- From this index on, no reply is read any more. -/
def Fence (s : EngineSet) (m : Nat) : Prop :=
  m = s.peers.length ∨ ∃ p, s.peers[m]? = some p ∧ Mute p

/-- Some peer from this index on cannot be sent to. -/
def Stuck (s : EngineSet) (k : Nat) : Prop :=
  ∃ i p, k ≤ i ∧ s.peers[i]? = some p ∧ p.commandsDropped = true

/-- The peers up to a fence, which is not before `k`. -/
def Upto (log : List Observation) (s : EngineSet) (k : Nat) (P : Nat → List (Command × Bool) → Peer → Prop) : Prop :=
  ∃ m, k ≤ m ∧ Fence s m ∧ ∀ i < m, At log s i (P i)

/-- What the primary has executed, whether successfully or not. -/
structure Primary (engine : Engine) (commands : List Command) (log : List Observation) (s : EngineSet) : Prop where
  executed : (executions 0 log).map Prod.fst = commands
  engine : (∀ x ∈ executions 0 log, x.2 = true) → s.primary = ran engine commands

/-- The peers while the commands are sent: those before `k` have the new one. -/
def sendingPeer (engine : Engine) (commands : List Command) (command : Command) (serial k i : Nat) :
    List (Command × Bool) → Peer → Prop :=
  if i < k then Answering engine commands command serial else InStep engine commands

/-- The peers while the replies are read: those before `k` have been read. -/
def receivingPeer (engine : Engine) (commands : List Command) (command : Command) (serial k i : Nat) :
    List (Command × Bool) → Peer → Prop :=
  if i < k then InStep engine (commands ++ [command]) else Answering engine commands command serial

/-- The invariant of `dispatch`, by where it stands. -/
def InPhase (engine : Engine) (log : List Observation) (s : EngineSet) : Phase → Prop
  | .idle => Stuck s 0 ∨ Primary engine (begun log) log s ∧ Upto log s 0 fun _ => InStep engine (begun log)
  | .sending command k => command ≠ .stop ∧ ∃ commands, begun log = commands ++ [command] ∧
      (Stuck s k ∨ Primary engine commands log s ∧ Upto log s 0 (sendingPeer engine commands command s.serial k))
  | .receiving result k => ∃ commands command, command ≠ .stop ∧ begun log = commands ++ [command] ∧
      Primary engine (begun log) log s ∧ (result = .ok () → ∃ earlier, executions 0 log = earlier ++ [(command, true)]) ∧
      Upto log s k (receivingPeer engine commands command s.serial k)

structure Inv (world : Nat) (engine : Engine) (log : List Observation) (s : EngineSet) : Prop where
  world : s.peers.length = world - 1
  serial : s.serial = (begun log).length
  /-- A thread drops its ends of the channels when it has ended. -/
  dropped : ∀ p ∈ s.peers, p.resultsDropped = true → p.stage = .left
  phase : InPhase engine log s s.phase

/-! ### Steps of a peer -/

section
variable {world : Nat} {engine : Engine} {log : List Observation} {s u : EngineSet} {rank : Nat} {p p' : Peer}
variable {action : Action}

theorem stable_ite {P Q : List (Command × Bool) → Peer → Prop} (hP : Stable P) (hQ : Stable Q) (c : Prop) [Decidable c] :
    Stable (if c then P else Q) := by
  split
  · exact hP
  · exact hQ

/-- What is observed of a step of a peer's thread. -/
def performedBy (rank : Nat) (p : Peer) (action : Action) : List Observation :=
  (p.performed action).map fun (command, success) => .executed (rank + 1) command success

theorem step_peer (h : s.step (.peer rank action) = some u) : ∃ p p', s.peers[rank]? = some p ∧
    p.step action = some p' ∧ u = { s with peers := s.peers.set rank p' } ∧
      s.observe (.peer rank action) = performedBy rank p action := by
  simp only [step] at h
  split at h
  · rename_i p hp
    simp only [Option.map_eq_some_iff] at h
    obtain ⟨p', hp', rfl⟩ := h
    exact ⟨p, p', hp, hp', rfl, by simp [observe, hp, performedBy]⟩
  · cases h

theorem getElem?_set_peer (hp : s.peers[rank]? = some p) (i : Nat) :
    (s.peers.set rank p')[i]? = if i = rank then some p' else s.peers[i]? := by
  obtain ⟨hlt, -⟩ := List.getElem?_eq_some_iff.mp hp
  by_cases h : i = rank
  · subst h
    simp [hlt]
  · simp [h, List.getElem?_set_ne (Ne.symm h)]

theorem at_peer {P : List (Command × Bool) → Peer → Prop} (hP : Stable P) (hp : s.peers[rank]? = some p)
    (hstep : p.step action = some p') {i : Nat} (h : At log s i P) :
    At (log ++ performedBy rank p action) { s with peers := s.peers.set rank p' } i P := by
  intro q hq
  rw [getElem?_set_peer hp] at hq
  rw [executions_append, performedBy, executions_performed]
  split at hq
  · rename_i hi
    subst hi
    obtain rfl := Option.some.inj hq
    simpa using hP _ p action p' (h p hp) hstep
  · rename_i hi
    rw [if_neg (by omega), List.append_nil]
    exact h q hq

theorem fence_set (hp : s.peers[rank]? = some p) (hmute : Mute p → Mute p') {m : Nat} (h : Fence s m)
    (phase : Phase) : Fence { s with peers := s.peers.set rank p', phase := phase } m := by
  rcases h with rfl | ⟨q, hq, hmute'⟩
  · exact .inl (by simp)
  · refine .inr ?_
    simp only [getElem?_set_peer hp]
    split
    · rename_i hm
      subst hm
      obtain rfl := Option.some.inj (hp.symm.trans hq)
      exact ⟨p', rfl, hmute hmute'⟩
    · exact ⟨q, hq, hmute'⟩

theorem upto_peer {P : Nat → List (Command × Bool) → Peer → Prop} (hP : ∀ i, Stable (P i))
    (hp : s.peers[rank]? = some p) (hstep : p.step action = some p') {k : Nat} (h : Upto log s k P) :
    Upto (log ++ performedBy rank p action) { s with peers := s.peers.set rank p' } k P := by
  obtain ⟨m, hk, hfence, hall⟩ := h
  exact ⟨m, hk, fence_set hp (stable_mute [] p action p' · hstep) hfence _, fun i hi => at_peer (hP i) hp hstep (hall i hi)⟩

theorem stuck_peer (hp : s.peers[rank]? = some p) (hstep : p.step action = some p') {k : Nat} (h : Stuck s k) :
    Stuck { s with peers := s.peers.set rank p' } k := by
  obtain ⟨i, q, hi, hq, hdropped⟩ := h
  by_cases heq : i = rank
  · subst heq
    obtain rfl := Option.some.inj (hp.symm.trans hq)
    exact ⟨i, p', hi, by simp [getElem?_set_peer hp], commandsDropped_step hstep hdropped⟩
  · exact ⟨i, q, hi, by simp [getElem?_set_peer hp, heq, hq], hdropped⟩

theorem primary_append {commands : List Command} {seen : List Observation} (h : Primary engine commands log s)
    (hseen : executions 0 seen = []) {peers : List Peer} {phase : Phase} {serial : Nat} :
    Primary engine commands (log ++ seen) ⟨s.primary, peers, phase, serial⟩ := by
  constructor
  · rw [executions_append, hseen, List.append_nil]
    exact h.executed
  · rw [executions_append, hseen, List.append_nil]
    exact h.engine

theorem resultsDropped_step (hstep : p.step action = some p') (hbefore : p.resultsDropped = true → p.stage = .left)
    (hafter : p'.resultsDropped = true) : p'.stage = .left := by
  by_cases hstage : p.stage = .left
  · exact (step_left hstage hstep).2.1
  · have hnot : p.resultsDropped = false := Bool.eq_false_iff.mpr fun h => hstage (hbefore h)
    cases action with
    | receive =>
      simp only [Peer.step, Peer.receive] at hstep
      split at hstep <;> simp_all <;> subst hstep <;> simp_all
    | execute device =>
      simp only [Peer.step] at hstep
      split at hstep
      · split at hstep <;> simp_all <;> subst hstep <;> simp_all
      · cases hstep
    | reply =>
      simp only [Peer.step] at hstep
      split at hstep <;> simp_all <;> subst hstep <;> simp_all
    | exit => simp_all [Peer.step]; subst hstep; rfl
    | dropCommands | dropResults => simp_all [Peer.step]

theorem inv_peer (h : Inv world engine log s) (hstep : s.step (.peer rank action) = some u) :
    Inv world engine (log ++ s.observe (.peer rank action)) u := by
  obtain ⟨p, p', hp, hp', rfl, hseen⟩ := step_peer hstep
  rw [hseen]
  have hbegun : begun (log ++ performedBy rank p action) = begun log := by
    rw [begun_append, performedBy, begun_performed, List.append_nil]
  have hzero : executions 0 (performedBy rank p action) = [] := by
    rw [performedBy, executions_performed, if_neg (Nat.succ_ne_zero rank)]
  refine ⟨by simpa using h.world, by rw [hbegun]; exact h.serial, ?_, ?_⟩
  · intro q hq
    rcases List.mem_or_eq_of_mem_set hq with hq | rfl
    · exact h.dropped q hq
    · exact resultsDropped_step hp' (h.dropped p (List.mem_of_getElem? hp))
  · have hphase := h.phase
    revert hphase
    cases s.phase with
    | idle =>
      simp only [InPhase, hbegun]
      exact Or.imp (stuck_peer hp hp') fun ⟨hprimary, hupto⟩ =>
        ⟨primary_append hprimary hzero, upto_peer (fun _ => stable_inStep) hp hp' hupto⟩
    | sending command k =>
      simp only [InPhase, hbegun]
      rintro ⟨hstop, commands, hcommands, hrest⟩
      refine ⟨hstop, commands, hcommands, hrest.imp (stuck_peer hp hp') fun ⟨hprimary, hupto⟩ =>
        ⟨primary_append hprimary hzero, upto_peer (fun _ => ?_) hp hp' hupto⟩⟩
      exact stable_ite (stable_answering hstop) stable_inStep _
    | receiving result k =>
      simp only [InPhase, hbegun]
      rintro ⟨commands, command, hstop, hcommands, hprimary, hlast, hupto⟩
      refine ⟨commands, command, hstop, hcommands, primary_append hprimary hzero, ?_,
        upto_peer (fun _ => stable_ite stable_inStep (stable_answering hstop) _) hp hp' hupto⟩
      rwa [executions_append, hzero, List.append_nil]

end

/-! ### Steps of the dispatcher -/

section
variable {world : Nat} {engine : Engine} {log : List Observation} {s u : EngineSet}

/-- The peers are looked at after a step that observes nothing of them. -/
theorem at_append {P : List (Command × Bool) → Peer → Prop} {i : Nat} (h : At log s i P) {seen : List Observation}
    (hseen : executions (i + 1) seen = []) (hpeers : u.peers = s.peers) : At (log ++ seen) u i P := by
  intro p hp
  rw [executions_append, hseen, List.append_nil]
  exact h p (hpeers ▸ hp)

theorem inv_dispatch (h : Inv world engine log s) {command : Command} (hstep : s.step (.dispatch command) = some u) :
    Inv world engine (log ++ s.observe (.dispatch command)) u := by
  simp only [step] at hstep
  split at hstep
  · rename_i hidle
    obtain rfl := Option.some.inj hstep
    have hphase := h.phase
    rw [hidle.1] at hphase
    have hbegun : begun (log ++ s.observe (.dispatch command)) = begun log ++ [command] := begun_append
    refine ⟨h.world, by rw [hbegun, List.length_append, h.serial]; rfl, h.dropped, ?_⟩
    refine ⟨hidle.2, begun log, hbegun, hphase.imp id fun ⟨hprimary, m, hk, hfence, hall⟩ =>
      ⟨primary_append hprimary rfl, m, hk, hfence, fun i hi => ?_⟩⟩
    rw [sendingPeer, if_neg (Nat.not_lt_zero i)]
    exact at_append (hall i hi) rfl rfl
  · cases hstep

/-- A peer in step that is sent a command has it to answer, or is gone. -/
theorem answering_of_inStep {commands : List Command} {command : Command} {serial : Nat} {executed : List (Command × Bool)}
    {p : Peer} (h : InStep engine commands executed p) :
    Answering engine commands command serial executed { p with commands := p.commands ++ [(serial, command)] } := by
  rcases h.stage with hstage | hstage
  · exact .sent (by simp [h.noCommands]) h.noResults hstage ⟨h.caught.executed, h.caught.engine⟩
  · exact .lost ⟨h.noResults, hstage⟩

theorem inv_send (h : Inv world engine log s) (hstep : s.step .send = some u) :
    Inv world engine (log ++ s.observe .send) u := by
  simp only [step] at hstep
  split at hstep
  · rename_i command k hsending
    split at hstep
    · rename_i p hp
      have hphase := h.phase
      rw [hsending] at hphase
      obtain ⟨hstop, commands, hcommands, hrest⟩ := hphase
      split at hstep
      · rename_i hdropped
        obtain rfl := Option.some.inj hstep
        have hobserve : s.observe .send = [.returned peerStopped] := by simp [observe, hsending, hp, hdropped]
        rw [hobserve]
        exact ⟨h.world, by rw [begun_append]; simpa [begun] using h.serial, h.dropped, .inl ⟨k, p, Nat.zero_le k, hp, hdropped⟩⟩
      · rename_i hopen
        obtain rfl := Option.some.inj hstep
        have hobserve : s.observe .send = [] := by simp [observe, hsending, hp, hopen]
        rw [hobserve, List.append_nil]
        refine ⟨by simpa using h.world, h.serial, fun q hq => ?_, hstop, commands, hcommands, ?_⟩
        · rcases List.mem_or_eq_of_mem_set hq with hq | rfl
          · exact h.dropped q hq
          · exact h.dropped p (List.mem_of_getElem? hp)
        · refine hrest.imp ?_ fun ⟨hprimary, m, hm, hfence, hall⟩ => ⟨⟨hprimary.executed, hprimary.engine⟩, m, hm, ?_, ?_⟩
          · rintro ⟨i, q, hi, hq, hdropped⟩
            have hne : i ≠ k := by
              rintro rfl
              exact hopen ((Option.some.inj (hp.symm.trans hq)) ▸ hdropped)
            exact ⟨i, q, by omega, by simp [getElem?_set_peer hp, hne, hq], hdropped⟩
          · refine fence_set hp (fun hmute => ?_) hfence _
            exact ⟨hmute.results, hmute.stage⟩
          · intro i hi q hq
            simp only [getElem?_set_peer hp] at hq
            split at hq
            · rename_i heq
              subst heq
              obtain rfl := Option.some.inj hq
              have hin := hall i hi p hp
              rw [sendingPeer, if_neg (Nat.lt_irrefl i)] at hin
              rw [sendingPeer, if_pos (Nat.lt_succ_self i)]
              exact answering_of_inStep hin
            · rename_i hne
              have hin := hall i hi q hq
              simp only [sendingPeer, show i < k + 1 ↔ i < k by omega] at hin ⊢
              exact hin
    · cases hstep
  · cases hstep

theorem Fence.le {m : Nat} (h : Fence s m) : m ≤ s.peers.length := by
  rcases h with rfl | ⟨p, hp, -⟩
  · exact le_rfl
  · obtain ⟨hlt, -⟩ := List.getElem?_eq_some_iff.mp hp
    exact hlt.le

theorem inv_execute (h : Inv world engine log s) {device : Option Error} (hstep : s.step (.execute device) = some u) :
    Inv world engine (log ++ s.observe (.execute device)) u := by
  simp only [step] at hstep
  split at hstep
  · rename_i command k hsending
    split at hstep
    · rename_i hk
      obtain rfl := Option.some.inj hstep
      have hphase := h.phase
      rw [hsending] at hphase
      obtain ⟨hstop, commands, hcommands, hrest⟩ := hphase
      -- every peer has been sent to
      have hunstuck : ¬Stuck s k := by
        rintro ⟨i, p, hi, hp, -⟩
        obtain ⟨hlt, -⟩ := List.getElem?_eq_some_iff.mp hp
        omega
      obtain ⟨hprimary, m, hm, hfence, hall⟩ := hrest.resolve_left hunstuck
      have hobserve : s.observe (.execute device) =
          [.executed 0 command ((Parallel.execute device command s.primary).1 = .ok ())] := by simp [observe, hsending]
      rw [hobserve]
      have hexecuted : executions 0 [.executed 0 command (decide ((Parallel.execute device command s.primary).1 = .ok ()))] =
          [(command, decide ((Parallel.execute device command s.primary).1 = .ok ()))] := rfl
      have hbegun (success : Bool) : begun (log ++ [.executed 0 command success]) = commands ++ [command] := by
        rw [begun_append, hcommands]
        simp [begun]
      refine ⟨h.world, by rw [begun_append]; simpa [begun] using h.serial, h.dropped,
        commands, command, hstop, hbegun _, ⟨?_, ?_⟩, ?_, m, hm, hfence, fun i hi => ?_⟩
      · rw [executions_append, hexecuted, hbegun, List.map_append, hprimary.executed]
        rfl
      · rw [executions_append, hexecuted, hbegun]
        intro hall
        have hok : (Parallel.execute device command s.primary).1 = .ok () := by
          simpa using hall _ (List.mem_append_right _ List.mem_cons_self)
        have hbefore := hprimary.engine fun x hx => hall x (List.mem_append_left _ hx)
        exact ran_concat hbefore (Prod.ext hok rfl)
      · intro hok
        rw [executions_append, hexecuted]
        exact ⟨_, by rw [decide_eq_true hok]⟩
      · have hin := hall i hi
        have hlt := hfence.le
        rw [sendingPeer, if_pos (by omega)] at hin
        rw [receivingPeer, if_neg (Nat.not_lt_zero i)]
        exact at_append hin rfl rfl
    · cases hstep
  · cases hstep

/-- The reply that is read next, and the peer without it. -/
theorem reading {commands : List Command} {command : Command} {k : Nat} {p : Peer} (hp : s.peers[k]? = some p)
    (h : Upto log s k (receivingPeer engine commands command s.serial k)) :
    (p.results = [⟨s.serial, .ok ()⟩] ∧
      InStep engine (commands ++ [command]) (executions (k + 1) log) { p with results := [] } ∧
      ∃ m, k < m ∧ Fence s m ∧ ∀ i < m, At log s i (receivingPeer engine commands command s.serial k i)) ∨
    (∃ message, p.results = [⟨s.serial, .error message⟩] ∧ Mute { p with results := [] }) ∨ p.results = [] := by
  obtain ⟨m, hk, hfence, hall⟩ := h
  rcases hk.eq_or_lt with rfl | hlt
  · rcases hfence with hlength | ⟨q, hq, hmute⟩
    · obtain ⟨hlt, -⟩ := List.getElem?_eq_some_iff.mp hp
      omega
    · obtain rfl := Option.some.inj (hp.symm.trans hq)
      exact .inr (.inr hmute.results)
  · have hin := hall k hlt p hp
    rw [receivingPeer, if_neg (Nat.lt_irrefl k)] at hin
    cases hin with
    | replied hcommands hresults hstage caught =>
      exact .inl ⟨hresults, ⟨hcommands, rfl, hstage, caught.executed, caught.engine⟩, m, hlt, hfence, hall⟩
    | refused message hresults hstage => exact .inr (.inl ⟨message, hresults, rfl, hstage⟩)
    | sent _ hresults _ _ | received _ hresults _ _ | executed _ hresults _ _ | failed _ hresults _ =>
      exact .inr (.inr hresults)
    | lost mute => exact .inr (.inr mute.results)

theorem inv_receive (h : Inv world engine log s) (hstep : s.step .receive = some u) :
    Inv world engine (log ++ s.observe .receive) u := by
  simp only [step] at hstep
  split at hstep
  · rename_i result k hreceiving
    split at hstep
    · rename_i p hp
      have hphase := h.phase
      rw [hreceiving] at hphase
      obtain ⟨commands, command, hstop, hcommands, hprimary, hlast, hupto⟩ := hphase
      have hbefore : ∀ i < k, At log s i (InStep engine (begun log)) := by
        obtain ⟨m, hk, -, hall⟩ := hupto
        intro i hi
        have hin := hall i (by omega)
        rwa [receivingPeer, if_pos hi, ← hcommands] at hin
      have hdropped (q : Peer) (hq : q.resultsDropped = p.resultsDropped) (hstage : q.stage = p.stage) :
          ∀ q' ∈ s.peers.set k q, q'.resultsDropped = true → q'.stage = .left := by
        intro q' hq'
        rcases List.mem_or_eq_of_mem_set hq' with hq' | rfl
        · exact h.dropped q' hq'
        · rw [hq, hstage]
          exact h.dropped p (List.mem_of_getElem? hp)
      have hother (q : Peer) {i : Nat} (hi : i ≠ k) {P : List (Command × Bool) → Peer → Prop} (hin : At log s i P)
          {seen : List Observation} (hseen : executions (i + 1) seen = []) (phase : Phase) :
          At (log ++ seen) { s with peers := s.peers.set k q, phase := phase } i P := by
        intro q' hq'
        simp only [getElem?_set_peer hp, if_neg hi] at hq'
        rw [executions_append, hseen, List.append_nil]
        exact hin q' hq'
      obtain ⟨hresults, hin, m, hk, hfence, hall⟩ | ⟨message, hresults, hmute⟩ | hresults := reading hp hupto
      · -- an acknowledgement
        simp only [receive, hresults, Option.map_some] at hstep
        obtain rfl := Option.some.inj hstep
        have hobserve : s.observe .receive = [.acknowledged s.serial s.serial] := by
          simp [observe, hreceiving, hp, hresults]
        rw [hobserve]
        refine ⟨by simpa using h.world, by rw [begun_append]; simpa [begun] using h.serial, hdropped _ rfl rfl, ?_⟩
        have hbegun : begun (log ++ [.acknowledged s.serial s.serial]) = begun log := by simp [begun]
        refine ⟨commands, command, hstop, hbegun.trans hcommands, hbegun ▸ primary_append hprimary rfl, ?_, m, hk, ?_,
          fun i hi => ?_⟩
        · simpa [executions] using hlast
        · refine fence_set hp (fun hmute => ?_) hfence _
          exact ⟨rfl, hmute.stage⟩
        · by_cases heq : i = k
          · subst heq
            rw [receivingPeer, if_pos (Nat.lt_succ_self i)]
            intro q hq
            simp only [getElem?_set_peer hp, if_pos] at hq
            obtain rfl := Option.some.inj hq
            simpa [executions] using hin
          · have hsame := hall i hi
            simp only [receivingPeer, show i < k + 1 ↔ i < k by omega] at hsame ⊢
            exact hother _ heq hsame rfl _
      · -- the reply of a command that failed
        simp only [receive, hresults, Option.map_some] at hstep
        obtain rfl := Option.some.inj hstep
        have hobserve : s.observe .receive = [.acknowledged s.serial s.serial, .returned (invalid message)] := by
          simp [observe, hreceiving, hp, hresults]
        rw [hobserve]
        have hbegun : begun (log ++ [.acknowledged s.serial s.serial, .returned (invalid message)]) = begun log := by
          simp [begun]
        refine ⟨by simpa using h.world, by rw [hbegun]; exact h.serial, hdropped _ rfl rfl, .inr ?_⟩
        refine ⟨hbegun ▸ primary_append hprimary rfl, k, Nat.zero_le k, .inr ⟨_, ?_, hmute⟩, fun i hi => ?_⟩
        · simp only [getElem?_set_peer hp, if_pos]
        · rw [hbegun]
          exact hother _ (by omega) (hbefore i hi) rfl _
      · -- no reply: the thread has ended
        have hset : s.peers.set k p = s.peers := by
          obtain ⟨hlt, rfl⟩ := List.getElem?_eq_some_iff.mp hp
          exact List.set_getElem_self hlt
        simp only [receive, hresults] at hstep
        split at hstep
        · rename_i hgone
          simp only [Option.map_some, hset] at hstep
          obtain rfl := Option.some.inj hstep
          have hobserve : s.observe .receive = [.returned peerStopped] := by simp [observe, hreceiving, hp, hresults]
          rw [hobserve]
          have hbegun : begun (log ++ [.returned peerStopped]) = begun log := by simp [begun]
          have hmute : Mute p := ⟨hresults, h.dropped p (List.mem_of_getElem? hp) hgone⟩
          refine ⟨h.world, by rw [hbegun]; exact h.serial, h.dropped, .inr ?_⟩
          refine ⟨hbegun ▸ primary_append hprimary rfl, k, Nat.zero_le k, .inr ⟨p, hp, hmute⟩, fun i hi => ?_⟩
          rw [hbegun]
          exact at_append (hbefore i hi) rfl rfl
        · cases hstep
    · cases hstep
  · cases hstep

theorem inv_finish (h : Inv world engine log s) (hstep : s.step .finish = some u) :
    Inv world engine (log ++ s.observe .finish) u ∧ u.peers = s.peers ∧ u.primary = s.primary ∧
      (∀ i < s.peers.length, At log s i (InStep engine (begun log))) ∧ Primary engine (begun log) log s ∧
      ∃ result, s.observe .finish = [.returned result] ∧
        (result = .ok () → ∃ earlier command, executions 0 log = earlier ++ [(command, true)]) := by
  simp only [step] at hstep
  split at hstep
  · rename_i result k hreceiving
    split at hstep
    · rename_i hk
      obtain rfl := Option.some.inj hstep
      have hphase := h.phase
      rw [hreceiving] at hphase
      obtain ⟨commands, command, hstop, hcommands, hprimary, hlast, m, hm, hfence, hall⟩ := hphase
      obtain rfl : m = k := le_antisymm (hfence.le.trans_eq hk.symm) hm
      have hin : ∀ i < m, At log s i (InStep engine (begun log)) := by
        intro i hi
        have hin := hall i hi
        rwa [receivingPeer, if_pos hi, ← hcommands] at hin
      have hobserve : s.observe .finish = [.returned result] := by simp [observe, hreceiving]
      have hbegun : begun (log ++ [.returned result]) = begun log := by simp [begun]
      refine ⟨?_, rfl, rfl, hk ▸ hin, hprimary, result, hobserve, fun hok => ?_⟩
      · rw [hobserve]
        refine ⟨h.world, by rw [hbegun]; exact h.serial, h.dropped, .inr ?_⟩
        refine ⟨hbegun ▸ primary_append hprimary rfl, m, Nat.zero_le m, hfence, fun i hi => ?_⟩
        rw [hbegun]
        exact at_append (hin i hi) rfl rfl
      · obtain ⟨earlier, hearlier⟩ := hlast hok
        exact ⟨earlier, command, hearlier⟩
    · cases hstep
  · cases hstep

end

/-! ### Runs -/

/-- Every peer has executed the commands dispatched, each once, in order and successfully.
The primary has executed them too, and the last one successfully. -/
structure Agreed (world : Nat) (log : List Observation) : Prop where
  peers : ∀ rank, 0 < rank → rank < world → executions rank log = (begun log).map (·, true)
  primary : (executions 0 log).map Prod.fst = begun log
  last : ∃ earlier command, executions 0 log = earlier ++ [(command, true)]

/-- What is known where it is observed. -/
def Sound (world : Nat) (before : List Observation) : Observation → Prop
  | .acknowledged dispatched answered => answered = dispatched ∧ dispatched = (begun before).length
  | .returned (.ok ()) => Agreed world before
  | _ => True

section
variable {world : Nat} {engine : Engine} {log : List Observation} {s u : EngineSet}

theorem inv_new (world : Nat) (engine : Engine) : Inv world engine [] (new world engine) := by
  refine ⟨by simp [new], rfl, ?_, .inr ⟨⟨rfl, fun _ => rfl⟩, _, Nat.zero_le _, .inl rfl, fun i hi p hp => ?_⟩⟩
  · intro p hp
    obtain rfl := List.eq_of_mem_replicate hp
    exact nofun
  · obtain rfl := List.eq_of_mem_replicate (List.mem_of_getElem? hp)
    exact ⟨rfl, rfl, .inl rfl, rfl, rfl⟩

theorem inv_step (h : Inv world engine log s) {label : Label} (hstep : s.step label = some u) :
    Inv world engine (log ++ s.observe label) u := by
  cases label with
  | dispatch command => exact inv_dispatch h hstep
  | send => exact inv_send h hstep
  | execute device => exact inv_execute h hstep
  | receive => exact inv_receive h hstep
  | finish => exact (inv_finish h hstep).1
  | peer rank action => exact inv_peer h hstep

theorem agreed_of_finish (h : Inv world engine log s) (hstep : s.step .finish = some u)
    (hobserve : s.observe .finish = [.returned (.ok ())]) : Agreed world log := by
  obtain ⟨-, -, -, hin, hprimary, result, hresult, hlast⟩ := inv_finish h hstep
  obtain rfl : result = .ok () := by simpa using hresult.symm.trans hobserve
  refine ⟨fun rank hpos hrank => ?_, hprimary.executed, hlast rfl⟩
  have hlt : rank - 1 < s.peers.length := by
    have := h.world
    omega
  have hcaught := (hin (rank - 1) hlt _ (List.getElem?_eq_getElem hlt)).caught
  rw [← hcaught.executed, Nat.sub_add_cancel hpos]

theorem observe_send (s : EngineSet) : s.observe .send = [] ∨ s.observe .send = [.returned peerStopped] := by
  simp only [observe]
  split
  · split
    · split
      · exact .inr rfl
      · exact .inl rfl
    · exact .inl rfl
  · exact .inl rfl

theorem observe_execute (s : EngineSet) (device : Option Error) : s.observe (.execute device) = [] ∨
    ∃ command success, s.observe (.execute device) = [.executed 0 command success] := by
  simp only [observe]
  split
  · exact .inr ⟨_, _, rfl⟩
  · exact .inl rfl

theorem observe_receive (h : Inv world engine log s) (hstep : s.step .receive = some u) :
    s.observe .receive = [.acknowledged s.serial s.serial] ∨
    (∃ message, s.observe .receive = [.acknowledged s.serial s.serial, .returned (invalid message)]) ∨
    s.observe .receive = [.returned peerStopped] := by
  simp only [step] at hstep
  split at hstep
  · rename_i result k hreceiving
    split at hstep
    · rename_i p hp
      have hphase := h.phase
      rw [hreceiving] at hphase
      obtain ⟨commands, command, -, -, -, -, hupto⟩ := hphase
      obtain ⟨hresults, -⟩ | ⟨message, hresults, -⟩ | hresults := reading hp hupto
      · exact .inl (by simp only [observe, hreceiving, hp, hresults])
      · exact .inr (.inl ⟨message, by simp only [observe, hreceiving, hp, hresults]⟩)
      · exact .inr (.inr (by simp only [observe, hreceiving, hp, hresults]))
    · cases hstep
  · cases hstep

theorem preceded_step (h : Inv world engine log s) (hlog : Trace.Preceded (Sound world) log) {label : Label}
    (hstep : s.step label = some u) : Trace.Preceded (Sound world) (log ++ s.observe label) := by
  cases label with
  | dispatch command => exact hlog.concat trivial
  | send =>
    rcases observe_send s with hseen | hseen <;> rw [hseen]
    · rwa [List.append_nil]
    · exact hlog.concat trivial
  | execute device =>
    obtain hseen | ⟨command, success, hseen⟩ := observe_execute s device <;> rw [hseen]
    · rwa [List.append_nil]
    · exact hlog.concat trivial
  | receive =>
    have hacknowledged := Trace.Preceded.concat hlog (show Sound world log (.acknowledged s.serial s.serial) from ⟨rfl, h.serial⟩)
    obtain hseen | ⟨message, hseen⟩ | hseen := observe_receive h hstep <;> rw [hseen]
    · exact hacknowledged
    · rw [List.append_cons]
      exact hacknowledged.concat trivial
    · exact hlog.concat trivial
  | finish =>
    obtain ⟨-, -, -, -, -, result, hresult, -⟩ := inv_finish h hstep
    rw [hresult]
    refine hlog.concat ?_
    rcases result with ⟨⟩ | _ | _
    · exact agreed_of_finish h hstep hresult
    · trivial
    · trivial
  | peer rank action =>
    obtain ⟨p, p', -, -, -, hseen⟩ := step_peer hstep
    rw [hseen]
    refine hlog.append ?_ ?_
    · cases action <;> simp [performedBy, Peer.performed]
      split <;> simp
    · intro o ho
      obtain ⟨⟨command, success⟩, -, rfl⟩ := List.mem_map.mp ho
      trivial

theorem reached_inv (h : Trace.Reached step observe (fun _ _ => True) (new world engine) log s) :
    Inv world engine log s ∧ Trace.Preceded (Sound world) log := by
  induction h with
  | start => exact ⟨inv_new world engine, Trace.preceded_nil⟩
  | step _ _ hstep ih => exact ⟨inv_step ih.1 hstep, preceded_step ih.1 ih.2 hstep⟩

/-- Ranks prepared alike stay in lockstep as far as `dispatch` says so. -/
theorem lockstep (world : Nat) (engine : Engine) {log : List Observation} {s : EngineSet}
    (h : Trace.Reached step observe (fun _ _ => True) (new world engine) log s) :
    Trace.Preceded (Sound world) log ∧
    (∀ before after, log = before ++ .returned (.ok ()) :: after →
      ∀ rank, 0 < rank → rank < world → ∀ command, .executed rank command false ∉ before) ∧
    ∀ u, s.step .finish = some u → s.observe .finish = [.returned (.ok ())] →
      (∀ x ∈ executions 0 log, x.2 = true) → ∀ p ∈ u.peers, p.engine = u.primary := by
  obtain ⟨hinv, hlog⟩ := reached_inv h
  refine ⟨hlog, fun before after heq rank hpos hrank command hmem => ?_, fun u hstep hobserve hall p hp => ?_⟩
  · have hagreed : Agreed world before := hlog before _ after heq
    have hfailed : (command, false) ∈ executions rank before :=
      List.mem_filterMap.mpr ⟨_, hmem, by simp⟩
    rw [hagreed.peers rank hpos hrank] at hfailed
    simp at hfailed
  · obtain ⟨-, hpeers, hsame, hin, hprimary, -⟩ := inv_finish hinv hstep
    rw [hpeers] at hp
    obtain ⟨i, hi, rfl⟩ := List.getElem_of_mem hp
    rw [hsame, hprimary.engine hall]
    exact (hin i hi _ (List.getElem?_eq_getElem hi)).caught.engine

end

/-- Two ranks dispatch one command. -/
def sampleDispatch (command : Command) (device : Option Error) : List Label :=
  [.dispatch command, .send, .peer 0 .receive, .peer 0 (.execute none), .execute device, .peer 0 .reply, .receive, .finish]

theorem lockstep_sample : ∃ log s, s.primary.frontiers = [1] ∧
    Trace.Reached step observe (fun _ _ => True) (new 2 (Engine.new 1 9 8)) log s ∧ Trace.Preceded (Sound 2) log := by
  obtain ⟨⟨log, s⟩, hwalk, hfrontiers⟩ : ∃ t, Trace.walk step observe
      (sampleDispatch (.consume [(0, 7)]) none) (new 2 (Engine.new 1 9 8)) = some t ∧ t.2.primary.frontiers = [1] :=
    ⟨_, rfl, by decide +kernel⟩
  have hreached := Trace.reached_of_walk hwalk
  exact ⟨log, s, hfrontiers, hreached, (lockstep 2 (Engine.new 1 9 8) hreached).1⟩

/-- A command that fails on the primary alone does not stop the next one. -/
theorem lockstep_primary_failed : ∃ log s before after,
    Trace.Reached step observe (fun _ _ => True) (new 2 (Engine.new 1 9 8)) log s ∧
    log = before ++ .returned (.ok ()) :: after ∧ .executed 0 (.consume [(0, 7)]) false ∈ before ∧
    s.primary.frontiers = [1] ∧ s.peers.map (·.engine.frontiers) = [[2]] := by
  obtain ⟨⟨log, s⟩, hwalk, hlog, hprimary, hpeers⟩ : ∃ t, Trace.walk step observe
      (sampleDispatch (.consume [(0, 7)]) (some (.backend "device")) ++ sampleDispatch (.consume [(0, 8)]) none)
      (new 2 (Engine.new 1 9 8)) = some t ∧
      (t.1 = t.1.dropLast ++ [.returned (.ok ())] ∧ .executed 0 (.consume [(0, 7)]) false ∈ t.1.dropLast) ∧
      t.2.primary.frontiers = [1] ∧ t.2.peers.map (·.engine.frontiers) = [[2]] :=
    ⟨_, rfl, ⟨by decide +kernel, by decide +kernel⟩, by decide +kernel, by decide +kernel⟩
  exact ⟨log, s, log.dropLast, [], Trace.reached_of_walk hwalk, hlog.1, hlog.2, hprimary, hpeers⟩

end EngineSet

end Inferfabric.Native.Parallel
