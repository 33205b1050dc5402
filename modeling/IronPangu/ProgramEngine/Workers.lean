-- SUMMARY: The worker group of the native engine: one caller and one thread for each rank, step by step, and what is seen of their steps.
import IronPangu.ProgramEngine
import IronPangu.Lib.Trace

/-!
# The worker group

Every critical section is one step. The execution of a command is a step of its
own, outside the lock: it reads the argument buffers as they are then. The caller
writes these buffers outside the lock as well, before it comes to submit.
-/

namespace Inferfabric.ProgramEngine

open Execution

/-! ## Argument buffers -/

/-- The buffers that a command's execution reads and a call writes. -/
structure Buffers where
  chunkTokens : List Nat
  batchMembers : List SequenceSlice
  batchSampleRows : List Nat
  bindingComponent : String
  bindingPages : List Int
  deriving DecidableEq, Repr

def Engine.buffers (e : Engine) : Buffers where
  chunkTokens := e.chunkTokens
  batchMembers := e.batchMembers
  batchSampleRows := e.batchSampleRows
  bindingComponent := e.bindingComponent
  bindingPages := e.bindingPages

/-- What the execution of a command reads from the buffers. -/
inductive Arguments where
  | none
  | chunk (tokens : List Nat)
  | batch (tokens : List Nat) (members : List SequenceSlice) (sampleRows : List Nat)
  | pages (component : String) (pages : List Int)
  deriving DecidableEq, Repr

def Buffers.arguments (b : Buffers) (rank : Nat) (order : Submission) : Arguments :=
  match order.command with
  | .prefill => .chunk b.chunkTokens
  | .batch => .batch b.chunkTokens b.batchMembers b.batchSampleRows
  | .bindPages => if rank = order.token then .pages b.bindingComponent b.bindingPages else .none
  | _ => .none

/-! ## Threads -/

/-- An exception on its way to the handler of a rank thread. -/
inductive Thrown where
  | exception (what : String)
  | other
  deriving DecidableEq, Repr

/-- What the device has come back with. -/
structure Device where
  sampled : Nat
  rows : List Nat
  deriving DecidableEq, Repr

/-- Where a rank thread is. A command is copied when it is taken up. -/
inductive Worker where
  | preparing
  | waiting (seen : Nat)
  | taken (seen : Nat) (order : Submission)
  | executed (seen : Nat) (order : Submission) (next : Nat) (nextBatch : List Nat)
  | leaving
  | thrown (e : Thrown)
  | ended
  deriving DecidableEq, Repr

/-- Where the caller's thread is. `unwinding` has seen `start` throw. -/
inductive Caller where
  | opening
  | unwinding
  | idle
  | submitting (s : Submission) (resume : Nat → Engine → Progress (List Nat))
  | waiting (resume : Nat → Engine → Progress (List Nat))
  | closed

structure Group where
  engine : Engine
  workers : List Worker
  caller : Caller

/-- A step of a rank thread. -/
inductive Action where
  | prepare
  | take
  | execute (outcome : Except Thrown Device)
  | finish
  | leave
  | raise (e : Thrown)
  | handle
  deriving Repr

/-- A step of the caller or of a rank. -/
inductive Step where
  | started
  | call (request : Request)
  | submit
  | wake
  | close
  | rank (rank : Nat) (action : Action)
  deriving Repr

namespace Group

/-- `start` has made one thread for each rank. -/
def new (program : Plan) (ranks vocabulary : Nat) : Group where
  engine := .new program ranks vocabulary
  workers := List.replicate ranks .preparing
  caller := .opening

/-! ## The caller -/

/-- Run the caller up to where it next stops. A throw is caught by `call`. -/
def settle (g : Group) : Progress (List Nat) → Group
  | .done _ e => { g with engine := e, caller := .idle }
  | .threw _ e => { g with engine := e, caller := .idle }
  | .submit s e resume => { g with engine := e, caller := .submitting s resume }

/-- Whether `submit` refuses, "worker group unavailable". -/
def unavailable (g : Group) : Bool := g.engine.stopping || g.engine.failure ≠ ""

/-- The first critical section of `submit`. -/
def submit (g : Group) (s : Submission) (resume : Nat → Engine → Progress (List Nat)) : Group :=
  if g.unavailable then { g with caller := .idle }
  else { g with
    engine := { g.engine with
      command := s.command
      input := s.token
      position := s.pos
      sample := s.want
      finished := 0
      generation := g.engine.generation + 1 }
    caller := .waiting resume }

/-! ## The ranks -/

/-- The command a rank finds under the lock. -/
def order (g : Group) : Submission :=
  ⟨g.engine.command, g.engine.input, g.engine.position, g.engine.sample⟩

/-- The handlers of `worker`. -/
def recordFailure (e : Engine) (rank : Nat) : Thrown → Engine
  | .exception what => { e with
      failure := if e.failure = "" then s!"rank {rank}: {what}" else e.failure
      stopping := true }
  | .other => { e with failure := "native rank failure", stopping := true }

/-- The results of an executed command; what was not asked for stays empty. -/
def executedAs (seen : Nat) (order : Submission) (device : Device) : Worker :=
  .executed seen order
    (if (order.command = .token ∨ order.command = .prefill) ∧ order.want ≠ 0 then device.sampled else 0)
    (if order.command = .batch then device.rows else [])

/-- The critical section after an execution. -/
def finish (e : Engine) (rank : Nat) (order : Submission) (next : Nat) (nextBatch : List Nat) : Engine :=
  { e with
    output := if rank = 0 then next else e.output
    batchOutputs := if rank = 0 ∧ order.command = .batch then nextBatch else e.batchOutputs
    finished := e.finished + 1 }

/-- Put a rank where it is next, with the engine as it leaves it. -/
def move (g : Group) (rank : Nat) (w : Worker) (e : Engine) : Group :=
  { g with engine := e, workers := g.workers.set rank w }

/-- A rank waits for `generation != seen || stopping`. -/
def take (g : Group) (rank seen : Nat) : Option Group :=
  if g.engine.stopping then some (g.move rank .leaving g.engine)
  else if g.engine.generation ≠ seen then
    some (g.move rank (.taken g.engine.generation g.order) g.engine)
  else none

def act (g : Group) (rank : Nat) : Worker → Action → Option Group
  | .preparing, .prepare =>
    some (g.move rank (.waiting 0) { g.engine with ready := g.engine.ready + 1 })
  | .waiting seen, .take => g.take rank seen
  | .taken seen order, .execute (.ok device) => some (g.move rank (executedAs seen order device) g.engine)
  | .taken _ _, .execute (.error e) => some (g.move rank (.thrown e) g.engine)
  | .executed seen order next nextBatch, .finish =>
    some (g.move rank (.waiting seen) (finish g.engine rank order next nextBatch))
  | .preparing, .raise e => some (g.move rank (.thrown e) g.engine)
  | .leaving, .raise e => some (g.move rank (.thrown e) g.engine)
  | .leaving, .leave => some (g.move rank .ended g.engine)
  | .thrown e, .handle => some (g.move rank .ended (recordFailure g.engine rank e))
  | _, _ => none

/-! ## Steps -/

/-- `start` waits for every rank to be ready or one to have failed. -/
def started (g : Group) : Option Group :=
  if g.engine.failure ≠ "" then some { g with caller := .unwinding }
  else if g.engine.ready = g.engine.ranks then some { g with caller := .idle }
  else none

/-- `submit` waits for every rank to have finished or one to have failed. -/
def wake (g : Group) (resume : Nat → Engine → Progress (List Nat)) : Option Group :=
  if g.engine.failure ≠ "" then some { g with caller := .idle }
  else if g.engine.finished = g.engine.ranks then some (g.settle (resume g.engine.output g.engine))
  else none

/-- The destructor; it joins the ranks, and nothing calls the engine after it. -/
def close (g : Group) : Group :=
  { g with engine := { g.engine with stopping := true }, caller := .closed }

def step (g : Group) : Step → Option Group
  | .rank rank action => (g.workers[rank]?).bind fun w => g.act rank w action
  | .started =>
    match g.caller with
    | .opening => g.started
    | _ => none
  | .call request =>
    match g.caller with
    | .idle => some (g.settle (serve request g.engine))
    | _ => none
  | .submit =>
    match g.caller with
    | .submitting s resume => some (g.submit s resume)
    | _ => none
  | .wake =>
    match g.caller with
    | .waiting resume => g.wake resume
    | _ => none
  | .close =>
    match g.caller with
    | .idle | .unwinding => some g.close
    | _ => none

end Group

/-! ## What is seen -/

inductive Observation where
  /-- A generation is begun, with the buffers as they are then. -/
  | submitted (generation : Nat) (order : Submission) (buffers : Buffers)
  | taken (rank generation : Nat) (order : Submission)
  | executed (rank generation : Nat) (order : Submission) (arguments : Arguments)
  | finished (rank generation : Nat)
  /-- `submit` returns normally. -/
  | returned (generation : Nat)
  | failed (rank : Nat)
  deriving DecidableEq, Repr

namespace Group

def observeRank (g : Group) (rank : Nat) : Worker → Action → List Observation
  | .waiting _, .take =>
    if g.engine.stopping then [] else [.taken rank g.engine.generation g.order]
  | .taken seen order, .execute _ => [.executed rank seen order (g.engine.buffers.arguments rank order)]
  | .executed seen _ _ _, .finish => [.finished rank seen]
  | .thrown _, .handle => [.failed rank]
  | _, _ => []

def observe (g : Group) : Step → List Observation
  | .rank rank action =>
    match g.workers[rank]? with
    | some w => g.observeRank rank w action
    | none => []
  | .submit =>
    match g.caller with
    | .submitting s _ =>
      if g.unavailable then [] else [.submitted (g.engine.generation + 1) s g.engine.buffers]
    | _ => []
  | .wake => if g.engine.failure ≠ "" then [] else [.returned g.engine.generation]
  | _ => []

end Group

end Inferfabric.ProgramEngine
