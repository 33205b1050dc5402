-- SUMMARY: The tensor-parallel engine set: one dispatcher, a thread for each peer rank, and the channels between them.
import IronPangu.Ir.Serving
import IronPangu.Lib.Machine
import IronPangu.Lib.Trace

open Rust

/-!
# Tensor-parallel ranks

Every rank has an engine. The dispatcher owns the primary's, sends each command to
the peers, executes it on the primary, and reads one reply from every peer. A peer
takes commands from its channel one after another and stops after one that fails. A
step is a send, a receive, an execution, or the end of a peer's thread.
-/

namespace Inferfabric.Native.Parallel

open Ir

/-- `{e}` of an error, which is its `Debug` text. -/
def Error.display : Error → String
  | .invalid message => "Invalid(" ++ message.quote ++ ")"
  | .capacity message => "Capacity(" ++ message.quote ++ ")"
  | .notImplemented what => "NotImplemented(" ++ what.quote ++ ")"
  | .backend message => "Backend(" ++ message.quote ++ ")"
  | .stale => "Stale"
  | .io message => "Io(" ++ message.quote ++ ")"

/-! ## Engines -/

/-- The values of the attention mask. -/
inductive MaskValue where
  | negInfinity
  | zero
  deriving DecidableEq, Repr

/-- What a replay of the graph reads besides the states. -/
structure GraphInputs where
  active : List Nat
  ids : List Int
  positions : List Int
  append : List Int
  masks : List MaskValue
  deriving DecidableEq, Repr

structure Engine where
  batch : Nat
  slotsPerLane : Nat
  context : Nat
  frontiers : List Nat
  maskValues : List MaskValue
  /-- The replays the device has made, with their inputs. -/
  replays : List GraphInputs
  deriving DecidableEq, Repr

def vocabulary : Nat := 248320

namespace Engine

/-- The engine as `prepare` leaves it, its lanes reset. -/
def new (batch slotsPerLane context : Nat) : Engine where
  batch := batch
  slotsPerLane := slotsPerLane
  context := context
  frontiers := List.replicate batch 0
  maskValues := List.replicate (batch * context) .negInfinity
  replays := []

/-- `frontiers[lane]` of a lane in bounds. -/
def frontier (e : Engine) (lane : Nat) : Nat := e.frontiers.getD lane 0

/-- The calls into the device library: all succeed, or one fails. -/
def check (device : Option Error) : Method Engine Error Unit :=
  .read fun _ => match device with
    | none => .ok ()
    | some e => .err e

def resetSlot (device : Option Error) (lane : Nat) : Method Engine Error Unit := do
  .require (fun e => lane < e.batch) (.invalid "invalid native slot")
  check device
  .modify fun e => { e with
    frontiers := e.frontiers.set lane 0
    maskValues := e.maskValues.take (lane * e.context) ++ List.replicate e.context .negInfinity ++
      e.maskValues.drop ((lane + 1) * e.context) }

/-- The inputs of a graph in which no lane is active. -/
def idleInputs (e : Engine) : GraphInputs where
  active := List.replicate e.batch 0
  ids := List.replicate e.batch 1
  positions := List.replicate e.batch 0
  append := (List.range e.batch).map fun i => ((i + 1) * e.slotsPerLane - 1 : Nat)
  masks := []

/-- The loop over the tokens that fills the inputs. -/
def fillInputs (e : Engine) : List (Nat × Nat) → GraphInputs → Result GraphInputs
  | [], inputs => .ok inputs
  | (lane, token) :: tokens, inputs =>
    if lane ≥ e.batch ∨ inputs.active.getD lane 0 ≠ 0 ∨ token ≥ vocabulary ∨ e.frontier lane ≥ e.context then
      invalid "invalid, duplicate or full native slot"
    else
      fillInputs e tokens { inputs with
        active := inputs.active.set lane 1
        ids := inputs.ids.set lane token
        positions := inputs.positions.set lane (e.frontier lane)
        append := inputs.append.set lane (lane * e.slotsPerLane + e.frontier lane : Nat) }

/-- The loop that opens the mask at the frontier of every token's lane. -/
def openMasks (tokens : List (Nat × Nat)) (e : Engine) : Engine :=
  { e with
    maskValues := tokens.foldl (fun masks t => masks.set (t.1 * e.context + e.frontier t.1) .zero) e.maskValues }

/-- The masks of a replay: an unused padded lane still needs one finite entry. -/
def paddedMasks (e : Engine) (active : List Nat) : List MaskValue :=
  (List.range e.batch).foldl (fun masks lane =>
    if e.frontier lane = 0 ∧ active.getD lane 0 = 0 then masks.set (lane * e.context) .zero else masks) e.maskValues

def advance (tokens : List (Nat × Nat)) (e : Engine) : Engine :=
  { e with frontiers := tokens.foldl (fun frontiers t => frontiers.set t.1 (frontiers.getD t.1 0 + 1)) e.frontiers }

def consumeBatch (device : Option Error) (tokens : List (Nat × Nat)) : Method Engine Error Unit :=
  if tokens = [] then pure ()
  else do
    let inputs ← .read fun e => e.fillInputs tokens e.idleInputs
    .modify (openMasks tokens)
    check device
    .modify fun e => { e with replays := e.replays ++ [{ inputs with masks := e.paddedMasks inputs.active }] }
    .modify (advance tokens)

end Engine

/-! ## Commands -/

inductive Command where
  | reset (lane : Nat)
  | consume (tokens : List (Nat × Nat))
  | stop
  deriving DecidableEq, Repr

/-- The execution of a command on an engine. -/
def execute (device : Option Error) : Command → Method Engine Error Unit
  | .reset lane => Engine.resetSlot device lane
  | .consume tokens => Engine.consumeBatch device tokens
  | .stop => pure ()

/-! ## Peers -/

/-- A reply, and the number of the command it answers, which no one reads. -/
structure Reply where
  serial : Nat
  result : Except String Unit
  deriving DecidableEq, Repr

/-- Where a peer's thread stands. -/
inductive Stage where
  | waiting
  | executing (serial : Nat) (command : Command)
  | replying (reply : Reply)
  | left
  deriving DecidableEq, Repr

structure Peer where
  /-- The channel of `tx`: the commands sent and not yet received, numbered. -/
  commands : List (Nat × Command)
  /-- The channel of `rx`. -/
  results : List Reply
  stage : Stage
  engine : Engine
  /-- The ends of the channels that the thread holds, dropped as it ends. -/
  commandsDropped : Bool
  resultsDropped : Bool
  deriving DecidableEq, Repr

inductive Action where
  | receive
  | execute (device : Option Error)
  | reply
  /-- The thread ends where it stands. -/
  | exit
  | dropCommands
  | dropResults
  deriving DecidableEq, Repr

namespace Peer

def new (engine : Engine) : Peer := ⟨[], [], .waiting, engine, false, false⟩

/-- `while let Ok(command) = commands.recv()` -/
def receive (p : Peer) : Option Peer :=
  match p.stage, p.commands with
  | .waiting, (_, .stop) :: commands => some { p with commands := commands, stage := .left }
  | .waiting, (serial, command) :: commands => some { p with commands := commands, stage := .executing serial command }
  | _, _ => none

def step (p : Peer) : Action → Option Peer
  | .receive => p.receive
  | .execute device =>
    match p.stage with
    | .executing serial command =>
      match Parallel.execute device command p.engine with
      | (.ok (), engine) => some { p with engine := engine, stage := .replying ⟨serial, .ok ()⟩ }
      | (.err e, engine) => some { p with engine := engine, stage := .replying ⟨serial, .error (Error.display e)⟩ }
      | (.panic, engine) => some { p with engine := engine, stage := .left }
    | _ => none
  | .reply =>
    match p.stage with
    | .replying r =>
      some { p with results := p.results ++ [r], stage := if r.result.isOk then .waiting else .left }
    | _ => none
  | .exit => if p.stage = .left then none else some { p with stage := .left }
  | .dropCommands => if p.stage = .left then some { p with commandsDropped := true } else none
  | .dropResults => if p.stage = .left then some { p with resultsDropped := true } else none

/-- The commands a step executes, and whether each succeeded. -/
def performed (p : Peer) : Action → List (Command × Bool)
  | .execute device =>
    match p.stage with
    | .executing _ command => [(command, (Parallel.execute device command p.engine).1 = .ok ())]
    | _ => []
  | _ => []

end Peer

/-! ## The engine set -/

/-- Where `dispatch` stands. -/
inductive Phase where
  | idle
  | sending (command : Command) (peer : Nat)
  /-- The result of the primary is kept while the replies are read. -/
  | receiving (primary : Result Unit) (peer : Nat)
  deriving DecidableEq, Repr

structure EngineSet where
  primary : Engine
  peers : List Peer
  phase : Phase
  /-- How many commands have been dispatched. -/
  serial : Nat
  deriving DecidableEq, Repr

inductive Label where
  | dispatch (command : Command)
  | send
  | execute (device : Option Error)
  | receive
  | finish
  | peer (rank : Nat) (action : Action)
  deriving DecidableEq, Repr

/-- What an onlooker sees of a step. -/
inductive Observation where
  | dispatched (command : Command)
  /-- The primary has rank 0, the first peer rank 1. -/
  | executed (rank : Nat) (command : Command) (success : Bool)
  /-- In the dispatch of one command, a reply is read that answers another, or the same. -/
  | acknowledged (dispatched answered : Nat)
  | returned (result : Result Unit)
  deriving DecidableEq, Repr

namespace EngineSet

/-- The set as startup hands it over: every rank prepared alike, every ready message read. -/
def new (world : Nat) (engine : Engine) : EngineSet := ⟨engine, List.replicate (world - 1) (Peer.new engine), .idle, 0⟩

def peerStopped : Result Unit := invalid "TP peer stopped"

/-- Reading the reply of peer `k`: the peer without it, and where `dispatch` stands then. -/
def receive (primary : Result Unit) (k : Nat) (p : Peer) : Option (Peer × Phase) :=
  match p.results with
  | ⟨_, .ok ()⟩ :: results => some ({ p with results := results }, .receiving primary (k + 1))
  | ⟨_, .error _⟩ :: results => some ({ p with results := results }, .idle)
  | [] => if p.resultsDropped then some (p, .idle) else none

def step (s : EngineSet) : Label → Option EngineSet
  | .dispatch command =>
    if s.phase = .idle ∧ command ≠ .stop then some { s with phase := .sending command 0, serial := s.serial + 1 } else none
  | .send =>
    match s.phase with
    | .sending command k =>
      match s.peers[k]? with
      | some p =>
        if p.commandsDropped then some { s with phase := .idle }
        else some { s with
          peers := s.peers.set k { p with commands := p.commands ++ [(s.serial, command)] }
          phase := .sending command (k + 1) }
      | none => none
    | _ => none
  | .execute device =>
    match s.phase with
    | .sending command k =>
      if k = s.peers.length then
        let (result, engine) := Parallel.execute device command s.primary
        some { s with primary := engine, phase := .receiving result 0 }
      else none
    | _ => none
  | .receive =>
    match s.phase with
    | .receiving primary k =>
      match s.peers[k]? with
      | some p => (receive primary k p).map fun (p, phase) => { s with peers := s.peers.set k p, phase := phase }
      | none => none
    | _ => none
  | .finish =>
    match s.phase with
    | .receiving _ k => if k = s.peers.length then some { s with phase := .idle } else none
    | _ => none
  | .peer rank action =>
    match s.peers[rank]? with
    | some p => (p.step action).map fun p => { s with peers := s.peers.set rank p }
    | none => none

def observe (s : EngineSet) : Label → List Observation
  | .dispatch command => [.dispatched command]
  | .send =>
    match s.phase with
    | .sending _ k =>
      match s.peers[k]? with
      | some p => if p.commandsDropped then [.returned peerStopped] else []
      | none => []
    | _ => []
  | .execute device =>
    match s.phase with
    | .sending command _ => [.executed 0 command ((Parallel.execute device command s.primary).1 = .ok ())]
    | _ => []
  | .receive =>
    match s.phase with
    | .receiving _ k =>
      match s.peers[k]? with
      | some p =>
        match p.results with
        | ⟨serial, .error message⟩ :: _ => [.acknowledged s.serial serial, .returned (invalid message)]
        | ⟨serial, .ok ()⟩ :: _ => [.acknowledged s.serial serial]
        | [] => [.returned peerStopped]
      | none => []
    | _ => []
  | .finish =>
    match s.phase with
    | .receiving primary _ => [.returned primary]
    | _ => []
  | .peer rank action =>
    match s.peers[rank]? with
    | some p => (p.performed action).map fun (command, success) => .executed (rank + 1) command success
    | none => []

end EngineSet

end Inferfabric.Native.Parallel
