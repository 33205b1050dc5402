-- SUMMARY: The prepared execution context: its pool of device buffers, the shared workspace, and arenas frozen from a recording.
import IronPangu.Lib.Machine
import IronPangu.Lib.Ordered

open Rust Method Std

/-!
# Prepared execution

A context hands out device buffers and takes them back. A released buffer waits in a
free list of its size. A recording context allocates a block where no free one fits;
a frozen context has one slot of a fixed arena for each block of a recording.
-/

namespace Inferfabric.Native.Prepared

/-! ## Frozen arenas -/

structure Slot where
  offset : Nat
  bytes : Nat
  deriving DecidableEq, Repr

structure Envelope where
  maxRequestBytes : Nat
  workspace : Bool
  deriving DecidableEq, Repr

structure ArenaLayout where
  bytes : Nat
  slots : List Slot
  /-- The slots each instruction was seen with, in a layout that is not pooled. -/
  bindings : ExtTreeMap Int (List Nat)
  envelopes : ExtTreeMap Int Envelope
  pooled : Bool
  workspaceSlot : Int

namespace ArenaLayout

/-- The slots of an accepted layout ascend, are aligned and stay inside the arena. -/
def slotsFit (bytes : Nat) : Nat → List Slot → Bool
  | _, [] => true
  | stop, s :: slots =>
    0 < s.bytes && s.offset % 512 == 0 && stop ≤ s.offset && s.offset ≤ bytes && s.bytes ≤ bytes - s.offset &&
      slotsFit bytes (s.offset + s.bytes) slots

def permitsSlot (layout : ArenaLayout) (instruction : Int) (slot : Nat) : Bool :=
  if layout.pooled = false then
    match layout.bindings[instruction]? with
    | none => false
    | some ids => ids.contains slot
  else
    match layout.envelopes[instruction]? with
    | none => false
    | some envelope =>
      if (slot : Int) = layout.workspaceSlot then envelope.workspace else envelope.maxRequestBytes > 0

def permitsRequest (layout : ArenaLayout) (instruction : Int) (bytes : Nat) (workspace : Bool) : Bool :=
  if layout.pooled = false then true
  else
    match layout.envelopes[instruction]? with
    | none => false
    | some envelope =>
      if workspace then
        instruction == -1 && envelope.workspace && 0 ≤ layout.workspaceSlot &&
          (layout.slots[layout.workspaceSlot.toNat]?).any (·.bytes == bytes)
      else 0 < bytes && bytes ≤ envelope.maxRequestBytes

end ArenaLayout

/-! ## The context -/

structure Block where
  data : Nat
  bytes : Nat
  live : Bool
  slot : Nat
  deriving DecidableEq, Repr

structure Context where
  blocks : List Block
  /-- The address of the arena, and its layout. -/
  arena : Option (Nat × ArenaLayout)
  instruction : Int
  instructionSlots : ExtTreeMap Int (ExtTreeSet Nat)
  /-- The free blocks of each size by number, the last one released first. -/
  free : ExtTreeMap Nat (List Nat)
  owned : ExtTreeMap Nat Nat
  transientMetadata : Bool
  capturing : Bool
  boundedBuffers : Bool
  workspace : Option Nat
  workspaceBytes : Nat
  plannedWorkspaceBytes : Nat
  workspacePlanned : Bool

/-- The first eligible number of a list, and the others. -/
def takeEligible (eligible : Nat → Bool) : List Nat → Option (Nat × List Nat)
  | [] => none
  | i :: is =>
    if eligible i then some (i, is)
    else (takeEligible eligible is).map fun (j, rest) => (j, i :: rest)

/-- The smallest sufficient capacity, and the last released among equal sizes. -/
def takeBoundedBuffer (eligible : Nat → Bool) (free : ExtTreeMap Nat (List Nat)) :
    List (Nat × List Nat) → Option (Nat × ExtTreeMap Nat (List Nat))
  | [] => none
  | (size, slots) :: bins =>
    match takeEligible eligible slots with
    | some (i, rest) => some (i, free.insert size rest)
    | none => takeBoundedBuffer eligible free bins

namespace Context

/-- `free.lower_bound(bytes)` and all that follow. -/
def sufficient (c : Context) (bytes : Nat) : List (Nat × List Nat) :=
  c.free.toList.filter fun bin => bytes ≤ bin.1

def block (i : Nat) : Method Context String Block := do
  let c ← Method.get
  Method.lift (Outcome.unwrap c.blocks[i]?)

def setLive (i : Nat) (live : Bool) : Method Context String Unit := do
  let b ← block i
  Method.modify fun c => { c with blocks := c.blocks.set i { b with live := live } }

/-- Note that the current instruction uses a slot, which a frozen arena must permit. -/
def record (slot : Nat) : Method Context String Unit := do
  let c ← Method.get
  if c.arena.any fun arena => !arena.2.permitsSlot c.instruction slot then
    Method.fail s!"unplanned arena binding at instruction {c.instruction} slot={slot}"
  else
    Method.modify fun c =>
      { c with instructionSlots :=
          c.instructionSlots.insert c.instruction ((c.instructionSlots.getD c.instruction ∅).insert slot) }

/-- Whether a bounded request may take a free block. -/
def eligible (c : Context) (i : Nat) : Bool :=
  match c.arena with
  | none => true
  | some (_, layout) =>
    match c.blocks[i]? with
    | none => false
    | some b =>
      layout.permitsSlot c.instruction b.slot && (!layout.pooled || (b.slot : Int) != layout.workspaceSlot)

/-- A free block that some bounded request may take, or none for the exact-size path. -/
def acquireBounded (bytes : Nat) : Method Context String (Option Nat) := do
  let c ← Method.get
  match takeBoundedBuffer c.eligible c.free (c.sufficient bytes) with
  | some (i, free) => do
    Method.modify fun c => { c with free := free }
    let b ← block i
    record b.slot
    setLive i true
    return some b.data
  | none =>
    if c.arena.isSome then
      Method.fail s!"bounded arena exhausted at instruction {c.instruction} bytes={bytes}"
    else return none

/-- A new block at the address the device granted. -/
def allocate (bytes : Nat) (granted : Option Nat) : Method Context String Nat := do
  let c ← Method.get
  match granted with
  | none => Method.fail "prepared allocation"
  | some pointer => do
    record c.blocks.length
    Method.modify fun c =>
      { c with
        owned := c.owned.insertIfNew pointer c.blocks.length
        blocks := c.blocks ++ [⟨pointer, bytes, true, c.blocks.length⟩] }
    return pointer

def acquireExact (bytes : Nat) (granted : Option Nat) : Method Context String Nat := do
  let c ← Method.get
  match c.free.getD bytes [] with
  | i :: rest => do
    let b ← block i
    record b.slot
    Method.modify fun c => { c with free := c.free.insert bytes rest }
    setLive i true
    return b.data
  | [] =>
    if c.arena.isSome then
      Method.fail s!"frozen arena exhausted: undeclared allocation at instruction {c.instruction} bytes={bytes}"
    else if c.capturing then Method.fail "capture requires prepared device buffers"
    else allocate bytes granted

/-- Under bounded buffers any sufficient free block may serve a request. -/
def acquireFree (bytes : Nat) : Method Context String (Option Nat) := do
  let c ← Method.get
  if c.boundedBuffers then acquireBounded bytes else return none

def acquireOr (bytes : Nat) (granted : Option Nat) : Option Nat → Method Context String Nat
  | some pointer => Pure.pure pointer
  | none => acquireExact bytes granted

/-- `granted` is what `aclrtMalloc` would return. -/
def acquire (bytes : Nat) (workspaceAllocation : Bool) (granted : Option Nat) : Method Context String Nat := do
  let c ← Method.get
  if bytes = 0 then Method.fail "zero prepared allocation"
  else if c.arena.any fun arena => !arena.2.permitsRequest c.instruction bytes workspaceAllocation then
    Method.fail s!"frozen arena request exceeds instruction envelope {c.instruction} bytes={bytes}"
  else do
    let taken ← acquireFree bytes
    acquireOr bytes granted taken

/-- The live block at an address. -/
def liveBlock (c : Context) (pointer : Nat) : Option (Nat × Block) :=
  match c.owned[pointer]? with
  | none => none
  | some i =>
    match c.blocks[i]? with
    | none => none
    | some b => if b.live then some (i, b) else none

def release (pointer : Nat) : Method Context String Unit := do
  let c ← Method.get
  match c.liveBlock pointer with
  | none => Method.fail "invalid prepared buffer release"
  | some (i, b) => do
    setLive i false
    Method.modify fun c => { c with free := c.free.insert b.bytes (i :: c.free.getD b.bytes []) }

/-- Note that the current instruction uses the workspace. -/
def recordWorkspace : Method Context String Unit := do
  let c ← Method.get
  match c.workspace with
  | none => Pure.pure ()
  | some pointer => do
    let i ← Method.lift (Outcome.unwrap c.owned[pointer]?)
    let b ← block i
    record b.slot

def releaseWorkspace : Method Context String Unit := do
  let c ← Method.get
  match c.workspace with
  | none => Pure.pure ()
  | some pointer => release pointer

/-- A larger workspace: the old one goes back before the new one is acquired. -/
def growWorkspace (bytes : Nat) (granted : Option Nat) : Method Context String Unit := do
  releaseWorkspace
  let pointer ← acquire bytes false granted
  Method.modify fun c => { c with workspace := some pointer, workspaceBytes := bytes }

def ensureWorkspace (bytes : Nat) (granted : Option Nat) : Method Context String Unit := do
  let c ← Method.get
  if bytes > c.workspaceBytes then growWorkspace bytes granted else Pure.pure ()

def workspaceFor (bytes : Nat) (granted : Option Nat) : Method Context String (Option Nat) := do
  let c ← Method.get
  if c.workspacePlanned ∧ bytes > c.plannedWorkspaceBytes then
    Method.fail s!"shared workspace exceeds planned maximum at instruction {c.instruction}"
  else do
    ensureWorkspace bytes granted
    recordWorkspace
    let c ← Method.get
    return c.workspace

/-! ## Scopes -/

/-- An open lexical scope: a capture, or bounded buffers with what they restore. -/
inductive Scope where
  | capture
  | bounded (previous : Bool)
  deriving DecidableEq, Repr

/-- `begun` says whether the device began the capture. -/
def enterCapture (begun : Bool) : Method Context String Scope := do
  let c ← Method.get
  if c.boundedBuffers ∨ c.transientMetadata then
    Method.fail "uncaptured variable-query execution forbids graph capture"
  else if c.capturing then Method.fail "nested stream capture"
  else if begun = false then Method.fail "capture begin"
  else do
    Method.modify fun c => { c with capturing := true }
    return .capture

def enterBounded (enabled : Bool) : Method Context String Scope := do
  let c ← Method.get
  if enabled ∧ c.capturing then Method.fail "bounded buffers cannot enter graph capture"
  else do
    Method.modify fun c =>
      { c with boundedBuffers := enabled, transientMetadata := enabled || c.transientMetadata }
    return .bounded c.boundedBuffers

/-- A scope ends alike when it returns and when it is unwound. -/
def leave : Scope → Method Context String Unit
  | .capture => Method.modify fun c => { c with capturing := false }
  | .bounded previous => Method.modify fun c => { c with boundedBuffers := previous }

def setInstruction (id : Int) : Method Context String Unit := Method.modify fun c => { c with instruction := id }

def complete : Method Context String Unit := Method.modify fun c => { c with transientMetadata := false }

/-! ## Construction -/

/-- A context with nothing allocated yet. -/
def empty (planned : Option Nat) : Context where
  blocks := []
  arena := none
  instruction := -1
  instructionSlots := ∅
  free := ∅
  owned := ∅
  transientMetadata := false
  capturing := false
  boundedBuffers := false
  workspace := none
  workspaceBytes := 0
  plannedWorkspaceBytes := planned.getD 0
  workspacePlanned := planned.isSome

/-- A context whose blocks are the slots of an arena at `base`, all of them free. -/
def frozen (planned : Option Nat) (base : Nat) (layout : ArenaLayout) : Context :=
  let blocks := layout.slots.zipIdx.map fun (slot, i) => (⟨base + slot.offset, slot.bytes, false, i⟩ : Block)
  { empty planned with
    blocks := blocks
    arena := some (base, layout)
    owned := blocks.foldl (fun owned b => owned.insertIfNew b.data b.slot) ∅
    -- The slots are pushed from the last to the first.
    free := blocks.reverse.foldl (fun free b => free.insert b.bytes (b.slot :: free.getD b.bytes [])) ∅ }

/-- The workspace is reserved before anything else. -/
def reserveWorkspace (granted : Option Nat) : Method Context String Unit := do
  let c ← Method.get
  if c.plannedWorkspaceBytes = 0 then Pure.pure ()
  else do
    let pointer ← acquire c.plannedWorkspaceBytes true granted
    Method.modify fun c => { c with workspace := some pointer, workspaceBytes := c.plannedWorkspaceBytes }

/-- A new context, with the workspace plan and the arena it was given. -/
def new (planned : Option Nat) (arena : Option (Nat × ArenaLayout)) (granted : Option Nat) : Outcome String Context :=
  match arena with
  | none => do
    let made := reserveWorkspace granted (empty planned)
    made.1
    .ok made.2
  | some (base, layout) =>
    if planned = none then .err "frozen arena requires a shared workspace plan"
    else do
      let made := reserveWorkspace granted (frozen planned base layout)
      made.1
      .ok made.2

end Context

end Inferfabric.Native.Prepared
