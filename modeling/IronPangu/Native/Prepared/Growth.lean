-- SUMMARY: What a prepared context never loses: its blocks, its arena and plan, and the slots its instructions used.
import IronPangu.Native.Prepared.Audit

open Rust Method Std

/-!
# Growth

Whatever is called, the blocks of a context only become more, and so do the slots seen
with an instruction. A context with an arena has all its blocks from the start.
-/

namespace Inferfabric.Native.Prepared

namespace Context

variable {c : Context} {bytes : Nat} {granted : Option Nat}

/-- Where the blocks lie and how large they are. -/
def shape (c : Context) : List (Nat × Nat) := c.blocks.map fun b => (b.data, b.bytes)

/-- An instruction was seen with a slot. -/
def Records (c : Context) (instruction : Int) (slot : Nat) : Prop := slot ∈ c.instructionSlots.getD instruction ∅

structure Extends (c c' : Context) : Prop where
  arena : c'.arena = c.arena
  shape : ∃ more, c'.shape = c.shape ++ more ∧ ∀ e ∈ more, 0 < e.2
  fixed : c.arena ≠ none → c'.shape = c.shape
  records : ∀ instruction slot, c.Records instruction slot → c'.Records instruction slot

theorem Extends.of_same {c' : Context} (harena : c'.arena = c.arena) (hshape : c'.shape = c.shape)
    (hrecords : ∀ instruction slot, c.Records instruction slot → c'.Records instruction slot) : Extends c c' :=
  ⟨harena, ⟨[], by rw [hshape, List.append_nil], fun _ h => by cases h⟩, fun _ => hshape, hrecords⟩

instance : Steps Extends where
  refl c := .of_same rfl rfl fun _ _ h => h
  trans := by
    rintro c₁ c₂ c₃ h h'
    obtain ⟨more, hmore, hpos⟩ := h.shape
    obtain ⟨more', hmore', hpos'⟩ := h'.shape
    refine ⟨h'.arena.trans h.arena, ⟨more ++ more', ?_, ?_⟩, ?_, ?_⟩
    · rw [hmore', hmore, List.append_assoc]
    · intro e he
      exact (List.mem_append.mp he).elim (hpos e) (hpos' e)
    · exact fun harena => (h'.fixed (h.arena ▸ harena)).trans (h.fixed harena)
    · exact fun instruction slot hslot => h'.records instruction slot (h.records instruction slot hslot)

/-! ## Every operation -/

theorem keeps_block (i : Nat) : Keeps Extends (block i) := keeps_get.bind fun _ => keeps_lift _

theorem keeps_setLive (i : Nat) (live : Bool) : Keeps Extends (setLive i live) := by
  intro c
  rw [setLive]
  cases hb : c.blocks[i]? with
  | none =>
    have hrun : block i c = (.panic, c) := by rw [block, bind_ok (get_run c), hb]; rfl
    rw [bind_run, hrun]
    exact Steps.refl c
  | some b =>
    rw [bind_ok (block_run hb), modify_run]
    refine .of_same rfl ?_ fun _ _ h => h
    obtain ⟨hi, hget⟩ := List.getElem?_eq_some_iff.mp hb
    subst hget
    rw [shape, shape, List.map_set]
    exact List.ext_getElem? fun j => by
      rw [List.getElem?_set]
      split
      · rename_i hij
        subst hij
        simp [hi]
      · rfl

theorem records_recorded (c : Context) (slot : Nat) :
    ({ c with instructionSlots := c.recorded slot } : Context).Records c.instruction slot := by
  rw [Records, recorded, ExtTreeMap.getD_insert_self, ExtTreeSet.mem_insert]
  exact .inl compare_self

theorem keeps_record (slot : Nat) : Keeps Extends (record slot) := by
  intro c
  by_cases hpermits : c.Permits slot
  · rw [record_run hpermits]
    refine .of_same rfl rfl fun instruction s hs => ?_
    rw [Records, recorded, ExtTreeMap.getD_insert]
    split
    · rename_i heq
      obtain rfl := Std.compare_eq_iff_eq.mp heq
      exact ExtTreeSet.mem_insert.mpr (.inr hs)
    · exact hs
  · obtain ⟨e, hrun⟩ := record_err hpermits
    rw [hrun]
    exact Steps.refl c

theorem keeps_acquireExact (hbytes : 0 < bytes) : Keeps Extends (acquireExact bytes granted) := by
  intro c
  rw [acquireExact, bind_ok (get_run c)]
  cases c.free.getD bytes [] with
  | cons i rest =>
    refine (keeps_block i).bind (fun b => (keeps_record b.slot).bind fun _ => ?_) c
    exact (keeps_modify fun c => .of_same rfl rfl fun _ _ h => h).bind fun _ =>
      (keeps_setLive i true).bind fun _ => keeps_pure _
  | nil =>
    dsimp only
    split
    · exact Steps.refl c
    rename_i harena
    split
    · exact Steps.refl c
    cases granted with
    | none => exact Steps.refl c
    | some pointer =>
      have hnone : c.arena = none := by simpa using harena
      have hpermits : c.Permits c.blocks.length := by
        intro base layout hsome
        rw [hnone] at hsome
        cases hsome
      rw [allocate, bind_ok (get_run c)]
      dsimp only
      have hrecord := keeps_record c.blocks.length c
      rw [record_run hpermits] at hrecord
      rw [bind_ok (record_run hpermits), bind_ok (modify_run _ _), pure_run]
      refine ⟨rfl, ⟨[(pointer, bytes)], ?_, fun e he => ?_⟩, fun hsome => absurd hnone hsome, hrecord.records⟩
      · rw [shape, shape, List.map_append]
        rfl
      · obtain rfl := List.mem_singleton.mp he
        exact hbytes

theorem keeps_acquireBounded (bytes : Nat) : Keeps Extends (acquireBounded bytes) := by
  refine keeps_get.bind fun c => ?_
  split
  · refine (keeps_modify fun c => .of_same rfl rfl fun _ _ h => h).bind fun _ => (keeps_block _).bind fun b => ?_
    exact (keeps_record b.slot).bind fun _ => (keeps_setLive _ true).bind fun _ => keeps_pure _
  · split
    · exact keeps_fail _
    · exact keeps_pure _

theorem keeps_acquire (bytes : Nat) (workspaceAllocation : Bool) (granted : Option Nat) :
    Keeps Extends (acquire bytes workspaceAllocation granted) := by
  refine keeps_get.bind fun c => ?_
  split
  · exact keeps_fail _
  rename_i hbytes
  split
  · exact keeps_fail _
  have hfree : Keeps Extends (acquireFree bytes) := by
    refine keeps_get.bind fun c => ?_
    split
    · exact keeps_acquireBounded bytes
    · exact keeps_pure _
  refine hfree.bind fun taken => ?_
  cases taken with
  | some pointer => exact keeps_pure pointer
  | none => exact keeps_acquireExact (Nat.pos_of_ne_zero hbytes)

theorem keeps_release (pointer : Nat) : Keeps Extends (release pointer) := by
  refine keeps_get.bind fun c => ?_
  split
  · exact keeps_fail _
  · exact (keeps_setLive _ false).bind fun _ => keeps_modify fun c => .of_same rfl rfl fun _ _ h => h

theorem keeps_recordWorkspace : Keeps Extends recordWorkspace := by
  refine keeps_get.bind fun c => ?_
  split
  · exact keeps_pure _
  · exact (keeps_lift _).bind fun i => (keeps_block i).bind fun b => keeps_record b.slot

theorem keeps_workspaceFor (bytes : Nat) (granted : Option Nat) : Keeps Extends (workspaceFor bytes granted) := by
  have hrelease : Keeps Extends releaseWorkspace := by
    refine keeps_get.bind fun c => ?_
    split
    · exact keeps_pure _
    · exact keeps_release _
  have hensure : Keeps Extends (ensureWorkspace bytes granted) := by
    refine keeps_get.bind fun c => ?_
    split
    · refine hrelease.bind fun _ => (keeps_acquire bytes false granted).bind fun _ => ?_
      exact keeps_modify fun c => .of_same rfl rfl fun _ _ h => h
    · exact keeps_pure _
  refine keeps_get.bind fun c => ?_
  split
  · exact keeps_fail _
  · exact hensure.bind fun _ => keeps_recordWorkspace.bind fun _ => keeps_get.bind fun _ => keeps_pure _

theorem keeps_enterCapture (begun : Bool) : Keeps Extends (enterCapture begun) := by
  refine keeps_get.bind fun c => ?_
  split
  · exact keeps_fail _
  split
  · exact keeps_fail _
  split
  · exact keeps_fail _
  · exact (keeps_modify fun c => .of_same rfl rfl fun _ _ h => h).bind fun _ => keeps_pure _

theorem keeps_enterBounded (enabled : Bool) : Keeps Extends (enterBounded enabled) := by
  refine keeps_get.bind fun c => ?_
  split
  · exact keeps_fail _
  · exact (keeps_modify fun c => .of_same rfl rfl fun _ _ h => h).bind fun _ => keeps_pure _

theorem keeps_leave (scope : Scope) : Keeps Extends (leave scope) := by
  cases scope <;> exact keeps_modify fun c => .of_same rfl rfl fun _ _ h => h

theorem keeps_setInstruction {id : Int} : Keeps Extends (setInstruction id) :=
  keeps_modify fun _ => .of_same rfl rfl fun _ _ h => h

theorem keeps_complete : Keeps Extends complete := keeps_modify fun _ => .of_same rfl rfl fun _ _ h => h

end Context

/-! ## Sessions and replays -/

namespace Session

def Extends (s t : Session) : Prop := s.context.Extends t.context

instance : Steps Extends where
  refl s := (Steps.refl s.context : s.context.Extends s.context)
  trans := @fun s t u h h' => (Steps.trans (R := Context.Extends) h h' : s.context.Extends u.context)

theorem keeps_onContext {α : Type} {m : Method Context String α} (h : Keeps Context.Extends m) :
    Keeps Extends (onContext m) := fun s => h s.context

theorem keeps_modify_same {f : Session → Session} (h : ∀ s, (f s).context = s.context) :
    Keeps Extends (Method.modify f : Method Session String Unit) :=
  keeps_modify fun s => by
    rw [Extends, h]
    exact Steps.refl s.context

theorem keeps_enter {scope : Method Context String Context.Scope} (h : Keeps Context.Extends scope) :
    Keeps Extends (enter scope) := by
  refine (keeps_onContext h).bind fun _ => Keeps.bind ?_ fun _ => keeps_pure _
  exact keeps_modify_same fun _ => rfl

theorem keeps_step (call : Call) : Keeps Extends (step call) := by
  cases call with
  | acquire bytes granted =>
    refine (keeps_onContext (Context.keeps_acquire bytes false granted)).bind fun _ => Keeps.bind ?_ fun _ => keeps_pure _
    exact keeps_modify_same fun _ => rfl
  | release pointer =>
    refine (keeps_onContext (Context.keeps_release pointer)).bind fun _ => Keeps.bind ?_ fun _ => keeps_pure _
    exact keeps_modify_same fun _ => rfl
  | workspace bytes granted => exact keeps_onContext (Context.keeps_workspaceFor bytes granted)
  | capture begun => exact keeps_enter (Context.keeps_enterCapture begun)
  | bounded enabled => exact keeps_enter (Context.keeps_enterBounded enabled)
  | leave =>
    refine keeps_get.bind fun s => ?_
    split
    · exact keeps_pure _
    · refine (keeps_onContext (Context.keeps_leave _)).bind fun _ => Keeps.bind ?_ fun _ => keeps_pure _
      exact keeps_modify_same fun _ => rfl
  | instruction id => exact (keeps_onContext Context.keeps_setInstruction).bind fun _ => keeps_pure _
  | complete => exact (keeps_onContext Context.keeps_complete).bind fun _ => keeps_pure _

end Session

namespace Replay

theorem extends_step (op : Op) (r : Replay) : r.session.Extends (step op r).2.session := by
  rw [step, bind_ok (get_run r)]
  cases op.call r.leases with
  | none => exact Steps.refl r.session
  | some call =>
    rw [Outcome.unwrap_some, bind_ok (lift_run _ r), bind_run]
    have hstep := Session.keeps_step call r.session
    rcases hrun : Session.step call r.session with ⟨o, t⟩
    rw [hrun] at hstep
    have honSession : onSession (Session.step call) r = (o, { r with session := t }) := by rw [onSession, hrun]
    rw [honSession]
    cases o <;> exact hstep

theorem extends_run (ops : List Op) (r : Replay) : r.session.Extends (final step ops r).session := by
  induction ops generalizing r with
  | nil => exact Steps.refl r.session
  | cons op ops ih => exact Steps.trans (extends_step op r) (ih (step op r).2)

end Replay

end Inferfabric.Native.Prepared
