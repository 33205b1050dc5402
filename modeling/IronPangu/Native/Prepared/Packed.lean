-- SUMMARY: Replayed sequences under a workspace plan: the workspace stays, and the buffers of a frozen arena lie apart.
import IronPangu.Native.Prepared.Growth

open Rust Method Std

/-!
# Packed arenas

Under a workspace plan the workspace never moves and no lease is it, so every operation
of a replay is proper. In a frozen arena the buffers in use are then slots of the layout.
-/

namespace Inferfabric.Native.Prepared

/-! ## The planned workspace -/

namespace Session

variable {s : Session} {bytes : Nat} {granted : Option Nat}

theorem workspaceFor_planned (h : s.Sound) (hplanned : s.context.workspacePlanned = true)
    (hfits : bytes ≤ s.context.plannedWorkspaceBytes) :
    Context.ensureWorkspace bytes granted s.context = (.ok (), s.context) := by
  have hgrow : ¬bytes > s.context.workspaceBytes := by
    rw [h.planned hplanned]
    exact Nat.not_lt_of_ge hfits
  rw [Context.ensureWorkspace, bind_ok (get_run _), if_neg hgrow, pure_run]

/-- A planned workspace stays. -/
theorem workspace_kept (h : s.Sound) (hplanned : s.context.workspacePlanned = true) (call : Call)
    (hgranted : Granted s call) :
    (step call s).2.context.workspace = s.context.workspace ∧
      (step call s).2.context.workspacePlanned = s.context.workspacePlanned := by
  have henter : ∀ {scope : Method Context String Context.Scope},
      (scope s.context).2.workspace = s.context.workspace →
      (scope s.context).2.workspacePlanned = s.context.workspacePlanned →
      (enter scope s).2.context.workspace = s.context.workspace ∧
        (enter scope s).2.context.workspacePlanned = s.context.workspacePlanned := by
    intro scope hworkspace hsame
    rcases hrun : scope s.context with ⟨o, c'⟩
    rw [hrun] at hworkspace hsame
    rw [enter, bind_run, onContext_run hrun]
    cases o <;> exact ⟨hworkspace, hsame⟩
  cases call with
  | acquire bytes granted =>
    rcases take_spec h hgranted bytes with ⟨e, hrun⟩ | ⟨pointer, c', hrun, hserved⟩ <;> rw [step, hrun]
    · exact ⟨rfl, rfl⟩
    · obtain ⟨-, hworkspace, -, -, hsame⟩ := Context.others_eq hserved.others
      exact ⟨hworkspace, hsame⟩
  | release pointer =>
    rcases give_spec h pointer with ⟨⟨e, hrun⟩, -⟩ | ⟨c', hrun, hreleased, -⟩ <;> rw [step, hrun]
    · exact ⟨rfl, rfl⟩
    · obtain ⟨-, hworkspace, -, -, hsame⟩ := Context.others_eq hreleased.others
      exact ⟨hworkspace, hsame⟩
  | workspace bytes granted =>
    have hstate : (step (.workspace bytes granted) s).2.context = (Context.workspaceFor bytes granted s.context).2 := rfl
    rw [hstate]
    by_cases hfits : s.context.workspacePlanned = true ∧ bytes > s.context.plannedWorkspaceBytes
    · rw [Context.workspaceFor, bind_ok (get_run _), if_pos hfits, fail_run]
      exact ⟨rfl, rfl⟩
    · have hle : bytes ≤ s.context.plannedWorkspaceBytes := Nat.le_of_not_gt fun hgt => hfits ⟨hplanned, hgt⟩
      obtain ⟨slots, hrun⟩ := workspaceFor_ok hfits (workspaceFor_planned h hplanned hle)
      rw [hrun]
      exact ⟨rfl, rfl⟩
  | capture begun =>
    refine henter ?_ ?_ <;> rw [Context.enterCapture, bind_ok (get_run _)] <;> split <;> try rfl
    all_goals split <;> try rfl
    all_goals split <;> rfl
  | bounded enabled =>
    refine henter ?_ ?_ <;> rw [Context.enterBounded, bind_ok (get_run _)] <;> split <;> rfl
  | leave =>
    rw [step, leave, bind_ok (get_run s)]
    cases s.scopes with
    | nil => exact ⟨rfl, rfl⟩
    | cons scope scopes => cases scope <;> exact ⟨rfl, rfl⟩
  | instruction id => exact ⟨rfl, rfl⟩
  | complete => exact ⟨rfl, rfl⟩

end Session

/-! ## Replays under a plan -/

namespace Replay

variable {r : Replay} {op : Op} {call : Call} {c : Context}

theorem step_ok {reply : Option Nat} {t : Session} (hcall : op.call r.leases = some call)
    (h : Session.step call r.session = (.ok reply, t)) :
    step op r = (.ok reply, { session := t, leases := r.leases ++ op.lease reply }) := by
  have hstep : onSession (Session.step call) r = (.ok reply, { r with session := t }) := by rw [onSession, h]
  rw [step, bind_ok (get_run r), hcall, Outcome.unwrap_some, bind_ok (lift_run _ r), bind_ok hstep,
    bind_ok (modify_run _ _), pure_run]

theorem step_err {e : String} {t : Session} (hcall : op.call r.leases = some call)
    (h : Session.step call r.session = (.err e, t)) : step op r = (.err e, { r with session := t }) := by
  have hstep : onSession (Session.step call) r = (.err e, { r with session := t }) := by rw [onSession, h]
  rw [step, bind_ok (get_run r), hcall, Outcome.unwrap_some, bind_ok (lift_run _ r), bind_err hstep]

theorem step_panic {t : Session} (hcall : op.call r.leases = some call)
    (h : Session.step call r.session = (.panic, t)) : step op r = (.panic, { r with session := t }) := by
  have hstep : onSession (Session.step call) r = (.panic, { r with session := t }) := by rw [onSession, h]
  rw [step, bind_ok (get_run r), hcall, Outcome.unwrap_some, bind_ok (lift_run _ r), bind_run, hstep]

theorem step_none (hcall : op.call r.leases = none) : step op r = (.panic, r) := by
  rw [step, bind_ok (get_run r), hcall]
  rfl

/-- The session is sound, the workspace is planned, and it is no lease. -/
structure Planned (r : Replay) : Prop where
  sound : r.session.Sound
  planned : r.session.context.workspacePlanned = true
  leases : ∀ p ∈ r.leases, r.session.context.workspace ≠ some p

theorem Planned.proper (h : r.Planned) (hcall : op.call r.leases = some call) : r.session.Proper call := by
  cases op with
  | release lease =>
    obtain ⟨p, hp, rfl⟩ := Option.map_eq_some_iff.mp hcall
    exact h.leases p (List.mem_of_getElem? hp)
  | workspace bytes =>
    cases hcall
    exact .inl h.planned
  | instruction _ => cases hcall; trivial
  | acquire _ _ => cases hcall; trivial
  | bounded _ => cases hcall; trivial
  | leave => cases hcall; trivial
  | complete => cases hcall; trivial

theorem Planned.step (h : r.Planned) (hgranted : r.Granted op) : (Replay.step op r).2.Planned := by
  cases hcall : op.call r.leases with
  | none =>
    rw [step_none hcall]
    exact h
  | some call =>
    have hsound := (Session.step_spec h.sound call (hgranted call hcall)).1 (h.proper hcall)
    obtain ⟨hworkspace, hplanned⟩ := Session.workspace_kept h.sound h.planned call (hgranted call hcall)
    rcases hrun : Session.step call r.session with ⟨reply | e | _, t⟩ <;> rw [hrun] at hsound hworkspace hplanned
    · rw [step_ok hcall hrun]
      refine ⟨hsound, hplanned.trans h.planned, fun p hp => ?_⟩
      dsimp only at hworkspace ⊢
      rw [hworkspace]
      rcases List.mem_append.mp hp with hp | hp
      · exact h.leases p hp
      · cases op with
        | acquire bytes granted =>
          obtain rfl := Option.some.inj hcall
          obtain rfl : reply = some p := Option.mem_toList.mp hp
          have hapart := Session.step_apart h.sound (.acquire bytes granted) (hgranted _ hcall)
          exact (hapart bytes granted p rfl (congrArg Prod.fst hrun)).1
        | instruction _ | release _ | workspace _ | bounded _ | leave | complete => cases hp
    · rw [step_err hcall hrun]
      exact ⟨hsound, hplanned.trans h.planned, fun p hp => hworkspace ▸ h.leases p hp⟩
    · rw [step_panic hcall hrun]
      exact ⟨hsound, hplanned.trans h.planned, fun p hp => hworkspace ▸ h.leases p hp⟩

theorem granted_of_arena (harena : r.session.context.arena ≠ none) (op : Op) : r.Granted op := by
  intro call hcall
  cases call <;> first | exact fun hnone => absurd hnone harena | trivial

theorem planned_start {planned : Nat} {arena : Option (Nat × ArenaLayout)} {granted : Option Nat}
    (hlayout : ∀ base layout, arena = some (base, layout) → ArenaLayout.slotsFit layout.bytes 0 layout.slots = true)
    (hnew : Context.new (some planned) arena granted = .ok c) (hplanned : c.workspacePlanned = true) :
    (start c).Planned := ⟨Session.new_sound hlayout hnew, hplanned, fun _ h => by cases h⟩

/-! ## The frozen arena -/

variable {base : Nat} {layout : ArenaLayout}

/-- The blocks of a context are the slots of a layout. -/
def Laid (base : Nat) (layout : ArenaLayout) (c : Context) : Prop :=
  c.arena = some (base, layout) ∧ c.shape = layout.slots.map fun s => (base + s.offset, s.bytes)

theorem Laid.extends (h : Laid base layout c) {c' : Context} (hextends : c.Extends c') : Laid base layout c' :=
  ⟨hextends.arena.trans h.1, (hextends.fixed (h.1 ▸ Option.some_ne_none _)).trans h.2⟩

theorem Laid.slot (h : Laid base layout c) {q m : Nat} (hlive : c.Live q m) :
    ∃ s ∈ layout.slots, q = base + s.offset ∧ m = s.bytes := by
  obtain ⟨i, b, hb, rfl, rfl, -⟩ := hlive
  have hmem : (b.data, b.bytes) ∈ c.shape := List.mem_map.mpr ⟨b, List.mem_of_getElem? hb, rfl⟩
  rw [h.2] at hmem
  obtain ⟨s, hs, heq⟩ := List.mem_map.mp hmem
  exact ⟨s, hs, (Prod.mk.inj heq).1.symm, (Prod.mk.inj heq).2.symm⟩

theorem slots_apart {slots : List Slot} (h : slots.Pairwise fun s t => s.offset + s.bytes ≤ t.offset) :
    ∀ s ∈ slots, ∀ t ∈ slots, s.offset ≠ t.offset → s.offset + s.bytes ≤ t.offset ∨ t.offset + t.bytes ≤ s.offset := by
  induction slots with
  | nil => exact fun _ hs => by cases hs
  | cons a slots ih =>
    obtain ⟨hfirst, hrest⟩ := List.pairwise_cons.mp h
    intro s hs t ht hne
    rcases List.mem_cons.mp hs with hs_eq | hs <;> rcases List.mem_cons.mp ht with ht_eq | ht
    · exact absurd (congrArg Slot.offset (hs_eq.trans ht_eq.symm)) hne
    · exact .inl (hs_eq ▸ hfirst t ht)
    · exact .inr (ht_eq ▸ hfirst s hs)
    · exact ih hrest s hs t ht hne

theorem Planned.packed (h : r.Planned) (hlaid : Laid base layout r.session.context)
    (hfit : ArenaLayout.slotsFit layout.bytes 0 layout.slots = true) : r.Packed base layout.bytes := by
  obtain ⟨hall, hpair⟩ := slotsFit_mem hfit
  refine ⟨?_, ?_, h.sound.nodup, fun q hq => ((h.sound.held q).mp hq).1⟩
  · intro q m hlive
    obtain ⟨s, hs, rfl, rfl⟩ := hlaid.slot hlive
    have := (hall s hs).2.2
    omega
  · intro q m q' m' hlive hlive' hne
    obtain ⟨s, hs, rfl, rfl⟩ := hlaid.slot hlive
    obtain ⟨t, ht, rfl, rfl⟩ := hlaid.slot hlive'
    have := slots_apart hpair s hs t ht fun heq => hne (congrArg (base + ·) heq)
    omega

/-- Whatever is asked of a frozen context, the buffers in use lie apart. -/
theorem Planned.run_packed (h : r.Planned) (hlaid : Laid base layout r.session.context)
    (hfit : ArenaLayout.slotsFit layout.bytes 0 layout.slots = true) (ops : List Op) :
    (final Replay.step ops r).Packed base layout.bytes := by
  have hrun : ∀ ops, (final Replay.step ops r).Planned ∧ Laid base layout (final Replay.step ops r).session.context := by
    intro ops
    have hkeep : ∀ t op, t.Planned ∧ Laid base layout t.session.context →
        (Replay.step op t).2.Planned ∧ Laid base layout (Replay.step op t).2.session.context := by
      rintro t op ⟨hplanned, hlaid⟩
      refine ⟨hplanned.step (granted_of_arena ?_ op), hlaid.extends (extends_step op t)⟩
      rw [hlaid.1]
      exact Option.some_ne_none _
    exact final_induction (P := fun t : Replay => t.Planned ∧ Laid base layout t.session.context) ⟨h, hlaid⟩ hkeep ops
  exact (hrun ops).1.packed (hrun ops).2 hfit

theorem Planned.run (h : r.Planned) (ops : List Op)
    (hgranted : ∀ ev ∈ history Replay.step ops r, ev.before.Granted ev.call) : (final Replay.step ops r).Planned := by
  induction ops generalizing r with
  | nil => exact h
  | cons op ops ih =>
    obtain ⟨hfirst, hrest⟩ := List.forall_mem_cons.mp hgranted
    exact ih (h.step hfirst) hrest

end Replay

end Inferfabric.Native.Prepared
