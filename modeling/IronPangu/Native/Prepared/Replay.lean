-- SUMMARY: A frozen arena replays its recording: slot for slot where no bounded scope acquires, and never with overlapping buffers.
import IronPangu.Native.Prepared.Mirrored

open Rust Method Std

/-!
# Replaying a recording

The recording and its replay run side by side. Each operation that succeeds in the
recording succeeds in the replay, on the slot of the same block, as long as requests are
served by their exact size.
-/

namespace Inferfabric.Native.Prepared

namespace Session

variable {s t : Session}

theorem onContext_eq_ok {α : Type} {m : Method Context String α} {a : α} :
    onContext m s = (.ok a, t) ↔ ∃ c', m s.context = (.ok a, c') ∧ t = { s with context := c' } := by
  rw [onContext]
  constructor
  · rintro h
    obtain ⟨hreply, hstate⟩ := Prod.mk.inj h
    exact ⟨_, Prod.ext hreply rfl, hstate.symm⟩
  · rintro ⟨c', hrun, rfl⟩
    rw [hrun]

theorem take_eq_ok {bytes : Nat} {granted reply : Option Nat} (h : take bytes granted s = (.ok reply, t)) :
    ∃ p c', Context.acquire bytes false granted s.context = (.ok p, c') ∧ reply = some p ∧
      t = { s with context := c', held := p :: s.held } := by
  obtain ⟨p, u, hinner, hrest⟩ := Method.bind_eq_ok.mp h
  obtain ⟨c', hrun, rfl⟩ := onContext_eq_ok.mp hinner
  cases hrest
  exact ⟨p, c', hrun, rfl, rfl⟩

theorem give_eq_ok {p : Nat} {reply : Option Nat} (h : give p s = (.ok reply, t)) :
    ∃ c', Context.release p s.context = (.ok (), c') ∧ reply = none ∧
      t = { s with context := c', held := s.held.erase p } := by
  obtain ⟨_, u, hinner, hrest⟩ := Method.bind_eq_ok.mp h
  obtain ⟨c', hrun, rfl⟩ := onContext_eq_ok.mp hinner
  cases hrest
  exact ⟨c', hrun, rfl, rfl⟩

theorem enter_eq_ok {scope : Method Context String Context.Scope} {reply : Option Nat}
    (h : enter scope s = (.ok reply, t)) :
    ∃ entered c', scope s.context = (.ok entered, c') ∧ reply = none ∧
      t = { s with context := c', scopes := entered :: s.scopes } := by
  obtain ⟨entered, u, hinner, hrest⟩ := Method.bind_eq_ok.mp h
  obtain ⟨c', hrun, rfl⟩ := onContext_eq_ok.mp hinner
  cases hrest
  exact ⟨entered, c', hrun, rfl, rfl⟩

theorem leave_nil (h : s.scopes = []) : leave s = (.ok none, s) := by
  rw [leave, bind_ok (get_run s), h]
  rfl

theorem leave_cons {scope : Context.Scope} {scopes : List Context.Scope} (h : s.scopes = scope :: scopes) :
    leave s = (.ok none, { s with context := (Context.leave scope s.context).2, scopes := scopes }) := by
  rw [leave, bind_ok (get_run s), h]
  cases scope <;> rfl

end Session

namespace Replay

variable {base : Nat} {last : Context} {r g : Replay} {op : Op}

/-! ## Side by side -/

/-- The replay `g` stands where the recording `r` stands on its way to `last`. -/
structure Sim (base : Nat) (last : Context) (r g : Replay) : Prop where
  context : Context.Mirrored base last r.session.context g.session.context
  workspace : ∃ p q, r.session.context.workspace = some p ∧ g.session.context.workspace = some q ∧
    Context.At base last 0 p q
  scopes : g.session.scopes = r.session.scopes
  leases : List.Forall₂ (fun p q => ∃ i, i ≠ 0 ∧ Context.At base last i p q) r.leases g.leases

/-- A recording: planned, without an arena, and outside graph capture. -/
structure Recording (r : Replay) : Prop where
  planned : r.Planned
  arena : r.session.context.arena = none
  capturing : r.session.context.capturing = false

theorem Recording.workspace_live (h : r.Recording) {p : Nat} (hworkspace : r.session.context.workspace = some p) :
    ∃ m, r.session.context.Live p m := (h.planned.sound.workspace p hworkspace).imp fun _ hm => hm.2

theorem sameBlock_at {i p q : Nat} (h : Context.At base last i p q) :
    SameBlock base last (.ok (some p)) (.ok (some q)) := by
  obtain ⟨b, s, hb, hs, hdata, hq⟩ := h
  exact ⟨i, b, s, hb, hdata, hs, hq⟩

/-- One operation: where the recording goes, the replay goes. -/
structure Stepped (base : Nat) (last : Context) (op : Op) (reply : Option Nat) (r' g : Replay) : Prop where
  run : ∃ reply' g', step op g = (.ok reply', g') ∧ SameBlock base last (.ok reply) (.ok reply') ∧ Sim base last r' g'
  capturing : r'.session.context.capturing = false

theorem lookup_lease (h : List.Forall₂ (fun p q => ∃ i, i ≠ 0 ∧ Context.At base last i p q) r.leases g.leases)
    {lease p : Nat} (hp : r.leases[lease]? = some p) :
    ∃ q, g.leases[lease]? = some q ∧ ∃ i, i ≠ 0 ∧ Context.At base last i p q := by
  obtain ⟨hlength, hget⟩ := List.forall₂_iff_get.mp h
  obtain ⟨hlease, rfl⟩ := List.getElem?_eq_some_iff.mp hp
  have hlease' : lease < g.leases.length := hlength ▸ hlease
  exact ⟨g.leases[lease], List.getElem?_eq_getElem hlease', hget lease hlease hlease'⟩

theorem Sim.acquire (h : Sim base last r g) (hrec : r.Recording) (hlast : last.Sound) (hslot : last.workspaceSlot = 0)
    {bytes : Nat} {granted reply : Option Nat} (hbounded : r.session.context.boundedBuffers = false) {t : Session}
    (hrun : Session.take bytes granted r.session = (.ok reply, t)) (hextends : r.session.context.Extends last)
    (hextends' : t.context.Extends last) :
    Stepped base last (.acquire bytes granted) reply
      { session := t, leases := r.leases ++ Op.lease reply (.acquire bytes granted) } g := by
  obtain ⟨p, c', hacquire, rfl, rfl⟩ := Session.take_eq_ok hrun
  obtain ⟨hbytes, i, hgot⟩ := Context.acquire_got hrec.planned.sound.pool hrec.arena hrec.capturing hbounded hacquire
  obtain ⟨p₀, q₀, hworkspace, hworkspace', hat₀⟩ := h.workspace
  -- The workspace is live, so it is not the block served.
  have hne : i ≠ 0 := by
    rintro rfl
    obtain ⟨m, hlive⟩ := hrec.workspace_live hworkspace
    exact Bool.false_ne_true (hgot.dead.symm.trans (Context.liveAt_of_live hlast hextends hat₀ hlive))
  obtain ⟨b, hb, hdata, hsize⟩ := hgot.block
  obtain ⟨b', hb', hdata', hsize'⟩ := hextends'.block hb
  have hrecords : last.Records r.session.context.instruction i := by
    refine hextends'.records _ i ?_
    rw [Context.Records, hgot.same]
    exact Context.records_recorded r.session.context i
  obtain ⟨hrequest, hpermits⟩ := Context.audit_permits hrecords (by rw [hslot]; exact_mod_cast hne) hb' hbytes
    (hsize'.trans hsize).ge
  obtain ⟨q, f', hrun', hmirrored, hat, hkept⟩ :=
    h.context.acquire hlast hbytes hbounded hgot hextends' hrequest hpermits granted
  have hstep : Session.step (.acquire bytes granted) g.session =
      (.ok (some q), { g.session with context := f', held := q :: g.session.held }) := by
    rw [Session.step, Session.take, bind_ok (Session.onContext_run hrun'), bind_ok (modify_run _ _), pure_run]
  have hsame : c'.workspace = r.session.context.workspace := (congrArg Context.workspace hgot.same :)
  refine ⟨⟨some q, _, step_ok rfl hstep, sameBlock_at hat, hmirrored, ⟨p₀, q₀, hsame.trans hworkspace,
    hkept.trans hworkspace', hat₀⟩, h.scopes, ?_⟩, (congrArg Context.capturing hgot.same :).trans hrec.capturing⟩
  exact List.rel_append h.leases (.cons ⟨i, hne, hat⟩ .nil)

theorem Sim.release (h : Sim base last r g) (hrec : r.Recording) (hlast : last.Sound) {lease p : Nat}
    (hp : r.leases[lease]? = some p) {reply : Option Nat} {t : Session}
    (hrun : Session.give p r.session = (.ok reply, t)) (hextends : r.session.context.Extends last) :
    Stepped base last (.release lease) reply { session := t, leases := r.leases ++ [] } g := by
  obtain ⟨c', hrelease, rfl, rfl⟩ := Session.give_eq_ok hrun
  obtain ⟨q, hq, i, hne, hat⟩ := lookup_lease h.leases hp
  obtain ⟨f', hrun', hmirrored, hkept, hsame, hcapturing⟩ :=
    h.context.release hrec.planned.sound.pool hlast hextends hat hrelease
  have hcall : (Op.release lease).call g.leases = some (.release q) := by rw [Op.call, hq]; rfl
  have hstep : Session.step (.release q) g.session =
      (.ok none, { g.session with context := f', held := g.session.held.erase q }) := by
    rw [Session.step, Session.give, bind_ok (Session.onContext_run hrun'), bind_ok (modify_run _ _), pure_run]
  obtain ⟨p₀, q₀, hworkspace, hworkspace', hat₀⟩ := h.workspace
  refine ⟨⟨none, _, step_ok hcall hstep, trivial, hmirrored, ⟨p₀, q₀, hsame.trans hworkspace,
    hkept.trans hworkspace', hat₀⟩, h.scopes, ?_⟩, hcapturing.trans hrec.capturing⟩
  exact List.rel_append h.leases .nil

theorem Sim.workspaceFor (h : Sim base last r g) (hrec : r.Recording) (hlast : last.Sound)
    (hslot : last.workspaceSlot = 0) {bytes : Nat} {reply : Option Nat} {t : Session}
    (hrun : Session.onContext (Context.workspaceFor bytes none) r.session = (.ok reply, t))
    (hextends : r.session.context.Extends last) (hextends' : t.context.Extends last) :
    Stepped base last (.workspace bytes) reply { session := t, leases := r.leases ++ [] } g := by
  obtain ⟨c', hcall, rfl⟩ := Session.onContext_eq_ok.mp hrun
  obtain ⟨p, q, hworkspace, hworkspace', hat⟩ := h.workspace
  obtain ⟨rfl, f', hrun', hmirrored, hkept, hsame, hcapturing⟩ :=
    h.context.workspaceFor hrec.planned.sound.pool hlast hrec.arena hat (hrec.workspace_live hworkspace) hextends
      hworkspace hworkspace' hslot hrec.planned.sound.planned hrec.planned.planned hcall hextends'
  have hstep : Session.step (.workspace bytes none) g.session = (.ok (some q), { g.session with context := f' }) :=
    Session.onContext_run hrun'
  refine ⟨⟨some q, _, step_ok rfl hstep, sameBlock_at hat, hmirrored, ⟨p, q, hsame.trans hworkspace,
    hkept.trans hworkspace', hat⟩, h.scopes, ?_⟩, hcapturing.trans hrec.capturing⟩
  exact List.rel_append h.leases .nil

theorem Sim.enterBounded (h : Sim base last r g) (hrec : r.Recording) {enabled : Bool} {reply : Option Nat}
    {t : Session} (hrun : Session.enter (Context.enterBounded enabled) r.session = (.ok reply, t)) :
    Stepped base last (.bounded enabled) reply { session := t, leases := r.leases ++ [] } g := by
  obtain ⟨entered, c', henter, rfl, rfl⟩ := Session.enter_eq_ok hrun
  have hoff : ∀ d : Context, d.capturing = false → Context.enterBounded enabled d = (.ok (.bounded d.boundedBuffers),
      { d with boundedBuffers := enabled, transientMetadata := enabled || d.transientMetadata }) := by
    intro d hd
    rw [Context.enterBounded, bind_ok (get_run d), if_neg (by simp [hd]), bind_ok (modify_run _ _), pure_run]
  rw [hoff _ hrec.capturing] at henter
  cases henter
  have hcapturing : g.session.context.capturing = false :=
    (congrArg Context.capturing h.context.same :).trans hrec.capturing
  have hbounded : g.session.context.boundedBuffers = r.session.context.boundedBuffers :=
    (congrArg Context.boundedBuffers h.context.same :)
  have hstep := Session.onContext_run (hoff _ hcapturing)
  refine ⟨⟨none, _, step_ok (t := { g.session with
      context := { g.session.context with
        boundedBuffers := enabled, transientMetadata := enabled || g.session.context.transientMetadata }
      scopes := .bounded r.session.context.boundedBuffers :: g.session.scopes }) rfl ?_, trivial, ?_, h.workspace, ?_,
    List.rel_append h.leases .nil⟩, hrec.capturing⟩
  · rw [Session.step, Session.enter, bind_ok hstep, bind_ok (modify_run _ _), pure_run, hbounded]
  · exact ⟨congrArg (fun d : Context => { d with
      boundedBuffers := enabled, transientMetadata := enabled || d.transientMetadata }) h.context.same,
      h.context.sound, h.context.blocks, h.context.free⟩
  · exact congrArg (Context.Scope.bounded r.session.context.boundedBuffers :: ·) h.scopes

theorem Sim.leave (h : Sim base last r g) (hrec : r.Recording) {reply : Option Nat} {t : Session}
    (hrun : Session.leave r.session = (.ok reply, t)) :
    Stepped base last .leave reply { session := t, leases := r.leases ++ [] } g := by
  cases hscopes : r.session.scopes with
  | nil =>
    rw [Session.leave_nil hscopes] at hrun
    cases hrun
    have hstep := Session.leave_nil (h.scopes.trans hscopes)
    exact ⟨⟨none, _, step_ok rfl hstep, trivial, h.context, h.workspace, h.scopes,
      List.rel_append h.leases .nil⟩, hrec.capturing⟩
  | cons scope scopes =>
    rw [Session.leave_cons hscopes] at hrun
    have hstep := Session.leave_cons (h.scopes.trans hscopes)
    cases scope with
    | capture =>
      cases hrun
      refine ⟨⟨none, _, step_ok rfl hstep, trivial, ⟨?_, h.context.sound, h.context.blocks, h.context.free⟩,
        h.workspace, rfl, List.rel_append h.leases .nil⟩, rfl⟩
      exact congrArg (fun d : Context => { d with capturing := false }) h.context.same
    | bounded previous =>
      cases hrun
      refine ⟨⟨none, _, step_ok rfl hstep, trivial, ⟨?_, h.context.sound, h.context.blocks, h.context.free⟩,
        h.workspace, rfl, List.rel_append h.leases .nil⟩, hrec.capturing⟩
      exact congrArg (fun d : Context => { d with boundedBuffers := previous }) h.context.same

/-- Where an operation of the recording succeeds, the replay follows. -/
theorem Sim.step (h : Sim base last r g) (hrec : r.Recording) (hlast : last.Sound) (hslot : last.workspaceSlot = 0)
    (hunbounded : r.Unbounded op) {reply : Option Nat} {r' : Replay} (hrun : Replay.step op r = (.ok reply, r'))
    (hextends : r'.session.context.Extends last) : Stepped base last op reply r' g := by
  have hextends₀ : r.session.context.Extends last := by
    have hfirst := extends_step op r
    rw [hrun] at hfirst
    exact Steps.trans (R := Context.Extends) hfirst hextends
  cases hcall : op.call r.leases with
  | none =>
    rw [step_none hcall] at hrun
    cases hrun
  | some call =>
    rcases hsession : Session.step call r.session with ⟨reply' | e | _, t⟩
    · rw [step_ok hcall hsession] at hrun
      cases hrun
      cases op with
      | instruction id =>
        cases hcall
        cases hsession
        refine ⟨⟨none, _, step_ok rfl rfl, trivial, ⟨?_, h.context.sound, h.context.blocks, h.context.free⟩,
          h.workspace, h.scopes, List.rel_append h.leases .nil⟩, hrec.capturing⟩
        exact congrArg (fun d : Context => { d with instruction := id }) h.context.same
      | acquire bytes granted =>
        cases hcall
        exact h.acquire hrec hlast hslot hunbounded hsession hextends₀ hextends
      | release lease =>
        obtain ⟨p, hp, rfl⟩ := Option.map_eq_some_iff.mp hcall
        exact h.release hrec hlast hp hsession hextends₀
      | workspace bytes =>
        cases hcall
        exact h.workspaceFor hrec hlast hslot hsession hextends₀ hextends
      | bounded enabled =>
        cases hcall
        exact h.enterBounded hrec hsession
      | leave =>
        cases hcall
        exact h.leave hrec hsession
      | complete =>
        cases hcall
        cases hsession
        refine ⟨⟨none, _, step_ok rfl rfl, trivial, ⟨?_, h.context.sound, h.context.blocks, h.context.free⟩,
          h.workspace, h.scopes, List.rel_append h.leases .nil⟩, hrec.capturing⟩
        exact congrArg (fun d : Context => { d with transientMetadata := false }) h.context.same
    · rw [step_err hcall hsession] at hrun
      cases hrun
    · rw [step_panic hcall hsession] at hrun
      cases hrun

/-! ## Every run -/

theorem Sim.run (h : Sim base last r g) (hrec : r.Recording) (hlast : last.Sound) (hslot : last.workspaceSlot = 0)
    (ops : List Op) (hgranted : ∀ ev ∈ history Replay.step ops r, ev.before.Granted ev.call)
    (hunbounded : ∀ ev ∈ history Replay.step ops r, ev.before.Unbounded ev.call)
    (hok : ∀ reply ∈ replies Replay.step ops r, ∃ pointer, reply = .ok pointer)
    (hend : (final Replay.step ops r).session.context = last) :
    List.Forall₂ (SameBlock base last) (replies Replay.step ops r) (replies Replay.step ops g) := by
  induction ops generalizing r g with
  | nil => exact .nil
  | cons op ops ih =>
    rw [history_cons, List.forall_mem_cons] at hgranted hunbounded
    rw [replies_cons, List.forall_mem_cons] at hok
    obtain ⟨reply, hreply⟩ := hok.1
    have hrun : Replay.step op r = (.ok reply, (Replay.step op r).2) := Prod.ext hreply rfl
    have hextends : (Replay.step op r).2.session.context.Extends last := by
      rw [← hend]
      exact extends_run ops (Replay.step op r).2
    have hfirst : r.Unbounded op := hunbounded.1
    obtain ⟨⟨reply', g', hrun', hsame, hsim⟩, hcapturing⟩ := h.step hrec hlast hslot hfirst hrun hextends
    have hrec' : (Replay.step op r).2.Recording :=
      ⟨hrec.planned.step hgranted.1, (extends_step op r).arena.trans hrec.arena, hcapturing⟩
    rw [replies_cons, replies_cons, hrun', hreply]
    exact .cons hsame (ih hsim hrec' hgranted.2 hunbounded.2 hok.2 hend)

/-! ## The two starts -/

theorem workspace_run (h : r.Planned) (ops : List Op)
    (hgranted : ∀ ev ∈ history Replay.step ops r, ev.before.Granted ev.call) :
    (final Replay.step ops r).session.context.workspace = r.session.context.workspace := by
  induction ops generalizing r with
  | nil => rfl
  | cons op ops ih =>
    rw [history_cons, List.forall_mem_cons] at hgranted
    have hfirst : r.Granted op := hgranted.1
    refine (ih (h.step hfirst) hgranted.2).trans ?_
    cases hcall : op.call r.leases with
    | none =>
      rw [step_none hcall]
    | some call =>
      have hkept := (Session.workspace_kept h.sound h.planned call (hfirst call hcall)).1
      rcases hrun : Session.step call r.session with ⟨reply | e | _, t⟩ <;> rw [hrun] at hkept
      · rw [step_ok hcall hrun]
        exact hkept
      · rw [step_err hcall hrun]
        exact hkept
      · rw [step_panic hcall hrun]
        exact hkept

theorem frozen_laid {layout : ArenaLayout} (planned : Option Nat) :
    Laid base layout (Context.frozen planned base layout) := by
  refine ⟨rfl, ?_⟩
  rw [Context.shape, Context.frozen_blocks, slotBlocks, List.map_map]
  exact (List.map_map (f := Prod.fst) (g := fun s : Slot => (base + s.offset, s.bytes))).symm.trans
    (congrArg _ (List.zipIdx_map_fst 0 layout.slots))

/-- The blocks of an audit laid out at an address, none of them live. -/
theorem frozen_mirrored (hlast : last.Sound) (hpos : ∀ b ∈ last.blocks, 0 < b.bytes) (planned : Nat) :
    Context.Mirrored base last (Context.empty (some planned)) (Context.frozen (some planned) base last.audit) := by
  have hslots : ∀ (i : Nat) b', (slotBlocks base last.audit.slots)[i]? = some b' ↔
      ∃ (b : Block) (s : Slot), last.blocks[i]? = some b ∧ last.audit.slots[i]? = some s ∧ b' = ⟨base + s.offset, b.bytes, false, i⟩ := by
    intro i b'
    have hbytes := getElem?_auditSlots 0 last.blocks i
    rw [getElem?_slotBlocks]
    constructor
    · rintro ⟨s, hs, rfl⟩
      rw [show (auditSlots 0 last.blocks)[i]? = some s from hs] at hbytes
      obtain ⟨b, hb, heq⟩ := Option.map_eq_some_iff.mp hbytes.symm
      exact ⟨b, s, hb, hs, by rw [heq]⟩
    · rintro ⟨b, s, hb, hs, rfl⟩
      rw [show (auditSlots 0 last.blocks)[i]? = some s from hs, hb] at hbytes
      exact ⟨s, hs, by rw [← Option.some.inj hbytes]⟩
  refine ⟨rfl, Context.frozen_sound (auditSlots_fit 0 hpos), hslots, fun size => ?_⟩
  -- Both list the sizes and numbers of the same blocks.
  have hsame : (slotBlocks base last.audit.slots).map (fun b => (b.bytes, b.slot)) =
      last.blocks.map fun b => (b.bytes, b.slot) := by
    refine List.ext_getElem? fun i => ?_
    rw [List.getElem?_map, List.getElem?_map]
    cases hb : last.blocks[i]? with
    | none =>
      have hnone : (slotBlocks base last.audit.slots)[i]? = none := by
        refine Option.eq_none_iff_forall_ne_some.mpr fun b' hb' => ?_
        obtain ⟨b, -, hsome, -⟩ := (hslots i b').mp hb'
        rw [hb] at hsome
        cases hsome
      rw [hnone]
    | some b =>
      obtain ⟨q, b₂, s, hb₂, hs, -, -⟩ := @Context.at_of_block last base i b hb
      obtain rfl := Option.some.inj (hb.symm.trans hb₂)
      rw [(hslots i _).mpr ⟨b, s, hb, hs, rfl⟩, Option.map_some, Option.map_some, hlast.slots i b hb]
  have hfilter : ∀ bs : List Block, (bs.filter fun b => b.bytes = size).map Block.slot =
      ((bs.map fun b => (b.bytes, b.slot)).filter fun e => e.1 = size).map Prod.snd := by
    intro bs
    rw [List.filter_map, List.map_map]
    rfl
  rw [Context.frozen_free, ExtTreeMap.getD_eq_getD_getElem?, offer_foldr]
  have hempty : (Context.empty (some planned)).free.getD size [] = [] := ExtTreeMap.getD_empty
  have hlength : (Context.empty (some planned)).blocks.length = 0 := rfl
  rw [hempty, List.nil_append, Context.pending, hlength, List.drop_zero]
  rw [hfilter last.blocks, ← hsame, ← hfilter]
  split
  · rfl
  · rename_i hnone
    rw [Option.getD_none, List.filter_eq_nil_iff.mpr, List.map_nil]
    intro b hb hbytes
    exact hnone ⟨b, hb, of_decide_eq_true hbytes⟩

theorem reserveWorkspace_ok {planned p : Nat} {granted : Option Nat} {c c' : Context}
    (hsame : c.plannedWorkspaceBytes = planned) (hplanned : 0 < planned)
    (hrun : Context.acquire planned true granted c = (.ok p, c')) :
    Context.reserveWorkspace granted c =
      (.ok (), { c' with workspace := some p, workspaceBytes := c'.plannedWorkspaceBytes }) := by
  rw [Context.reserveWorkspace, bind_ok (get_run c), hsame, if_neg (Nat.ne_of_gt hplanned), bind_ok hrun, modify_run]

theorem reserveWorkspace_err {planned : Nat} {granted : Option Nat} {c c' : Context} {e : String}
    (hsame : c.plannedWorkspaceBytes = planned) (hplanned : 0 < planned)
    (hrun : Context.acquire planned true granted c = (.err e, c')) :
    Context.reserveWorkspace granted c = (.err e, c') := by
  rw [Context.reserveWorkspace, bind_ok (get_run c), hsame, if_neg (Nat.ne_of_gt hplanned), bind_err hrun]

theorem extends_new {planned : Nat} {granted : Option Nat} {c : Context}
    (hnew : Context.new (some planned) none granted = .ok c) : (Context.empty (some planned)).Extends c := by
  obtain ⟨-, hmade⟩ := Outcome.check_bind_eq_ok.mp hnew
  obtain rfl := Outcome.ok.inj hmade
  have hkeeps : Keeps Context.Extends (Context.reserveWorkspace granted) := by
    refine keeps_get.bind fun c => ?_
    split
    · exact keeps_pure _
    · exact (Context.keeps_acquire _ true granted).bind fun _ => keeps_modify fun c => .of_same rfl rfl fun _ _ h => h
  exact hkeeps _

/-- A new recording: its workspace is the first block. -/
theorem new_recording {planned : Nat} {granted : Option Nat} {c : Context} (hplanned : 0 < planned)
    (hnew : Context.new (some planned) none granted = .ok c) :
    ∃ p c₁, Context.acquire planned true granted (Context.empty (some planned)) = (.ok p, c₁) ∧
      c = { c₁ with workspace := some p, workspaceBytes := planned } ∧
      Context.Got (Context.empty (some planned)) planned 0 p c₁ := by
  obtain ⟨hmade, heq⟩ := Outcome.check_bind_eq_ok.mp hnew
  obtain rfl := Outcome.ok.inj heq
  obtain ⟨p, c₁, hrun⟩ : ∃ p c₁, Context.acquire planned true granted (Context.empty (some planned)) = (.ok p, c₁) := by
    have hfresh : (Context.empty (some planned)).Fresh granted := fun _ _ _ _ hb => by cases hb
    rcases Context.acquire_spec Context.empty_sound hfresh planned true with ⟨e, hrun⟩ | ⟨p, c₁, hrun, -⟩
    · rw [reserveWorkspace_err rfl hplanned hrun] at hmade
      cases hmade
    · exact ⟨p, c₁, hrun⟩
  obtain ⟨-, i, hgot⟩ := Context.acquire_got Context.empty_sound rfl rfl rfl hrun
  have hzero : i = 0 := by
    rcases hgot.pool with ⟨rest, hfree, -⟩ | ⟨-, hi, -⟩
    · have hempty : (Context.empty (some planned)).free.getD planned [] = [] := ExtTreeMap.getD_empty
      rw [hempty] at hfree
      cases hfree
    · exact hi
  subst hzero
  refine ⟨p, c₁, hrun, ?_, hgot⟩
  have hmaximum : c₁.plannedWorkspaceBytes = planned := (congrArg Context.plannedWorkspaceBytes hgot.same :)
  rw [reserveWorkspace_ok rfl hplanned hrun, hmaximum]

/-- The replay of a recording on the arena frozen from it: no two buffers in use ever overlap,
    and where no bounded scope acquires, every call is answered with the slot of the same block. -/
theorem replays_recording {planned : Nat} {granted granted' : Option Nat} {c : Context} {ops : List Op}
    (hplanned : 0 < planned) (hnew : Context.new (some planned) none granted = .ok c)
    (hgranted : ∀ ev ∈ history step ops (start c), ev.before.Granted ev.call)
    (hok : ∀ reply ∈ replies step ops (start c), ∃ pointer, reply = .ok pointer) (base : Nat) :
    let last := (final step ops (start c)).session.context
    ∃ f, Context.new (some planned) (some (base, last.audit)) granted' = .ok f ∧
      (∀ ops', (final step ops' (start f)).Packed base last.audit.bytes) ∧
      ((∀ ev ∈ history step ops (start c), ev.before.Unbounded ev.call) →
        List.Forall₂ (SameBlock base last) (replies step ops (start c)) (replies step ops (start f))) := by
  intro last
  obtain ⟨p, c₁, hrun, rfl, hgot⟩ := new_recording hplanned hnew
  have hwp : c₁.workspacePlanned = true := (congrArg Context.workspacePlanned hgot.same :)
  have hrec : (start { c₁ with workspace := some p, workspaceBytes := planned }).Recording :=
    ⟨planned_start (fun _ _ h => by cases h) hnew hwp, (congrArg Context.arena hgot.same :),
      (congrArg Context.capturing hgot.same :)⟩
  have hlast : last.Sound := (hrec.planned.run ops hgranted).sound.pool
  have hextends : Context.Extends { c₁ with workspace := some p, workspaceBytes := planned } last :=
    extends_run ops (start _)
  have hextends₁ : c₁.Extends last := ⟨hextends.arena, hextends.shape, hextends.fixed, hextends.records⟩
  have hpos : ∀ b ∈ last.blocks, 0 < b.bytes := by
    obtain ⟨more, hmore, hall⟩ := (Steps.trans (R := Context.Extends) (extends_new hnew) hextends).shape
    intro b hb
    have hmem : (b.data, b.bytes) ∈ last.shape := List.mem_map.mpr ⟨b, hb, rfl⟩
    rw [hmore] at hmem
    exact hall _ hmem
  -- The first block is the workspace, at the end as well.
  obtain ⟨b, hb, hdata, hsize⟩ := hgot.block
  obtain ⟨b', hb', hdata', hsize'⟩ := hextends₁.block hb
  have hworkspace : last.workspace = some p := workspace_run hrec.planned ops hgranted
  have hslot : last.workspaceSlot = 0 := by
    have howned : last.owned[p]? = some 0 := (hlast.addresses p 0).mpr ⟨b', hb', hdata'.trans hdata⟩
    simp only [Context.workspaceSlot, hworkspace, howned]
    rfl
  have hrecords : last.Records (-1) 0 := by
    refine hextends₁.records _ 0 ?_
    rw [Context.Records, hgot.same]
    exact Context.records_recorded (Context.empty (some planned)) 0
  obtain ⟨hpermits, hrequest⟩ := Context.audit_permits_workspace hrecords hslot.symm
  have hrequest' : last.audit.permitsRequest (-1) planned true = true := by
    rcases hrequest b' hb' with hrequest | hne
    · rw [← hsize, ← hsize']
      exact hrequest
    · exact absurd rfl hne
  have hmirror := @frozen_mirrored base last hlast hpos planned
  obtain ⟨q, f₁, hrun', hmirrored, hat, -⟩ :=
    hmirror.acquire hlast hplanned rfl hgot hextends₁ hrequest' hpermits granted'
  have hmaximum : f₁.plannedWorkspaceBytes = planned :=
    (congrArg Context.plannedWorkspaceBytes hmirrored.same :).trans (congrArg Context.plannedWorkspaceBytes hgot.same :)
  have hnewf : Context.new (some planned) (some (base, last.audit)) granted' =
      .ok { f₁ with workspace := some q, workspaceBytes := planned } := by
    have hmade : Context.reserveWorkspace granted' (Context.frozen (some planned) base last.audit) =
        (.ok (), { f₁ with workspace := some q, workspaceBytes := planned }) := by
      rw [reserveWorkspace_ok rfl hplanned hrun', hmaximum]
    simp only [Context.new, reduceCtorEq, if_false, hmade]
    rfl
  have hfit : ArenaLayout.slotsFit last.audit.bytes 0 last.audit.slots = true := auditSlots_fit 0 hpos
  have hplanned_f : (start { f₁ with workspace := some q, workspaceBytes := planned }).Planned := by
    refine planned_start ?_ hnewf ((congrArg Context.workspacePlanned hmirrored.same :).trans hwp)
    rintro base' layout heq
    obtain ⟨rfl, rfl⟩ := Prod.mk.inj (Option.some.inj heq)
    exact hfit
  have hlaid : Laid base last.audit f₁ := by
    have hkept := Context.keeps_acquire planned true granted' (Context.frozen (some planned) base last.audit)
    rw [hrun'] at hkept
    exact (frozen_laid _).extends hkept
  refine ⟨_, hnewf, fun ops' => hplanned_f.run_packed hlaid hfit ops', fun hunbounded => ?_⟩
  · have hsim : Sim base last (start { c₁ with workspace := some p, workspaceBytes := planned })
        (start { f₁ with workspace := some q, workspaceBytes := planned }) := by
      refine ⟨⟨?_, hmirrored.sound, hmirrored.blocks, hmirrored.free⟩, ⟨p, q, rfl, rfl, hat⟩, rfl, .nil⟩
      exact congrArg (fun d : Context => { d with workspace := some q, workspaceBytes := planned }) hmirrored.same
    exact hsim.run hrec hlast hslot ops hgranted hunbounded hok rfl

/-! ## Samples -/

/-- A context with 64 bytes of workspace, and the one frozen after some operations on it. -/
def recordedStart : Context := (Context.reserveWorkspace (some 1) (Context.empty (some 64))).2

def frozenStart (ops : List Op) : Context :=
  (Context.reserveWorkspace none
    (Context.frozen (some 64) 4096 (final step ops (start recordedStart)).session.context.audit)).2

def exactOps : List Op :=
  [.workspace 32, .acquire 20 (some 2), .instruction 3, .acquire 20 (some 3), .release 0, .bounded true, .workspace 8,
    .leave, .acquire 20 none, .complete]

theorem replays_recording_sample :
    List.Forall₂ (SameBlock 4096 (final step exactOps (start recordedStart)).session.context)
        (replies step exactOps (start recordedStart)) (replies step exactOps (start (frozenStart exactOps))) ∧
      (final step exactOps (start (frozenStart exactOps))).Packed 4096
        (final step exactOps (start recordedStart)).session.context.audit.bytes := by
  have hok : ∀ reply ∈ replies step exactOps (start recordedStart), ∃ pointer, reply = .ok pointer := by
    have hreplies : replies step exactOps (start recordedStart) = [.ok (some 1), .ok (some 2), .ok none, .ok (some 3),
        .ok none, .ok none, .ok (some 1), .ok none, .ok (some 2), .ok none] := by decide +kernel
    rw [hreplies]
    simp
  have hunbounded : ∀ ev ∈ history step exactOps (start recordedStart), ev.before.Unbounded ev.call := by
    decide +kernel
  obtain ⟨f, hnew, hpacked, hreplies⟩ := @replays_recording 64 (some 1) none recordedStart exactOps (by decide) rfl
    (by decide +kernel) hok 4096
  obtain rfl : frozenStart exactOps = f := Outcome.ok.inj hnew
  exact ⟨hreplies hunbounded, hpacked exactOps⟩

/-- A buffer given back, a smaller bounded request, and a request of a size between the two. -/
def boundedOps : List Op :=
  [.acquire 20 (some 2), .release 0, .bounded true, .acquire 10 none, .leave, .acquire 15 (some 3)]

/-- The bounded request takes another slot than in the recording, and the last request finds none. -/
theorem bounded_replay_exhausted :
    Context.new (some 64) none (some 1) = .ok recordedStart ∧
    (∀ ev ∈ history step boundedOps (start recordedStart), ev.before.Granted ev.call) ∧
    replies step boundedOps (start recordedStart) =
      [.ok (some 2), .ok none, .ok none, .ok (some 2), .ok none, .ok (some 3)] ∧
    Context.new (some 64) (some (4096, (final step boundedOps (start recordedStart)).session.context.audit)) none =
      .ok (frozenStart boundedOps) ∧
    replies step boundedOps (start (frozenStart boundedOps)) =
      [.ok (some 4608), .ok none, .ok none, .ok (some 5120), .ok none,
        .err "frozen arena exhausted: undeclared allocation at instruction -1 bytes=15"] :=
  ⟨rfl, by decide +kernel, by decide +kernel, rfl, by decide +kernel⟩

end Replay

end Inferfabric.Native.Prepared
