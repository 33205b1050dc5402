-- SUMMARY: Buffers of a session stay exclusive exactly as long as no call gives the workspace away.
import IronPangu.Native.Prepared.Session

open Rust Method Std

/-!
# Exclusive buffers

The pool is sound after every call, whatever fails. What can break is the workspace: it
is held by the context as long as every call is `Proper`, and the first one that is not
leaves it dangling.
-/

namespace Inferfabric.Native.Prepared

namespace Session

variable {s : Session} {c : Context} {bytes pointer : Nat} {granted : Option Nat}

/-! ## The invariant -/

/-- The pool is sound, the workspace is live, and the callers hold what else is live. -/
structure Sound (s : Session) : Prop where
  pool : s.context.Sound
  nodup : s.held.Nodup
  held : ∀ q, q ∈ s.held ↔ (∃ m, s.context.Live q m) ∧ s.context.workspace ≠ some q
  workspace : ∀ q, s.context.workspace = some q → ∃ m, s.context.workspaceBytes ≤ m ∧ s.context.Live q m
  planned : s.context.workspacePlanned = true → s.context.workspaceBytes = s.context.plannedWorkspaceBytes
  arena : s.context.arena ≠ none → s.context.workspacePlanned = true

theorem live_of_block {i : Nat} {b : Block} (hb : c.blocks[i]? = some b) (hlive : b.live = true) :
    c.Live b.data b.bytes := ⟨i, b, hb, rfl, rfl, hlive⟩

theorem Sound.owners_live (h : s.Sound) (hlive : ∃ m, s.context.Live pointer m) : s.owners pointer = 1 := by
  by_cases hworkspace : s.context.workspace = some pointer
  · have hheld : pointer ∉ s.held := fun hmem => ((h.held pointer).mp hmem).2 hworkspace
    rw [owners, hworkspace, List.count_eq_zero_of_not_mem hheld]
    simp
  · have hheld : pointer ∈ s.held := (h.held pointer).mpr ⟨hlive, hworkspace⟩
    have hnone : pointer ∉ s.context.workspace.toList := by simpa [Option.mem_toList, eq_comm] using hworkspace
    rw [owners, List.count_eq_one_of_mem h.nodup hheld, List.count_eq_zero_of_not_mem hnone]

theorem Sound.owners_dead (h : s.Sound) (hdead : ∀ m, ¬s.context.Live pointer m) : s.owners pointer = 0 := by
  have hheld : pointer ∉ s.held := by
    intro hmem
    obtain ⟨⟨m, hlive⟩, -⟩ := (h.held pointer).mp hmem
    exact hdead m hlive
  have hnone : pointer ∉ s.context.workspace.toList := by
    intro hmem
    obtain ⟨m, -, hlive⟩ := h.workspace pointer (Option.mem_toList.mp hmem)
    exact hdead m hlive
  rw [owners, List.count_eq_zero_of_not_mem hheld, List.count_eq_zero_of_not_mem hnone]

/-- A number waits in the list of its own size only, and there once. -/
theorem waits_nodup (h : s.context.Sound) : (s.context.free.toList.flatMap Prod.snd).Nodup := by
  rw [List.nodup_flatMap]
  constructor
  · rintro ⟨size, is⟩ hbin
    exact (h.waiting size is (ExtTreeMap.mem_toList_iff_getElem?_eq_some.mp hbin)).1
  · refine ExtTreeMap.distinct_keys_toList.imp_of_mem fun {x y} hx hy hne i hi hi' => hne ?_
    obtain ⟨b, hb, -, hsize⟩ := (h.waiting x.1 x.2 (ExtTreeMap.mem_toList_iff_getElem?_eq_some.mp hx)).2 i hi
    obtain ⟨b', hb', -, hsize'⟩ := (h.waiting y.1 y.2 (ExtTreeMap.mem_toList_iff_getElem?_eq_some.mp hy)).2 i hi'
    obtain rfl := Option.some.inj (hb.symm.trans hb')
    exact Std.compare_eq_iff_eq.mpr (hsize.symm.trans hsize')

theorem waits_dead (h : s.context.Sound) {i : Nat} {b : Block} (hb : s.context.blocks[i]? = some b)
    (hdead : b.live = false) : s.waits i = 1 := by
  obtain ⟨is, his, hi⟩ := h.listed i b hb hdead
  refine List.count_eq_one_of_mem (waits_nodup h) (List.mem_flatMap.mpr ⟨(b.bytes, is), ?_, hi⟩)
  exact ExtTreeMap.mem_toList_iff_getElem?_eq_some.mpr his

theorem waits_live (h : s.context.Sound) {i : Nat} {b : Block} (hb : s.context.blocks[i]? = some b)
    (hlive : b.live = true) : s.waits i = 0 := by
  refine List.count_eq_zero_of_not_mem fun hmem => ?_
  obtain ⟨⟨size, is⟩, hbin, hi⟩ := List.mem_flatMap.mp hmem
  obtain ⟨b', hb', hdead, -⟩ := (h.waiting size is (ExtTreeMap.mem_toList_iff_getElem?_eq_some.mp hbin)).2 i hi
  obtain rfl := Option.some.inj (hb.symm.trans hb')
  exact Bool.false_ne_true (hdead.symm.trans hlive)

theorem Sound.exclusive (h : s.Sound) : s.Exclusive := by
  constructor
  · intro i b hb
    cases hlive : b.live with
    | false => exact .inl ⟨rfl, waits_dead h.pool hb hlive, h.owners_dead (h.pool.not_live hb hlive)⟩
    | true => exact .inr ⟨rfl, waits_live h.pool hb hlive, h.owners_live ⟨_, live_of_block hb hlive⟩⟩
  · intro q hq
    obtain ⟨m, hbytes, i, b, hb, rfl, rfl, hlive⟩ := h.workspace q hq
    exact ⟨b, List.mem_of_getElem? hb, rfl, hlive, hbytes⟩

/-- A workspace that is not live is not exclusive. -/
theorem not_exclusive (hworkspace : s.context.workspace = some pointer)
    (hdead : ∀ m, ¬s.context.Live pointer m) : ¬s.Exclusive := by
  intro hexclusive
  obtain ⟨b, hb, rfl, hlive, -⟩ := hexclusive.workspace pointer hworkspace
  obtain ⟨i, hi⟩ := List.getElem?_of_mem hb
  exact hdead b.bytes (live_of_block hi hlive)

/-! ## Acquiring and releasing -/

theorem onContext_run {α : Type} {m : Method Context String α} {o : Outcome String α} {c' : Context}
    (h : m s.context = (o, c')) : onContext m s = (o, { s with context := c' }) := by
  rw [onContext, h]

theorem take_spec (h : s.Sound) (hfresh : s.context.Fresh granted) (bytes : Nat) :
    (∃ e, take bytes granted s = (.err e, s)) ∨
      ∃ pointer c', take bytes granted s = (.ok (some pointer), { s with context := c', held := pointer :: s.held }) ∧
        s.context.Served bytes pointer c' := by
  rcases Context.acquire_spec h.pool hfresh bytes false with ⟨e, hrun⟩ | ⟨pointer, c', hrun, hserved⟩
  · exact .inl ⟨e, bind_err (onContext_run hrun)⟩
  · refine .inr ⟨pointer, c', ?_, hserved⟩
    rw [take, bind_ok (onContext_run hrun), bind_ok (modify_run _ _), pure_run]

theorem Sound.served (h : s.Sound) {c' : Context} (hserved : s.context.Served bytes pointer c') :
    Sound { s with context := c', held := pointer :: s.held } ∧ s.context.workspace ≠ some pointer := by
  have hnot : s.context.workspace ≠ some pointer := by
    intro hworkspace
    obtain ⟨m, -, hlive⟩ := h.workspace pointer hworkspace
    exact hserved.fresh m hlive
  obtain ⟨harena, hworkspace, hbytes, hmaximum, hplanned⟩ := Context.others_eq hserved.others
  obtain ⟨n, -, hlive⟩ := hserved.live
  refine ⟨⟨hserved.sound, ?_, ?_, ?_, ?_, ?_⟩, hnot⟩
  · refine List.nodup_cons.mpr ⟨fun hmem => ?_, h.nodup⟩
    obtain ⟨⟨m, hm⟩, -⟩ := (h.held pointer).mp hmem
    exact hserved.fresh m hm
  · intro q
    rw [hworkspace, List.mem_cons, h.held]
    constructor
    · rintro (rfl | ⟨⟨m, hm⟩, hne⟩)
      · exact ⟨⟨n, (hlive q n).mpr (.inl ⟨rfl, rfl⟩)⟩, hnot⟩
      · exact ⟨⟨m, (hlive q m).mpr (.inr hm)⟩, hne⟩
    · rintro ⟨⟨m, hm⟩, hne⟩
      rcases (hlive q m).mp hm with ⟨rfl, -⟩ | hm
      · exact .inl rfl
      · exact .inr ⟨⟨m, hm⟩, hne⟩
  · intro q hq
    rw [hworkspace] at hq
    obtain ⟨m, hm, hq⟩ := h.workspace q hq
    exact ⟨m, hbytes.le.trans hm, (hlive q m).mpr (.inr hq)⟩
  · rw [hplanned, hbytes, hmaximum]
    exact h.planned
  · rw [harena, hplanned]
    exact h.arena

theorem give_spec (h : s.Sound) (pointer : Nat) :
    (∃ e, give pointer s = (.err e, s)) ∧ (∀ m, ¬s.context.Live pointer m) ∨
      ∃ c', give pointer s = (.ok none, { s with context := c', held := s.held.erase pointer }) ∧
        s.context.Released pointer c' ∧ ∃ m, s.context.Live pointer m := by
  rcases Context.release_spec h.pool pointer with ⟨hdead, e, hrun⟩ | ⟨c', hrun, hreleased⟩
  · exact .inl ⟨⟨e, bind_err (onContext_run hrun)⟩, hdead⟩
  · refine .inr ⟨c', ?_, hreleased⟩
    rw [give, bind_ok (onContext_run hrun), bind_ok (modify_run _ _), pure_run]

theorem Sound.released (h : s.Sound) {c' : Context} (hreleased : s.context.Released pointer c')
    (hworkspace : s.context.workspace ≠ some pointer) :
    Sound { s with context := c', held := s.held.erase pointer } := by
  obtain ⟨harena, hsame, hbytes, hmaximum, hplanned⟩ := Context.others_eq hreleased.others
  refine ⟨hreleased.sound, h.nodup.erase pointer, ?_, ?_, ?_, ?_⟩
  · intro q
    rw [hsame, h.nodup.mem_erase_iff, h.held]
    simp only [hreleased.live, exists_and_left, and_assoc]
  · intro q hq
    rw [hsame] at hq
    obtain ⟨m, hm, hlive⟩ := h.workspace q hq
    refine ⟨m, hbytes.le.trans hm, (hreleased.live q m).mpr ⟨?_, hlive⟩⟩
    rintro rfl
    exact hworkspace hq
  · rw [hplanned, hbytes, hmaximum]
    exact h.planned
  · rw [harena, hplanned]
    exact h.arena

/-! ## Growing the workspace -/

/-- The workspace went back to the pool. -/
structure Vacated (c c' : Context) : Prop where
  sound : c'.Sound
  live : ∀ q m, c'.Live q m ↔ c.workspace ≠ some q ∧ c.Live q m
  dead : ∀ P : Nat → Prop, (∃ b ∈ c'.blocks, b.live = false ∧ P b.bytes) ↔
    ∃ b ∈ c.blocks, (b.live = false ∨ c.workspace = some b.data) ∧ P b.bytes
  addresses : ∀ b' ∈ c'.blocks, ∃ b ∈ c.blocks, b.data = b'.data
  others : c'.others = c.others

theorem releaseWorkspace_spec (h : c.Sound) (hlive : ∀ q, c.workspace = some q → ∃ m, c.Live q m) :
    ∃ c', Context.releaseWorkspace c = (.ok (), c') ∧ Vacated c c' := by
  rcases Option.eq_none_or_eq_some c.workspace with hworkspace | ⟨pointer, hworkspace⟩
  · refine ⟨c, ?_, h, by simp [hworkspace], by simp [hworkspace], fun b hb => ⟨b, hb, rfl⟩, rfl⟩
    rw [Context.releaseWorkspace, bind_ok (get_run c)]
    simp only [hworkspace, pure_run]
  · obtain ⟨m, i, b, hb, rfl, rfl, hb_live⟩ := hlive pointer hworkspace
    refine ⟨{ c with
      blocks := c.blocks.set i { b with live := false }
      free := c.free.insert b.bytes (i :: c.free.getD b.bytes []) }, ?_, Prepared.Sound.give h hb hb_live, ?_, ?_, ?_, rfl⟩
    · have hstart : Context.releaseWorkspace c = Context.release b.data c := by
        rw [Context.releaseWorkspace, bind_ok (get_run c)]
        simp only [hworkspace]
      exact hstart.trans (Context.release_run h hb hb_live)
    · intro q n
      rw [Context.live_unset h hb rfl, hworkspace]
      simp only [ne_eq, Option.some.injEq, eq_comm]
    · intro P
      dsimp only
      constructor
      · rintro ⟨b', hb', hdead, hP⟩
        obtain ⟨j, hj⟩ := List.getElem?_of_mem hb'
        rcases (getElem?_setLive hb).mp hj with ⟨-, rfl⟩ | ⟨-, hj⟩
        · exact ⟨b, List.mem_of_getElem? hb, .inr hworkspace, hP⟩
        · exact ⟨b', List.mem_of_getElem? hj, .inl hdead, hP⟩
      · rintro ⟨b', hb', hgone, hP⟩
        obtain ⟨j, hj⟩ := List.getElem?_of_mem hb'
        by_cases hij : i = j
        · subst hij
          obtain rfl := Option.some.inj (hb.symm.trans hj)
          exact ⟨_, List.mem_of_getElem? ((getElem?_setLive hb).mpr (.inl ⟨rfl, rfl⟩)), rfl, hP⟩
        · refine ⟨b', List.mem_of_getElem? ((getElem?_setLive hb).mpr (.inr ⟨hij, hj⟩)), ?_, hP⟩
          refine hgone.resolve_right fun hdata => hij (h.index_unique hb hj ?_)
          exact Option.some.inj (hworkspace.symm.trans hdata)
    · intro b' hb'
      obtain ⟨j, hj⟩ := List.getElem?_of_mem hb'
      rcases (getElem?_setLive hb).mp hj with ⟨-, rfl⟩ | ⟨-, hj⟩
      · exact ⟨b, List.mem_of_getElem? hb, rfl⟩
      · exact ⟨b', List.mem_of_getElem? hj, rfl⟩

/-- Room before the workspace goes back is what supplies the larger one after. -/
theorem Vacated.supplied {c' : Context} (h : Vacated c c') : c'.Supplied bytes granted ↔ Room c bytes granted := by
  have hcapturing : c'.capturing = c.capturing := (congrArg Context.capturing h.others :)
  have hbounded : c'.boundedBuffers = c.boundedBuffers := (congrArg Context.boundedBuffers h.others :)
  rw [Context.Supplied, Room, hcapturing, hbounded]
  exact or_congr (h.dead fun size => size = bytes ∨ c.boundedBuffers = true ∧ bytes ≤ size) Iff.rfl

/-- Where there is no workspace nothing goes back. -/
theorem Sound.vacated (h : s.Sound) {c' : Context} (hvacated : Vacated s.context c')
    (hnone : s.context.workspace = none) : Sound { s with context := c' } := by
  obtain ⟨harena, hsame, hbytes, hmaximum, hplanned⟩ := Context.others_eq hvacated.others
  refine ⟨hvacated.sound, h.nodup, ?_, ?_, ?_, ?_⟩
  · intro q
    rw [h.held, hsame, hnone]
    simp [hvacated.live, hnone]
  · intro q hq
    rw [hsame, hnone] at hq
    cases hq
  · rw [hplanned, hbytes, hmaximum]
    exact h.planned
  · rw [harena, hplanned]
    exact h.arena

/-- The larger workspace replaces the one that went back. -/
theorem Sound.grown (h : s.Sound) {c₁ c₂ : Context} (hunplanned : s.context.workspacePlanned = false)
    (hvacated : Vacated s.context c₁) (hserved : c₁.Served bytes pointer c₂) :
    Sound { s with context := { c₂ with workspace := some pointer, workspaceBytes := bytes } } := by
  obtain ⟨harena₁, -, -, -, hplanned₁⟩ := Context.others_eq hvacated.others
  obtain ⟨harena₂, -, -, -, hplanned₂⟩ := Context.others_eq hserved.others
  have hplanned : c₂.workspacePlanned = false := hplanned₂.trans (hplanned₁.trans hunplanned)
  obtain ⟨n, hn, hlive⟩ := hserved.live
  refine ⟨hserved.sound, h.nodup, ?_, ?_, ?_, ?_⟩
  · intro q
    rw [h.held]
    dsimp only
    constructor
    · rintro ⟨⟨m, hm⟩, hne⟩
      have hm₁ : c₁.Live q m := (hvacated.live q m).mpr ⟨hne, hm⟩
      refine ⟨⟨m, (hlive q m).mpr (.inr hm₁)⟩, fun heq => ?_⟩
      obtain rfl := Option.some.inj heq
      exact hserved.fresh m hm₁
    · rintro ⟨⟨m, hm⟩, hne⟩
      rcases (hlive q m).mp hm with ⟨rfl, -⟩ | hm₁
      · exact absurd rfl hne
      · obtain ⟨hne', hm₀⟩ := (hvacated.live q m).mp hm₁
        exact ⟨⟨m, hm₀⟩, hne'⟩
  · intro q hq
    obtain rfl := Option.some.inj hq
    exact ⟨n, hn, (hlive pointer n).mpr (.inl ⟨rfl, rfl⟩)⟩
  · intro htrue
    exact absurd (hplanned.symm.trans htrue) Bool.false_ne_true
  · intro harena
    refine absurd (hunplanned.symm.trans (h.arena fun hnone => harena ?_)) Bool.false_ne_true
    exact harena₂.trans (harena₁.trans hnone)

theorem growWorkspace_spec (h : s.Sound) (hunplanned : s.context.workspacePlanned = false)
    (hgrow : s.context.workspaceBytes < bytes) (hfresh : s.context.Fresh granted) :
    (Room s.context bytes granted ∧ ∃ c', Context.growWorkspace bytes granted s.context = (.ok (), c') ∧
      Sound { s with context := c' }) ∨
    (¬Room s.context bytes granted ∧ ∃ e c', Context.growWorkspace bytes granted s.context = (.err e, c') ∧
      Vacated s.context c') := by
  have harena : s.context.arena = none := by
    by_contra hsome
    exact Bool.false_ne_true (hunplanned.symm.trans (h.arena hsome))
  obtain ⟨c₁, hrelease, hvacated⟩ := releaseWorkspace_spec h.pool fun q hq =>
    (h.workspace q hq).imp fun _ hm => hm.2
  have harena₁ : c₁.arena = none := (Context.others_eq hvacated.others).1.trans harena
  have hfresh₁ : c₁.Fresh granted := by
    intro _ p hp b' hb' hdata
    obtain ⟨b, hb, heq⟩ := hvacated.addresses b' hb'
    exact hfresh harena p hp b hb (heq.trans hdata)
  have herr : (Context.acquire bytes false granted c₁).1.isErr = true ↔ _ :=
    Context.acquire_isErr hvacated.sound harena₁ (Nat.ne_of_gt (Nat.zero_lt_of_lt hgrow)) false
  rw [hvacated.supplied] at herr
  rcases Context.acquire_spec hvacated.sound hfresh₁ bytes false with ⟨e, hrun⟩ | ⟨pointer, c₂, hrun, hserved⟩
  · rw [hrun] at herr
    refine .inr ⟨herr.mp rfl, e, c₁, ?_, hvacated⟩
    rw [Context.growWorkspace, bind_ok hrelease, bind_err hrun]
  · rw [hrun] at herr
    refine .inl ⟨not_not.mp fun hroom => Bool.false_ne_true (herr.mpr hroom), _, ?_,
      h.grown hunplanned hvacated hserved⟩
    rw [Context.growWorkspace, bind_ok hrelease, bind_ok hrun, modify_run]

/-! ## One call -/

theorem recordWorkspace_run (c : Context) :
    ∃ o slots, Context.recordWorkspace c = (o, { c with instructionSlots := slots }) := by
  have hsame : ∀ o, Context.recordWorkspace c = (o, c) →
      ∃ o slots, Context.recordWorkspace c = (o, { c with instructionSlots := slots }) := fun o h => ⟨o, _, h⟩
  rcases Option.eq_none_or_eq_some c.workspace with hnone | ⟨q, hq⟩
  · refine hsame (.ok ()) ?_
    simp [Context.recordWorkspace, bind_run, hnone]
  rcases Option.eq_none_or_eq_some c.owned[q]? with howned | ⟨i, howned⟩
  · refine hsame .panic ?_
    simp [Context.recordWorkspace, bind_run, hq, howned]
  have hstart : Context.recordWorkspace c = (Context.block i >>= fun b => Context.record b.slot) c := by
    simp [Context.recordWorkspace, bind_run, hq, howned]
  rcases Option.eq_none_or_eq_some c.blocks[i]? with hb | ⟨b, hb⟩
  · refine hsame .panic ?_
    rw [hstart]
    simp [Context.block, bind_run, hb]
  rw [bind_ok (Context.block_run hb)] at hstart
  by_cases hpermits : c.Permits b.slot
  · exact ⟨_, _, hstart.trans (Context.record_run hpermits)⟩
  · obtain ⟨e, hrefused⟩ := Context.record_err hpermits
    exact hsame _ (hstart.trans hrefused)

theorem workspaceFor_ok {c' : Context} (hfits : ¬(c.workspacePlanned = true ∧ bytes > c.plannedWorkspaceBytes))
    (h : Context.ensureWorkspace bytes granted c = (.ok (), c')) :
    ∃ slots, (Context.workspaceFor bytes granted c).2 = { c' with instructionSlots := slots } := by
  obtain ⟨o, slots, hrecord⟩ := recordWorkspace_run c'
  refine ⟨slots, ?_⟩
  rw [Context.workspaceFor, bind_ok (get_run c), if_neg hfits, bind_ok h, bind_run, hrecord]
  cases o <;> rfl

theorem workspaceFor_err {e : String} {c' : Context}
    (hfits : ¬(c.workspacePlanned = true ∧ bytes > c.plannedWorkspaceBytes))
    (h : Context.ensureWorkspace bytes granted c = (.err e, c')) :
    (Context.workspaceFor bytes granted c).2 = c' := by
  rw [Context.workspaceFor, bind_ok (get_run c), if_neg hfits, bind_err h]

theorem workspace_spec (h : s.Sound) (hfresh : s.context.Fresh granted) :
    let s' := { s with context := (Context.workspaceFor bytes granted s.context).2 }
    (Proper s (.workspace bytes granted) → s'.Sound) ∧ (¬Proper s (.workspace bytes granted) → ¬s'.Exclusive) := by
  intro s'
  have hrecorded : ∀ c' : Context, Sound { s with context := c' } → ∀ slots,
      Sound { s with context := { c' with instructionSlots := slots } } := by
    intro c' h' slots
    exact ⟨h'.pool, h'.nodup, h'.held, h'.workspace, h'.planned, h'.arena⟩
  by_cases hfits : s.context.workspacePlanned = true ∧ bytes > s.context.plannedWorkspaceBytes
  · have hsame : (Context.workspaceFor bytes granted s.context).2 = s.context := by
      rw [Context.workspaceFor, bind_ok (get_run _), if_pos hfits, fail_run]
    refine ⟨fun _ => ?_, fun himproper => absurd (.inl hfits.1) himproper⟩
    simpa only [s', hsame] using h
  by_cases hgrow : bytes > s.context.workspaceBytes
  · have hunplanned : s.context.workspacePlanned = false := by
      refine Bool.not_eq_true _ ▸ fun htrue => hfits ⟨htrue, ?_⟩
      rw [← h.planned htrue]
      exact hgrow
    have hensure : Context.ensureWorkspace bytes granted s.context = Context.growWorkspace bytes granted s.context := by
      rw [Context.ensureWorkspace, bind_ok (get_run _), if_pos hgrow]
    rcases growWorkspace_spec h hunplanned hgrow hfresh with ⟨hroom, c', hrun, hsound⟩ | ⟨hroom, e, c', hrun, hvacated⟩
    · obtain ⟨slots, hstate⟩ := workspaceFor_ok hfits (hensure.trans hrun)
      refine ⟨fun _ => ?_, fun himproper => absurd (.inr (.inr (.inr hroom))) himproper⟩
      simpa only [s', hstate] using hrecorded c' hsound slots
    · have hstate := workspaceFor_err hfits (hensure.trans hrun)
      constructor
      · rintro (hplanned | hnone | hle | hroom')
        · exact absurd (hunplanned.symm.trans hplanned) Bool.false_ne_true
        · simpa only [s', hstate] using h.vacated hvacated hnone
        · exact absurd hle (Nat.not_le_of_gt hgrow)
        · exact absurd hroom' hroom
      · intro himproper
        obtain ⟨q, hq⟩ := Option.ne_none_iff_exists'.mp fun hnone => himproper (.inr (.inl hnone))
        have hworkspace : c'.workspace = some q := (Context.others_eq hvacated.others).2.1.trans hq
        simp only [s', hstate]
        exact not_exclusive hworkspace fun m hm => ((hvacated.live q m).mp hm).1 hq
  · have hensure : Context.ensureWorkspace bytes granted s.context = (.ok (), s.context) := by
      rw [Context.ensureWorkspace, bind_ok (get_run _), if_neg hgrow, pure_run]
    obtain ⟨slots, hstate⟩ := workspaceFor_ok hfits hensure
    refine ⟨fun _ => ?_, fun himproper => absurd (.inr (.inr (.inl (Nat.le_of_not_gt hgrow)))) himproper⟩
    simpa only [s', hstate] using hrecorded s.context h slots

theorem enter_state {scope : Method Context String Context.Scope}
    (hscope : ∀ (o : Outcome String Context.Scope) c', scope s.context = (o, c') → Sound { s with context := c' }) :
    (enter scope s).2.Sound := by
  rcases hrun : scope s.context with ⟨o, c'⟩
  have hsound := hscope o c' hrun
  cases o with
  | ok value =>
    rw [enter, bind_ok (onContext_run hrun), bind_ok (modify_run _ _), pure_run]
    exact ⟨hsound.pool, hsound.nodup, hsound.held, hsound.workspace, hsound.planned, hsound.arena⟩
  | err e =>
    rw [enter, bind_err (onContext_run hrun)]
    exact hsound
  | panic =>
    rw [enter, bind_run, onContext_run hrun]
    exact hsound

theorem enterCapture_sound (h : s.Sound) (begun : Bool) : (enter (Context.enterCapture begun) s).2.Sound := by
  refine enter_state fun o c' hrun => ?_
  rw [Context.enterCapture, bind_ok (get_run _)] at hrun
  split at hrun
  · cases hrun
    exact h
  split at hrun
  · cases hrun
    exact h
  split at hrun
  · cases hrun
    exact h
  · cases hrun
    exact ⟨h.pool, h.nodup, h.held, h.workspace, h.planned, h.arena⟩

theorem enterBounded_sound (h : s.Sound) (enabled : Bool) : (enter (Context.enterBounded enabled) s).2.Sound := by
  refine enter_state fun o c' hrun => ?_
  rw [Context.enterBounded, bind_ok (get_run _)] at hrun
  split at hrun
  · cases hrun
    exact h
  · cases hrun
    exact ⟨h.pool, h.nodup, h.held, h.workspace, h.planned, h.arena⟩

theorem leave_sound (h : s.Sound) : (leave s).2.Sound := by
  rw [leave, bind_ok (get_run s)]
  cases s.scopes with
  | nil => exact h
  | cons scope scopes =>
    cases scope <;> exact ⟨h.pool, h.nodup, h.held, h.workspace, h.planned, h.arena⟩

/-- What one call does: a proper one keeps the invariant, any other breaks exclusiveness. -/
theorem step_spec (h : s.Sound) (call : Call) (hgranted : Granted s call) :
    (Proper s call → (step call s).2.Sound) ∧ (¬Proper s call → ¬(step call s).2.Exclusive) := by
  cases call with
  | acquire bytes granted =>
    refine ⟨fun _ => ?_, fun himproper => absurd trivial himproper⟩
    rcases take_spec h hgranted bytes with ⟨e, hrun⟩ | ⟨pointer, c', hrun, hserved⟩
    · rw [step, hrun]
      exact h
    · rw [step, hrun]
      exact (h.served hserved).1
  | release pointer =>
    rcases give_spec h pointer with ⟨⟨e, hrun⟩, hdead⟩ | ⟨c', hrun, hreleased, -⟩ <;> rw [step, hrun]
    · refine ⟨fun _ => h, fun himproper _ => himproper fun hworkspace => ?_⟩
      obtain ⟨m, -, hlive⟩ := h.workspace pointer hworkspace
      exact hdead m hlive
    · refine ⟨h.released hreleased, fun himproper => ?_⟩
      have hworkspace : c'.workspace = some pointer :=
        (Context.others_eq hreleased.others).2.1.trans (not_not.mp himproper)
      exact not_exclusive hworkspace fun m hm => ((hreleased.live pointer m).mp hm).1 rfl
  | workspace bytes granted => exact workspace_spec h hgranted
  | capture begun => exact ⟨fun _ => enterCapture_sound h begun, fun himproper => absurd trivial himproper⟩
  | bounded enabled => exact ⟨fun _ => enterBounded_sound h enabled, fun himproper => absurd trivial himproper⟩
  | leave => exact ⟨fun _ => leave_sound h, fun himproper => absurd trivial himproper⟩
  | instruction id =>
    refine ⟨fun _ => ?_, fun himproper => absurd trivial himproper⟩
    exact ⟨h.pool, h.nodup, h.held, h.workspace, h.planned, h.arena⟩
  | complete =>
    refine ⟨fun _ => ?_, fun himproper => absurd trivial himproper⟩
    exact ⟨h.pool, h.nodup, h.held, h.workspace, h.planned, h.arena⟩

/-- A request is never served with the workspace. -/
theorem step_apart (h : s.Sound) (call : Call) (hgranted : Granted s call) :
    Apart (event step s call) := by
  rintro bytes granted pointer rfl hreply
  simp only [event, step] at hreply ⊢
  rcases take_spec h hgranted bytes with ⟨e, hrun⟩ | ⟨p, c', hrun, hserved⟩
  · rw [hrun] at hreply
    cases hreply
  · rw [hrun] at hreply ⊢
    cases hreply
    obtain ⟨-, hne⟩ := h.served hserved
    exact ⟨hne, (Context.others_eq hserved.others).2.1 ▸ hne⟩

/-! ## Every run -/

theorem run_exclusive_iff (h : s.Sound) (calls : List Call) (hgranted : ∀ ev ∈ history step calls s, Granted ev.before ev.call) :
    (∀ ev ∈ history step calls s, ev.after.Exclusive ∧ Apart ev) ↔
      ∀ ev ∈ history step calls s, Proper ev.before ev.call := by
  induction calls generalizing s with
  | nil => simp
  | cons call calls ih =>
    rw [history_cons, List.forall_mem_cons] at hgranted ⊢
    rw [List.forall_mem_cons]
    obtain ⟨hkeep, hbreak⟩ := step_spec h call hgranted.1
    by_cases hproper : Proper s call
    · have hnext := hkeep hproper
      exact and_congr (iff_of_true ⟨hnext.exclusive, step_apart h call hgranted.1⟩ hproper) (ih hnext hgranted.2)
    · exact iff_of_false (fun hall => hbreak hproper hall.1.1) (fun hall => hproper hall.1)

/-! ## New sessions -/

theorem start_sound (hsound : c.Sound) (hnone : ∀ q m, ¬c.Live q m) (hworkspace : c.workspace = none)
    (hbytes : c.workspaceBytes = 0) (harena : c.arena ≠ none → c.workspacePlanned = true) (hfresh : c.Fresh granted)
    (h : (Context.reserveWorkspace granted c).1 = .ok ()) : (start (Context.reserveWorkspace granted c).2).Sound := by
  rw [Context.reserveWorkspace, bind_ok (get_run c)] at h ⊢
  split at h
  · rename_i hzero
    rw [if_pos hzero, pure_run]
    refine ⟨hsound, List.nodup_nil, ?_, ?_, fun _ => hbytes.trans hzero.symm, harena⟩
    · intro q
      simp [start, hnone]
    · intro q hq
      exact absurd (hworkspace.symm.trans hq) (by simp)
  · rename_i hzero
    rw [if_neg hzero]
    rcases Context.acquire_spec hsound hfresh c.plannedWorkspaceBytes true with ⟨e, hrun⟩ | ⟨pointer, c', hrun, hserved⟩
    · rw [bind_err hrun] at h
      cases h
    rw [bind_ok hrun, modify_run]
    obtain ⟨harena', -, -, hmaximum, hplanned⟩ := Context.others_eq hserved.others
    obtain ⟨n, hn, hlive⟩ := hserved.live
    refine ⟨hserved.sound, List.nodup_nil, ?_, ?_, fun _ => rfl, ?_⟩
    · intro q
      refine iff_of_false List.not_mem_nil ?_
      rintro ⟨⟨m, hm⟩, hne⟩
      rcases (hlive q m).mp hm with ⟨rfl, -⟩ | hm
      · exact hne rfl
      · exact hnone q m hm
    · intro q hq
      obtain rfl := Option.some.inj hq
      exact ⟨n, hmaximum.le.trans hn, (hlive pointer n).mpr (.inl ⟨rfl, rfl⟩)⟩
    · intro hsome
      exact hplanned.trans (harena fun hnone => hsome (harena'.trans hnone))

theorem new_sound {planned : Option Nat} {arena : Option (Nat × ArenaLayout)}
    (hlayout : ∀ base layout, arena = some (base, layout) →
      ArenaLayout.slotsFit layout.bytes 0 layout.slots = true)
    (h : Context.new planned arena granted = .ok c) : (start c).Sound := by
  cases arena with
  | none =>
    obtain ⟨hmade, heq⟩ := Outcome.check_bind_eq_ok.mp h
    obtain rfl := Outcome.ok.inj heq
    refine start_sound Context.empty_sound ?_ rfl rfl (fun hsome => absurd rfl hsome) ?_ hmade
    · rintro q m ⟨i, b, hb, -⟩
      simp [Context.empty] at hb
    · intro _ pointer _ b hb
      cases hb
  | some arena =>
    obtain ⟨base, layout⟩ := arena
    simp only [Context.new] at h
    split at h
    · cases h
    rename_i hplanned
    obtain ⟨hmade, heq⟩ := Outcome.check_bind_eq_ok.mp h
    obtain rfl := Outcome.ok.inj heq
    refine start_sound (Context.frozen_sound (hlayout base layout rfl)) ?_ rfl rfl ?_ ?_ hmade
    · rintro q m ⟨i, b, hb, -, -, hlive⟩
      rw [Context.frozen_blocks] at hb
      obtain ⟨s, -, rfl⟩ := getElem?_slotBlocks.mp hb
      cases hlive
    · intro _
      exact Option.isSome_iff_ne_none.mpr hplanned
    · intro hnone
      cases hnone

/-- In a run on a new context every block is exclusive after every call exactly if every
    call was proper. -/
theorem exclusive_buffers {planned : Option Nat} {arena : Option (Nat × ArenaLayout)}
    (hlayout : ∀ base layout, arena = some (base, layout) →
      ArenaLayout.slotsFit layout.bytes 0 layout.slots = true)
    (hnew : Context.new planned arena granted = .ok c) (calls : List Call)
    (hgranted : ∀ ev ∈ history step calls (start c), Granted ev.before ev.call) :
    (start c).Exclusive ∧
      ((∀ ev ∈ history step calls (start c), ev.after.Exclusive ∧ Apart ev) ↔
        ∀ ev ∈ history step calls (start c), Proper ev.before ev.call) :=
  ⟨(new_sound hlayout hnew).exclusive, run_exclusive_iff (new_sound hlayout hnew) calls hgranted⟩

/-- A workspace that grows, a buffer beside it, and its release. -/
def sampleCalls : List Call := [.workspace 64 (some 1), .workspace 128 (some 2), .acquire 64 none, .release 1]

theorem exclusive_buffers_sample :
    (start (Context.empty none)).Exclusive ∧
      ∀ ev ∈ history step sampleCalls (start (Context.empty none)), ev.after.Exclusive ∧ Apart ev := by
  obtain ⟨hstart, hrun⟩ :=
    @exclusive_buffers (Context.empty none) none none none (fun _ _ h => by cases h) rfl sampleCalls (by decide +kernel)
  exact ⟨hstart, hrun.mpr (by decide +kernel)⟩

/-- The larger workspace cannot be had: the released one is handed out, and is still the workspace. -/
def failedGrowth : List Call := [.workspace 64 (some 1), .workspace 128 none, .acquire 64 none]

theorem workspace_handed_out :
    Context.new none none none = .ok (Context.empty none) ∧
    (∀ ev ∈ history step failedGrowth (start (Context.empty none)), Granted ev.before ev.call) ∧
    replies step failedGrowth (start (Context.empty none)) =
      [.ok (some 1), .err "prepared allocation", .ok (some 1)] ∧
    (final step failedGrowth (start (Context.empty none))).context.workspace = some 1 ∧
    (final step failedGrowth (start (Context.empty none))).owners 1 = 2 ∧
    ¬∀ ev ∈ history step failedGrowth (start (Context.empty none)), ev.after.Exclusive ∧ Apart ev := by
  refine ⟨rfl, by decide +kernel, by decide +kernel, by decide +kernel, by decide +kernel, fun hall => ?_⟩
  have hlast := (hall _ (List.mem_cons_of_mem _ (List.mem_cons_of_mem _ List.mem_cons_self))).2
  exact (hlast 64 none 1 rfl (by decide +kernel)).1 (by decide +kernel)

end Session

end Inferfabric.Native.Prepared
