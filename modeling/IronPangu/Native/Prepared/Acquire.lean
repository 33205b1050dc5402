-- SUMMARY: Acquiring and releasing on a prepared context: where a buffer comes from, and that a failure changes nothing.
import IronPangu.Native.Prepared.Pool

open Rust Method Std

/-!
# Acquiring

A request is served by a free block or by a new one, and one that fails leaves the
context alone. Which block it is depends on the path; that it was not live does not.
-/

namespace Inferfabric.Native.Prepared

namespace Context

variable {c : Context} {i slot bytes pointer : Nat} {b : Block} {granted : Option Nat}

def Sound (c : Context) : Prop := Prepared.Sound c.blocks c.owned c.free

/-- A live block of a size at an address. -/
def Live (c : Context) (pointer bytes : Nat) : Prop :=
  ∃ (i : Nat) (b : Block), c.blocks[i]? = some b ∧ b.data = pointer ∧ b.bytes = bytes ∧ b.live = true

/-- The current instruction may use the slot. -/
def Permits (c : Context) (slot : Nat) : Prop :=
  ∀ base layout, c.arena = some (base, layout) → layout.permitsSlot c.instruction slot = true

/-- The context after its current instruction used a slot. -/
def recorded (c : Context) (slot : Nat) : ExtTreeMap Int (ExtTreeSet Nat) :=
  c.instructionSlots.insert c.instruction ((c.instructionSlots.getD c.instruction ∅).insert slot)

/-- All but the pool and what was recorded. -/
def others (c : Context) : Context :=
  { c with blocks := [], free := ∅, owned := ∅, instructionSlots := ∅ }

theorem others_eq {c' : Context} (h : c'.others = c.others) :
    c'.arena = c.arena ∧ c'.workspace = c.workspace ∧ c'.workspaceBytes = c.workspaceBytes ∧
      c'.plannedWorkspaceBytes = c.plannedWorkspaceBytes ∧ c'.workspacePlanned = c.workspacePlanned := by
  simp only [others, Context.mk.injEq, true_and] at h
  obtain ⟨harena, -, -, -, -, hworkspace, hbytes, hmaximum, hplanned⟩ := h
  exact ⟨harena, hworkspace, hbytes, hmaximum, hplanned⟩

/-! ## The small steps -/

theorem block_run (hb : c.blocks[i]? = some b) : block i c = (.ok b, c) := by
  rw [block, bind_ok (get_run c), lift_run, hb, Outcome.unwrap_some]

theorem setLive_run (hb : c.blocks[i]? = some b) (live : Bool) :
    setLive i live c = (.ok (), { c with blocks := c.blocks.set i { b with live := live } }) := by
  rw [setLive, bind_ok (block_run hb), modify_run]

theorem any_eq_false {p : ArenaLayout → Bool} :
    (c.arena.any fun arena => !p arena.2) = false ↔ ∀ base layout, c.arena = some (base, layout) → p layout = true := by
  cases harena : c.arena with
  | none => simp
  | some arena =>
    obtain ⟨base, layout⟩ := arena
    simp

theorem record_run (h : c.Permits slot) :
    record slot c = (.ok (), { c with instructionSlots := c.recorded slot }) := by
  rw [record, bind_ok (get_run c), any_eq_false.mpr h, if_neg (by simp), modify_run]
  rfl

theorem record_err (h : ¬c.Permits slot) : ∃ e, record slot c = (.err e, c) := by
  have hrefused : (c.arena.any fun arena => !arena.2.permitsSlot c.instruction slot) = true :=
    (Bool.not_eq_false _).mp fun hnone => h (any_eq_false.mp hnone)
  refine ⟨s!"unplanned arena binding at instruction {c.instruction} slot={slot}", ?_⟩
  rw [record, bind_ok (get_run c), if_pos hrefused, fail_run]

/-! ## Exact sizes -/

/-- The last released block of the size. -/
theorem acquireExact_reuse {rest : List Nat} (hfree : c.free.getD bytes [] = i :: rest) (hb : c.blocks[i]? = some b)
    (hpermits : c.Permits b.slot) :
    acquireExact bytes granted c =
      (.ok b.data, { c with
        instructionSlots := c.recorded b.slot
        free := c.free.insert bytes rest
        blocks := c.blocks.set i { b with live := true } }) := by
  rw [acquireExact, bind_ok (get_run c)]
  simp only [hfree]
  rw [bind_ok (block_run hb), bind_ok (record_run hpermits), bind_ok (modify_run _ _),
    bind_ok (setLive_run (c := { c with
      instructionSlots := c.recorded b.slot
      free := c.free.insert bytes rest }) hb true), pure_run]

theorem acquireExact_refused {rest : List Nat} (hfree : c.free.getD bytes [] = i :: rest)
    (hb : c.blocks[i]? = some b) (hpermits : ¬c.Permits b.slot) : ∃ e, acquireExact bytes granted c = (.err e, c) := by
  obtain ⟨e, hrecord⟩ := record_err hpermits
  refine ⟨e, ?_⟩
  rw [acquireExact, bind_ok (get_run c)]
  simp only [hfree]
  rw [bind_ok (block_run hb), bind_err hrecord]

/-- A new block. -/
theorem acquireExact_new (hfree : c.free.getD bytes [] = []) (harena : c.arena = none) (hcapturing : c.capturing = false) :
    acquireExact bytes (some pointer) c =
      (.ok pointer, { c with
        instructionSlots := c.recorded c.blocks.length
        owned := c.owned.insertIfNew pointer c.blocks.length
        blocks := c.blocks ++ [⟨pointer, bytes, true, c.blocks.length⟩] }) := by
  have hpermits : c.Permits c.blocks.length := by
    intro base layout hsome
    rw [harena] at hsome
    cases hsome
  rw [acquireExact, bind_ok (get_run c)]
  simp only [hfree]
  rw [if_neg (by simp [harena]), if_neg (by simp [hcapturing]), allocate, bind_ok (get_run c)]
  dsimp only
  rw [bind_ok (record_run hpermits), bind_ok (modify_run _ _), pure_run]

theorem acquireExact_exhausted (hfree : c.free.getD bytes [] = [])
    (h : c.arena ≠ none ∨ c.capturing = true ∨ granted = none) : ∃ e, acquireExact bytes granted c = (.err e, c) := by
  rw [acquireExact, bind_ok (get_run c)]
  simp only [hfree]
  by_cases harena : c.arena.isSome = true
  · exact ⟨_, by rw [if_pos harena, fail_run]⟩
  by_cases hcapturing : c.capturing = true
  · exact ⟨_, by rw [if_neg harena, if_pos hcapturing, fail_run]⟩
  have hnone : c.arena = none := by simpa using harena
  obtain rfl : granted = none := (h.resolve_left (not_not.mpr hnone)).resolve_left hcapturing
  refine ⟨"prepared allocation", ?_⟩
  rw [if_neg harena, if_neg hcapturing, allocate, bind_ok (get_run c)]
  rfl

/-! ## Bounded requests -/

/-- A free block taken by a bounded request. -/
structure Taken (c : Context) (bytes i : Nat) (free : ExtTreeMap Nat (List Nat)) (b : Block) : Prop where
  bin : ∃ is rest, c.free[b.bytes]? = some is ∧ is.Perm (i :: rest) ∧ free = c.free.insert b.bytes rest
  block : c.blocks[i]? = some b
  dead : b.live = false
  enough : bytes ≤ b.bytes
  permits : c.Permits b.slot

theorem mem_sufficient {bin : Nat × List Nat} :
    bin ∈ c.sufficient bytes ↔ c.free[bin.1]? = some bin.2 ∧ bytes ≤ bin.1 := by
  rw [sufficient, List.mem_filter, decide_eq_true_eq, ← Prod.eta bin, ExtTreeMap.mem_toList_iff_getElem?_eq_some]

theorem taken (h : c.Sound) {free : ExtTreeMap Nat (List Nat)}
    (htake : takeBoundedBuffer c.eligible c.free (c.sufficient bytes) = some (i, free)) : ∃ b, Taken c bytes i free b := by
  obtain ⟨size, is, rest, hbin, hperm, rfl, heligible⟩ := takeBoundedBuffer_eq_some htake
  obtain ⟨hfree, henough⟩ := mem_sufficient.mp hbin
  obtain ⟨b, hb, hdead, rfl⟩ := (h.waiting size is hfree).2 i (hperm.mem_iff.mpr List.mem_cons_self)
  refine ⟨b, ⟨is, rest, hfree, hperm, rfl⟩, hb, hdead, henough, ?_⟩
  intro base layout harena
  simp only [eligible, harena, hb, Bool.and_eq_true] at heligible
  exact heligible.1

theorem acquireBounded_take {free : ExtTreeMap Nat (List Nat)}
    (htake : takeBoundedBuffer c.eligible c.free (c.sufficient bytes) = some (i, free)) (h : Taken c bytes i free b) :
    acquireBounded bytes c =
      (.ok (some b.data), { c with
        free := free
        instructionSlots := c.recorded b.slot
        blocks := c.blocks.set i { b with live := true } }) := by
  have hpermits : Permits { c with free := free } b.slot := h.permits
  have hblock : Context.block i { c with free := free } = (.ok b, { c with free := free }) := block_run h.block
  have hrecord : record b.slot { c with free := free } =
      (.ok (), { c with free := free, instructionSlots := c.recorded b.slot }) := record_run hpermits
  have hset := setLive_run (c := { c with free := free, instructionSlots := c.recorded b.slot }) h.block true
  rw [acquireBounded, bind_ok (get_run c)]
  simp only [htake]
  rw [bind_ok (modify_run _ c), bind_ok hblock, bind_ok hrecord, bind_ok hset, pure_run]

theorem acquireBounded_none (htake : takeBoundedBuffer c.eligible c.free (c.sufficient bytes) = none) :
    (c.arena = none ∧ acquireBounded bytes c = (.ok none, c)) ∨ ∃ e, acquireBounded bytes c = (.err e, c) := by
  rw [acquireBounded, bind_ok (get_run c)]
  simp only [htake]
  by_cases harena : c.arena.isSome = true
  · exact .inr ⟨_, by rw [if_pos harena, fail_run]⟩
  · exact .inl ⟨by simpa using harena, by rw [if_neg harena, pure_run]⟩

/-! ## What is live -/

theorem Sound.live_unique (h : c.Sound) {n m : Nat} (hlive : c.Live pointer n) (hlive' : c.Live pointer m) : n = m := by
  obtain ⟨i, b, hb, rfl, rfl, -⟩ := hlive
  obtain ⟨j, b', hb', hdata, rfl, -⟩ := hlive'
  obtain rfl := h.index_unique hb hb' hdata.symm
  rw [Option.some.inj (hb.symm.trans hb')]

theorem live_set {c' : Context} (hb : c.blocks[i]? = some b) (hdead : b.live = false)
    (hblocks : c'.blocks = c.blocks.set i { b with live := true }) {q m : Nat} :
    c'.Live q m ↔ (q = b.data ∧ m = b.bytes) ∨ c.Live q m := by
  simp only [Live, hblocks, getElem?_setLive hb]
  constructor
  · rintro ⟨j, b', ⟨rfl, rfl⟩ | ⟨-, hb'⟩, rfl, rfl, hlive⟩
    · exact .inl ⟨rfl, rfl⟩
    · exact .inr ⟨j, b', hb', rfl, rfl, hlive⟩
  · rintro (⟨rfl, rfl⟩ | ⟨j, b', hb', rfl, rfl, hlive⟩)
    · exact ⟨i, _, .inl ⟨rfl, rfl⟩, rfl, rfl, rfl⟩
    · refine ⟨j, b', .inr ⟨?_, hb'⟩, rfl, rfl, hlive⟩
      rintro rfl
      obtain rfl := Option.some.inj (hb.symm.trans hb')
      exact Bool.false_ne_true (hdead.symm.trans hlive)

theorem live_unset (h : c.Sound) {c' : Context} (hb : c.blocks[i]? = some b)
    (hblocks : c'.blocks = c.blocks.set i { b with live := false }) {q m : Nat} :
    c'.Live q m ↔ q ≠ b.data ∧ c.Live q m := by
  simp only [Live, hblocks, getElem?_setLive hb]
  constructor
  · rintro ⟨j, b', ⟨rfl, rfl⟩ | ⟨hij, hb'⟩, rfl, rfl, hlive⟩
    · cases hlive
    · exact ⟨fun hdata => hij (h.index_unique hb hb' hdata.symm), j, b', hb', rfl, rfl, hlive⟩
  · rintro ⟨hne, j, b', hb', rfl, rfl, hlive⟩
    refine ⟨j, b', .inr ⟨?_, hb'⟩, rfl, rfl, hlive⟩
    rintro rfl
    exact hne (congrArg Block.data (Option.some.inj (hb'.symm.trans hb)))

theorem live_join {c' : Context} (hblocks : c'.blocks = c.blocks ++ [⟨pointer, bytes, true, c.blocks.length⟩])
    {q m : Nat} : c'.Live q m ↔ (q = pointer ∧ m = bytes) ∨ c.Live q m := by
  simp only [Live, hblocks, getElem?_join]
  constructor
  · rintro ⟨j, b', hb' | ⟨-, rfl⟩, rfl, rfl, hlive⟩
    · exact .inr ⟨j, b', hb', rfl, rfl, hlive⟩
    · exact .inl ⟨rfl, rfl⟩
  · rintro (⟨rfl, rfl⟩ | ⟨j, b', hb', rfl, rfl, hlive⟩)
    · exact ⟨_, _, .inr ⟨rfl, rfl⟩, rfl, rfl, rfl⟩
    · exact ⟨j, b', .inl hb', rfl, rfl, hlive⟩

/-- A request was served by a block that was not live. -/
structure Served (c : Context) (bytes pointer : Nat) (c' : Context) : Prop where
  sound : c'.Sound
  fresh : ∀ m, ¬c.Live pointer m
  live : ∃ n, bytes ≤ n ∧ ∀ q m, c'.Live q m ↔ (q = pointer ∧ m = n) ∨ c.Live q m
  others : c'.others = c.others

theorem Sound.not_live (h : c.Sound) (hb : c.blocks[i]? = some b) (hdead : b.live = false) (m : Nat) :
    ¬c.Live b.data m := by
  rintro ⟨j, b', hb', hdata, -, hlive⟩
  obtain rfl := h.index_unique hb hb' hdata.symm
  obtain rfl := Option.some.inj (hb.symm.trans hb')
  exact Bool.false_ne_true (hdead.symm.trans hlive)

/-- Any free block that is large enough serves. -/
theorem served_reuse (h : c.Sound) {size : Nat} {is rest : List Nat} {recorded : ExtTreeMap Int (ExtTreeSet Nat)}
    (hfree : c.free[size]? = some is) (hperm : is.Perm (i :: rest)) (hb : c.blocks[i]? = some b)
    (henough : bytes ≤ b.bytes) :
    Served c bytes b.data { c with
      instructionSlots := recorded
      free := c.free.insert size rest
      blocks := c.blocks.set i { b with live := true } } := by
  obtain ⟨b', hb', hdead, hsize, hsound⟩ := Prepared.Sound.take h hfree hperm
  obtain rfl := Option.some.inj (hb.symm.trans hb')
  exact ⟨hsound, h.not_live hb hdead, ⟨b.bytes, henough, fun q m => live_set hb hdead rfl⟩, rfl⟩

theorem served_new (h : c.Sound) {recorded : ExtTreeMap Int (ExtTreeSet Nat)} (hfresh : ∀ b ∈ c.blocks, b.data ≠ pointer) :
    Served c bytes pointer { c with
      instructionSlots := recorded
      owned := c.owned.insertIfNew pointer c.blocks.length
      blocks := c.blocks ++ [⟨pointer, bytes, true, c.blocks.length⟩] } := by
  refine ⟨Prepared.Sound.join h hfresh, ?_, ⟨bytes, le_rfl, fun q m => live_join rfl⟩, rfl⟩
  rintro m ⟨j, b, hb, hdata, -⟩
  exact hfresh b (List.mem_of_getElem? hb) hdata

/-! ## One request -/

/-- What the device grants is not in use: its memory is never freed before the context is. -/
def Fresh (c : Context) (granted : Option Nat) : Prop :=
  c.arena = none → ∀ pointer ∈ granted, ∀ b ∈ c.blocks, b.data ≠ pointer

instance (c : Context) (granted : Option Nat) : Decidable (c.Fresh granted) :=
  inferInstanceAs (Decidable (_ → _))

theorem acquireExact_spec (h : c.Sound) (hfresh : c.Fresh granted) :
    (∃ e, acquireExact bytes granted c = (.err e, c)) ∨
      ∃ pointer c', acquireExact bytes granted c = (.ok pointer, c') ∧ Served c bytes pointer c' := by
  cases hfree : c.free.getD bytes [] with
  | cons i rest =>
    have his : c.free[bytes]? = some (i :: rest) := by
      rw [ExtTreeMap.getD_eq_getD_getElem?] at hfree
      cases his : c.free[bytes]? with
      | none => rw [his] at hfree; cases hfree
      | some is => rw [his] at hfree; exact congrArg some hfree
    obtain ⟨b, hb, -, rfl⟩ := (h.waiting bytes _ his).2 i List.mem_cons_self
    by_cases hpermits : c.Permits b.slot
    · exact .inr ⟨_, _, acquireExact_reuse hfree hb hpermits, served_reuse h his (.refl _) hb le_rfl⟩
    · exact .inl (acquireExact_refused hfree hb hpermits)
  | nil =>
    by_cases hfail : c.arena ≠ none ∨ c.capturing = true ∨ granted = none
    · exact .inl (acquireExact_exhausted hfree hfail)
    obtain ⟨harena, hfail⟩ := not_or.mp hfail
    obtain ⟨hcapturing, hgranted⟩ := not_or.mp hfail
    obtain ⟨pointer, rfl⟩ := Option.ne_none_iff_exists'.mp hgranted
    exact .inr ⟨_, _, acquireExact_new hfree (not_not.mp harena) (Bool.not_eq_true _ ▸ hcapturing),
      served_new h (hfresh (not_not.mp harena) pointer rfl)⟩

theorem acquireFree_exact (hbounded : c.boundedBuffers = false) : acquireFree bytes c = (.ok none, c) := by
  rw [acquireFree, bind_ok (get_run c), if_neg (by simp [hbounded]), pure_run]

theorem acquireFree_bounded (hbounded : c.boundedBuffers = true) : acquireFree bytes c = acquireBounded bytes c := by
  rw [acquireFree, bind_ok (get_run c), if_pos hbounded]

/-- A request fails and changes nothing, or is served. -/
theorem acquire_spec (h : c.Sound) (hfresh : c.Fresh granted) (bytes : Nat) (workspaceAllocation : Bool) :
    (∃ e, acquire bytes workspaceAllocation granted c = (.err e, c)) ∨
      ∃ pointer c', acquire bytes workspaceAllocation granted c = (.ok pointer, c') ∧ Served c bytes pointer c' := by
  rw [acquire, bind_ok (get_run c)]
  split
  · exact .inl ⟨_, fail_run _ _⟩
  split
  · exact .inl ⟨_, fail_run _ _⟩
  have hexact : (∃ e, acquireExact bytes granted c = (.err e, c)) ∨ _ := acquireExact_spec h hfresh
  cases hbounded : c.boundedBuffers with
  | false =>
    rw [bind_ok (acquireFree_exact hbounded)]
    exact hexact
  | true =>
    have hfree : acquireFree bytes c = acquireBounded bytes c := acquireFree_bounded hbounded
    cases htake : takeBoundedBuffer c.eligible c.free (c.sufficient bytes) with
    | none =>
      rcases acquireBounded_none htake with ⟨-, hrun⟩ | ⟨e, hrun⟩
      · rw [bind_ok (hfree.trans hrun)]
        exact hexact
      · exact .inl ⟨e, by rw [bind_err (hfree.trans hrun)]⟩
    | some found =>
      obtain ⟨i, free⟩ := found
      obtain ⟨b, htaken⟩ := taken h htake
      obtain ⟨is, rest, his, hperm, rfl⟩ := htaken.bin
      have hserved : Served c bytes b.data { c with
          instructionSlots := c.recorded b.slot
          free := c.free.insert b.bytes rest
          blocks := c.blocks.set i { b with live := true } } := served_reuse h his hperm htaken.block htaken.enough
      refine .inr ⟨_, _, ?_, hserved⟩
      rw [bind_ok (hfree.trans (acquireBounded_take htake htaken)), acquireOr, pure_run]

/-- Without an arena a request is served by a free block or by the device. -/
def Supplied (c : Context) (bytes : Nat) (granted : Option Nat) : Prop :=
  (∃ b ∈ c.blocks, b.live = false ∧ (b.bytes = bytes ∨ c.boundedBuffers = true ∧ bytes ≤ b.bytes)) ∨
  (c.capturing = false ∧ granted ≠ none)

theorem eligible_of_arena (harena : c.arena = none) (i : Nat) : c.eligible i = true := by
  simp only [eligible, harena]

theorem Sound.exact_listed (h : c.Sound) (hb : b ∈ c.blocks) (hdead : b.live = false) :
    ∃ i is, c.free[b.bytes]? = some is ∧ i ∈ is := by
  obtain ⟨i, hi⟩ := List.getElem?_of_mem hb
  obtain ⟨is, his, hmem⟩ := h.listed i b hi hdead
  exact ⟨i, is, his, hmem⟩

theorem acquireExact_isErr (h : c.Sound) (harena : c.arena = none) :
    (acquireExact bytes granted c).1.isErr = true ↔
      ¬((∃ b ∈ c.blocks, b.live = false ∧ b.bytes = bytes) ∨ (c.capturing = false ∧ granted ≠ none)) := by
  cases hfree : c.free.getD bytes [] with
  | cons i rest =>
    have his : c.free[bytes]? = some (i :: rest) := by
      rw [ExtTreeMap.getD_eq_getD_getElem?] at hfree
      cases his : c.free[bytes]? with
      | none => rw [his] at hfree; cases hfree
      | some is => rw [his] at hfree; exact congrArg some hfree
    obtain ⟨b, hb, hdead, hbytes⟩ := (h.waiting bytes _ his).2 i List.mem_cons_self
    have hpermits : c.Permits b.slot := by
      intro base layout hsome
      rw [harena] at hsome
      cases hsome
    rw [acquireExact_reuse hfree hb hpermits]
    refine iff_of_false Bool.false_ne_true (not_not.mpr (.inl ⟨b, List.mem_of_getElem? hb, hdead, hbytes⟩))
  | nil =>
    have hnone : ¬∃ b ∈ c.blocks, b.live = false ∧ b.bytes = bytes := by
      rintro ⟨b, hb, hdead, rfl⟩
      obtain ⟨i, is, his, hi⟩ := h.exact_listed hb hdead
      rw [ExtTreeMap.getD_eq_getD_getElem?, his, Option.getD_some] at hfree
      subst hfree
      cases hi
    by_cases hgrant : c.capturing = false ∧ granted ≠ none
    · obtain ⟨hcapturing, hgranted⟩ := hgrant
      obtain ⟨pointer, rfl⟩ := Option.ne_none_iff_exists'.mp hgranted
      rw [acquireExact_new hfree harena hcapturing]
      exact iff_of_false Bool.false_ne_true (not_not.mpr (.inr ⟨hcapturing, hgranted⟩))
    · have hfail : c.arena ≠ none ∨ c.capturing = true ∨ granted = none := by
        cases hcapturing : c.capturing with
        | true => exact .inr (.inl rfl)
        | false => exact .inr (.inr (not_not.mp fun hgranted => hgrant ⟨hcapturing, hgranted⟩))
      obtain ⟨e, hrun⟩ := acquireExact_exhausted hfree hfail
      rw [hrun]
      exact iff_of_true rfl (not_or.mpr ⟨hnone, hgrant⟩)

/-- Without an arena a request fails exactly where nothing supplies it. -/
theorem acquire_isErr (h : c.Sound) (harena : c.arena = none) (hbytes : bytes ≠ 0) (workspaceAllocation : Bool) :
    (acquire bytes workspaceAllocation granted c).1.isErr = true ↔ ¬c.Supplied bytes granted := by
  rw [acquire, bind_ok (get_run c), if_neg hbytes, if_neg (by simp [harena])]
  have hexact : (acquireExact bytes granted c).1.isErr = true ↔ _ := acquireExact_isErr h harena
  cases hbounded : c.boundedBuffers with
  | false =>
    rw [bind_ok (acquireFree_exact hbounded), acquireOr]
    simpa [Supplied, hbounded] using hexact
  | true =>
    have hfree : acquireFree bytes c = acquireBounded bytes c := acquireFree_bounded hbounded
    cases htake : takeBoundedBuffer c.eligible c.free (c.sufficient bytes) with
    | some found =>
      obtain ⟨i, free⟩ := found
      obtain ⟨b, htaken⟩ := taken h htake
      rw [bind_ok (hfree.trans (acquireBounded_take htake htaken))]
      exact iff_of_false Bool.false_ne_true
        (not_not.mpr (.inl ⟨b, List.mem_of_getElem? htaken.block, htaken.dead, .inr ⟨hbounded, htaken.enough⟩⟩))
    | none =>
      -- Every free block is eligible, so none is large enough.
      have hsmall : ∀ b ∈ c.blocks, b.live = false → ¬bytes ≤ b.bytes := by
        intro b hb hdead henough
        obtain ⟨i, is, his, hi⟩ := h.exact_listed hb hdead
        have hrefused := takeBoundedBuffer_eq_none htake (b.bytes, is) (mem_sufficient.mpr ⟨his, henough⟩) i hi
        exact Bool.false_ne_true (hrefused.symm.trans (eligible_of_arena harena i))
      have hrun : acquireBounded bytes c = (.ok none, c) := by
        rw [acquireBounded, bind_ok (get_run c)]
        simp only [htake]
        rw [if_neg (by simp [harena]), pure_run]
      rw [bind_ok (hfree.trans hrun)]
      refine hexact.trans (not_congr (or_congr ⟨?_, ?_⟩ Iff.rfl))
      · rintro ⟨b, hb, hdead, rfl⟩
        exact absurd le_rfl (hsmall b hb hdead)
      · rintro ⟨b, hb, hdead, rfl | ⟨-, henough⟩⟩
        · exact absurd le_rfl (hsmall b hb hdead)
        · exact absurd henough (hsmall b hb hdead)

/-! ## Giving back -/

theorem liveBlock_eq_some (h : c.Sound) :
    c.liveBlock pointer = some (i, b) ↔ c.blocks[i]? = some b ∧ b.data = pointer ∧ b.live = true := by
  unfold liveBlock
  cases howned : c.owned[pointer]? with
  | none =>
    simp only [reduceCtorEq, false_iff]
    rintro ⟨hb, hdata, -⟩
    have := (h.addresses pointer i).mpr ⟨b, hb, hdata⟩
    rw [howned] at this
    cases this
  | some j =>
    obtain ⟨b', hb', hdata'⟩ := (h.addresses pointer j).mp howned
    simp only [hb']
    constructor
    · intro hsome
      split at hsome
      · rename_i hlive
        obtain ⟨rfl, rfl⟩ := Prod.mk.inj (Option.some.inj hsome)
        exact ⟨hb', hdata', hlive⟩
      · cases hsome
    · rintro ⟨hb, hdata, hlive⟩
      obtain rfl := h.index_unique hb hb' (hdata.trans hdata'.symm)
      obtain rfl := Option.some.inj (hb.symm.trans hb')
      rw [if_pos hlive]

/-- A release fails and changes nothing, or exactly the buffer at the address ends. -/
structure Released (c : Context) (pointer : Nat) (c' : Context) : Prop where
  sound : c'.Sound
  live : ∀ q m, c'.Live q m ↔ q ≠ pointer ∧ c.Live q m
  others : c'.others = c.others

theorem release_run (h : c.Sound) (hb : c.blocks[i]? = some b) (hlive : b.live = true) :
    release b.data c = (.ok (), { c with
      blocks := c.blocks.set i { b with live := false }
      free := c.free.insert b.bytes (i :: c.free.getD b.bytes []) }) := by
  have hblock : c.liveBlock b.data = some (i, b) := (liveBlock_eq_some h).mpr ⟨hb, rfl, hlive⟩
  rw [release, bind_ok (get_run c)]
  simp only [hblock]
  rw [bind_ok (setLive_run hb false), modify_run]

theorem release_spec (h : c.Sound) (pointer : Nat) :
    ((∀ m, ¬c.Live pointer m) ∧ ∃ e, release pointer c = (.err e, c)) ∨
      ∃ c', release pointer c = (.ok (), c') ∧ Released c pointer c' ∧ ∃ m, c.Live pointer m := by
  cases hblock : c.liveBlock pointer with
  | none =>
    refine .inl ⟨?_, "invalid prepared buffer release", ?_⟩
    · rintro m ⟨i, b, hb, hdata, -, hlive⟩
      have := (liveBlock_eq_some h).mpr ⟨hb, hdata, hlive⟩
      rw [hblock] at this
      cases this
    · rw [release, bind_ok (get_run c)]
      simp only [hblock, fail_run]
  | some found =>
    obtain ⟨i, b⟩ := found
    obtain ⟨hb, rfl, hlive⟩ := (liveBlock_eq_some h).mp hblock
    exact .inr ⟨_, release_run h hb hlive,
      ⟨Prepared.Sound.give h hb hlive, fun q m => live_unset h hb rfl, rfl⟩, b.bytes, i, b, hb, rfl, rfl, hlive⟩

end Context

end Inferfabric.Native.Prepared
