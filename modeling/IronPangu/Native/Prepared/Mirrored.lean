-- SUMMARY: A frozen context mirrors the recording it comes from: one request, one release and one workspace call at a time.
import IronPangu.Native.Prepared.Packed

open Rust Method Std

/-!
# Mirrored contexts

The frozen context has all blocks from the start. In each free list the blocks that the
recording has not made yet wait, in order, behind the ones that it released; so the next
block of a size is the same on both sides.
-/

namespace Inferfabric.Native.Prepared

/-! ## The slots of an audit -/

theorem getElem?_auditSlots (offset : Nat) (bs : List Block) (i : Nat) :
    ((auditSlots offset bs)[i]?).map Slot.bytes = (bs[i]?).map Block.bytes := by
  induction bs generalizing offset i with
  | nil => rfl
  | cons b bs ih =>
    cases i with
    | zero => rfl
    | succ i => exact ih _ i

theorem le_auditBytes (offset : Nat) (bs : List Block) : offset ≤ auditBytes offset bs := by
  induction bs generalizing offset with
  | nil => exact le_rfl
  | cons b bs ih =>
    refine Nat.le_trans ?_ (ih _)
    omega

theorem auditSlots_fit (offset : Nat) {bs : List Block} (hpos : ∀ b ∈ bs, 0 < b.bytes) :
    ArenaLayout.slotsFit (auditBytes offset bs) offset (auditSlots offset bs) = true := by
  induction bs generalizing offset with
  | nil => rfl
  | cons b bs ih =>
    obtain ⟨hb, hpos⟩ := List.forall_mem_cons.mp hpos
    have haligned : (offset + 511) / 512 * 512 % 512 = 0 := Nat.mul_mod_left _ _
    have hoffset : offset ≤ (offset + 511) / 512 * 512 := by omega
    rw [auditSlots, auditBytes]
    generalize (offset + 511) / 512 * 512 = start at haligned hoffset
    have hle := le_auditBytes (start + b.bytes) bs
    rw [ArenaLayout.slotsFit, ih _ hpos]
    generalize auditBytes (start + b.bytes) bs = stop at hle
    simp only [Bool.and_true, Bool.and_eq_true, decide_eq_true_eq, beq_iff_eq]
    exact ⟨⟨⟨⟨hb, haligned⟩, hoffset⟩, by omega⟩, by omega⟩

namespace Context

/-! ## What the audit permits -/

variable {last c f c' : Context} {base : Nat}

theorem le_foldl_max (xs : List Nat) (start : Nat) : start ≤ xs.foldl max start ∧ ∀ x ∈ xs, x ≤ xs.foldl max start := by
  induction xs generalizing start with
  | nil => exact ⟨le_rfl, fun _ h => by cases h⟩
  | cons x xs ih =>
    obtain ⟨hstart, hall⟩ := ih (max start x)
    exact ⟨(Nat.le_max_left _ _).trans hstart, List.forall_mem_cons.mpr ⟨(Nat.le_max_right _ _).trans hstart, hall⟩⟩

theorem audit_envelope {instruction : Int} {slot : Nat} (h : last.Records instruction slot) :
    ∃ slots : ExtTreeSet Nat, slot ∈ slots ∧ last.audit.envelopes[instruction]? = some (last.requestEnvelope slots) := by
  rw [Records, ExtTreeMap.getD_eq_getD_getElem?] at h
  cases hslots : last.instructionSlots[instruction]? with
  | none =>
    rw [hslots] at h
    exact absurd h ExtTreeSet.not_mem_empty
  | some slots =>
    rw [hslots] at h
    refine ⟨slots, h, ?_⟩
    rw [audit, requestEnvelopes, ExtTreeMap.getElem?_map, hslots]
    rfl

/-- A request that the recording served with a block other than the workspace. -/
theorem audit_permits {instruction : Int} {slot bytes : Nat} {b : Block} (h : last.Records instruction slot)
    (hslot : (slot : Int) ≠ last.workspaceSlot) (hb : last.blocks[slot]? = some b) (hbytes : 0 < bytes)
    (hle : bytes ≤ b.bytes) :
    last.audit.permitsRequest instruction bytes false = true ∧ last.audit.permitsSlot instruction slot = true := by
  obtain ⟨slots, hmem, henvelope⟩ := audit_envelope h
  have hmax : b.bytes ≤ (last.requestEnvelope slots).maxRequestBytes := by
    refine (le_foldl_max _ 0).2 b.bytes (List.mem_map.mpr ⟨slot, List.mem_filter.mpr ⟨?_, ?_⟩, ?_⟩)
    · exact ExtTreeSet.mem_toList.mpr hmem
    · simpa using hslot
    · rw [capacity, hb]
  constructor
  · simp only [ArenaLayout.permitsRequest, henvelope, show last.audit.pooled = true from rfl]
    simp [hbytes, hle.trans hmax]
  · simp only [ArenaLayout.permitsSlot, henvelope, show last.audit.pooled = true from rfl]
    simp [show (slot : Int) ≠ last.audit.workspaceSlot from hslot, Nat.lt_of_lt_of_le hbytes (hle.trans hmax)]

/-- The workspace of the recording. -/
theorem audit_permits_workspace {instruction : Int} {slot : Nat} (h : last.Records instruction slot)
    (hslot : (slot : Int) = last.workspaceSlot) :
    last.audit.permitsSlot instruction slot = true ∧
      ∀ b, last.blocks[slot]? = some b → last.audit.permitsRequest (-1) b.bytes true = true ∨ instruction ≠ -1 := by
  obtain ⟨slots, hmem, henvelope⟩ := audit_envelope h
  have hworkspace : (last.requestEnvelope slots).workspace = true :=
    List.any_eq_true.mpr ⟨slot, ExtTreeSet.mem_toList.mpr hmem, by simpa using hslot⟩
  constructor
  · simp only [ArenaLayout.permitsSlot, henvelope, show last.audit.pooled = true from rfl]
    simp [show (slot : Int) = last.audit.workspaceSlot from hslot, hworkspace]
  · intro b hb
    by_cases hinstruction : instruction = -1
    · subst hinstruction
      refine .inl ?_
      have hbytes : (last.audit.slots[slot]?).map Slot.bytes = some b.bytes := by
        rw [audit, getElem?_auditSlots, hb]
        rfl
      obtain ⟨s, hs, hs_bytes⟩ := Option.map_eq_some_iff.mp hbytes
      have hany : (last.audit.slots[(last.audit.workspaceSlot).toNat]?).any (·.bytes == b.bytes) = true := by
        rw [show last.audit.workspaceSlot = (slot : Int) from hslot.symm, Int.toNat_natCast, hs]
        simpa using hs_bytes
      have hnonneg : 0 ≤ last.audit.workspaceSlot := by
        rw [show last.audit.workspaceSlot = (slot : Int) from hslot.symm]
        exact Int.natCast_nonneg slot
      simp only [ArenaLayout.permitsRequest, henvelope, show last.audit.pooled = true from rfl]
      simp [hworkspace, hany, hnonneg]
    · exact .inr hinstruction

/-! ## The mirror -/

theorem Extends.block (h : c.Extends c') {i : Nat} {b : Block} (hb : c.blocks[i]? = some b) :
    ∃ b', c'.blocks[i]? = some b' ∧ b'.data = b.data ∧ b'.bytes = b.bytes := by
  obtain ⟨more, hmore, -⟩ := h.shape
  have hget : c'.shape[i]? = some (b.data, b.bytes) := by
    have hi : i < c.shape.length := by
      rw [Context.shape, List.length_map]
      exact (List.getElem?_eq_some_iff.mp hb).1
    rw [hmore, List.getElem?_append_left hi, Context.shape, List.getElem?_map, hb]
    rfl
  rw [Context.shape, List.getElem?_map] at hget
  obtain ⟨b', hb', heq⟩ := Option.map_eq_some_iff.mp hget
  exact ⟨b', hb', (Prod.mk.inj heq).1, (Prod.mk.inj heq).2⟩

/-- The blocks of a size that the recording makes from the `k`-th on. -/
def pending (last : Context) (k size : Nat) : List Nat :=
  ((last.blocks.drop k).filter fun b => b.bytes = size).map Block.slot

theorem pending_succ {k : Nat} {b : Block} (hb : last.blocks[k]? = some b) (hslot : b.slot = k) (size : Nat) :
    last.pending k size = if b.bytes = size then k :: last.pending (k + 1) size else last.pending (k + 1) size := by
  obtain ⟨hk, rfl⟩ := List.getElem?_eq_some_iff.mp hb
  rw [pending, List.drop_eq_getElem_cons hk, List.filter_cons]
  split
  · rename_i hbytes
    rw [if_pos (of_decide_eq_true hbytes), List.map_cons, hslot]
    rfl
  · rename_i hbytes
    rw [if_neg fun h => hbytes (decide_eq_true h)]
    rfl

/-- The block at an index is live. -/
def liveAt (c : Context) (i : Nat) : Bool := (c.blocks[i]?).any Block.live

/-- The same block by its address in the recording and by its slot in the arena. -/
def At (base : Nat) (last : Context) (i p q : Nat) : Prop :=
  ∃ b s, last.blocks[i]? = some b ∧ last.audit.slots[i]? = some s ∧ b.data = p ∧ q = base + s.offset

/-- The frozen context `f` stands where the recording `c` stands on its way to `last`. -/
structure Mirrored (base : Nat) (last c f : Context) : Prop where
  same : f = { c with
    blocks := f.blocks, arena := some (base, last.audit), free := f.free, owned := f.owned, workspace := f.workspace }
  sound : f.Sound
  blocks : ∀ (i : Nat) b', f.blocks[i]? = some b' ↔
    ∃ b s, last.blocks[i]? = some b ∧ last.audit.slots[i]? = some s ∧ b' = ⟨base + s.offset, b.bytes, c.liveAt i, i⟩
  free : ∀ size, f.free.getD size [] = c.free.getD size [] ++ last.pending c.blocks.length size

theorem Mirrored.arena (h : Mirrored base last c f) : f.arena = some (base, last.audit) :=
  (congrArg Context.arena h.same :)
theorem Mirrored.instruction (h : Mirrored base last c f) : f.instruction = c.instruction :=
  (congrArg Context.instruction h.same :)

theorem Mirrored.permits (h : Mirrored base last c f) {slot : Nat}
    (hpermits : last.audit.permitsSlot c.instruction slot = true) : f.Permits slot := by
  intro base' layout harena
  rw [h.arena] at harena
  cases harena
  rw [h.instruction]
  exact hpermits

theorem Mirrored.recorded (h : Mirrored base last c f) (slot : Nat) : f.recorded slot = c.recorded slot := by
  have hslots : f.instructionSlots = c.instructionSlots := (congrArg Context.instructionSlots h.same :)
  rw [Context.recorded, Context.recorded, hslots, h.instruction]

theorem Mirrored.block (h : Mirrored base last c f) {i p q : Nat} (hat : At base last i p q) :
    ∃ bytes, f.blocks[i]? = some ⟨q, bytes, c.liveAt i, i⟩ := by
  obtain ⟨b, s, hb, hs, -, rfl⟩ := hat
  exact ⟨b.bytes, (h.blocks i _).mpr ⟨b, s, hb, hs, rfl⟩⟩

theorem at_of_block {i : Nat} {b : Block} (hb : last.blocks[i]? = some b) : ∃ q, At base last i b.data q := by
  have hslot := getElem?_auditSlots 0 last.blocks i
  rw [hb] at hslot
  obtain ⟨s, hs, -⟩ := Option.map_eq_some_iff.mp hslot
  exact ⟨base + s.offset, b, s, hb, hs, rfl, rfl⟩

/-! ## Requests -/

/-- A request of the recording was served with the `i`-th block. -/
structure Got (c : Context) (bytes i p : Nat) (c' : Context) : Prop where
  same : c' = { c with
    instructionSlots := c.recorded i, blocks := c'.blocks, free := c'.free, owned := c'.owned }
  block : ∃ b, c'.blocks[i]? = some b ∧ b.data = p ∧ b.bytes = bytes
  dead : c.liveAt i = false
  live : ∀ j, c'.liveAt j = if j = i then true else c.liveAt j
  pool : (∃ rest, c.free.getD bytes [] = i :: rest ∧ c'.blocks.length = c.blocks.length ∧
      ∀ size, c'.free.getD size [] = if size = bytes then rest else c.free.getD size []) ∨
    (c.free.getD bytes [] = [] ∧ i = c.blocks.length ∧ c'.blocks.length = i + 1 ∧ c'.free = c.free)

theorem liveAt_set {i : Nat} {b : Block} (hb : c.blocks[i]? = some b) (live : Bool)
    (hblocks : c'.blocks = c.blocks.set i { b with live := live }) (j : Nat) :
    c'.liveAt j = if j = i then live else c.liveAt j := by
  obtain ⟨hi, -⟩ := List.getElem?_eq_some_iff.mp hb
  rw [liveAt, liveAt, hblocks, List.getElem?_set]
  by_cases hij : i = j
  · subst hij
    simp [hi]
  · rw [if_neg hij, if_neg fun h => hij h.symm]

theorem getD_insert_free (free : ExtTreeMap Nat (List Nat)) (bytes size : Nat) (rest : List Nat) :
    (free.insert bytes rest).getD size [] = if size = bytes then rest else free.getD size [] := by
  rw [ExtTreeMap.getD_insert]
  by_cases h : bytes = size
  · rw [if_pos (Std.compare_eq_iff_eq.mpr h), if_pos h.symm]
  · rw [if_neg fun heq => h (Std.compare_eq_iff_eq.mp heq), if_neg fun heq => h heq.symm]

theorem getD_eq_cons {free : ExtTreeMap Nat (List Nat)} {bytes i : Nat} {rest : List Nat}
    (h : free.getD bytes [] = i :: rest) : free[bytes]? = some (i :: rest) := by
  rw [ExtTreeMap.getD_eq_getD_getElem?] at h
  cases his : free[bytes]? with
  | none => rw [his] at h; cases h
  | some is => rw [his] at h; exact congrArg some h

theorem acquire_got {bytes p : Nat} {w : Bool} {granted : Option Nat} (hsound : c.Sound) (harena : c.arena = none)
    (hcapturing : c.capturing = false) (hbounded : c.boundedBuffers = false)
    (hrun : acquire bytes w granted c = (.ok p, c')) : 0 < bytes ∧ ∃ i, Got c bytes i p c' := by
  rw [acquire, bind_ok (get_run c)] at hrun
  split at hrun
  · cases hrun
  rename_i hbytes
  rw [if_neg (by simp [harena]), bind_ok (acquireFree_exact hbounded), acquireOr] at hrun
  refine ⟨Nat.pos_of_ne_zero hbytes, ?_⟩
  cases hfree : c.free.getD bytes [] with
  | cons i rest =>
    obtain ⟨b, hb, hdead, hsize⟩ := (hsound.waiting bytes _ (getD_eq_cons hfree)).2 i List.mem_cons_self
    have hpermits : c.Permits b.slot := by
      intro base layout hsome
      rw [harena] at hsome
      cases hsome
    have hslot := hsound.slots i b hb
    rw [acquireExact_reuse hfree hb hpermits] at hrun
    cases hrun
    refine ⟨i, by rw [hslot], ⟨_, (getElem?_setLive hb).mpr (.inl ⟨rfl, rfl⟩), rfl, hsize⟩, ?_, ?_, .inl ⟨rest, hfree, ?_, ?_⟩⟩
    · rw [liveAt, hb]
      exact hdead
    · exact liveAt_set hb true rfl
    · exact List.length_set
    · exact fun size => getD_insert_free c.free bytes size rest
  | nil =>
    cases granted with
    | none =>
      obtain ⟨e, herr⟩ := acquireExact_exhausted hfree (.inr (.inr rfl))
      rw [herr] at hrun
      cases hrun
    | some pointer =>
      rw [acquireExact_new hfree harena hcapturing] at hrun
      cases hrun
      refine ⟨c.blocks.length, rfl, ⟨_, getElem?_join.mpr (.inr ⟨rfl, rfl⟩), rfl, rfl⟩, ?_, ?_,
        .inr ⟨hfree, rfl, List.length_append, rfl⟩⟩
      · rw [liveAt, List.getElem?_eq_none le_rfl]
        rfl
      · intro j
        rw [liveAt, liveAt]
        split
        · rename_i hj
          subst hj
          simp
        · rename_i hj
          rcases Nat.lt_or_gt_of_ne hj with hlt | hgt
          · rw [List.getElem?_append_left hlt]
          · rw [List.getElem?_eq_none (by simp; omega), List.getElem?_eq_none hgt.le]

/-- The frozen context serves the same request with the slot of the same block. -/
theorem Mirrored.acquire (h : Mirrored base last c f) (hlast : last.Sound) {bytes i p : Nat} {w : Bool}
    (hbytes : 0 < bytes) (hbounded : c.boundedBuffers = false) (hgot : Got c bytes i p c') (hextends : c'.Extends last)
    (hrequest : last.audit.permitsRequest c.instruction bytes w = true)
    (hslot : last.audit.permitsSlot c.instruction i = true) (granted : Option Nat) :
    ∃ q f', Context.acquire bytes w granted f = (.ok q, f') ∧ Mirrored base last c' f' ∧ At base last i p q ∧
      f'.workspace = f.workspace := by
  obtain ⟨b, hb, rfl, rfl⟩ := hgot.block
  obtain ⟨b', hb', hdata, hsize⟩ := hextends.block hb
  obtain ⟨q, hat⟩ : ∃ q, At base last i b'.data q := at_of_block hb'
  obtain ⟨b₂, s, hb₂, hs, -, hq⟩ := hat
  obtain rfl := Option.some.inj (hb'.symm.trans hb₂)
  -- The block waits first in its list on both sides.
  obtain ⟨rest, hfree, hrest⟩ : ∃ rest, f.free.getD b.bytes [] = i :: rest ∧
      ∀ size, (if size = b.bytes then rest else f.free.getD size []) =
        c'.free.getD size [] ++ last.pending c'.blocks.length size := by
    rcases hgot.pool with ⟨rest, hfree, hlength, hrest⟩ | ⟨hfree, rfl, hlength, hsame⟩
    · refine ⟨rest ++ last.pending c.blocks.length b.bytes, by rw [h.free, hfree, List.cons_append], fun size => ?_⟩
      rw [hlength, hrest, h.free]
      split
      · rename_i heq
        rw [heq]
      · rfl
    · have hpending := pending_succ hb' (hlast.slots _ b' hb')
      refine ⟨last.pending (c.blocks.length + 1) b.bytes, ?_, fun size => ?_⟩
      · rw [h.free, hfree, hpending, if_pos hsize, List.nil_append]
      · rw [hlength, hsame, h.free, hpending, hsize]
        by_cases heq : size = b.bytes
        · rw [if_pos heq, heq, hfree, List.nil_append]
        · rw [if_neg heq, if_neg fun h => heq h.symm]
  have hblock : f.blocks[i]? = some ⟨q, b'.bytes, false, i⟩ := by
    rw [← hgot.dead, h.blocks]
    exact ⟨b', s, hb', hs, by rw [hq]⟩
  have hrun := @acquireExact_reuse f _ _ _ granted _ hfree hblock (h.permits hslot)
  have hsound : Context.Sound { f with
      instructionSlots := f.recorded i
      free := f.free.insert b.bytes rest
      blocks := f.blocks.set i ⟨q, b'.bytes, true, i⟩ } :=
    (served_reuse h.sound (getD_eq_cons hfree) (.refl _) hblock hsize.ge).sound
  refine ⟨q, _, ?_, ⟨?_, hsound, ?_, ?_⟩, ⟨b', s, hb', hs, hdata, hq⟩, rfl⟩
  · have hpermitted : ¬(f.arena.any fun arena => !arena.2.permitsRequest f.instruction b.bytes w) = true := by
      rw [h.arena, h.instruction]
      simp [hrequest]
    have hexact : f.boundedBuffers = false := (congrArg Context.boundedBuffers h.same :).trans hbounded
    rw [Context.acquire, bind_ok (get_run f), if_neg (Nat.ne_of_gt hbytes), if_neg hpermitted,
      bind_ok (acquireFree_exact hexact), acquireOr]
    exact hrun
  · dsimp only
    rw [hgot.same, h.recorded]
    conv_lhs => rw [h.same]
  · intro j b₃
    dsimp only
    rw [hgot.live, getElem?_setLive hblock, h.blocks]
    by_cases hij : i = j
    · subst hij
      simp only [true_and, ne_eq, not_true_eq_false, false_and, or_false, if_true]
      constructor
      · rintro rfl
        exact ⟨b', s, hb', hs, by rw [hq]⟩
      · rintro ⟨b₄, s₄, hb₄, hs₄, rfl⟩
        obtain rfl := Option.some.inj (hb'.symm.trans hb₄)
        obtain rfl := Option.some.inj (hs.symm.trans hs₄)
        rw [hq]
    · rw [if_neg fun h => hij h.symm]
      simp [hij]
  · intro size
    rw [← hrest]
    exact getD_insert_free f.free b.bytes size rest

/-! ## Releases -/

theorem At.index_unique (hlast : last.Sound) {i j p q : Nat} (hat : At base last i p q) {b : Block}
    (hb : last.blocks[j]? = some b) (hdata : b.data = p) : j = i := by
  obtain ⟨b', -, hb', -, hdata', -⟩ := hat
  exact hlast.index_unique hb hb' (hdata.trans hdata'.symm)

/-- A live block of the recording is the one its address is known for. -/
theorem liveAt_of_live (hlast : last.Sound) (hextends : c.Extends last) {i p q m : Nat} (hat : At base last i p q)
    (hlive : c.Live p m) : c.liveAt i = true := by
  obtain ⟨j, b, hb, hdata, -, hb_live⟩ := hlive
  obtain ⟨b', hb', hdata', -⟩ := hextends.block hb
  obtain rfl := hat.index_unique hlast hb' (hdata'.trans hdata)
  rw [liveAt, hb]
  exact hb_live

theorem Mirrored.release (h : Mirrored base last c f) (hsound : c.Sound) (hlast : last.Sound)
    (hextends : c.Extends last) {i p q : Nat} (hat : At base last i p q) (hrun : Context.release p c = (.ok (), c')) :
    ∃ f', Context.release q f = (.ok (), f') ∧ Mirrored base last c' f' ∧ f'.workspace = f.workspace ∧
      c'.workspace = c.workspace ∧ c'.capturing = c.capturing := by
  cases hfound : c.liveBlock p with
  | none =>
    rw [Context.release, bind_ok (get_run c)] at hrun
    simp only [hfound, fail_run] at hrun
    cases hrun
  | some found =>
    obtain ⟨j, b⟩ := found
    obtain ⟨hb, rfl, hlive⟩ := (liveBlock_eq_some hsound).mp hfound
    rw [release_run hsound hb hlive] at hrun
    cases hrun
    obtain ⟨b', hb', hdata, hsize⟩ := hextends.block hb
    obtain rfl := hat.index_unique hlast hb' hdata
    obtain ⟨b₂, s, hb₂, hs, -, rfl⟩ := hat
    obtain rfl := Option.some.inj (hb'.symm.trans hb₂)
    have hblock : f.blocks[j]? = some ⟨base + s.offset, b'.bytes, true, j⟩ := by
      rw [h.blocks]
      exact ⟨b', s, hb', hs, by rw [liveAt, hb, Option.any_some, hlive]⟩
    refine ⟨_, release_run h.sound hblock rfl, ⟨?_, Prepared.Sound.give h.sound hblock rfl, ?_, ?_⟩, rfl, rfl, rfl⟩
    · dsimp only
      conv_lhs => rw [h.same]
    · intro k b₃
      dsimp only
      rw [liveAt_set hb false rfl, getElem?_setLive hblock, h.blocks]
      by_cases hjk : j = k
      · subst hjk
        simp only [true_and, ne_eq, not_true_eq_false, false_and, or_false, if_true]
        constructor
        · rintro rfl
          exact ⟨b', s, hb', hs, rfl⟩
        · rintro ⟨b₄, s₄, hb₄, hs₄, rfl⟩
          obtain rfl := Option.some.inj (hb'.symm.trans hb₄)
          obtain rfl := Option.some.inj (hs.symm.trans hs₄)
          rfl
      · rw [if_neg fun h => hjk h.symm]
        simp [hjk]
    · intro size
      dsimp only
      rw [getD_insert_free, getD_insert_free, List.length_set, hsize, h.free, h.free]
      split
      · rename_i heq
        rw [heq, List.cons_append]
      · rfl

/-! ## The workspace -/

theorem workspaceFor_run {bytes p i : Nat} {b : Block} {granted : Option Nat}
    (hfits : ¬(c.workspacePlanned = true ∧ bytes > c.plannedWorkspaceBytes)) (hle : bytes ≤ c.workspaceBytes)
    (hworkspace : c.workspace = some p) (howned : c.owned[p]? = some i) (hb : c.blocks[i]? = some b)
    (hpermits : c.Permits b.slot) :
    workspaceFor bytes granted c = (.ok (some p), { c with instructionSlots := c.recorded b.slot }) := by
  have hensure : ensureWorkspace bytes granted c = (.ok (), c) := by
    rw [ensureWorkspace, bind_ok (get_run c), if_neg (Nat.not_lt_of_ge hle), pure_run]
  have hrecord : recordWorkspace c = (.ok (), { c with instructionSlots := c.recorded b.slot }) := by
    rw [recordWorkspace, bind_ok (get_run c)]
    simp only [hworkspace]
    rw [howned, Outcome.unwrap_some, bind_ok (lift_run _ c), bind_ok (block_run hb), record_run hpermits]
    simp only [hworkspace]
  rw [workspaceFor, bind_ok (get_run c), if_neg hfits, bind_ok hensure, bind_ok hrecord, bind_ok (get_run _), pure_run]
  simp only [hworkspace]

theorem Mirrored.workspaceFor (h : Mirrored base last c f) (hsound : c.Sound) (hlast : last.Sound)
    (harena : c.arena = none) {bytes p q : Nat} (hat : At base last 0 p q) (hlive : ∃ m, c.Live p m)
    (hextends : c.Extends last) (hworkspace : c.workspace = some p) (hworkspace' : f.workspace = some q)
    (hslot : last.workspaceSlot = 0) (hplanned : c.workspacePlanned = true → c.workspaceBytes = c.plannedWorkspaceBytes)
    (hc : c.workspacePlanned = true) {reply : Option Nat}
    (hrun : Context.workspaceFor bytes none c = (.ok reply, c')) (hextends' : c'.Extends last) :
    reply = some p ∧ ∃ f', Context.workspaceFor bytes none f = (.ok (some q), f') ∧ Mirrored base last c' f' ∧
      f'.workspace = f.workspace ∧ c'.workspace = c.workspace ∧ c'.capturing = c.capturing := by
  have hfits : ¬(c.workspacePlanned = true ∧ bytes > c.plannedWorkspaceBytes) := by
    intro hover
    rw [Context.workspaceFor, bind_ok (get_run c), if_pos hover] at hrun
    cases hrun
  have hle : bytes ≤ c.workspaceBytes := by
    rw [hplanned hc]
    exact Nat.le_of_not_gt fun hgt => hfits ⟨hc, hgt⟩
  obtain ⟨m, j, b, hb, rfl, -, -⟩ := hlive
  obtain ⟨b', hb', hdata, -⟩ := hextends.block hb
  obtain rfl := hat.index_unique hlast hb' hdata
  have howned : c.owned[b.data]? = some 0 := (hsound.addresses b.data 0).mpr ⟨b, hb, rfl⟩
  have hpermits : c.Permits b.slot := by
    intro base layout hsome
    rw [harena] at hsome
    cases hsome
  rw [workspaceFor_run hfits hle hworkspace howned hb hpermits, hsound.slots 0 b hb] at hrun
  cases hrun
  have hrecords := hextends'.records c.instruction 0 (records_recorded c 0)
  obtain ⟨bytes', hblock⟩ := h.block hat
  have howned' : f.owned[q]? = some 0 := (h.sound.addresses q 0).mpr ⟨_, hblock, rfl⟩
  have hbytes : f.workspaceBytes = c.workspaceBytes := (congrArg Context.workspaceBytes h.same :)
  have hmaximum : f.plannedWorkspaceBytes = c.plannedWorkspaceBytes := (congrArg Context.plannedWorkspaceBytes h.same :)
  have hfits' : ¬(f.workspacePlanned = true ∧ bytes > f.plannedWorkspaceBytes) := by
    rw [hmaximum]
    exact fun hover => hfits ⟨hc, hover.2⟩
  have hpermits' : f.Permits 0 := h.permits (audit_permits_workspace hrecords hslot.symm).1
  refine ⟨rfl, _, workspaceFor_run hfits' (hbytes ▸ hle) hworkspace' howned' hblock hpermits', ⟨?_, h.sound, h.blocks,
    h.free⟩, rfl, rfl, rfl⟩
  rw [h.recorded]
  exact congrArg (fun d : Context => { d with instructionSlots := c.recorded 0 }) h.same

end Context

end Inferfabric.Native.Prepared
