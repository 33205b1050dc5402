-- SUMMARY: The scratch storage of a session never aliases, and what a prepared linear operation reads and writes.
import IronPangu.Native.Linear

/-!
# Prepared linear operations

Scratch slots of one operation are different blocks, apart from every buffer. So a
prepared operation multiplies into storage of its own and only its copies, or its
product where there is nothing to gather, write the output.
-/

namespace Inferfabric.Native.Acl

open Execution (Checked ensure)

variable {β : Type} {rt : Runtime β} {dot : List (β × β) → List (β × β) → β × β}

namespace Buffer

variable {b b' c : Buffer}

theorem Apart.symm (h : Apart b c) : Apart c b := Or.symm h

theorem Apart.inside (h : Apart b c) (hin : Inside b' b) : Apart b' c := by
  unfold Apart Inside at *
  omega

theorem inside_refl (b : Buffer) : Inside b b := ⟨le_rfl, le_rfl⟩

theorem inside_smaller {p bytes bytes' : Nat} (h : bytes ≤ bytes') : Inside ⟨p, bytes⟩ ⟨p, bytes'⟩ :=
  ⟨le_rfl, Nat.add_le_add_left h p⟩

end Buffer

namespace Session

open Buffer

variable {s s' : Session} {id ptr bytes slot cursor : Nat}

/-! ## Storage -/

/-- Scratch blocks are apart from each other and from every buffer, and everything lies
    in a block the device has given out. -/
structure Wf (s : Session) : Prop where
  pool : s.scratchPool.flatten.Pairwise Apart
  outside : ∀ b ∈ s.scratchPool.flatten, ∀ p ∈ s.buffers, Apart b p.2
  pooled : ∀ b ∈ s.scratchPool.flatten, b ∈ s.heap
  placed : ∀ p ∈ s.buffers, ∃ h ∈ s.heap, Inside p.2 h

/-- The sessions there are: opened, and then used for buffers, views and scratch. -/
inductive Opened (rt : Runtime β) : Session → Prop where
  | new (rank world : Nat) (dedicated : Bool) : Opened rt (new rank world dedicated)
  | allocate {s s' : Session} {id bytes : Nat} : Opened rt s → s.allocate rt bytes = .ok (id, s') → Opened rt s'
  | bufferView {s s' : Session} {id parent offset bytes : Nat} :
    Opened rt s → s.bufferView parent offset bytes = .ok (id, s') → Opened rt s'
  | scratch {s s' : Session} {cursor ptr bytes : Nat} :
    Opened rt s → s.scratch rt cursor bytes = .ok (ptr, s') → Opened rt s'

theorem wf_new (rank world : Nat) (dedicated : Bool) : Wf (new rank world dedicated) where
  pool := List.Pairwise.nil
  outside b hb := by cases hb
  pooled b hb := by cases hb
  placed p hp := by cases hp

theorem region_eq_ok {offset : Nat} : s.region id offset bytes = .ok ptr ↔
    ∃ b, s.buffers.lookup id = some b ∧ offset + bytes ≤ b.bytes ∧ ptr = b.ptr + offset := by
  rw [region]
  cases s.buffers.lookup id with
  | none => simp
  | some b =>
    dsimp only
    split
    · simp only [reduceCtorEq, false_iff, Option.some.injEq]
      rintro ⟨b', rfl, hle, -⟩
      omega
    · simp only [Except.ok.injEq, Option.some.injEq, eq_comm (a := ptr)]
      constructor
      · exact fun h => ⟨b, rfl, by omega, h⟩
      · rintro ⟨b', rfl, -, h⟩
        exact h

theorem mem_of_lookup {b : Buffer} (h : s.buffers.lookup id = some b) : (id, b) ∈ s.buffers := by
  obtain ⟨l₁, l₂, hsplit, -⟩ := List.lookup_eq_some_iff.mp h
  simp [hsplit]

/-- A block the device gives out is apart from the buffers there are. -/
theorem Wf.fresh (h : Wf s) (hrt : rt.Works dot) (hmalloc : rt.malloc s.heap bytes = .ok ptr) :
    ∀ p ∈ s.buffers, Apart ⟨ptr, bytes⟩ p.2 := by
  intro p hp
  obtain ⟨block, hblock, hinside⟩ := h.placed p hp
  exact ((hrt.malloc _ _ _ hmalloc block hblock).symm.inside hinside).symm

theorem Wf.allocate (h : Wf s) (hrt : rt.Works dot) (hok : s.allocate rt bytes = .ok (id, s')) : Wf s' := by
  rw [Session.allocate] at hok
  split at hok
  · cases hok
  cases hmalloc : rt.malloc s.heap bytes with
  | error message =>
    rw [hmalloc] at hok
    cases hok
  | ok ptr =>
    rw [hmalloc] at hok
    obtain ⟨-, rfl⟩ := Prod.mk.inj (Except.ok.inj hok)
    refine ⟨h.pool, ?_, fun b hb => List.mem_cons_of_mem _ (h.pooled b hb), ?_⟩
    · intro b hb p hp
      rcases List.mem_cons.mp hp with rfl | hp
      · exact (hrt.malloc _ _ _ hmalloc b (h.pooled b hb)).symm
      · exact h.outside b hb p hp
    · intro p hp
      rcases List.mem_cons.mp hp with rfl | hp
      · exact ⟨_, List.mem_cons_self, inside_refl _⟩
      · obtain ⟨block, hblock, hinside⟩ := h.placed p hp
        exact ⟨block, List.mem_cons_of_mem _ hblock, hinside⟩

theorem Wf.bufferView {parent offset : Nat} (h : Wf s) (hok : s.bufferView parent offset bytes = .ok (id, s')) :
    Wf s' := by
  rw [Session.bufferView] at hok
  split at hok
  · cases hok
  cases hregion : s.region parent offset bytes with
  | error message =>
    rw [hregion] at hok
    cases hok
  | ok ptr =>
    rw [hregion] at hok
    obtain ⟨-, rfl⟩ := Prod.mk.inj (Except.ok.inj hok)
    obtain ⟨whole, hlookup, hle, rfl⟩ := region_eq_ok.mp hregion
    have hmem := mem_of_lookup hlookup
    have hinside : Inside ⟨whole.ptr + offset, bytes⟩ whole := ⟨Nat.le_add_right _ _, by dsimp only; omega⟩
    refine ⟨h.pool, ?_, h.pooled, ?_⟩
    · intro b hb p hp
      rcases List.mem_cons.mp hp with rfl | hp
      · exact ((h.outside b hb _ hmem).symm.inside hinside).symm
      · exact h.outside b hb p hp
    · intro p hp
      rcases List.mem_cons.mp hp with rfl | hp
      · obtain ⟨block, hblock, hwhole⟩ := h.placed _ hmem
        exact ⟨block, hblock, hwhole.1.trans hinside.1, hinside.2.trans hwhole.2⟩
      · exact h.placed p hp

theorem padded_flatten : (s.padded slot).flatten = s.scratchPool.flatten := by
  simp [padded]

theorem padded_length : slot < (s.padded slot).length := by
  rw [padded, List.length_append, List.length_replicate]
  omega

theorem bestBlock_eq_some {versions : List Buffer} {block : Buffer} (h : bestBlock bytes versions = some block) :
    block ∈ versions ∧ bytes ≤ block.bytes := by
  have hfold : ∀ (rest : List Buffer) (best : Option Buffer), (∀ c ∈ best, c ∈ versions ∧ bytes ≤ c.bytes) →
      (∀ c ∈ rest, c ∈ versions) →
      ∀ c ∈ rest.foldl (fun best block =>
        if block.bytes ≥ bytes ∧ best.all (block.bytes < ·.bytes) then some block else best) best,
        c ∈ versions ∧ bytes ≤ c.bytes := by
    intro rest
    induction rest with
    | nil => exact fun best hbest _ => hbest
    | cons block rest ih =>
      intro best hbest hrest
      refine ih _ ?_ fun c hc => hrest c (List.mem_cons_of_mem _ hc)
      intro c hc
      dsimp only at hc
      split at hc
      · rename_i hfits
        obtain rfl := Option.some.inj hc
        exact ⟨hrest _ List.mem_cons_self, hfits.1⟩
      · exact hbest c hc
  exact hfold versions none nofun (fun _ hc => hc) block h

theorem flatten_modify {pool : List (List Buffer)} (hslot : slot < pool.length) (b : Buffer) :
    (pool.modify slot (· ++ [b])).flatten.Perm (b :: pool.flatten) := by
  induction pool generalizing slot with
  | nil => cases hslot
  | cons versions pool ih =>
    cases slot with
    | zero =>
      simp only [List.modify_zero_cons, List.flatten_cons, List.append_assoc, List.singleton_append]
      exact List.perm_middle
    | succ slot =>
      simp only [List.modify_succ_cons, List.flatten_cons]
      exact ((ih (Nat.lt_of_succ_lt_succ hslot)).append_left versions).trans List.perm_middle

/-- What is stored for a request of scratch: a block of its own. -/
structure Stored (s s' : Session) (cursor ptr bytes : Nat) (block : Buffer) : Prop where
  wf : Wf s'
  buffers : s'.buffers = s.buffers
  ranks : s'.tpRank = s.tpRank ∧ s'.tpWorld = s.tpWorld
  mode : s'.dedicatedActivations = s.dedicatedActivations
  start : block.ptr = ptr
  fits : bytes ≤ block.bytes
  outside : ∀ p ∈ s.buffers, Apart block p.2
  held : block ∈ s'.heap
  grown : ∀ b ∈ s.heap, b ∈ s'.heap
  slot : s.dedicatedActivations = false → ∃ versions, s'.scratchPool[cursor]? = some versions ∧ block ∈ versions
  others : ∀ (i : Nat) (versions : List Buffer), i ≠ cursor → s.scratchPool[i]? = some versions → s'.scratchPool[i]? = some versions
  fresh : s.dedicatedActivations = true → ∀ b ∈ s.heap, Apart block b

theorem stored_slot (h : Wf s) (hrt : rt.Works dot) (hmode : s.dedicatedActivations = false)
    (hok : s.slotStorage rt slot bytes = .ok (ptr, s')) : ∃ block, Stored s s' slot ptr bytes block := by
  have hnot : s.dedicatedActivations = true → ∀ {p : Prop}, p := by
    rw [hmode]
    nofun
  have hslot : slot < (s.padded slot).length := padded_length
  have hothers : ∀ (i : Nat) (versions : List Buffer), s.scratchPool[i]? = some versions → (s.padded slot)[i]? = some versions := by
    intro i versions hi
    rw [padded, List.getElem?_append_left (List.getElem?_eq_some_iff.mp hi).1, hi]
  have hflatten : (s.padded slot).flatten = s.scratchPool.flatten := padded_flatten
  rw [slotStorage] at hok
  cases hbest : bestBlock bytes ((s.padded slot).getD slot []) with
  | some block =>
    rw [hbest] at hok
    obtain ⟨rfl, rfl⟩ := Prod.mk.inj (Except.ok.inj hok)
    obtain ⟨hmem, hfits⟩ := bestBlock_eq_some hbest
    rw [List.getD_eq_getElem _ _ hslot] at hmem
    have hflat : block ∈ s.scratchPool.flatten := by
      rw [← hflatten]
      exact List.mem_flatten.mpr ⟨_, List.getElem_mem hslot, hmem⟩
    refine ⟨block, ⟨?_, rfl, ⟨rfl, rfl⟩, rfl, rfl, hfits, h.outside block hflat, h.pooled block hflat,
      fun _ hb => hb, fun _ => ⟨_, List.getElem?_eq_getElem hslot, hmem⟩, fun i versions _ hi => hothers i versions hi,
      fun hd => hnot hd⟩⟩
    constructor
    case placed => exact h.placed
    all_goals rw [hflatten]
    exacts [h.pool, h.outside, h.pooled]
  | none =>
    rw [hbest] at hok
    cases hmalloc : rt.malloc s.heap bytes with
    | error message =>
      rw [hmalloc] at hok
      cases hok
    | ok p =>
      rw [hmalloc] at hok
      obtain ⟨rfl, rfl⟩ := Prod.mk.inj (Except.ok.inj hok)
      have hfresh := hrt.malloc _ _ _ hmalloc
      have houtside := h.fresh hrt hmalloc
      have hperm := flatten_modify hslot ⟨p, bytes⟩
      rw [hflatten] at hperm
      refine ⟨⟨p, bytes⟩, ⟨?_, rfl, ⟨rfl, rfl⟩, rfl, rfl, le_rfl, houtside, List.mem_cons_self,
        fun _ hb => List.mem_cons_of_mem _ hb, fun _ => ?_, fun i versions hne hi => ?_, fun hd => hnot hd⟩⟩
      · refine ⟨?_, ?_, ?_, ?_⟩
        · refine (hperm.pairwise_iff fun hab => Apart.symm hab).mpr (List.pairwise_cons.mpr ⟨fun b hb => ?_, h.pool⟩)
          exact hfresh b (h.pooled b hb)
        · intro b hb q hq
          rcases List.mem_cons.mp (hperm.mem_iff.mp hb) with rfl | hb
          · exact houtside q hq
          · exact h.outside b hb q hq
        · intro b hb
          rcases List.mem_cons.mp (hperm.mem_iff.mp hb) with rfl | hb
          · exact List.mem_cons_self
          · exact List.mem_cons_of_mem _ (h.pooled b hb)
        · intro q hq
          obtain ⟨block, hblock, hinside⟩ := h.placed q hq
          exact ⟨block, List.mem_cons_of_mem _ hblock, hinside⟩
      · refine ⟨(s.padded slot)[slot] ++ [⟨p, bytes⟩], ?_, by simp⟩
        rw [List.getElem?_modify_eq, List.getElem?_eq_getElem hslot]
        rfl
      · rw [List.getElem?_modify_ne _ _ hne.symm]
        exact hothers i versions hi

theorem stored_scratch (h : Wf s) (hrt : rt.Works dot) (hok : s.scratch rt cursor bytes = .ok (ptr, s')) :
    ∃ block, Stored s s' cursor ptr bytes block := by
  rw [scratch] at hok
  split at hok
  · rename_i hmode
    exact stored_slot h hrt hmode hok
  · rename_i hmode
    cases hmalloc : rt.malloc s.heap bytes with
    | error message =>
      rw [hmalloc] at hok
      cases hok
    | ok p =>
      rw [hmalloc] at hok
      obtain ⟨rfl, rfl⟩ := Prod.mk.inj (Except.ok.inj hok)
      have hgrown : ∀ b ∈ s.heap, b ∈ (⟨p, bytes⟩ : Buffer) :: s.heap := fun _ hb => List.mem_cons_of_mem _ hb
      refine ⟨⟨p, bytes⟩, ⟨⟨h.pool, h.outside, fun b hb => hgrown b (h.pooled b hb), ?_⟩, rfl, ⟨rfl, rfl⟩, rfl, rfl,
        le_rfl, h.fresh hrt hmalloc, List.mem_cons_self, hgrown, fun hd => absurd hd hmode, fun _ _ _ hi => hi,
        fun _ => hrt.malloc _ _ _ hmalloc⟩⟩
      intro q hq
      obtain ⟨block, hblock, hinside⟩ := h.placed q hq
      exact ⟨block, hgrown block hblock, hinside⟩

theorem Opened.wf (h : Opened rt s) (hrt : rt.Works dot) : Wf s := by
  induction h with
  | new rank world dedicated => exact wf_new rank world dedicated
  | allocate _ hok ih => exact ih.allocate hrt hok
  | bufferView _ hok ih => exact ih.bufferView hok
  | scratch _ hok ih =>
    obtain ⟨block, hstored⟩ := stored_scratch ih hrt hok
    exact hstored.wf

/-- The two scratch blocks of an operation share nothing. -/
theorem stored_apart {s₁ s₂ : Session} {p q p₁ p₂ : Nat} {b₁ b₂ : Buffer} (h₁ : Stored s s₁ 0 p₁ p b₁)
    (h₂ : Stored s₁ s₂ 1 p₂ q b₂) : Apart b₁ b₂ := by
  cases hmode : s.dedicatedActivations with
  | true => exact (h₂.fresh (h₁.mode.trans hmode) b₁ h₁.held).symm
  | false =>
    obtain ⟨versions, hversions, hb₁⟩ := h₁.slot hmode
    obtain ⟨versions', hversions', hb₂⟩ := h₂.slot (h₁.mode.trans hmode)
    have hkept := h₂.others 0 versions (by decide) hversions
    obtain ⟨hzero, rfl⟩ := List.getElem?_eq_some_iff.mp hkept
    obtain ⟨hone, rfl⟩ := List.getElem?_eq_some_iff.mp hversions'
    exact List.pairwise_iff_getElem.mp (List.pairwise_flatten.mp h₂.wf.pool).2 0 1 hzero hone Nat.one_pos _ hb₁ _ hb₂

end Session

/-! ## Prepared operations -/

open Buffer Session

variable {s s' : Session} {op : Linear} {x w y m n k : Nat}

/-- The sizes and handles an operation may be asked for with. -/
structure Wellformed (world x w y m n k : Nat) : Prop where
  rows : 0 < m ∧ m ≤ 1048576
  width : 0 < n ∧ n ≤ 1048576
  depth : 0 < k ∧ k ≤ 1048576
  distinct : x ≠ y ∧ w ≠ y
  divides : n % world = 0

/-- The buffers of an operation, with the regions it uses. -/
structure Placed (s : Session) (x w y m n k : Nat) (input weight output : Buffer) : Prop where
  input : s.buffers.lookup x = some input ∧ m * k * 2 ≤ input.bytes
  weight : s.buffers.lookup w = some weight ∧
    weightOffset s weight n k + n / s.tpWorld * k * 2 ≤ weight.bytes
  output : s.buffers.lookup y = some output ∧ m * n * 2 ≤ output.bytes

/-- What is prepared in a group: the product goes to scratch, and the gathered block to
    scratch of its own. -/
structure Grouped (s : Session) (m n : Nat) (output : Buffer) (op : Linear) (localResult gathered : Nat) : Prop where
  out : op.out = .new localResult m (n / s.tpWorld) false
  gather : op.gather = some ⟨localResult, gathered, m * (n / s.tpWorld)⟩
  copies : op.copies = rowCopies s.tpWorld m n (n / s.tpWorld) gathered output.ptr
  apart : Apart ⟨localResult, m * (n / s.tpWorld) * 2⟩ ⟨gathered, m * n * 2⟩
  outside : ∀ p ∈ s.buffers, Apart ⟨localResult, m * (n / s.tpWorld) * 2⟩ p.2 ∧ Apart ⟨gathered, m * n * 2⟩ p.2

/-- What is prepared on a rank of its own. -/
structure Alone (s : Session) (m n : Nat) (output : Buffer) (op : Linear) : Prop where
  out : op.out = .new output.ptr m (n / s.tpWorld) false
  gather : op.gather = none
  copies : op.copies = []

/-- The operation that is prepared on these buffers. -/
structure Prepared (s : Session) (m n k : Nat) (input weight output : Buffer) (op : Linear) : Prop where
  a : op.a = .new input.ptr m k false
  b : op.b = .new (weight.ptr + weightOffset s weight n k) (n / s.tpWorld) k true
  grouped : 1 < s.tpWorld → ∃ localResult gathered, Grouped s m n output op localResult gathered
  alone : s.tpWorld ≤ 1 → Alone s m n output op

theorem ensure_bind_eq_ok {α : Type} {condition : Prop} [Decidable condition] {message : String} {f : Unit → Checked α}
    {a : α} : (ensure condition message >>= f) = .ok a ↔ condition ∧ f () = .ok a := by
  unfold ensure
  split <;> simp_all [bind, Except.bind]

theorem bind_eq_ok {α γ : Type} {c : Checked α} {f : α → Checked γ} {b : γ} :
    (c >>= f) = .ok b ↔ ∃ a, c = .ok a ∧ f a = .ok b := by
  cases c <;> simp [bind, Except.bind]

/-- An operation is prepared on the buffers its handles name. -/
theorem prepared_of_ok (h : Wf s) (hrt : rt.Works dot) (hok : linearPrepare rt s x w y m n k = .ok (op, s')) :
    Wellformed s.tpWorld x w y m n k ∧
      ∃ input weight output, Placed s x w y m n k input weight output ∧ Prepared s m n k input weight output op := by
  rw [linearPrepare] at hok
  split at hok
  · cases hok
  rename_i hvalid
  obtain ⟨a, ha, hok⟩ := bind_eq_ok.mp hok
  obtain ⟨hdivides, hok⟩ := ensure_bind_eq_ok.mp hok
  cases hweight : s.buffers.lookup w with
  | none =>
    simp only [hweight] at hok
    cases hok
  | some weight =>
    simp only [hweight] at hok
    obtain ⟨b, hb, hok⟩ := bind_eq_ok.mp hok
    obtain ⟨result, hresult, hok⟩ := bind_eq_ok.mp hok
    obtain ⟨input, hinput, hinputs, rfl⟩ := region_eq_ok.mp ha
    obtain ⟨weight', hweight', hweights, rfl⟩ := region_eq_ok.mp hb
    obtain rfl := Option.some.inj (hweight.symm.trans hweight')
    obtain ⟨output, houtput, houtputs, rfl⟩ := region_eq_ok.mp hresult
    rw [Nat.zero_add] at hinputs houtputs
    refine ⟨⟨by omega, by omega, by omega, by omega, hdivides⟩, input, weight, output,
      ⟨⟨hinput, hinputs⟩, ⟨hweight, hweights⟩, houtput, houtputs⟩, ?_⟩
    split at hok
    · rename_i hworld
      obtain ⟨⟨localResult, s₁⟩, hfirst, hok⟩ := bind_eq_ok.mp hok
      obtain ⟨⟨gathered, s₂⟩, hsecond, hok⟩ := bind_eq_ok.mp hok
      obtain ⟨rfl, -⟩ := Prod.mk.inj (Except.ok.inj hok)
      obtain ⟨block₁, h₁⟩ := stored_scratch h hrt hfirst
      obtain ⟨block₂, h₂⟩ := stored_scratch h₁.wf hrt hsecond
      refine ⟨rfl, rfl, fun _ => ⟨localResult, gathered, ⟨rfl, rfl, ?_, ?_, fun p hp => ⟨?_, ?_⟩⟩⟩,
        fun hle => absurd hworld (Nat.not_lt.mpr hle)⟩
      · rw [h₂.ranks.2, h₁.ranks.2]
        rfl
      · exact (((stored_apart h₁ h₂).inside (h₁.start ▸ inside_smaller h₁.fits)).symm.inside
          (h₂.start ▸ inside_smaller h₂.fits)).symm
      · exact (h₁.outside p hp).inside (h₁.start ▸ inside_smaller h₁.fits)
      · exact (h₂.outside p (h₁.buffers ▸ hp)).inside (h₂.start ▸ inside_smaller h₂.fits)
    · rename_i hworld
      obtain ⟨rfl, -⟩ := Prod.mk.inj (Except.ok.inj hok)
      exact ⟨rfl, rfl, fun hlt => absurd hlt hworld, fun _ => ⟨rfl, rfl, rfl⟩⟩

/-- Where the buffers are large enough only an allocation can fail. -/
theorem prepare_succeeds {input weight output : Buffer} (hsizes : Wellformed s.tpWorld x w y m n k)
    (hplaced : Placed s x w y m n k input weight output) :
    (∃ op s', linearPrepare rt s x w y m n k = .ok (op, s')) ∨
      ∃ heap bytes message, rt.malloc heap bytes = .error message := by
  have hscratch : ∀ (s : Session) cursor bytes, (∃ ptr s', s.scratch rt cursor bytes = .ok (ptr, s')) ∨
      ∃ heap bytes message, rt.malloc heap bytes = .error message := by
    intro s cursor bytes
    cases hmalloc : rt.malloc s.heap bytes with
    | error message => exact .inr ⟨_, _, _, hmalloc⟩
    | ok ptr =>
      left
      rw [scratch, slotStorage]
      split
      · cases bestBlock bytes ((s.padded cursor).getD cursor []) with
        | some block => exact ⟨_, _, rfl⟩
        | none =>
          simp only [hmalloc]
          exact ⟨_, _, rfl⟩
      · rw [hmalloc]
        exact ⟨_, _, rfl⟩
  have ha := region_eq_ok.mpr ⟨input, hplaced.input.1, (Nat.zero_add _).trans_le hplaced.input.2, rfl⟩
  have hb := region_eq_ok.mpr ⟨weight, hplaced.weight.1, hplaced.weight.2, rfl⟩
  have hresult := region_eq_ok.mpr ⟨output, hplaced.output.1, (Nat.zero_add _).trans_le hplaced.output.2, rfl⟩
  obtain ⟨hm, hn, hk, hdistinct, hdivides⟩ := hsizes
  rw [linearPrepare, if_neg (by omega), ha]
  simp only [ensure, if_pos hdivides, hplaced.weight.1, hb, hresult, bind, Except.bind]
  split
  · obtain ⟨localResult, s₁, hfirst⟩ | hfailed := hscratch s 0 (m * (n / s.tpWorld) * 2)
    · obtain ⟨gathered, s₂, hsecond⟩ | hfailed := hscratch s₁ 1 (m * n * 2)
      · left
        rw [hfirst]
        dsimp only
        rw [hsecond]
        exact ⟨_, _, rfl⟩
      · exact .inr hfailed
    · exact .inr hfailed
  · exact .inl ⟨_, _, rfl⟩

end Inferfabric.Native.Acl
