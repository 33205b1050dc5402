-- SUMMARY: A context frozen to a layout starts with a sound pool, every slot of the arena waiting in order.
import IronPangu.Native.Prepared.Acquire

open Rust Method Std

/-!
# Frozen contexts

Every slot starts free. The slots of one size wait in the order of the layout, so the
first one is the next to be served.
-/

namespace Inferfabric.Native.Prepared

/-! ## Filling the maps -/

def register (owned : ExtTreeMap Nat Nat) (b : Block) : ExtTreeMap Nat Nat := owned.insertIfNew b.data b.slot

def offer (b : Block) (free : ExtTreeMap Nat (List Nat)) : ExtTreeMap Nat (List Nat) :=
  free.insert b.bytes (b.slot :: free.getD b.bytes [])

theorem register_foldl (bs : List Block) (owned : ExtTreeMap Nat Nat) (p i : Nat) (hdata : (bs.map Block.data).Nodup)
    (hnew : ∀ b ∈ bs, b.data ∉ owned) :
    (bs.foldl register owned)[p]? = some i ↔ owned[p]? = some i ∨ ∃ b ∈ bs, b.data = p ∧ b.slot = i := by
  induction bs generalizing owned with
  | nil => simp
  | cons b bs ih =>
    obtain ⟨hb, hdata⟩ := List.nodup_cons.mp hdata
    obtain ⟨hnew_b, hnew⟩ := List.forall_mem_cons.mp hnew
    have hnew' : ∀ b' ∈ bs, b'.data ∉ register owned b := by
      intro b' hb' hmem
      rcases ExtTreeMap.mem_insertIfNew.mp hmem with heq | hmem
      · exact hb (Std.compare_eq_iff_eq.mp heq ▸ List.mem_map_of_mem hb')
      · exact hnew b' hb' hmem
    rw [List.foldl_cons, ih (register owned b) hdata hnew', register, ExtTreeMap.getElem?_insertIfNew]
    by_cases hp : b.data = p
    · subst hp
      simp [hnew_b]
    · rw [if_neg fun hboth => hp (Std.compare_eq_iff_eq.mp hboth.1)]
      simp [hp]

theorem offer_foldr (bs : List Block) (size : Nat) :
    (bs.foldr offer ∅)[size]? =
      if ∃ b ∈ bs, b.bytes = size then some ((bs.filter fun b => b.bytes = size).map Block.slot) else none := by
  induction bs with
  | nil => simp
  | cons b bs ih =>
    rw [List.foldr_cons, offer, ExtTreeMap.getElem?_insert]
    by_cases hsize : b.bytes = size
    · subst hsize
      rw [if_pos compare_self, if_pos ⟨b, List.mem_cons_self, rfl⟩, ExtTreeMap.getD_eq_getD_getElem?, ih,
        List.filter_cons_of_pos (by simp), List.map_cons]
      by_cases hmore : ∃ b' ∈ bs, b'.bytes = b.bytes
      · rw [if_pos hmore, Option.getD_some]
      · have hnone : bs.filter (fun b' => b'.bytes = b.bytes) = [] := by
          rw [List.filter_eq_nil_iff]
          intro b' hb' hbytes
          exact hmore ⟨b', hb', of_decide_eq_true hbytes⟩
        rw [if_neg hmore, hnone, Option.getD_none, List.map_nil]
    · rw [if_neg fun heq => hsize (Std.compare_eq_iff_eq.mp heq), ih, List.filter_cons_of_neg (by simpa using hsize)]
      simp [hsize]

/-! ## The pool of a frozen context -/

/-- The blocks of a layout at an address. -/
def slotBlocks (base : Nat) (slots : List Slot) : List Block :=
  slots.zipIdx.map fun (slot, i) => (⟨base + slot.offset, slot.bytes, false, i⟩ : Block)

theorem getElem?_slotBlocks {base i : Nat} {slots : List Slot} {b : Block} :
    (slotBlocks base slots)[i]? = some b ↔ ∃ s, slots[i]? = some s ∧ b = ⟨base + s.offset, s.bytes, false, i⟩ := by
  rw [slotBlocks, List.getElem?_map, List.getElem?_zipIdx]
  cases slots[i]? with
  | none => simp
  | some s => simp [eq_comm]

theorem slotsFit_mem {bytes stop : Nat} {slots : List Slot} (h : ArenaLayout.slotsFit bytes stop slots = true) :
    (∀ s ∈ slots, stop ≤ s.offset ∧ 0 < s.bytes ∧ s.offset + s.bytes ≤ bytes) ∧
      slots.Pairwise fun s t => s.offset + s.bytes ≤ t.offset := by
  induction slots generalizing stop with
  | nil => simp
  | cons s slots ih =>
    simp only [ArenaLayout.slotsFit, Bool.and_eq_true, decide_eq_true_eq] at h
    obtain ⟨⟨⟨⟨⟨hpos, -⟩, hstop⟩, hle⟩, hfit⟩, hrest⟩ := h
    obtain ⟨hall, hpair⟩ := ih hrest
    refine ⟨List.forall_mem_cons.mpr ⟨⟨hstop, hpos, by omega⟩, fun t ht => ?_⟩,
      List.pairwise_cons.mpr ⟨fun t ht => (hall t ht).1, hpair⟩⟩
    obtain ⟨hoffset, hrest⟩ := hall t ht
    exact ⟨by omega, hrest⟩

/-- The slots lie at different addresses. -/
theorem slotBlocks_nodup {base bytes stop : Nat} {slots : List Slot}
    (h : ArenaLayout.slotsFit bytes stop slots = true) : ((slotBlocks base slots).map Block.data).Nodup := by
  obtain ⟨hall, hpair⟩ := slotsFit_mem h
  have hoffsets : (slotBlocks base slots).map Block.data = slots.map fun s => base + s.offset := by
    rw [slotBlocks, List.map_map]
    exact (List.map_map (f := Prod.fst) (g := fun s : Slot => base + s.offset)).symm.trans
      (congrArg _ (List.zipIdx_map_fst 0 slots))
  rw [hoffsets, List.Nodup, List.pairwise_map]
  refine hpair.imp_of_mem fun {s t} hs _ hst heq => ?_
  have := (hall s hs).2.1
  omega

theorem slotBlocks_sound {base bytes stop : Nat} {slots : List Slot}
    (h : ArenaLayout.slotsFit bytes stop slots = true) :
    Sound (slotBlocks base slots) ((slotBlocks base slots).foldl register ∅)
      ((slotBlocks base slots).foldr offer ∅) := by
  have hslot : ∀ (i : Nat) b, (slotBlocks base slots)[i]? = some b → b.slot = i ∧ b.live = false := by
    intro i b hb
    obtain ⟨s, -, rfl⟩ := getElem?_slotBlocks.mp hb
    exact ⟨rfl, rfl⟩
  refine ⟨fun i b hb => (hslot i b hb).1, ?_, ?_, ?_⟩
  · intro p i
    rw [register_foldl _ ∅ p i (slotBlocks_nodup h) (fun _ _ => ExtTreeMap.not_mem_empty)]
    simp only [ExtTreeMap.getElem?_empty, reduceCtorEq, false_or]
    constructor
    · rintro ⟨b, hb, rfl, rfl⟩
      obtain ⟨i, hi⟩ := List.getElem?_of_mem hb
      obtain rfl := (hslot i b hi).1
      exact ⟨b, hi, rfl⟩
    · rintro ⟨b, hb, rfl⟩
      exact ⟨b, List.mem_of_getElem? hb, rfl, (hslot i b hb).1⟩
  · intro size is his
    rw [offer_foldr] at his
    split at his
    · obtain rfl := Option.some.inj his
      refine ⟨?_, ?_⟩
      · have hnodup : ((slotBlocks base slots).map Block.slot).Nodup := by
          rw [slotBlocks, List.map_map]
          have hslots : slots.zipIdx.map (Block.slot ∘ fun (slot, i) => (⟨base + slot.offset, slot.bytes, false, i⟩ : Block)) =
              List.range' 0 slots.length := List.zipIdx_map_snd 0 slots
          rw [hslots]
          exact List.nodup_range'
        exact (List.Sublist.map _ List.filter_sublist).nodup hnodup
      · intro i hi
        obtain ⟨b, hb, rfl⟩ := List.mem_map.mp hi
        obtain ⟨hb, hbytes⟩ := List.mem_filter.mp hb
        obtain ⟨i, hi⟩ := List.getElem?_of_mem hb
        obtain ⟨rfl, hlive⟩ := hslot i b hi
        exact ⟨b, hi, hlive, of_decide_eq_true hbytes⟩
    · cases his
  · intro i b hb hlive
    have hmem := List.mem_of_getElem? hb
    rw [offer_foldr, if_pos ⟨b, hmem, rfl⟩]
    refine ⟨_, rfl, List.mem_map.mpr ⟨b, List.mem_filter.mpr ⟨hmem, by simp⟩, (hslot i b hb).1⟩⟩

namespace Context

variable {planned : Option Nat} {base : Nat} {layout : ArenaLayout}

theorem empty_sound : (empty planned).Sound := by
  refine ⟨?_, ?_, ?_, ?_⟩ <;> simp [empty]

theorem frozen_blocks : (frozen planned base layout).blocks = slotBlocks base layout.slots := rfl

theorem frozen_free : (frozen planned base layout).free = (slotBlocks base layout.slots).foldr offer ∅ :=
  List.foldl_reverse

theorem frozen_sound (h : ArenaLayout.slotsFit layout.bytes 0 layout.slots = true) :
    (frozen planned base layout).Sound := by
  have hsound : Prepared.Sound (slotBlocks base layout.slots) _ ((slotBlocks base layout.slots).foldr offer ∅) :=
    slotBlocks_sound h
  rwa [← @frozen_free planned base layout] at hsound

end Context

end Inferfabric.Native.Prepared
