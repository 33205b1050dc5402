-- SUMMARY: The buffer pool of a prepared context: what acquiring and releasing a block do to the free lists.
import IronPangu.Native.Prepared

open Rust Method Std

/-!
# The pool

`Sound` ties the three views of the pool together: the blocks, the addresses and the
free lists. Every way a block can be supplied is one of two changes to it: a block
leaves the free list of its size, or a new block joins.
-/

namespace Inferfabric.Native.Prepared

/-! ## Taking from a free list -/

theorem takeEligible_eq_some {eligible : Nat → Bool} {is rest : List Nat} {j : Nat}
    (h : takeEligible eligible is = some (j, rest)) : eligible j = true ∧ is.Perm (j :: rest) := by
  induction is generalizing rest with
  | nil => cases h
  | cons i is ih =>
    rw [takeEligible] at h
    split at h
    · rename_i heligible
      obtain ⟨rfl, rfl⟩ := Prod.mk.inj (Option.some.inj h)
      exact ⟨heligible, .refl _⟩
    · obtain ⟨⟨j', rest'⟩, htake, h⟩ := Option.map_eq_some_iff.mp h
      obtain ⟨rfl, rfl⟩ := Prod.mk.inj h
      obtain ⟨heligible, hperm⟩ := ih htake
      exact ⟨heligible, (hperm.cons i).trans (.swap _ _ _)⟩

theorem takeEligible_eq_none {eligible : Nat → Bool} {is : List Nat} (h : takeEligible eligible is = none) :
    ∀ i ∈ is, eligible i = false := by
  induction is with
  | nil => simp
  | cons i is ih =>
    rw [takeEligible] at h
    split at h
    · cases h
    · rename_i heligible
      rw [List.forall_mem_cons]
      exact ⟨Bool.not_eq_true _ ▸ heligible, ih (Option.map_eq_none_iff.mp h)⟩

theorem takeBoundedBuffer_eq_some {eligible : Nat → Bool} {free free' : ExtTreeMap Nat (List Nat)}
    {bins : List (Nat × List Nat)} {i : Nat} (h : takeBoundedBuffer eligible free bins = some (i, free')) :
    ∃ size is rest, (size, is) ∈ bins ∧ is.Perm (i :: rest) ∧ free' = free.insert size rest ∧ eligible i = true := by
  induction bins with
  | nil => cases h
  | cons bin bins ih =>
    obtain ⟨size, is⟩ := bin
    rw [takeBoundedBuffer] at h
    split at h
    · rename_i j rest htake
      obtain ⟨rfl, rfl⟩ := Prod.mk.inj (Option.some.inj h)
      obtain ⟨heligible, hperm⟩ := takeEligible_eq_some htake
      exact ⟨size, is, rest, List.mem_cons_self, hperm, rfl, heligible⟩
    · obtain ⟨size', is', rest, hmem, hrest⟩ := ih h
      exact ⟨size', is', rest, List.mem_cons_of_mem _ hmem, hrest⟩

theorem takeBoundedBuffer_eq_none {eligible : Nat → Bool} {free : ExtTreeMap Nat (List Nat)}
    {bins : List (Nat × List Nat)} (h : takeBoundedBuffer eligible free bins = none) :
    ∀ bin ∈ bins, ∀ i ∈ bin.2, eligible i = false := by
  induction bins with
  | nil => simp
  | cons bin bins ih =>
    obtain ⟨size, is⟩ := bin
    rw [takeBoundedBuffer] at h
    split at h
    · cases h
    · rename_i htake
      rw [List.forall_mem_cons]
      exact ⟨takeEligible_eq_none htake, ih h⟩

/-! ## The invariant -/

/-- Blocks, addresses and free lists agree. -/
structure Sound (blocks : List Block) (owned : ExtTreeMap Nat Nat) (free : ExtTreeMap Nat (List Nat)) : Prop where
  slots : ∀ (i : Nat) b, blocks[i]? = some b → b.slot = i
  addresses : ∀ (p i : Nat), owned[p]? = some i ↔ ∃ b, blocks[i]? = some b ∧ b.data = p
  waiting : ∀ (size : Nat) is, free[size]? = some is →
    is.Nodup ∧ ∀ i ∈ is, ∃ b, blocks[i]? = some b ∧ b.live = false ∧ b.bytes = size
  listed : ∀ (i : Nat) b, blocks[i]? = some b → b.live = false → ∃ is, free[b.bytes]? = some is ∧ i ∈ is

section

variable {blocks : List Block} {owned : ExtTreeMap Nat Nat} {free : ExtTreeMap Nat (List Nat)} {i size : Nat} {b : Block}

/-- Two blocks at one address are one block. -/
theorem Sound.index_unique (h : Sound blocks owned free) {j : Nat} {b' : Block} (hb : blocks[i]? = some b)
    (hb' : blocks[j]? = some b') (hdata : b.data = b'.data) : i = j :=
  Option.some.inj (((h.addresses b.data i).mpr ⟨b, hb, rfl⟩).symm.trans ((h.addresses b.data j).mpr ⟨b', hb', hdata.symm⟩))

theorem getElem?_setLive {live : Bool} (hb : blocks[i]? = some b) {j : Nat} {b' : Block} :
    (blocks.set i { b with live := live })[j]? = some b' ↔
      (i = j ∧ b' = { b with live := live }) ∨ (i ≠ j ∧ blocks[j]? = some b') := by
  by_cases hij : i = j
  · subst hij
    rw [List.getElem?_set_self (List.getElem?_eq_some_iff.mp hb).1]
    simp [eq_comm]
  · rw [List.getElem?_set_ne hij]
    simp [hij]

theorem Sound.setLive_slots (h : Sound blocks owned free) {live : Bool} (hb : blocks[i]? = some b) :
    ∀ (j : Nat) b', (blocks.set i { b with live := live })[j]? = some b' → b'.slot = j := by
  intro j b' hb'
  rcases (getElem?_setLive hb).mp hb' with ⟨rfl, rfl⟩ | ⟨-, hb'⟩
  · exact h.slots i b hb
  · exact h.slots j b' hb'

theorem Sound.setLive_owned (h : Sound blocks owned free) {live : Bool} (hb : blocks[i]? = some b) :
    ∀ (p j : Nat), owned[p]? = some j ↔ ∃ b', (blocks.set i { b with live := live })[j]? = some b' ∧ b'.data = p := by
  intro p j
  rw [h.addresses]
  constructor
  · rintro ⟨b', hb', rfl⟩
    by_cases hij : i = j
    · subst hij
      obtain rfl := Option.some.inj (hb.symm.trans hb')
      exact ⟨_, (getElem?_setLive hb).mpr (.inl ⟨rfl, rfl⟩), rfl⟩
    · exact ⟨b', (getElem?_setLive hb).mpr (.inr ⟨hij, hb'⟩), rfl⟩
  · rintro ⟨b', hb', rfl⟩
    rcases (getElem?_setLive hb).mp hb' with ⟨rfl, rfl⟩ | ⟨-, hb'⟩
    · exact ⟨b, hb, rfl⟩
    · exact ⟨b', hb', rfl⟩

/-- A free block becomes live and leaves its free list. -/
theorem Sound.take (h : Sound blocks owned free) {is rest : List Nat} (hfree : free[size]? = some is)
    (hperm : is.Perm (i :: rest)) :
    ∃ b, blocks[i]? = some b ∧ b.live = false ∧ b.bytes = size ∧
      Sound (blocks.set i { b with live := true }) owned (free.insert size rest) := by
  obtain ⟨hnodup, hall⟩ := h.waiting size is hfree
  have hnodup' : i ∉ rest ∧ rest.Nodup := List.nodup_cons.mp (hperm.nodup hnodup)
  obtain ⟨b, hb, hlive, rfl⟩ := hall i (hperm.mem_iff.mpr List.mem_cons_self)
  refine ⟨b, hb, hlive, rfl, h.setLive_slots hb, h.setLive_owned hb, ?_, ?_⟩
  · intro size' is' his'
    -- The numbers left in the lists are not the one taken.
    have hkeep : ∀ j ∈ is', j ≠ i → (∃ b', blocks[j]? = some b' ∧ b'.live = false ∧ b'.bytes = size') →
        ∃ b', (blocks.set i { b with live := true })[j]? = some b' ∧ b'.live = false ∧ b'.bytes = size' := by
      rintro j - hne ⟨b', hb', hrest⟩
      exact ⟨b', (getElem?_setLive hb).mpr (.inr ⟨hne.symm, hb'⟩), hrest⟩
    rcases ExtTreeMap.getElem?_insert_eq_some.mp his' with ⟨rfl, rfl⟩ | ⟨hsize, his'⟩
    · refine ⟨hnodup'.2, fun j hj => hkeep j hj (fun heq => hnodup'.1 (heq ▸ hj)) ?_⟩
      exact hall j (hperm.mem_iff.mpr (List.mem_cons_of_mem _ hj))
    · obtain ⟨hnodup₂, hall₂⟩ := h.waiting size' is' his'
      refine ⟨hnodup₂, fun j hj => hkeep j hj ?_ (hall₂ j hj)⟩
      rintro rfl
      obtain ⟨b', hb', -, hbytes⟩ := hall₂ j hj
      obtain rfl := Option.some.inj (hb.symm.trans hb')
      exact hsize hbytes
  · intro j b' hb' hlive'
    rcases (getElem?_setLive hb).mp hb' with ⟨rfl, rfl⟩ | ⟨hij, hb'⟩
    · cases hlive'
    obtain ⟨is', his', hj⟩ := h.listed j b' hb' hlive'
    by_cases hsize : b.bytes = b'.bytes
    · rw [hsize] at hfree ⊢
      obtain rfl := Option.some.inj (hfree.symm.trans his')
      have hmem := (List.mem_cons.mp (hperm.mem_iff.mp hj)).resolve_left fun heq => hij heq.symm
      exact ⟨rest, ExtTreeMap.getElem?_insert_self, hmem⟩
    · exact ⟨is', (ExtTreeMap.getElem?_insert_ne hsize).trans his', hj⟩

/-- A live block goes back to the free list of its size. -/
theorem Sound.give (h : Sound blocks owned free) (hb : blocks[i]? = some b) (hlive : b.live = true) :
    Sound (blocks.set i { b with live := false }) owned
      (free.insert b.bytes (i :: free.getD b.bytes [])) := by
  refine ⟨h.setLive_slots hb, h.setLive_owned hb, ?_, ?_⟩
  · intro size' is' his'
    -- A live block is in no list yet.
    have hkeep : ∀ is, free[size']? = some is → is.Nodup ∧ i ∉ is ∧ ∀ j ∈ is, ∃ b',
        (blocks.set i { b with live := false })[j]? = some b' ∧ b'.live = false ∧ b'.bytes = size' := by
      intro is his
      obtain ⟨hnodup, hall⟩ := h.waiting size' is his
      have hnew : i ∉ is := by
        intro hi
        obtain ⟨b', hb', hfree, -⟩ := hall i hi
        obtain rfl := Option.some.inj (hb.symm.trans hb')
        exact Bool.false_ne_true (hfree.symm.trans hlive)
      refine ⟨hnodup, hnew, fun j hj => ?_⟩
      obtain ⟨b', hb', hrest⟩ := hall j hj
      exact ⟨b', (getElem?_setLive hb).mpr (.inr ⟨fun heq => hnew (heq ▸ hj), hb'⟩), hrest⟩
    have hself : (blocks.set i { b with live := false })[i]? = some { b with live := false } :=
      (getElem?_setLive hb).mpr (.inl ⟨rfl, rfl⟩)
    rcases ExtTreeMap.getElem?_insert_eq_some.mp his' with ⟨rfl, rfl⟩ | ⟨hsize, his'⟩
    · cases hold : free[b.bytes]? with
      | none =>
        rw [ExtTreeMap.getD_eq_getD_getElem?, hold, Option.getD_none]
        refine ⟨List.nodup_singleton i, fun j hj => ?_⟩
        obtain rfl := List.mem_singleton.mp hj
        exact ⟨_, hself, rfl, rfl⟩
      | some is =>
        rw [ExtTreeMap.getD_eq_getD_getElem?, hold, Option.getD_some]
        obtain ⟨hnodup, hnew, hall⟩ := hkeep is hold
        refine ⟨List.nodup_cons.mpr ⟨hnew, hnodup⟩, List.forall_mem_cons.mpr ⟨⟨_, hself, rfl, rfl⟩, hall⟩⟩
    · obtain ⟨hnodup, -, hall⟩ := hkeep is' his'
      exact ⟨hnodup, hall⟩
  · intro j b' hb' hlive'
    rcases (getElem?_setLive hb).mp hb' with ⟨rfl, rfl⟩ | ⟨hij, hb'⟩
    · exact ⟨_, ExtTreeMap.getElem?_insert_self, List.mem_cons_self⟩
    obtain ⟨is', his', hj⟩ := h.listed j b' hb' hlive'
    by_cases hsize : b.bytes = b'.bytes
    · rw [← hsize] at his' ⊢
      refine ⟨_, ExtTreeMap.getElem?_insert_self, List.mem_cons_of_mem _ ?_⟩
      rw [ExtTreeMap.getD_eq_getD_getElem?, his', Option.getD_some]
      exact hj
    · exact ⟨is', (ExtTreeMap.getElem?_insert_ne hsize).trans his', hj⟩

theorem getElem?_join {j : Nat} {b' : Block} :
    (blocks ++ [b])[j]? = some b' ↔ blocks[j]? = some b' ∨ (j = blocks.length ∧ b' = b) := by
  rcases Nat.lt_trichotomy j blocks.length with hlt | rfl | hgt
  · rw [List.getElem?_append_left hlt]
    simp [hlt.ne]
  · rw [List.getElem?_append_right (Nat.le_refl _), Nat.sub_self, List.getElem?_eq_none (Nat.le_refl _)]
    simp [eq_comm]
  · rw [List.getElem?_eq_none (by simp; omega), List.getElem?_eq_none hgt.le]
    simp [hgt.ne']

/-- A block at a fresh address joins, live. -/
theorem Sound.join (h : Sound blocks owned free) {pointer bytes : Nat} (hfresh : ∀ b ∈ blocks, b.data ≠ pointer) :
    Sound (blocks ++ [⟨pointer, bytes, true, blocks.length⟩]) (owned.insertIfNew pointer blocks.length) free := by
  have hnew : pointer ∉ owned := by
    intro hmem
    obtain ⟨i, hi⟩ := Option.isSome_iff_exists.mp (ExtTreeMap.isSome_getElem?_iff_mem.mpr hmem)
    obtain ⟨b, hb, hdata⟩ := (h.addresses pointer i).mp hi
    exact hfresh b (List.mem_of_getElem? hb) hdata
  refine ⟨?_, ?_, ?_, ?_⟩
  · intro j b' hb'
    rcases getElem?_join.mp hb' with hb' | ⟨rfl, rfl⟩
    · exact h.slots j b' hb'
    · rfl
  · intro p j
    rw [ExtTreeMap.getElem?_insertIfNew]
    by_cases hp : pointer = p
    · subst hp
      rw [if_pos ⟨compare_self, hnew⟩]
      constructor
      · rintro hj
        exact ⟨_, getElem?_join.mpr (.inr ⟨(Option.some.inj hj).symm, rfl⟩), rfl⟩
      · rintro ⟨b', hb', hdata⟩
        rcases getElem?_join.mp hb' with hb' | ⟨rfl, -⟩
        · exact absurd hdata (hfresh b' (List.mem_of_getElem? hb'))
        · rfl
    · rw [if_neg fun hboth => hp (Std.compare_eq_iff_eq.mp hboth.1), h.addresses]
      constructor
      · rintro ⟨b', hb', hdata⟩
        exact ⟨b', getElem?_join.mpr (.inl hb'), hdata⟩
      · rintro ⟨b', hb', hdata⟩
        rcases getElem?_join.mp hb' with hb' | ⟨-, rfl⟩
        · exact ⟨b', hb', hdata⟩
        · exact absurd hdata hp
  · intro size is his
    obtain ⟨hnodup, hall⟩ := h.waiting size is his
    refine ⟨hnodup, fun j hj => ?_⟩
    obtain ⟨b', hb', hrest⟩ := hall j hj
    exact ⟨b', getElem?_join.mpr (.inl hb'), hrest⟩
  · intro j b' hb' hlive
    rcases getElem?_join.mp hb' with hb' | ⟨-, rfl⟩
    · exact h.listed j b' hb' hlive
    · cases hlive

end

end Inferfabric.Native.Prepared
