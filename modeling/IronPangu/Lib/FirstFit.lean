-- SUMMARY: First-fit placement of values that must not share storage, and what every arena built so satisfies.
import Mathlib

/-!
# First fit

Values are placed one after another in an arena. A value goes to the first gap
between the blocks it must not share storage with; all other blocks are ignored.
Which values conflict, and how large they are, is left to the user.
-/

namespace FirstFit

/-! ## One placement -/

structure Block where
  offset : Nat
  size : Nat
  deriving DecidableEq, Repr

def Block.stop (b : Block) : Nat := b.offset + b.size

def Block.Disjoint (a b : Block) : Prop := a.stop ≤ b.offset ∨ b.stop ≤ a.offset

theorem Block.Disjoint.symm {a b : Block} (h : a.Disjoint b) : b.Disjoint a :=
  Or.symm h

/-- The first gap of the size, not before `offset`, between blocks ordered by their offsets. -/
def fit (size : Nat) : Nat → List Block → Nat
  | offset, [] => offset
  | offset, b :: bs => if offset + size ≤ b.offset then offset else fit size (max offset b.stop) bs

section

variable {size start k : Nat} {b : Block} {bs : List Block}

theorem le_fit : start ≤ fit size start bs := by
  induction bs generalizing start with
  | nil => exact Nat.le_refl start
  | cons b bs ih =>
    rw [fit]
    split
    · exact Nat.le_refl start
    · exact (Nat.le_max_left start b.stop).trans ih

/-- The gap is free. -/
theorem fit_disjoint (hsorted : bs.Pairwise (·.offset ≤ ·.offset)) (hb : b ∈ bs) :
    b.Disjoint ⟨fit size start bs, size⟩ := by
  induction bs generalizing start with
  | nil => cases hb
  | cons c bs ih =>
    rw [List.pairwise_cons] at hsorted
    rw [fit]
    split
    · -- Every later block starts after the one the gap ends before.
      rename_i hgap
      have hle : c.offset ≤ b.offset := by
        cases hb with
        | head => exact Nat.le_refl _
        | tail _ hb => exact hsorted.1 b hb
      exact Or.inr (hgap.trans hle)
    · cases hb with
      | head => exact Or.inl ((Nat.le_max_right _ _).trans le_fit)
      | tail _ hb => exact ih hsorted.2 hb

/-- Nothing is skipped for nothing: the gap starts where a block stops. -/
theorem fit_eq : fit size start bs = start ∨ ∃ b ∈ bs, fit size start bs = b.stop := by
  induction bs generalizing start with
  | nil => exact Or.inl rfl
  | cons b bs ih =>
    rw [fit]
    split
    · exact Or.inl rfl
    · rcases @ih (max start b.stop) with heq | ⟨c, hc, heq⟩
      · rcases Nat.le_total start b.stop with hle | hle
        · exact Or.inr ⟨b, List.mem_cons_self, heq.trans (Nat.max_eq_right hle)⟩
        · exact Or.inl (heq.trans (Nat.max_eq_left hle))
      · exact Or.inr ⟨c, List.mem_cons_of_mem b hc, heq⟩

theorem fit_le {n : Nat} (hstart : start ≤ n) (hbs : ∀ b ∈ bs, b.stop ≤ n) : fit size start bs ≤ n := by
  rcases @fit_eq size start bs with heq | ⟨b, hb, heq⟩
  · exact heq.trans_le hstart
  · exact heq.trans_le (hbs b hb)

theorem dvd_fit (hstart : k ∣ start) (hbs : ∀ b ∈ bs, k ∣ b.stop) : k ∣ fit size start bs := by
  rcases @fit_eq size start bs with heq | ⟨b, hb, heq⟩
  · exact heq.symm ▸ hstart
  · exact heq.symm ▸ hbs b hb

end

/-! ## Arenas -/

/-- The values placed so far with their offsets, in order, and the bytes they need. -/
structure Arena (ι : Type) where
  placed : List (ι × Nat)
  bytes : Nat

section

variable {ι : Type} (size : ι → Nat) (conflict : ι → ι → Prop) [DecidableRel conflict]

def block (p : ι × Nat) : Block := ⟨p.2, size p.1⟩

namespace Arena

def empty : Arena ι := ⟨[], 0⟩

/-- The values that `i` must not share storage with, in the order of their offsets. -/
def against (a : Arena ι) (i : ι) : List (ι × Nat) :=
  (a.placed.filter fun p => conflict i p.1).insertionSort fun p q => p.2 ≤ q.2

def offset (a : Arena ι) (i : ι) : Nat :=
  fit (size i) 0 ((a.against conflict i).map (block size))

def place (a : Arena ι) (i : ι) : Arena ι :=
  ⟨a.placed ++ [(i, a.offset size conflict i)], max a.bytes (a.offset size conflict i + size i)⟩

def placeAll (is : List ι) (a : Arena ι) : Arena ι := is.foldl (place size conflict) a

/-- What holds of every arena that first fit builds. -/
structure Sound (a : Arena ι) : Prop where
  disjoint : a.placed.Pairwise fun p q => conflict q.1 p.1 → (block size p).Disjoint (block size q)
  within : ∀ p ∈ a.placed, (block size p).stop ≤ a.bytes
  total : a.bytes ≤ (a.placed.map fun p => size p.1).sum

/-- The offsets and the arena keep an alignment that all the sizes have. -/
structure Aligned (k : Nat) (a : Arena ι) : Prop where
  offsets : ∀ p ∈ a.placed, k ∣ p.2
  bytes : k ∣ a.bytes

end Arena

variable {size conflict} {a : Arena ι} {i : ι} {is : List ι} {k : Nat}

theorem mem_against {p : ι × Nat} : p ∈ a.against conflict i ↔ p ∈ a.placed ∧ conflict i p.1 := by
  simp [Arena.against]

theorem against_sorted : (a.against conflict i).Pairwise fun p q => p.2 ≤ q.2 := by
  have : Std.Total fun p q : ι × Nat => p.2 ≤ q.2 := ⟨fun p q => Nat.le_total p.2 q.2⟩
  have : IsTrans (ι × Nat) fun p q => p.2 ≤ q.2 := ⟨fun _ _ _ => Nat.le_trans⟩
  exact List.pairwise_insertionSort _ _

theorem placed_placeAll : (a.placeAll size conflict is).placed.map Prod.fst = a.placed.map Prod.fst ++ is := by
  induction is generalizing a with
  | nil => exact (List.append_nil _).symm
  | cons i is ih =>
    have hstep : (a.place size conflict i).placed.map Prod.fst = a.placed.map Prod.fst ++ [i] := by
      rw [Arena.place, List.map_append, List.map_singleton]
    rw [Arena.placeAll, List.foldl_cons]
    exact ih.trans (by rw [hstep, List.append_assoc, List.singleton_append])

theorem bytes_le_placeAll : a.bytes ≤ (a.placeAll size conflict is).bytes := by
  induction is generalizing a with
  | nil => exact Nat.le_refl _
  | cons i is ih => exact (Nat.le_max_left _ _).trans (@ih (a.place size conflict i))

namespace Arena.Sound

omit [DecidableRel conflict] in
theorem empty : Sound size conflict (Arena.empty : Arena ι) where
  disjoint := List.Pairwise.nil
  within := nofun
  total := Nat.le_refl 0

/-- A value is placed inside what the arena already has, or right behind it. -/
theorem offset_le (h : Sound size conflict a) : a.offset size conflict i ≤ a.bytes := by
  apply fit_le (Nat.zero_le _)
  intro b hb
  obtain ⟨p, hp, rfl⟩ := List.mem_map.mp hb
  exact h.within p (mem_against.mp hp).1

theorem place (h : Sound size conflict a) (i : ι) : Sound size conflict (a.place size conflict i) where
  disjoint := by
    rw [Arena.place, List.pairwise_append]
    refine ⟨h.disjoint, List.pairwise_singleton _ _, ?_⟩
    intro p hp q hq hconflict
    obtain rfl := List.mem_singleton.mp hq
    have hmem : block size p ∈ (a.against conflict i).map (block size) :=
      List.mem_map_of_mem (mem_against.mpr ⟨hp, hconflict⟩)
    have hsorted : ((a.against conflict i).map (block size)).Pairwise (·.offset ≤ ·.offset) :=
      List.pairwise_map.mpr against_sorted
    exact fit_disjoint hsorted hmem
  within := by
    intro p hp
    rcases List.mem_append.mp hp with hp | hp
    · exact (h.within p hp).trans (Nat.le_max_left _ _)
    · obtain rfl := List.mem_singleton.mp hp
      exact Nat.le_max_right _ _
  total := by
    have hoffset : a.offset size conflict i ≤ a.bytes := h.offset_le
    have htotal := h.total
    rw [Arena.place, List.map_append, List.sum_append, List.map_singleton, List.sum_singleton]
    exact max_le (htotal.trans (Nat.le_add_right _ _)) (Nat.add_le_add (hoffset.trans htotal) (Nat.le_refl _))

theorem placeAll (h : Sound size conflict a) (is : List ι) : Sound size conflict (a.placeAll size conflict is) := by
  induction is generalizing a with
  | nil => exact h
  | cons i is ih => exact ih (h.place i)

end Arena.Sound

namespace Arena.Aligned

theorem empty : Aligned k (Arena.empty : Arena ι) where
  offsets := nofun
  bytes := Nat.dvd_zero k

theorem dvd_offset (h : Aligned k a) (hsize : ∀ p ∈ a.placed, k ∣ size p.1) (i : ι) :
    k ∣ a.offset size conflict i := by
  apply dvd_fit (Nat.dvd_zero k)
  intro b hb
  obtain ⟨p, hp, rfl⟩ := List.mem_map.mp hb
  have hplaced := (mem_against.mp hp).1
  exact Nat.dvd_add (h.offsets p hplaced) (hsize p hplaced)

theorem place (h : Aligned k a) (hsize : ∀ i, k ∣ size i) (i : ι) : Aligned k (a.place size conflict i) where
  offsets := by
    intro p hp
    rcases List.mem_append.mp hp with hp | hp
    · exact h.offsets p hp
    · obtain rfl := List.mem_singleton.mp hp
      exact h.dvd_offset (fun p _ => hsize p.1) i
  bytes := by
    have hend : k ∣ a.offset size conflict i + size i :=
      Nat.dvd_add (h.dvd_offset (fun p _ => hsize p.1) i) (hsize i)
    rcases Nat.le_total a.bytes (a.offset size conflict i + size i) with hle | hle
    · rw [Arena.place, Nat.max_eq_right hle]
      exact hend
    · rw [Arena.place, Nat.max_eq_left hle]
      exact h.bytes

theorem placeAll (h : Aligned k a) (hsize : ∀ i, k ∣ size i) (is : List ι) :
    Aligned k (a.placeAll size conflict is) := by
  induction is generalizing a with
  | nil => exact h
  | cons i is ih => exact ih (h.place hsize i)

end Arena.Aligned

end

end FirstFit
