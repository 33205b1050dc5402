-- SUMMARY: Ranges that tile an interval: a walk over the sorted ranges succeeds exactly for the tilings.
import Mathlib

/-!
# Tilings

A range goes from its first number to its second, the second not included. The
nonempty ranges of a tiling partition an interval, and its empty ranges lie on
boundaries. Ranges given in any order tile an interval exactly when, sorted, each
begins where the one before it stops.
-/

namespace Tiling

/-- Ranges in the order of their starts, and of their stops where they start alike. -/
def le (r s : Nat × Nat) : Prop := r.1 < s.1 ∨ r.1 = s.1 ∧ r.2 ≤ s.2

instance : DecidableRel le := fun r s => inferInstanceAs (Decidable (r.1 < s.1 ∨ r.1 = s.1 ∧ r.2 ≤ s.2))

instance : Std.Total le where
  total r s := by
    unfold le
    omega

instance : IsTrans (Nat × Nat) le where
  trans r s t := by
    unfold le
    omega

def walk : Nat → List (Nat × Nat) → Option Nat
  | cursor, [] => some cursor
  | cursor, (start, stop) :: ranges => if start ≠ cursor then none else walk stop ranges

/-- The ranges tile the numbers from `first` to `last`. -/
structure Tiles (ranges : List (Nat × Nat)) (first last : Nat) : Prop where
  ordered : first ≤ last
  inside : ∀ r ∈ ranges, r.1 < r.2 → first ≤ r.1 ∧ r.2 ≤ last
  apart : ranges.Pairwise fun r s => r.1 < r.2 → s.1 < s.2 → r.2 ≤ s.1 ∨ s.2 ≤ r.1
  covers : ∀ x, first ≤ x → x < last → ∃ r ∈ ranges, r.1 ≤ x ∧ x < r.2
  boundary : ∀ r ∈ ranges, r.1 = r.2 → r.1 = first ∨ ∃ s ∈ ranges, s.1 < s.2 ∧ s.2 = r.1

variable {ranges ranges' : List (Nat × Nat)} {r : Nat × Nat} {first last : Nat}

theorem Tiles.perm (h : Tiles ranges first last) (hperm : ranges.Perm ranges') : Tiles ranges' first last where
  ordered := h.ordered
  inside r hr := h.inside r (hperm.mem_iff.mpr hr)
  apart := by
    refine (hperm.pairwise_iff fun {r s} hrs hs hr => ?_).mp h.apart
    exact (hrs hr hs).symm
  covers x hle hlt := by
    obtain ⟨r, hr, hx⟩ := h.covers x hle hlt
    exact ⟨r, hperm.mem_iff.mp hr, hx⟩
  boundary r hr hempty := by
    refine (h.boundary r (hperm.mem_iff.mpr hr) hempty).imp_right ?_
    rintro ⟨s, hs, hstop⟩
    exact ⟨s, hperm.mem_iff.mp hs, hstop⟩

/-- No range reaches past the end. -/
theorem Tiles.stop_le (h : Tiles ranges first last) (hr : r ∈ ranges) (hvalid : r.1 ≤ r.2) : r.2 ≤ last := by
  rcases Nat.lt_or_eq_of_le hvalid with hlt | hempty
  · exact (h.inside r hr hlt).2
  · rcases h.boundary r hr hempty with hfirst | ⟨s, hs, hlt, hstop⟩
    · rw [← hempty, hfirst]
      exact h.ordered
    · rw [← hempty, ← hstop]
      exact (h.inside s hs hlt).2

/-- A range that starts first, before the tiling of the rest. -/
theorem Tiles.cons (hvalid : first ≤ r.2) (hfirst : r.1 = first) (h : Tiles ranges r.2 last) :
    Tiles (r :: ranges) first last where
  ordered := hvalid.trans h.ordered
  inside := by
    refine List.forall_mem_cons.mpr ⟨fun _ => ⟨hfirst.ge, h.ordered⟩, fun s hs hlt => ?_⟩
    obtain ⟨hle, hstop⟩ := h.inside s hs hlt
    exact ⟨hvalid.trans hle, hstop⟩
  apart := List.pairwise_cons.mpr ⟨fun s hs _ hlt => .inl (h.inside s hs hlt).1, h.apart⟩
  covers x hle hlt := by
    rcases Nat.lt_or_ge x r.2 with hx | hx
    · exact ⟨r, List.mem_cons_self, by omega, hx⟩
    · obtain ⟨s, hs, hcovers⟩ := h.covers x hx hlt
      exact ⟨s, List.mem_cons_of_mem _ hs, hcovers⟩
  boundary := by
    refine List.forall_mem_cons.mpr ⟨fun _ => .inl hfirst, fun s hs hempty => ?_⟩
    rcases h.boundary s hs hempty with hstop | ⟨t, ht, hlt, hstop⟩
    · rcases Nat.lt_or_eq_of_le hvalid with hlt | hsame
      · exact .inr ⟨r, List.mem_cons_self, by omega, hstop.symm⟩
      · exact .inl (hstop.trans hsame.symm)
    · exact .inr ⟨t, List.mem_cons_of_mem _ ht, hlt, hstop⟩

/-- The first of the sorted ranges begins the tiling, and the others tile what it leaves. -/
theorem Tiles.uncons (h : Tiles (r :: ranges) first last) (hvalid : r.1 ≤ r.2)
    (hleast : ∀ s ∈ ranges, le r s) : r.1 = first ∧ Tiles ranges r.2 last := by
  have hstart : ∀ s ∈ ranges, r.1 ≤ s.1 := by
    intro s hs
    have hle := hleast s hs
    unfold le at hle
    omega
  have hfirst : r.1 = first := by
    rcases Nat.lt_or_eq_of_le hvalid with hlt | hempty
    · obtain ⟨hle, hstop⟩ := h.inside r List.mem_cons_self hlt
      by_contra hne
      -- Nothing covers the first number.
      obtain ⟨s, hs, hcovers, -⟩ := h.covers first le_rfl (by omega)
      rcases List.mem_cons.mp hs with rfl | hs
      · omega
      · have := hstart s hs
        omega
    · rcases h.boundary r List.mem_cons_self hempty with hfirst | ⟨s, hs, hlt, hstop⟩
      · exact hfirst
      · rcases List.mem_cons.mp hs with rfl | hs
        · omega
        · have := hstart s hs
          omega
  have hrest : ∀ s ∈ ranges, s.1 < s.2 → r.2 ≤ s.1 := by
    intro s hs hlt
    rcases Nat.lt_or_eq_of_le hvalid with hnonempty | hempty
    · rcases (List.pairwise_cons.mp h.apart).1 s hs hnonempty hlt with hbefore | hafter
      · exact hbefore
      · have := hstart s hs
        omega
    · exact hempty ▸ hstart s hs
  refine ⟨hfirst, h.stop_le List.mem_cons_self hvalid, fun s hs hlt => ?_, (List.pairwise_cons.mp h.apart).2, ?_, ?_⟩
  · exact ⟨hrest s hs hlt, (h.inside s (List.mem_cons_of_mem _ hs) hlt).2⟩
  · intro x hle hlt
    obtain ⟨s, hs, hcovers⟩ := h.covers x (by omega) hlt
    rcases List.mem_cons.mp hs with rfl | hs
    · omega
    · exact ⟨s, hs, hcovers⟩
  · intro s hs hempty
    rcases h.boundary s (List.mem_cons_of_mem _ hs) hempty with hsame | ⟨t, ht, hlt, hstop⟩
    · -- An empty range at the start sorts before a nonempty one.
      have hle := hleast s hs
      unfold le at hle
      exact .inl (by omega)
    · rcases List.mem_cons.mp ht with rfl | ht
      · exact .inl hstop.symm
      · exact .inr ⟨t, ht, hlt, hstop⟩

theorem walk_eq_some (hvalid : ∀ r ∈ ranges, r.1 ≤ r.2) (hsorted : ranges.Pairwise le) :
    walk first ranges = some last ↔ Tiles ranges first last := by
  induction ranges generalizing first with
  | nil =>
    simp only [walk, Option.some.injEq]
    constructor
    · rintro rfl
      exact ⟨le_rfl, by simp, .nil, fun x hle hlt => absurd hlt (not_lt.mpr hle), by simp⟩
    · intro h
      by_contra hne
      obtain ⟨r, hr, -⟩ := h.covers first le_rfl (lt_of_le_of_ne h.ordered hne)
      cases hr
  | cons r ranges ih =>
    obtain ⟨hr, hall⟩ := List.forall_mem_cons.mp hvalid
    obtain ⟨hleast, hsorted⟩ := List.pairwise_cons.mp hsorted
    rw [walk]
    constructor
    · intro h
      split at h
      · cases h
      · rename_i hfirst
        rw [not_not] at hfirst
        exact .cons (hfirst ▸ hr) hfirst ((ih hall hsorted).mp h)
    · intro h
      obtain ⟨hfirst, hrest⟩ := h.uncons hr hleast
      rw [if_neg (not_not.mpr hfirst)]
      exact (ih hall hsorted).mpr hrest

/-- The walk over the sorted ranges succeeds exactly for the tilings. -/
theorem walk_insertionSort (hvalid : ∀ r ∈ ranges, r.1 ≤ r.2) :
    walk first (ranges.insertionSort le) = some last ↔ Tiles ranges first last := by
  have hperm := List.perm_insertionSort le ranges
  rw [walk_eq_some (fun r hr => hvalid r (hperm.mem_iff.mp hr)) (List.pairwise_insertionSort le ranges)]
  exact ⟨fun h => h.perm hperm, fun h => h.perm hperm.symm⟩

/-- A tiling may be moved. -/
theorem tiles_shift {base : Nat} :
    Tiles (ranges.map fun r => (base + r.1, base + r.2)) (base + first) (base + last) ↔ Tiles ranges first last := by
  constructor
  · intro h
    refine ⟨by simpa using h.ordered, fun r hr hlt => ?_, ?_, fun x hle hlt => ?_, fun r hr hempty => ?_⟩
    · obtain ⟨hle, hstop⟩ := h.inside _ (List.mem_map_of_mem hr) (by omega)
      dsimp only at hle hstop
      omega
    · refine (List.pairwise_map.mp h.apart).imp fun {r s} hrs hr hs => ?_
      have := hrs (by omega) (by omega)
      omega
    · obtain ⟨_, hs, hcovers⟩ := h.covers (base + x) (by omega) (by omega)
      obtain ⟨s, hs', rfl⟩ := List.mem_map.mp hs
      exact ⟨s, hs', by omega, by omega⟩
    · rcases h.boundary _ (List.mem_map_of_mem hr) (by omega) with hfirst | ⟨_, hs, hlt, hstop⟩
      · exact .inl (by omega)
      · obtain ⟨s, hs', rfl⟩ := List.mem_map.mp hs
        exact .inr ⟨s, hs', by omega, by omega⟩
  · intro h
    refine ⟨by simpa using h.ordered, ?_, ?_, fun x hle hlt => ?_, ?_⟩
    · intro _ hr hlt
      obtain ⟨r, hr', rfl⟩ := List.mem_map.mp hr
      have := h.inside r hr' (by omega)
      dsimp only
      omega
    · refine List.pairwise_map.mpr (h.apart.imp fun {r s} hrs hr hs => ?_)
      have := hrs (by omega) (by omega)
      omega
    · obtain ⟨s, hs, hcovers⟩ := h.covers (x - base) (by omega) (by omega)
      exact ⟨_, List.mem_map_of_mem hs, by omega, by omega⟩
    · intro _ hr hempty
      obtain ⟨r, hr', rfl⟩ := List.mem_map.mp hr
      rcases h.boundary r hr' (by omega) with hfirst | ⟨s, hs, hlt, hstop⟩
      · exact .inl (by omega)
      · exact .inr ⟨_, List.mem_map_of_mem hs, by omega, by omega⟩

end Tiling
