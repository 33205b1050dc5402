-- SUMMARY: Rounding to the nearest integer with ties away from zero, by way of truncation.
import Mathlib

/-!
# Rounding away from zero

A conversion to an integer cuts the fraction off. Adding a half with the sign of the
number before it rounds to the nearest integer.
-/

namespace Rounding

variable {α : Type} [Field α] [LinearOrder α] [IsStrictOrderedRing α] [FloorRing α]

/-- Towards zero. -/
def truncate (x : α) : Int := if 0 ≤ x then ⌊x⌋ else ⌈x⌉

/-- To the nearest integer, ties away from zero. -/
def nearest (x : α) : Int := truncate (x + if 0 ≤ x then 1 / 2 else -(1 / 2))

theorem nearest_of_nonneg {x : α} (hx : 0 ≤ x) : nearest x = ⌊x + 1 / 2⌋ := by
  have hhalf : 0 ≤ x + 1 / 2 := by linarith
  rw [nearest, if_pos hx, truncate, if_pos hhalf]

theorem nearest_of_neg {x : α} (hx : x < 0) : nearest x = ⌈x - 1 / 2⌉ := by
  have hhalf : ¬0 ≤ x + -(1 / 2) := by linarith
  rw [nearest, if_neg (not_le.mpr hx), truncate, if_neg hhalf, sub_eq_add_neg]

/-- Rounding moves a number by at most a half. -/
theorem abs_nearest_sub (x : α) : |(nearest x : α) - x| ≤ 1 / 2 := by
  rw [abs_le]
  rcases le_or_gt 0 x with hx | hx
  · rw [nearest_of_nonneg hx]
    have hle := Int.floor_le (x + 1 / 2)
    have hlt := Int.lt_floor_add_one (x + 1 / 2)
    constructor <;> linarith
  · rw [nearest_of_neg hx]
    have hle := Int.le_ceil (x - 1 / 2)
    have hlt := Int.ceil_lt_add_one (x - 1 / 2)
    constructor <;> linarith

/-- An integer is rounded to itself. -/
@[simp] theorem nearest_intCast (n : Int) : nearest (n : α) = n := by
  rcases le_or_gt 0 (n : α) with hn | hn
  · rw [nearest_of_nonneg hn, Int.floor_eq_iff]
    constructor <;> linarith
  · rw [nearest_of_neg hn, Int.ceil_eq_iff]
    constructor <;> linarith

/-- Rounding does not pass an integer. -/
theorem abs_nearest_le {x : α} {n : Int} (h : |x| ≤ n) : |nearest x| ≤ n := by
  obtain ⟨hlow, hhigh⟩ := abs_le.mp h
  have herror := abs_le.mp (abs_nearest_sub x)
  have hlow' : (-(n + 1) : α) < nearest x := by linarith
  have hhigh' : (nearest x : α) < n + 1 := by linarith
  have hlow'' : -(n + 1) < nearest x := by exact_mod_cast hlow'
  have hhigh'' : nearest x < n + 1 := by exact_mod_cast hhigh'
  rw [abs_le]
  omega

end Rounding
