-- SUMMARY: The checkpoint boundary in machine arithmetic: the largest cut before the last token that splits no forward.
import IronPangu.ProgramWorker.Cached

open Rust

/-!
# The checkpoint boundary

A prompt is published at a point that is a whole number of chunks and of pages, so
that the forwards before it and after it are those of the uncut prompt.
-/

namespace Inferfabric.ProgramWorker

open Ir

/-! ## The code -/

/-- `while b!=0 {..}`, with what `a` is afterwards. The remainder is never taken by zero. -/
def euclid (a b : Nat) : Nat :=
  if b = 0 then a else euclid b (a % b)
termination_by b
decreasing_by exact Nat.mod_lt a (Nat.pos_of_ne_zero ‹_›)

/-- `uncaptured_checkpoint_boundary` on `u32`, with its products in `u64`. -/
def uncapturedCheckpointBoundaryU32 (tokens alignment chunk : Nat) : Result Nat := do
  let factor ← Outcome.div alignment (euclid alignment chunk)
  let alignedChunk ← Outcome.unwrap (checkedMul u64Max factor chunk)
  let count ← Outcome.div (tokens - 1) alignedChunk
  let point ← Outcome.unwrap (checkedMul u64Max count alignedChunk)
  -- `as u32`
  .ok (point % (u32Max + 1))

section
variable {tokens alignment chunk : Nat}

theorem euclid_eq_gcd (a b : Nat) : euclid a b = Nat.gcd a b := by
  induction a, b using euclid.induct with
  | case1 a => simp [euclid]
  | case2 a b hb ih => rw [euclid, if_neg hb, ih, Nat.gcd_comm, ← Nat.gcd_rec, Nat.gcd_comm]

theorem div_gcd_mul (a b : Nat) : a / Nat.gcd a b * b = Nat.lcm a b := by
  rw [Nat.lcm, Nat.mul_comm a b, Nat.mul_div_assoc b (Nat.gcd_dvd_left a b), Nat.mul_comm]

/-- Nothing overflows and nothing is divided by zero. -/
theorem uncapturedCheckpointBoundaryU32_eq_ok (halignment : 1 ≤ alignment) (halignment' : alignment ≤ u32Max)
    (hchunk : 1 ≤ chunk) (hchunk' : chunk ≤ u32Max) (htokens : tokens ≤ u32Max) :
    uncapturedCheckpointBoundaryU32 tokens alignment chunk = .ok (uncapturedCheckpointBoundary tokens alignment chunk) := by
  have hgcd : 0 < Nat.gcd alignment chunk := Nat.gcd_pos_of_pos_left chunk halignment
  have hlcm : 0 < Nat.lcm alignment chunk := Nat.lcm_pos halignment hchunk
  have hproduct : Nat.lcm alignment chunk ≤ u64Max := by
    calc Nat.lcm alignment chunk ≤ alignment * chunk := Nat.div_le_self _ _
      _ ≤ u32Max * u32Max := Nat.mul_le_mul halignment' hchunk'
      _ ≤ u64Max := by decide
  have hpoint : (tokens - 1) / Nat.lcm alignment chunk * Nat.lcm alignment chunk ≤ tokens - 1 := Nat.div_mul_le_self _ _
  have hwide : (tokens - 1) / Nat.lcm alignment chunk * Nat.lcm alignment chunk ≤ u64Max := by
    simp only [u32Max, u64Max] at htokens ⊢
    omega
  have hnarrow : (tokens - 1) / Nat.lcm alignment chunk * Nat.lcm alignment chunk < u32Max + 1 := by omega
  have hfactor : checkedMul u64Max (alignment / Nat.gcd alignment chunk) chunk = some (Nat.lcm alignment chunk) :=
    checkedMul_eq_some.mpr ⟨(div_gcd_mul alignment chunk).trans_le hproduct, div_gcd_mul alignment chunk⟩
  have hcount : checkedMul u64Max ((tokens - 1) / Nat.lcm alignment chunk) (Nat.lcm alignment chunk) =
      some ((tokens - 1) / Nat.lcm alignment chunk * Nat.lcm alignment chunk) := checkedMul_eq_some.mpr ⟨hwide, rfl⟩
  simp only [uncapturedCheckpointBoundaryU32, euclid_eq_gcd, Outcome.div_pos hgcd, Outcome.ok_bind, hfactor,
    Outcome.unwrap_some, Outcome.div_pos hlcm, hcount, Nat.mod_eq_of_lt hnarrow, uncapturedCheckpointBoundary, div_gcd_mul]

/-! ## The point -/

/-- No larger point is a whole number of chunks and of pages before the last token. -/
theorem uncapturedCheckpointBoundary_isGreatest (halignment : 1 ≤ alignment) (hchunk : 1 ≤ chunk) (htokens : 0 < tokens) :
    IsGreatest {n | alignment ∣ n ∧ chunk ∣ n ∧ n < tokens} (uncapturedCheckpointBoundary tokens alignment chunk) := by
  have hlcm : 0 < Nat.lcm alignment chunk := Nat.lcm_pos halignment hchunk
  rw [uncapturedCheckpointBoundary, div_gcd_mul]
  have hdvd : Nat.lcm alignment chunk ∣ (tokens - 1) / Nat.lcm alignment chunk * Nat.lcm alignment chunk := Nat.dvd_mul_left _ _
  have hle := Nat.div_mul_le_self (tokens - 1) (Nat.lcm alignment chunk)
  refine ⟨⟨(Nat.dvd_lcm_left _ _).trans hdvd, (Nat.dvd_lcm_right _ _).trans hdvd, by omega⟩, ?_⟩
  rintro n ⟨hleft, hright, hlt⟩
  obtain ⟨k, rfl⟩ := Nat.lcm_dvd hleft hright
  have hk : k ≤ (tokens - 1) / Nat.lcm alignment chunk := (Nat.le_div_iff_mul_le hlcm).mpr (by rw [Nat.mul_comm]; omega)
  calc Nat.lcm alignment chunk * k = k * Nat.lcm alignment chunk := Nat.mul_comm _ _
    _ ≤ (tokens - 1) / Nat.lcm alignment chunk * Nat.lcm alignment chunk := Nat.mul_le_mul_right _ hk

/-- A cut at a whole number of chunks adds no forward. -/
theorem forwards_cut {point : Nat} (hchunk : 1 ≤ chunk) (hdvd : chunk ∣ point) (hle : point ≤ tokens) :
    point / chunk + (tokens - point + chunk - 1) / chunk = (tokens + chunk - 1) / chunk := by
  obtain ⟨k, rfl⟩ := hdvd
  have hsum : tokens + chunk - 1 = tokens - chunk * k + chunk - 1 + chunk * k := by omega
  rw [hsum, Nat.add_mul_div_left _ _ hchunk, Nat.mul_div_cancel_left _ hchunk, Nat.add_comm]

theorem uncapturedCheckpointBoundary_exact (halignment : 1 ≤ alignment) (halignment' : alignment ≤ u32Max)
    (hchunk : 1 ≤ chunk) (hchunk' : chunk ≤ u32Max) (htokens : tokens ≤ u32Max) :
    ∃ point, uncapturedCheckpointBoundaryU32 tokens alignment chunk = .ok point ∧
      (tokens = 0 → point = 0) ∧
      (0 < tokens → IsGreatest {n | alignment ∣ n ∧ chunk ∣ n ∧ n < tokens} point) ∧
      point / chunk + (tokens - point + chunk - 1) / chunk = (tokens + chunk - 1) / chunk := by
  refine ⟨_, uncapturedCheckpointBoundaryU32_eq_ok halignment halignment' hchunk hchunk' htokens, ?_,
    uncapturedCheckpointBoundary_isGreatest halignment hchunk, ?_⟩
  · rintro rfl
    simp [uncapturedCheckpointBoundary]
  · rcases Nat.eq_zero_or_pos tokens with rfl | hpos
    · simp [uncapturedCheckpointBoundary]
    · obtain ⟨⟨-, hdvd, hlt⟩, -⟩ := uncapturedCheckpointBoundary_isGreatest halignment hchunk hpos
      exact forwards_cut hchunk hdvd hlt.le

theorem uncapturedCheckpointBoundary_exact_4000 :
    ∃ point, uncapturedCheckpointBoundaryU32 65536 64 4000 = .ok point ∧
      (65536 = 0 → point = 0) ∧
      (0 < 65536 → IsGreatest {n | 64 ∣ n ∧ 4000 ∣ n ∧ n < 65536} point) ∧
      point / 4000 + (65536 - point + 4000 - 1) / 4000 = (65536 + 4000 - 1) / 4000 :=
  uncapturedCheckpointBoundary_exact (by decide) (by decide) (by decide) (by decide) (by decide)

end

end Inferfabric.ProgramWorker
