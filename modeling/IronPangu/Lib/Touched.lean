-- SUMMARY: How many pages a run of positions can touch, cut to the positions there are.
import IronPangu.Lib.Paging

/-!
# Touched pages

A run of consecutive positions touches the pages its positions lie in. Where the run
starts is free, also before the first position and behind the last one; only the
positions below the context count. The most pages are touched by a run that starts on
the last row of a page.
-/

namespace Paging

variable {page context length : Nat}

/-- The pages of the positions `start, start + 1, ..` of a run that lie in the context. -/
def touched (page context length : Nat) (start : Int) : Finset Nat :=
  ((Finset.range context).filter fun pos : Nat => start ≤ pos ∧ (pos : Int) < start + length).image (· / page)

/-- The most pages a run of the length touches. -/
def mostTouched (page context length : Nat) : Nat := min ((length + page - 2) / page + 1) (pagesFor page context)

theorem mem_touched {start : Int} {p : Nat} :
    p ∈ touched page context length start ↔ ∃ pos, pos < context ∧ start ≤ pos ∧ (pos : Int) < start + length ∧ pos / page = p := by
  simp [touched, and_assoc]

theorem touched_subset_range (hpage : 0 < page) (start : Int) :
    touched page context length start ⊆ Finset.range (pagesFor page context) := by
  intro p hp
  obtain ⟨pos, hpos, -, -, rfl⟩ := mem_touched.mp hp
  exact Finset.mem_range.mpr (page_lt_pagesFor hpage hpos)

theorem touched_subset_Icc (hpage : 0 < page) (hlength : 0 < length) (start : Int) :
    touched page context length start ⊆
      Finset.Icc (start.toNat / page) (start.toNat / page + (length + page - 2) / page) := by
  intro p hp
  obtain ⟨pos, -, hstart, hstop, rfl⟩ := mem_touched.mp hp
  have hlow : start.toNat ≤ pos := by omega
  have hhigh : pos ≤ start.toNat + (length - 1) := by omega
  refine Finset.mem_Icc.mpr ⟨Nat.div_le_div_right hlow, ?_⟩
  -- the rest of the run fits in `(length + page - 2) / page` further pages
  have hrest : length - 1 ≤ page * ((length + page - 2) / page) := by
    have := Nat.lt_mul_div_succ (length + page - 2) hpage
    rw [Nat.mul_add, Nat.mul_one] at this
    omega
  calc pos / page ≤ (start.toNat + page * ((length + page - 2) / page)) / page := Nat.div_le_div_right (by omega)
    _ = start.toNat / page + (length + page - 2) / page := Nat.add_mul_div_left _ _ hpage

/-- The run that starts on the last row of the first page touches the pages that follow. -/
theorem range_subset_touched (hpage : 0 < page) (hcontext : 0 < context) (hlength : 0 < length) :
    ∃ start : Int, Finset.range (mostTouched page context length) ⊆ touched page context length start := by
  rcases Nat.lt_or_ge page context with hlt | hge
  · refine ⟨(page - 1 : Nat), fun p hp => ?_⟩
    have hp' := Finset.mem_range.mp hp
    have hfull : p < pagesFor page context := hp'.trans_le (Nat.min_le_right _ _)
    have hrun : p ≤ (length + page - 2) / page := Nat.lt_succ_iff.mp (hp'.trans_le (Nat.min_le_left _ _))
    rcases Nat.eq_zero_or_pos p with rfl | hpos
    · exact mem_touched.mpr ⟨page - 1, by omega, le_refl _, by omega, Nat.div_eq_of_lt (by omega)⟩
    · have hmul : p * page ≤ length + page - 2 := (Nat.le_div_iff_mul_le hpage).mp hrun
      have hinside : p * page < context := by
        have hstop : (p + 1) * page ≤ context + page - 1 := (Nat.le_div_iff_mul_le hpage).mp hfull
        rw [Nat.add_mul, Nat.one_mul] at hstop
        omega
      have hfirst : page ≤ p * page := Nat.le_mul_of_pos_left page hpos
      exact mem_touched.mpr ⟨p * page, hinside, by omega, by omega, Nat.mul_div_cancel p hpage⟩
  · refine ⟨0, fun p hp => ?_⟩
    have hfull : p < pagesFor page context := (Finset.mem_range.mp hp).trans_le (Nat.min_le_right _ _)
    have hone : pagesFor page context = 1 := by
      rw [pagesFor]
      exact Nat.div_eq_of_lt_le (by omega) (by omega)
    exact mem_touched.mpr ⟨0, hcontext, le_refl _, by omega, by rw [Nat.zero_div]; omega⟩

/-- The bound is attained. -/
theorem isGreatest_touched (hpage : 0 < page) (hcontext : 0 < context) (hlength : 0 < length) :
    IsGreatest (Set.range fun start : Int => (touched page context length start).card) (mostTouched page context length) := by
  have hbound (start : Int) : (touched page context length start).card ≤ mostTouched page context length := by
    have hrun : (touched page context length start).card ≤ _ := Finset.card_le_card (touched_subset_Icc hpage hlength start)
    have hfull : (touched page context length start).card ≤ _ := Finset.card_le_card (touched_subset_range hpage start)
    rw [Nat.card_Icc, Nat.add_assoc, Nat.add_sub_cancel_left] at hrun
    rw [Finset.card_range] at hfull
    exact le_min hrun hfull
  constructor
  · obtain ⟨start, hstart⟩ := range_subset_touched hpage hcontext hlength
    have hcard := Finset.card_le_card hstart
    rw [Finset.card_range] at hcard
    exact ⟨start, (hbound start).antisymm hcard⟩
  · rintro n ⟨start, rfl⟩
    exact hbound start

end Paging
