-- SUMMARY: Rows of paged storage: flat rows as page and row in page, rings of pages, and when two positions share a row.
import Mathlib

/-!
# Paged rows

A position is kept in row `pos % capacity` of a ring of whole pages. Its page and
its row within the page are the quotient and the remainder by the page size,
whether the ring is wrapped by rows or by pages; and positions that lie less than
a ring apart are kept in different rows.
-/

namespace Paging

variable {page capacity pages pos : Nat}

/-- Pages that hold `rows` rows. -/
def pagesFor (page rows : Nat) : Nat := (rows + page - 1) / page

/-- Wrapping the row first and then taking its page is wrapping the page. -/
theorem page_of_wrapped (hdvd : page ∣ capacity) (pos : Nat) :
    pos % capacity / page = pos / page % (capacity / page) := by
  obtain ⟨pages, rfl⟩ := hdvd
  rcases Nat.eq_zero_or_pos page with rfl | hpage
  · simp
  · rw [Nat.mod_mul_right_div_self, Nat.mul_div_cancel_left _ hpage]

/-- Wrapping does not change the row within the page. -/
theorem row_of_wrapped (hdvd : page ∣ capacity) (pos : Nat) : pos % capacity % page = pos % page :=
  Nat.mod_mod_of_dvd pos hdvd

/-- Positions less than a ring apart have different rows. -/
theorem eq_of_wrapped_eq {x y : Nat} (h : x % capacity = y % capacity) (hxy : x < y + capacity)
    (hyx : y < x + capacity) : x = y := by
  rcases Nat.le_total x y with hle | hle
  · have hdvd : capacity ∣ y - x := (Nat.modEq_iff_dvd' hle).mp h
    have := Nat.eq_zero_of_dvd_of_lt hdvd (by omega)
    omega
  · have hdvd : capacity ∣ x - y := (Nat.modEq_iff_dvd' hle).mp h.symm
    have := Nat.eq_zero_of_dvd_of_lt hdvd (by omega)
    omega

/-- A row below `rows` is on one of the pages that hold `rows` rows. -/
theorem page_lt_pagesFor {rows : Nat} (hpage : 0 < page) (h : pos < rows) :
    pos / page < pagesFor page rows := by
  unfold pagesFor
  rw [Nat.lt_iff_add_one_le, Nat.le_div_iff_mul_le hpage, Nat.add_mul]
  have := Nat.div_mul_le_self pos page
  omega

theorem pagesFor_mono {rows rows' : Nat} (h : rows ≤ rows') : pagesFor page rows ≤ pagesFor page rows' :=
  Nat.div_le_div_right (by omega)

theorem pagesFor_of_dvd (hpage : 0 < page) (hdvd : page ∣ capacity) :
    pagesFor page capacity = capacity / page := by
  obtain ⟨pages, rfl⟩ := hdvd
  unfold pagesFor
  rw [Nat.mul_div_cancel_left _ hpage, Nat.add_sub_assoc hpage, Nat.mul_add_div hpage,
    Nat.div_eq_of_lt (Nat.sub_lt hpage Nat.one_pos), Nat.add_zero]

/-- The pages that hold `rows` rows hold them. -/
theorem le_pagesFor_mul {rows : Nat} (hpage : 0 < page) : rows ≤ pagesFor page rows * page := by
  unfold pagesFor
  have := Nat.lt_div_mul_add hpage (a := rows + page - 1)
  omega

/-- A flat row names its page and its row in the page. -/
theorem flat_injective {p q row row' : Nat} (hrow : row < page) (hrow' : row' < page)
    (h : p * page + row = q * page + row') : p = q ∧ row = row' := by
  have hpage : 0 < page := Nat.lt_of_le_of_lt (Nat.zero_le _) hrow
  have hp := congrArg (· / page) h
  have hr := congrArg (· % page) h
  simp only [Nat.mul_comm _ page, Nat.mul_add_div hpage, Nat.mul_add_mod, Nat.div_eq_of_lt hrow,
    Nat.div_eq_of_lt hrow', Nat.mod_eq_of_lt hrow, Nat.mod_eq_of_lt hrow', Nat.add_zero] at hp hr
  exact ⟨hp, hr⟩

end Paging
