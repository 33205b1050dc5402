-- SUMMARY: Sliding retention holds exactly the pages that can be needed at once, in Rust as in C++.
import IronPangu.Execution.Plan
import IronPangu.Ir.Serving
import IronPangu.Lib.Touched

open Rust

/-!
# Sliding windows

A chunk of queries writes its cache rows before the first of them looks back over its
window, so the rows in use at one time are a run of `window + query - 1` positions.
The compiler and the native library compute the pages for it apart from each other.
-/

namespace Inferfabric.Execution

open Ir

section
variable {context window query page : Nat}

/-- `n` is the most pages that a run of a window and the later queries of a chunk touches. -/
def MostPages (context window query page n : Nat) : Prop :=
  IsGreatest (Set.range fun start : Int => (Paging.touched page context (window + query - 1) start).card) n

/-- Dimensions that both reject. -/
def Degenerate (context window query page : Nat) : Prop :=
  context = 0 ∨ window = 0 ∨ query = 0 ∨ page = 0 ∨ query > context

theorem mostPages_slidingPages (h : ¬Degenerate context window query page) :
    MostPages context window query page (slidingPages context window query page) := by
  simp only [Degenerate, not_or] at h
  exact Paging.isGreatest_touched (by omega) (by omega) (by omega)

/-- All intermediate values are in the range of `u64`. -/
theorem slidingPages_u64 (hcontext : context ≤ u32Max) (hwindow : window ≤ u32Max) (hquery : query ≤ u32Max)
    (hpage : page ≤ u32Max) : window + query + page ≤ u64Max ∧ context + page ≤ u64Max ∧
      slidingPages context window query page * page ≤ u64Max := by
  have hpages : slidingPages context window query page * page ≤ context + page - 1 :=
    (Nat.mul_le_mul_right page (Nat.min_le_right _ _)).trans (Nat.div_mul_le_self _ _)
  simp only [u32Max, u64Max] at *
  omega

theorem slidingCapacity_cases (context window query page : Nat) :
    (∃ e, slidingCapacity context window query page = .err e) ∧
        (Degenerate context window query page ∨ u32Max < slidingPages context window query page * page) ∨
      slidingCapacity context window query page = .ok (slidingPages context window query page * page) ∧
        ¬Degenerate context window query page ∧ slidingPages context window query page * page ≤ u32Max := by
  rw [slidingCapacity]
  split
  · rename_i hdims
    exact .inl ⟨⟨_, rfl⟩, .inl hdims⟩
  · rename_i hdims
    split
    · rename_i hlarge
      exact .inl ⟨⟨_, rfl⟩, .inr hlarge⟩
    · rename_i hfits
      exact .inr ⟨rfl, hdims, Nat.not_lt.mp hfits⟩

theorem new_cases (context window query page : Nat) :
    (∃ message, SlidingWindowLayout.new context window query page = .error message) ∧
        (Degenerate context window query page ∨ u32Max < slidingPages context window query page * page) ∨
      SlidingWindowLayout.new context window query page =
          .ok ⟨context, window, query, page, slidingPages context window query page⟩ ∧
        ¬Degenerate context window query page ∧ slidingPages context window query page * page ≤ u32Max := by
  rw [SlidingWindowLayout.new]
  split
  · rename_i hdims
    exact .inl ⟨⟨_, rfl⟩, .inl hdims⟩
  · rename_i hdims
    change (∃ message, (if slidingPages context window query page * page > u32Max then _ else _) = Except.error message) ∧ _ ∨
      (if slidingPages context window query page * page > u32Max then _ else _) = _ ∧ _
    split
    · rename_i hlarge
      exact .inl ⟨⟨_, rfl⟩, .inr hlarge⟩
    · rename_i hfits
      exact .inr ⟨rfl, hdims, Nat.not_lt.mp hfits⟩

/-- The capacity is the most pages in use at one time, and the two implementations agree. -/
theorem slidingCapacity_exact (context window query page : Nat) :
    ((∃ e, slidingCapacity context window query page = .err e) ↔
      Degenerate context window query page ∨ ∃ n, MostPages context window query page n ∧ u32Max < n * page) ∧
    (∀ capacity, slidingCapacity context window query page = .ok capacity →
      MostPages context window query page (capacity / page) ∧ capacity = capacity / page * page) ∧
    slidingCapacity context window query page ≠ .panic ∧
    ((∃ message, SlidingWindowLayout.new context window query page = .error message) ↔
      ∃ e, slidingCapacity context window query page = .err e) ∧
    ∀ layout, SlidingWindowLayout.new context window query page = .ok layout →
      slidingCapacity context window query page = .ok (layout.physicalPages * layout.pageTokens) := by
  rcases slidingCapacity_cases context window query page with ⟨⟨e, herr⟩, hcause⟩ | ⟨hok, hdims, hfits⟩ <;>
    rcases new_cases context window query page with ⟨⟨message, hthrows⟩, hcause'⟩ | ⟨hnew, hdims', hfits'⟩
  · refine ⟨⟨fun _ => ?_, fun _ => ⟨e, herr⟩⟩, by simp [herr], by simp [herr], ⟨fun _ => ⟨e, herr⟩, fun _ => ⟨_, hthrows⟩⟩,
      by simp [hthrows]⟩
    by_cases hdims : Degenerate context window query page
    · exact .inl hdims
    · exact .inr ⟨_, mostPages_slidingPages hdims, hcause.resolve_left hdims⟩
  · exact absurd hcause (by simp [hdims', hfits'])
  · exact absurd hcause' (by simp [hdims, hfits])
  · have hmost := mostPages_slidingPages hdims
    have hpage : 0 < page := by
      simp only [Degenerate, not_or] at hdims
      omega
    refine ⟨⟨by simp [hok], ?_⟩, ?_, by simp [hok], by simp [hok, hnew], ?_⟩
    · rintro (h | ⟨n, hn, hlarge⟩)
      · exact absurd h hdims
      · rw [hn.unique hmost] at hlarge
        exact absurd hlarge (Nat.not_lt.mpr hfits)
    · intro capacity hcapacity
      obtain rfl := Outcome.ok.inj (hok.symm.trans hcapacity)
      rw [Nat.mul_div_cancel _ hpage]
      exact ⟨hmost, rfl⟩
    · intro layout hlayout
      obtain rfl := Except.ok.inj (hnew.symm.trans hlayout)
      exact hok

end

end Inferfabric.Execution
