-- SUMMARY: Spans of cells in increasing order: joining those that touch, and what the joined list covers.
import Mathlib.Data.List.Basic
import Mathlib.Tactic

/-!
# Spans

A span is a run of consecutive cells. A list of spans given in increasing order is
joined from left to right: a span that begins where the last one stops extends it.
Joining keeps the covered cells, and leaves a gap between any two spans.
-/

namespace Spans

structure Span where
  offset : Nat
  bytes : Nat
  deriving DecidableEq, Repr

def Span.stop (s : Span) : Nat := s.offset + s.bytes

/-- The cells of a span. -/
def Span.Covers (s : Span) (a : Nat) : Prop := s.offset ≤ a ∧ a < s.stop

/-- A cell of some span. -/
def Covered (spans : List Span) (a : Nat) : Prop := ∃ s ∈ spans, s.Covers a

variable {spans : List Span} {s next : Span} {a : Nat}

@[simp] theorem covered_nil : ¬Covered [] a := by simp [Covered]

@[simp] theorem covered_cons : Covered (s :: spans) a ↔ s.Covers a ∨ Covered spans a := by
  simp [Covered]

theorem covered_reverse : Covered spans.reverse a ↔ Covered spans a := by
  simp [Covered]

/-! ## Joining -/

/-- Add a span to a list with the latest first. -/
def push : List Span → Span → List Span
  | [], next => [next]
  | last :: spans, next =>
    if last.stop = next.offset then { last with bytes := last.bytes + next.bytes } :: spans
    else next :: last :: spans

def join (spans : List Span) : List Span := (spans.foldl push []).reverse

/-- A span and the one that begins where it stops cover what they cover as one. -/
theorem covers_joined (h : s.stop = next.offset) :
    Span.Covers { s with bytes := s.bytes + next.bytes } a ↔ s.Covers a ∨ next.Covers a := by
  simp only [Span.Covers, Span.stop] at h ⊢
  omega

theorem covered_push : Covered (push spans next) a ↔ Covered spans a ∨ next.Covers a := by
  cases spans with
  | nil => simp [push]
  | cons last spans =>
    rw [push]
    split
    · rename_i htouch
      rw [covered_cons, covered_cons, covers_joined htouch]
      tauto
    · rw [covered_cons]
      tauto

/-- Joining covers the same cells. -/
theorem covered_join : Covered (join spans) a ↔ Covered spans a := by
  have hfold : ∀ done : List Span, Covered (spans.foldl push done) a ↔ Covered done a ∨ Covered spans a := by
    induction spans with
    | nil => simp
    | cons next spans ih =>
      intro done
      rw [List.foldl_cons, ih, covered_push, covered_cons, or_assoc]
  rw [join, covered_reverse, hfold]
  simp

/-! ## Gaps -/

/-- One span stops before the other begins, and they do not touch. -/
def Span.Before (s t : Span) : Prop := s.stop < t.offset

/-- A list with the latest first, in increasing order with gaps, that stops at the next offset or before. -/
structure Ready (offset : Nat) (spans : List Span) : Prop where
  gaps : spans.Pairwise fun t s => s.Before t
  stops : ∀ s ∈ spans, s.stop ≤ offset

theorem ready_nil {offset : Nat} : Ready offset [] := ⟨.nil, by simp⟩

theorem stops_push {bound : Nat} (hspans : ∀ s ∈ spans, s.stop ≤ bound) (hnext : next.stop ≤ bound) :
    ∀ s ∈ push spans next, s.stop ≤ bound := by
  cases spans with
  | nil => simpa [push] using hnext
  | cons last spans =>
    rw [push]
    split
    · rename_i htouch
      have hjoined : Span.stop { last with bytes := last.bytes + next.bytes } = next.stop := by
        simp only [Span.stop] at htouch ⊢
        omega
      exact List.forall_mem_cons.mpr ⟨hjoined ▸ hnext, fun s hs => hspans s (List.mem_cons_of_mem _ hs)⟩
    · exact List.forall_mem_cons.mpr ⟨hnext, hspans⟩

/-- Joining on keeps the gaps. -/
theorem Ready.push (h : Ready next.offset spans) {offset : Nat} (hnext : next.stop ≤ offset) :
    Ready offset (push spans next) := by
  have hbelow : ∀ s ∈ spans, s.stop ≤ offset := fun s hs =>
    (h.stops s hs).trans ((Nat.le_add_right _ _).trans hnext)
  refine ⟨?_, stops_push hbelow hnext⟩
  cases spans with
  | nil => exact List.pairwise_singleton _ _
  | cons last spans =>
    obtain ⟨hbefore, hgaps⟩ := List.pairwise_cons.mp h.gaps
    have hlast := h.stops last List.mem_cons_self
    rw [Spans.push]
    split
    · exact List.pairwise_cons.mpr ⟨hbefore, hgaps⟩
    · rename_i hgap
      refine List.pairwise_cons.mpr ⟨List.forall_mem_cons.mpr ⟨?_, fun s hs => ?_⟩, h.gaps⟩
      · exact lt_of_le_of_ne hlast hgap
      · -- Earlier spans stop before the last one begins.
        have hs := hbefore s hs
        simp only [Span.Before, Span.stop] at hs hlast ⊢
        omega

/-- Spans in increasing order are joined to spans with gaps. -/
theorem gaps_join (h : spans.Pairwise fun s t => s.stop ≤ t.offset) : (join spans).Pairwise Span.Before := by
  have hfold : ∀ done : List Span, (∀ s ∈ spans, ∀ t ∈ done, t.stop ≤ s.offset) →
      done.Pairwise (fun t s => s.Before t) → (spans.foldl push done).Pairwise fun t s => s.Before t := by
    induction spans with
    | nil => exact fun _ _ hdone => hdone
    | cons next spans ih =>
      intro done hstops hdone
      obtain ⟨hnext, hrest⟩ := List.pairwise_cons.mp h
      have hready : Ready next.offset done := ⟨hdone, hstops next List.mem_cons_self⟩
      refine ih hrest _ (fun s hs => (hready.push (hnext s hs)).stops) ?_
      exact (hready.push (le_refl next.stop)).gaps
  rw [join, List.pairwise_reverse]
  exact hfold [] (by simp) .nil

theorem positive_push (hspans : ∀ s ∈ spans, 0 < s.bytes) (hnext : 0 < next.bytes) : ∀ s ∈ push spans next, 0 < s.bytes := by
  cases spans with
  | nil => simpa [push] using hnext
  | cons last spans =>
    obtain ⟨hlast, hrest⟩ := List.forall_mem_cons.mp hspans
    rw [push]
    split
    · exact List.forall_mem_cons.mpr ⟨Nat.add_pos_left hlast _, hrest⟩
    · exact List.forall_mem_cons.mpr ⟨hnext, hspans⟩

theorem positive_join (h : ∀ s ∈ spans, 0 < s.bytes) : ∀ s ∈ join spans, 0 < s.bytes := by
  have hfold : ∀ done : List Span, (∀ s ∈ done, 0 < s.bytes) → ∀ s ∈ spans.foldl push done, 0 < s.bytes := by
    induction spans with
    | nil => exact fun _ hdone => hdone
    | cons next spans ih =>
      intro done hdone
      obtain ⟨hnext, hrest⟩ := List.forall_mem_cons.mp h
      exact ih hrest _ (positive_push hdone hnext)
  intro s hs
  exact hfold [] (by simp) s (List.mem_reverse.mp hs)

/-! ## Clearing -/

/-- Overwrite the cells of the spans, one span after another. -/
def clear {β : Type} (zero : β) (spans : List Span) (memory : Nat → β) : Nat → β :=
  spans.foldl (fun memory s a => if s.offset ≤ a ∧ a < s.stop then zero else memory a) memory

theorem clear_covered {β : Type} {zero : β} {memory : Nat → β} (h : Covered spans a) : clear zero spans memory a = zero := by
  have hzero : ∀ (spans : List Span) (memory : Nat → β), memory a = zero → clear zero spans memory a = zero := by
    intro spans
    induction spans with
    | nil => exact fun _ hmemory => hmemory
    | cons s spans ih =>
      intro memory hmemory
      refine ih _ ?_
      dsimp only
      split
      · rfl
      · exact hmemory
  induction spans generalizing memory with
  | nil => exact absurd h covered_nil
  | cons s spans ih =>
    rcases covered_cons.mp h with hs | hrest
    · exact hzero spans _ (if_pos hs)
    · exact ih hrest

theorem clear_other {β : Type} {zero : β} {memory : Nat → β} (h : ¬Covered spans a) : clear zero spans memory a = memory a := by
  induction spans generalizing memory with
  | nil => rfl
  | cons s spans ih =>
    rw [covered_cons, not_or] at h
    exact (ih h.2).trans (if_neg h.1)

end Spans
