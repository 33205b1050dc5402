-- SUMMARY: Lists of byte ranges to copy within one memory: coalescing them, and what executing them does.
import Mathlib

/-!
# Copying ranges

A range copies some bytes from one place of a memory to another. What a list of
ranges does is given by its pairs of cells; ranges that continue each other at both
ends may be merged without changing the pairs.
-/

namespace Copying

structure Range where
  source : Nat
  destination : Nat
  bytes : Nat
  deriving DecidableEq, Repr

/-- The cells a range copies between, in order. -/
def Range.pairs (r : Range) : List (Nat × Nat) :=
  (List.range r.bytes).map fun k => (r.source + k, r.destination + k)

def pairs (rs : List Range) : List (Nat × Nat) := rs.flatMap Range.pairs

variable {r next : Range} {rs : List Range} {s d : Nat}

theorem mem_range_pairs : (s, d) ∈ r.pairs ↔ ∃ k < r.bytes, r.source + k = s ∧ r.destination + k = d := by
  simp [Range.pairs]

@[simp] theorem pairs_nil : pairs [] = [] := rfl

@[simp] theorem pairs_cons : pairs (r :: rs) = r.pairs ++ pairs rs := List.flatMap_cons

theorem pairs_append {rs' : List Range} : pairs (rs ++ rs') = pairs rs ++ pairs rs' := List.flatMap_append

/-! ## Coalescing -/

/-- Add a range to a list with the latest first. -/
def push : List Range → Range → List Range
  | [], next => [next]
  | last :: rs, next =>
    if last.source + last.bytes = next.source ∧ last.destination + last.bytes = next.destination then
      { last with bytes := last.bytes + next.bytes } :: rs
    else next :: last :: rs

def coalesce (rs : List Range) : List Range := (rs.foldl push []).reverse

/-- Two ranges that continue each other at both ends are one. -/
theorem pairs_joined (hsource : r.source + r.bytes = next.source)
    (hdestination : r.destination + r.bytes = next.destination) :
    ({ r with bytes := r.bytes + next.bytes } : Range).pairs = r.pairs ++ next.pairs := by
  simp only [Range.pairs, List.range_add, List.map_append, List.map_map]
  congr 1
  apply List.map_congr_left
  intro k _
  simp only [Function.comp_apply, ← hsource, ← hdestination, Nat.add_assoc]

theorem pairs_push : pairs (push rs next).reverse = pairs rs.reverse ++ next.pairs := by
  cases rs with
  | nil => simp [push]
  | cons last rs =>
    rw [push]
    split
    · rename_i hcontinues
      rw [List.reverse_cons, List.reverse_cons, pairs_append, pairs_append, List.append_assoc]
      have hjoined : ({ last with bytes := last.bytes + next.bytes } : Range).pairs = last.pairs ++ next.pairs :=
        pairs_joined hcontinues.1 hcontinues.2
      simp [hjoined]
    · rw [List.reverse_cons, pairs_append]
      simp

/-- Coalescing changes neither the cells nor their order. -/
theorem pairs_coalesce : pairs (coalesce rs) = pairs rs := by
  have hfold : ∀ done : List Range, pairs (rs.foldl push done).reverse = pairs done.reverse ++ pairs rs := by
    induction rs with
    | nil => simp
    | cons next rs ih =>
      intro done
      rw [List.foldl_cons, ih, pairs_push, pairs_cons, List.append_assoc]
  exact hfold []

theorem positive_push (hrs : ∀ r ∈ rs, 0 < r.bytes) (hnext : 0 < next.bytes) : ∀ r ∈ push rs next, 0 < r.bytes := by
  intro r hr
  cases rs with
  | nil =>
    obtain rfl := List.mem_singleton.mp hr
    exact hnext
  | cons last rs =>
    rw [push] at hr
    split at hr
    · rcases List.mem_cons.mp hr with rfl | hr
      · exact Nat.add_pos_right last.bytes hnext
      · exact hrs r (List.mem_cons_of_mem last hr)
    · rcases List.mem_cons.mp hr with rfl | hr
      · exact hnext
      · exact hrs r hr

theorem positive_coalesce (hrs : ∀ r ∈ rs, 0 < r.bytes) : ∀ r ∈ coalesce rs, 0 < r.bytes := by
  have hfold : ∀ done : List Range, (∀ r ∈ done, 0 < r.bytes) → ∀ r ∈ rs.foldl push done, 0 < r.bytes := by
    induction rs with
    | nil => exact fun _ hdone => hdone
    | cons next rs ih =>
      intro done hdone
      rw [List.forall_mem_cons] at hrs
      exact ih hrs.2 _ (positive_push hdone hrs.1)
  intro r hr
  exact hfold [] nofun r (List.mem_reverse.mp hr)

/-! ## Copying -/

variable {β : Type} {m : Nat → β} {a : Nat}

def copy (r : Range) (m : Nat → β) : Nat → β := fun a =>
  if r.destination ≤ a ∧ a < r.destination + r.bytes then m (r.source + (a - r.destination)) else m a

def copyAll (rs : List Range) (m : Nat → β) : Nat → β := rs.foldl (fun m r => copy r m) m

/-- No cell is copied twice, and no copied cell is read. -/
structure Apart (rs : List Range) : Prop where
  distinct : ((pairs rs).map Prod.snd).Nodup
  unread : ∀ p ∈ pairs rs, ∀ q ∈ pairs rs, p.1 ≠ q.2

theorem Apart.coalesce (h : Apart rs) : Apart (coalesce rs) := by
  constructor
  · rw [pairs_coalesce]
    exact h.distinct
  · rw [pairs_coalesce]
    exact h.unread

theorem copy_pair (h : (s, d) ∈ r.pairs) : copy r m d = m s := by
  obtain ⟨k, hk, rfl, rfl⟩ := mem_range_pairs.mp h
  rw [copy, if_pos ⟨Nat.le_add_right _ _, Nat.add_lt_add_left hk _⟩, Nat.add_sub_cancel_left]

theorem copy_other (h : ∀ p ∈ r.pairs, a ≠ p.2) : copy r m a = m a := by
  apply if_neg
  rintro ⟨hle, hlt⟩
  have hpair : (r.source + (a - r.destination), a) ∈ r.pairs :=
    mem_range_pairs.mpr ⟨a - r.destination, by omega, rfl, by omega⟩
  exact h _ hpair rfl

theorem copyAll_other (h : ∀ p ∈ pairs rs, a ≠ p.2) : copyAll rs m a = m a := by
  induction rs generalizing m with
  | nil => rfl
  | cons r rs ih =>
    rw [pairs_cons, List.forall_mem_append] at h
    exact (ih h.2).trans (copy_other h.1)

theorem mem_pairs (hr : r ∈ rs) {k : Nat} (hk : k < r.bytes) : (r.source + k, r.destination + k) ∈ pairs rs :=
  List.mem_flatMap.mpr ⟨r, hr, mem_range_pairs.mpr ⟨k, hk, rfl, rfl⟩⟩

theorem Apart.ranges (h : Apart rs) (hpositive : ∀ r ∈ rs, 0 < r.bytes) {q r : Range} (hq : q ∈ rs) (hr : r ∈ rs) :
    q.source + q.bytes ≤ r.destination ∨ r.destination + r.bytes ≤ q.source := by
  by_contra hoverlap
  rw [not_or, Nat.not_le, Nat.not_le] at hoverlap
  have hqpos := hpositive q hq
  have hrpos := hpositive r hr
  -- The later of the two starts lies in both ranges.
  have hread := mem_pairs hq (k := max q.source r.destination - q.source) (by omega)
  have hwritten := mem_pairs hr (k := max q.source r.destination - r.destination) (by omega)
  exact h.unread _ hread _ hwritten (by dsimp only; omega)

theorem range_within {n : Nat} (h : ∀ p ∈ pairs rs, p.1 < n ∧ p.2 < n) (hr : r ∈ rs) (hpositive : 0 < r.bytes) :
    r.source + r.bytes ≤ n ∧ r.destination + r.bytes ≤ n := by
  have hlast := h _ (mem_pairs hr (Nat.sub_lt hpositive Nat.one_pos))
  dsimp only at hlast
  omega

/-- Ranges that are apart read what was there before any of them was copied. -/
theorem copyAll_pair (hapart : Apart rs) (h : (s, d) ∈ pairs rs) : copyAll rs m d = m s := by
  induction rs generalizing m with
  | nil => cases h
  | cons r rs ih =>
    obtain ⟨hdistinct, hunread⟩ := hapart
    rw [pairs_cons, List.map_append, List.nodup_append] at hdistinct
    rw [pairs_cons] at h hunread
    have hrest : Apart rs :=
      ⟨hdistinct.2.1, fun p hp q hq => hunread p (List.mem_append_right _ hp) q (List.mem_append_right _ hq)⟩
    rcases List.mem_append.mp h with hfirst | hlater
    · have hkept : copyAll rs (copy r m) d = copy r m d := by
        apply copyAll_other
        intro q hq
        exact hdistinct.2.2 d (List.mem_map_of_mem hfirst) q.2 (List.mem_map_of_mem hq)
      exact hkept.trans (copy_pair hfirst)
    · have hkept : copy r m s = m s := copy_other fun q hq => hunread (s, d) h q (List.mem_append_left _ hq)
      exact (ih hrest hlater).trans hkept

/-- A cell that is read keeps what it holds. -/
theorem copyAll_source (hapart : Apart rs) (h : (s, d) ∈ pairs rs) : copyAll rs m s = m s :=
  copyAll_other fun q hq => hapart.unread (s, d) h q hq

end Copying
