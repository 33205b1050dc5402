-- SUMMARY: Round robin with a quota: every round scans all lanes from a cursor, and nobody who can be served waits long.
import Mathlib

/-!
# Round robin

A round scans the lanes once, beginning at the cursor, and takes the first eligible
ones up to its quota. The next round begins behind the last lane taken. Which lanes
are eligible may change from round to round.
-/

namespace RoundRobin

/-! ## One round -/

/-- The lanes in the order of the scan. -/
def order (n cursor : Nat) : List Nat := (List.range n).map fun offset => (cursor + offset) % n

def round (eligible : Nat → Bool) (n cursor quota : Nat) : List Nat := ((order n cursor).filter eligible).take quota

/-- Where the next round begins. -/
def next (n cursor : Nat) (selected : List Nat) : Nat :=
  match selected.getLast? with
  | some last => (last + 1) % n
  | none => cursor

section
variable {eligible : Nat → Bool} {n cursor quota lane d : Nat}

theorem order_eq_rotate (n cursor : Nat) : order n cursor = (List.range n).rotate cursor := by
  refine List.ext_getElem (by simp [order]) fun i hi hi' => ?_
  simp [order, List.getElem_rotate, Nat.add_comm]

theorem order_perm (n cursor : Nat) : (order n cursor).Perm (List.range n) :=
  order_eq_rotate n cursor ▸ List.rotate_perm _ _

theorem round_nodup : (round eligible n cursor quota).Nodup := by
  have horder : (order n cursor).Nodup := (order_perm n cursor).nodup_iff.mpr List.nodup_range
  exact (horder.filter _).sublist (List.take_sublist _ _)

theorem eligible_of_mem_round (h : lane ∈ round eligible n cursor quota) : lane < n ∧ eligible lane = true := by
  obtain ⟨hmem, heligible⟩ := List.mem_filter.mp (List.mem_of_mem_take h)
  exact ⟨List.mem_range.mp ((order_perm n cursor).mem_iff.mp hmem), heligible⟩

/-- A round takes as many lanes as it may and as there are. -/
theorem length_round : (round eligible n cursor quota).length = min quota ((List.range n).countP eligible) := by
  rw [round, List.length_take, ← List.countP_eq_length_filter, (order_perm n cursor).countP_eq]

/-! ## Waiting -/

/-- An eligible lane that is left out has only lanes before it taken, so the next scan comes to it sooner. -/
theorem closer (hlane : (cursor + d) % n = lane) (hd : d < n) (heligible : eligible lane = true) (hquota : 0 < quota)
    (hleft : lane ∉ round eligible n cursor quota) :
    ∃ d' < d, (next n cursor (round eligible n cursor quota) + d') % n = lane := by
  let scanned := ((List.range d).map fun offset => (cursor + offset) % n).filter eligible
  have hsplit : ∃ rest, (order n cursor).filter eligible = scanned ++ lane :: rest := by
    have hrange : List.range n = List.range d ++ d :: (List.range n).drop (d + 1) := by
      conv_lhs => rw [← List.take_append_drop d (List.range n)]
      rw [List.take_range, Nat.min_eq_left hd.le, List.drop_eq_getElem_cons (by simpa using hd), List.getElem_range]
    refine ⟨(((List.range n).drop (d + 1)).map fun offset => (cursor + offset) % n).filter eligible, ?_⟩
    rw [order, hrange, List.map_append, List.map_cons, hlane, List.filter_append, List.filter_cons_of_pos heligible, ← hrange]
  obtain ⟨rest, hrest⟩ := hsplit
  have hfull : quota ≤ scanned.length := by
    by_contra hroom
    refine hleft ?_
    obtain ⟨k, hk⟩ := Nat.exists_eq_add_of_lt (Nat.lt_of_not_le hroom)
    rw [round, hrest, hk, Nat.add_assoc, List.take_length_add_append]
    exact List.mem_append_right _ (by simp)
  have htaken : round eligible n cursor quota = scanned.take quota := by
    rw [round, hrest, List.take_append_of_le_length hfull]
  obtain ⟨last, hlast⟩ : ∃ last, (scanned.take quota).getLast? = some last := by
    refine Option.ne_none_iff_exists'.mp fun hnone => ?_
    have hlength := congrArg List.length (List.getLast?_eq_none_iff.mp hnone)
    rw [List.length_take, List.length_nil] at hlength
    omega
  -- the last lane taken stands before `lane` in the scan
  obtain ⟨offset, hoffset, rfl⟩ : ∃ offset < d, (cursor + offset) % n = last := by
    have hmem := (List.mem_filter.mp (List.mem_of_mem_take (List.mem_of_getLast? hlast))).1
    simpa using hmem
  refine ⟨d - offset - 1, by omega, ?_⟩
  have hsum : cursor + offset + 1 + (d - offset - 1) = cursor + d := by omega
  rw [next, htaken, hlast, Nat.mod_add_mod, Nat.add_assoc, Nat.mod_add_mod, ← Nat.add_assoc, hsum, hlane]

/-! ## Rounds -/

/-- What is taken in rounds that follow one another. -/
def rounds (n : Nat) : List ((Nat → Bool) × Nat) → Nat → List (List Nat)
  | [], _ => []
  | (eligible, quota) :: rest, cursor =>
    round eligible n cursor quota :: rounds n rest (next n cursor (round eligible n cursor quota))

theorem selected_of_distance {rs : List ((Nat → Bool) × Nat)} (hlane : (cursor + d) % n = lane) (hd : d < n)
    (hlong : d < rs.length) (hstays : ∀ r ∈ rs, r.1 lane = true ∧ 0 < r.2) : ∃ selected ∈ rounds n rs cursor, lane ∈ selected := by
  induction rs generalizing cursor d with
  | nil => simp at hlong
  | cons r rs ih =>
    obtain ⟨heligible, hquota⟩ := hstays r List.mem_cons_self
    by_cases hmem : lane ∈ round r.1 n cursor r.2
    · exact ⟨_, List.mem_cons_self, hmem⟩
    · obtain ⟨d', hd', hnext⟩ := closer hlane hd heligible hquota hmem
      rw [List.length_cons] at hlong
      obtain ⟨selected, hselected, hin⟩ := ih hnext (hd'.trans hd) (by omega) fun r hr => hstays r (List.mem_cons_of_mem _ hr)
      exact ⟨selected, List.mem_cons_of_mem _ hselected, hin⟩

/-- A lane that stays eligible is taken within as many rounds as there are lanes. -/
theorem selected_within {rs : List ((Nat → Bool) × Nat)} (hlane : lane < n) (hlong : n ≤ rs.length)
    (hstays : ∀ r ∈ rs, r.1 lane = true ∧ 0 < r.2) : ∃ selected ∈ rounds n rs cursor, lane ∈ selected := by
  obtain ⟨d, hd, hscan⟩ : ∃ d < n, (cursor + d) % n = lane := by
    have hmem := (order_perm n cursor).mem_iff.mpr (List.mem_range.mpr hlane)
    simpa [order] using hmem
  exact selected_of_distance hscan hd (hd.trans_le hlong) hstays

end

end RoundRobin
