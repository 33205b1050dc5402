-- SUMMARY: The native worker's choice of lanes: `select_round` is round robin with a quota.
import IronPangu.Ir.Serving
import IronPangu.Lib.RoundRobin

open Rust

/-!
# The native worker

The worker feeds the lanes of one engine in rounds of at most one token a lane. The
cursor says where the next round begins.
-/

namespace Inferfabric.NativeWorker

open Ir

/-- The loop over the offsets, with the lanes selected. -/
def scan (eligible : List Bool) (cursor remaining : Nat) : List Nat → List Nat → Result (List Nat)
  | [], selected => .ok selected
  | offset :: offsets, selected => do
    let sum ← Outcome.unwrap (checkedAdd u64Max cursor offset)
    let lane ← Outcome.rem sum eligible.length
    let ready ← Outcome.unwrap eligible[lane]?
    scan eligible cursor remaining offsets
      (if ready ∧ selected.length < remaining then selected ++ [lane] else selected)

/-- The lanes of a round, and the cursor after it. -/
def selectRound (eligible : List Bool) (cursor remaining : Nat) : Result (List Nat × Nat) := do
  let selected ← scan eligible cursor remaining (List.range eligible.length) []
  match selected.getLast? with
  | some last => do
    let cursor ← Outcome.rem (last + 1) eligible.length
    .ok (selected, cursor)
  | none => .ok (selected, cursor)

/-- Rounds that follow one another, each with what is eligible and what remains. -/
def selectRounds : List (List Bool × Nat) → Nat → Result (List (List Nat))
  | [], _ => .ok []
  | (eligible, remaining) :: rounds, cursor => do
    let (selected, cursor) ← selectRound eligible cursor remaining
    let rest ← selectRounds rounds cursor
    .ok (selected :: rest)

/-! ## Rounds are round robin -/

section
variable {eligible : List Bool} {cursor remaining : Nat}

/-- Whether a lane is eligible. -/
def ready (eligible : List Bool) (lane : Nat) : Bool := eligible.getD lane false

theorem scan_eq_ok (hcursor : cursor + eligible.length ≤ u64Max + 1) {offsets : List Nat}
    (hoffsets : ∀ offset ∈ offsets, offset < eligible.length) (selected : List Nat) :
    scan eligible cursor remaining offsets selected = .ok (selected ++
      ((offsets.map fun offset => (cursor + offset) % eligible.length).filter (ready eligible)).take
        (remaining - selected.length)) := by
  induction offsets generalizing selected with
  | nil => simp [scan]
  | cons offset offsets ih =>
    have hoffset := hoffsets offset List.mem_cons_self
    have hpos : 0 < eligible.length := (Nat.zero_le offset).trans_lt hoffset
    have hlane := Nat.mod_lt (cursor + offset) hpos
    have hadd : checkedAdd u64Max cursor offset = some (cursor + offset) := checkedAdd_eq_some.mpr ⟨by omega, rfl⟩
    have hready : eligible[(cursor + offset) % eligible.length]? =
        some (ready eligible ((cursor + offset) % eligible.length)) := by
      simp [ready, List.getD_eq_getElem?_getD, List.getElem?_eq_getElem hlane]
    simp only [scan, hadd, Outcome.unwrap_some, Outcome.ok_bind, Outcome.rem_pos hpos, hready]
    rw [ih fun offset' hoffset' => hoffsets offset' (List.mem_cons_of_mem _ hoffset'), List.map_cons]
    cases hcase : ready eligible ((cursor + offset) % eligible.length) with
    | false => simp [hcase]
    | true =>
      rw [List.filter_cons_of_pos hcase]
      by_cases hroom : selected.length < remaining
      · obtain ⟨k, hk⟩ := Nat.exists_eq_add_of_lt hroom
        have hleft : remaining - selected.length = k + 1 := by omega
        have hnext : remaining - (selected.length + 1) = k := by omega
        simp [hroom, hleft, hnext]
      · have hzero : remaining - selected.length = 0 := by omega
        simp [hroom, hzero]

/-- A round takes the lanes round robin takes. -/
theorem selectRound_eq_ok (hcursor : cursor + eligible.length ≤ u64Max + 1) : selectRound eligible cursor remaining =
    .ok (RoundRobin.round (ready eligible) eligible.length cursor remaining,
      RoundRobin.next eligible.length cursor (RoundRobin.round (ready eligible) eligible.length cursor remaining)) := by
  let selected := RoundRobin.round (ready eligible) eligible.length cursor remaining
  have hscan : scan eligible cursor remaining (List.range eligible.length) [] = .ok selected :=
    scan_eq_ok hcursor (fun offset h => List.mem_range.mp h) []
  rw [selectRound, hscan, Outcome.ok_bind, RoundRobin.next]
  rcases hlast : selected.getLast? with _ | last
  · rfl
  · have hmem : last ∈ selected := List.mem_of_getLast? hlast
    have hpos : 0 < eligible.length := (Nat.zero_le last).trans_lt (RoundRobin.eligible_of_mem_round hmem).1
    simp only [Outcome.rem_pos hpos, Outcome.ok_bind]
    rfl

theorem ready_eq_true {lane : Nat} : ready eligible lane = true ↔ eligible[lane]? = some true := by
  rw [ready, List.getD_eq_getElem?_getD]
  rcases eligible[lane]? with _ | b <;> simp

theorem countP_ready : (List.range eligible.length).countP (ready eligible) = eligible.count true := by
  have hmap : (List.range eligible.length).map (ready eligible) = eligible := by
    refine List.ext_getElem (by simp) fun i hi hi' => ?_
    simp [ready, List.getD_eq_getElem?_getD, List.getElem?_eq_getElem hi']
  conv_rhs => rw [← hmap]
  rw [List.count, List.countP_map]
  congr 1
  funext lane
  simp

end

/-- `isize::MAX`, which no slice is longer than. -/
def isizeMax : Nat := 9223372036854775807

/-- Rounds over as many lanes are round robin throughout: the cursor stays among the lanes once it is. -/
theorem selectRounds_eq_ok {n cursor : Nat} (hn : n ≤ isizeMax) (hcursor : cursor + n ≤ u64Max + 1)
    {rounds : List (List Bool × Nat)} (hlanes : ∀ r ∈ rounds, r.1.length = n) :
    selectRounds rounds cursor = .ok (RoundRobin.rounds n (rounds.map fun r => (ready r.1, r.2)) cursor) := by
  induction rounds generalizing cursor with
  | nil => rfl
  | cons r rounds ih =>
    obtain rfl := hlanes r List.mem_cons_self
    have hnext : RoundRobin.next r.1.length cursor (RoundRobin.round (ready r.1) r.1.length cursor r.2) + r.1.length ≤
        u64Max + 1 := by
      rw [RoundRobin.next]
      split
      · rename_i last hlast
        have hlane := (RoundRobin.eligible_of_mem_round (List.mem_of_getLast? hlast)).1
        have hlt : (last + 1) % r.1.length < r.1.length := Nat.mod_lt _ ((Nat.zero_le last).trans_lt hlane)
        simp only [isizeMax, u64Max] at hn ⊢
        omega
      · exact hcursor
    rw [selectRounds, selectRound_eq_ok hcursor, Outcome.ok_bind]
    simp only [ih hnext fun r' hr' => hlanes r' (List.mem_cons_of_mem _ hr'), Outcome.ok_bind]
    rfl

/-- A round takes distinct eligible lanes, as many as it may and as there are, and a lane that stays
    eligible is taken within as many rounds as there are lanes, wherever the cursor is to begin with. -/
theorem selectRound_fair {n cursor : Nat} (hn : n ≤ isizeMax) (hcursor : cursor + n ≤ u64Max + 1) :
    (∀ (eligible : List Bool) (remaining : Nat), eligible.length = n →
      ∃ selected cursor', selectRound eligible cursor remaining = .ok (selected, cursor') ∧ selected.Nodup ∧
        (∀ lane ∈ selected, eligible[lane]? = some true) ∧ selected.length = min remaining (eligible.count true) ∧
        (cursor' < n ∨ selected = [] ∧ cursor' = cursor)) ∧
    ∀ (rounds : List (List Bool × Nat)) (lane : Nat), lane < n → rounds.length = n →
      (∀ r ∈ rounds, r.1.length = n ∧ r.1[lane]? = some true ∧ 1 ≤ r.2) →
      ∃ rs, selectRounds rounds cursor = .ok rs ∧ ∃ selected ∈ rs, lane ∈ selected := by
  constructor
  · rintro eligible remaining rfl
    refine ⟨_, _, selectRound_eq_ok hcursor, RoundRobin.round_nodup, fun lane hlane => ?_, ?_, ?_⟩
    · exact ready_eq_true.mp (RoundRobin.eligible_of_mem_round hlane).2
    · rw [RoundRobin.length_round, countP_ready]
    · rw [RoundRobin.next]
      split
      · rename_i last hlast
        have hlane := (RoundRobin.eligible_of_mem_round (List.mem_of_getLast? hlast)).1
        exact .inl (Nat.mod_lt _ ((Nat.zero_le last).trans_lt hlane))
      · rename_i hnone
        exact .inr ⟨List.getLast?_eq_none_iff.mp hnone, rfl⟩
  · intro rounds lane hlane hlength hstays
    refine ⟨_, selectRounds_eq_ok hn hcursor fun r hr => (hstays r hr).1, ?_⟩
    refine RoundRobin.selected_within hlane (by rw [List.length_map, hlength]) fun r hr => ?_
    obtain ⟨r, hmem, rfl⟩ := List.mem_map.mp hr
    obtain ⟨-, heligible, hremaining⟩ := hstays r hmem
    exact ⟨ready_eq_true.mpr heligible, hremaining⟩

theorem selectRound_fair_three :
    (∀ (eligible : List Bool) (remaining : Nat), eligible.length = 3 →
      ∃ selected cursor', selectRound eligible 7 remaining = .ok (selected, cursor') ∧ selected.Nodup ∧
        (∀ lane ∈ selected, eligible[lane]? = some true) ∧ selected.length = min remaining (eligible.count true) ∧
        (cursor' < 3 ∨ selected = [] ∧ cursor' = 7)) ∧
    ∀ (rounds : List (List Bool × Nat)) (lane : Nat), lane < 3 → rounds.length = 3 →
      (∀ r ∈ rounds, r.1.length = 3 ∧ r.1[lane]? = some true ∧ 1 ≤ r.2) →
      ∃ rs, selectRounds rounds 7 = .ok rs ∧ ∃ selected ∈ rs, lane ∈ selected :=
  selectRound_fair (by decide) (by decide)

/-- The sum of the cursor and an offset overflows at the end of the range. -/
theorem selectRound_overflow : selectRound [true, true, true] u64Max 3 = .panic := by decide

end Inferfabric.NativeWorker
