-- SUMMARY: Placement of the values that cross lowered layer boundaries, and when and how safely it succeeds.
import IronPangu.Ir.Serving
import IronPangu.Lib.FirstFit

open Rust FirstFit

/-!
# Activations

The hidden buffers of one sequence share an arena. Each is alive over an interval
of layer boundaries; `plan` gives every one a range of bytes, first fit in the
order in which they come alive, with all arithmetic checked.
-/

namespace Inferfabric.Native.Activation

open Ir

/-! ## The planner -/

def alignment : Nat := 512

structure Interval where
  bytes : Nat
  first : Nat
  last : Nat
  deriving DecidableEq, Repr

structure Plan where
  bytes : Nat
  offsets : List Nat
  deriving DecidableEq, Repr

def align (bytes : Nat) : Result Nat := do
  let n ← Outcome.okOr (checkedAdd u64Max bytes (alignment - 1)) (.invalid "activation alignment overflow")
  .ok (n / alignment * alignment)

/-- The variables of the loop: an interval is placed with its index in the list. -/
structure Placing where
  offsets : List Nat
  placed : List (Interval × Nat)
  bytes : Nat

/-- `offsets[j]`, where `j` is in range. -/
def Placing.offsetOf (s : Placing) (p : Interval × Nat) : Nat := s.offsets[p.2]?.getD 0

/-- What is placed already and alive with the value, in the order of the offsets. -/
def Placing.conflicts (s : Placing) (value : Interval) : List (Interval × Nat) :=
  (s.placed.filter fun p => p.1.last ≥ value.first ∧ p.1.first ≤ value.last).insertionSort
    fun p q => s.offsetOf p ≤ s.offsetOf q

/-- The loop over the conflicts. -/
def Placing.firstGap (s : Placing) (size : Nat) : Nat → List (Interval × Nat) → Result Nat
  | offset, [] => .ok offset
  | offset, j :: conflicts => do
    let stop ← Outcome.okOr (checkedAdd u64Max offset size) (.invalid "activation arena overflow")
    if stop ≤ s.offsetOf j then .ok offset
    else do
      let aligned ← align j.1.bytes
      let next ← Outcome.okOr (checkedAdd u64Max (s.offsetOf j) aligned) (.invalid "activation arena overflow")
      s.firstGap size (max offset next) conflicts

def Placing.place (s : Placing) (value : Interval) (i : Nat) : Result Placing :=
  if value.bytes = 0 ∨ value.first > value.last then invalid "invalid activation live interval"
  else do
    let size ← align value.bytes
    let offset ← s.firstGap size 0 (s.conflicts value)
    let stop ← Outcome.okOr (checkedAdd u64Max offset size) (.invalid "activation arena overflow")
    .ok ⟨s.offsets.set i offset, s.placed ++ [(value, i)], max s.bytes stop⟩

def Placing.placeAll : List (Interval × Nat) → Placing → Result Placing
  | [], s => .ok s
  | (value, i) :: order, s => do
    let s ← s.place value i
    placeAll order s

/-- The intervals with their indices, by first boundary and then by index. -/
def order (intervals : List Interval) : List (Interval × Nat) :=
  intervals.zipIdx.insertionSort fun p q => p.1.first < q.1.first ∨ p.1.first = q.1.first ∧ p.2 ≤ q.2

def plan (intervals : List Interval) : Result Plan := do
  let s ← Placing.placeAll (order intervals) ⟨List.replicate intervals.length 0, [], 0⟩
  .ok ⟨s.bytes, s.offsets⟩

/-! ## What a plan is for -/

/-- The bytes up to the next multiple of the alignment. -/
def alignUp (bytes : Nat) : Nat := (bytes + (alignment - 1)) / alignment * alignment

structure Plan.Safe (intervals : List Interval) (p : Plan) : Prop where
  length : p.offsets.length = intervals.length
  aligned : ∀ o ∈ p.offsets, alignment ∣ o
  within : ∀ (i : Nat) (v : Interval) (o : Nat), intervals[i]? = some v → p.offsets[i]? = some o → o + v.bytes ≤ p.bytes
  disjoint : ∀ (i j : Nat) (v w : Interval) (o o' : Nat), i ≠ j → intervals[i]? = some v → intervals[j]? = some w →
    p.offsets[i]? = some o → p.offsets[j]? = some o' → v.first ≤ w.last → w.first ≤ v.last →
    o + v.bytes ≤ o' ∨ o' + w.bytes ≤ o
  total : p.bytes ≤ (intervals.map fun v => alignUp v.bytes).sum

/-- Neither empty nor inverted. -/
def Interval.Valid (v : Interval) : Prop := 0 < v.bytes ∧ v.first ≤ v.last

instance : DecidablePred Interval.Valid := fun v =>
  inferInstanceAs (Decidable (0 < v.bytes ∧ v.first ≤ v.last))

/-! ## The placement as a first fit -/

def sizeOf (p : Interval × Nat) : Nat := alignUp p.1.bytes

def Overlapping (p q : Interval × Nat) : Prop := q.1.last ≥ p.1.first ∧ q.1.first ≤ p.1.last

instance : DecidableRel Overlapping := fun p q =>
  inferInstanceAs (Decidable (q.1.last ≥ p.1.first ∧ q.1.first ≤ p.1.last))

/-- The arena that first fit builds when numbers have no bound. -/
def arena (intervals : List Interval) : Arena (Interval × Nat) :=
  Arena.empty.placeAll sizeOf Overlapping (order intervals)

/-- The bytes first fit needs. -/
def needed (intervals : List Interval) : Nat := (arena intervals).bytes

theorem le_alignUp (bytes : Nat) : bytes ≤ alignUp bytes := by
  simp only [alignUp, alignment]
  omega

theorem dvd_sizeOf (p : Interval × Nat) : alignment ∣ sizeOf p :=
  Nat.dvd_mul_left _ _

/-- The largest number is one below a multiple of the alignment. -/
theorem align_eq (bytes : Nat) :
    align bytes =
      if alignUp bytes ≤ u64Max then .ok (alignUp bytes) else .err (.invalid "activation alignment overflow") := by
  have hiff : alignUp bytes ≤ u64Max ↔ bytes + (alignment - 1) ≤ u64Max := by
    simp only [alignUp, alignment, u64Max]
    omega
  unfold align checkedAdd
  simp only [hiff]
  split <;> rfl

/-- The loop's variables stand for the arena. -/
structure Placed (s : Placing) (a : Arena (Interval × Nat)) : Prop where
  bytes : s.bytes = a.bytes
  placed : s.placed = a.placed.map Prod.fst
  offsets : ∀ p ∈ a.placed, s.offsets[p.1.2]? = some p.2
  sound : a.Sound sizeOf Overlapping
  bounded : a.bytes ≤ u64Max

variable {s s' : Placing} {a : Arena (Interval × Nat)} {value : Interval} {i size offset : Nat}

theorem Placed.offsetOf (h : Placed s a) {p : (Interval × Nat) × Nat} (hp : p ∈ a.placed) :
    s.offsetOf p.1 = p.2 := by
  rw [Placing.offsetOf, h.offsets p hp, Option.getD_some]

theorem Placed.conflicts (h : Placed s a) : s.conflicts value = (a.against Overlapping (value, i)).map Prod.fst := by
  rw [Placing.conflicts, Arena.against, h.placed, List.filter_map]
  symm
  apply List.map_insertionSort
  intro p hp q hq
  rw [h.offsetOf (List.mem_of_mem_filter hp), h.offsetOf (List.mem_of_mem_filter hq)]

/-- The loop over the conflicts finds the gap, or the end of the gap is out of range. -/
theorem Placed.firstGap (h : Placed s a) {ps : List ((Interval × Nat) × Nat)} (hps : ∀ p ∈ ps, p ∈ a.placed) :
    s.firstGap size offset (ps.map Prod.fst) = .ok (fit size offset (ps.map (block sizeOf))) ∨
      s.firstGap size offset (ps.map Prod.fst) = .err (.invalid "activation arena overflow") ∧
        u64Max < fit size offset (ps.map (block sizeOf)) + size := by
  induction ps generalizing offset with
  | nil => exact Or.inl rfl
  | cons p ps ih =>
    have hp := hps p List.mem_cons_self
    have hstop : p.2 + alignUp p.1.1.bytes ≤ u64Max := (h.sound.within p hp).trans h.bounded
    have haligned : alignUp p.1.1.bytes ≤ u64Max := (Nat.le_add_left _ _).trans hstop
    rw [List.map_cons, List.map_cons, Placing.firstGap, fit, h.offsetOf hp, show (block sizeOf p).offset = p.2 from rfl]
    by_cases hend : offset + size ≤ u64Max
    · rw [checkedAdd, if_pos hend, Outcome.okOr_some, Outcome.ok_bind]
      by_cases hgap : offset + size ≤ p.2
      · rw [if_pos hgap, if_pos hgap]
        exact Or.inl rfl
      · rw [if_neg hgap, if_neg hgap, align_eq, if_pos haligned, Outcome.ok_bind, checkedAdd, if_pos hstop,
          Outcome.okOr_some, Outcome.ok_bind]
        exact ih fun q hq => hps q (List.mem_cons_of_mem p hq)
    · -- The gap is not before `offset`, so its end is out of range as well.
      rw [checkedAdd, if_neg hend, Outcome.okOr_none, Outcome.err_bind]
      refine Or.inr ⟨rfl, ?_⟩
      have hle : offset ≤ fit size offset (block sizeOf p :: ps.map (block sizeOf)) := le_fit
      rw [fit] at hle
      exact (Nat.lt_of_not_le hend).trans_le (Nat.add_le_add_right hle size)

theorem Placed.gap (h : Placed s a) (value : Interval) (i : Nat) :
    s.firstGap (alignUp value.bytes) 0 (s.conflicts value) = .ok (a.offset sizeOf Overlapping (value, i)) ∨
      s.firstGap (alignUp value.bytes) 0 (s.conflicts value) = .err (.invalid "activation arena overflow") ∧
        u64Max < a.offset sizeOf Overlapping (value, i) + alignUp value.bytes := by
  rw [h.conflicts (i := i)]
  exact h.firstGap fun p hp => (mem_against.mp hp).1

theorem Placed.step (h : Placed s a) (hlength : i < s.offsets.length) (hnew : i ∉ s.placed.map Prod.snd)
    {offset : Nat} (hoffset : offset = a.offset sizeOf Overlapping (value, i))
    (hbounded : offset + alignUp value.bytes ≤ u64Max) :
    Placed ⟨s.offsets.set i offset, s.placed ++ [(value, i)], max s.bytes (offset + alignUp value.bytes)⟩
      (a.place sizeOf Overlapping (value, i)) where
  bytes := by
    rw [h.bytes, hoffset]
    rfl
  placed := by
    rw [h.placed, Arena.place, List.map_append, List.map_singleton]
  offsets := by
    intro p hp
    rcases List.mem_append.mp hp with hp | hp
    · have hne : i ≠ p.1.2 := by
        intro heq
        apply hnew
        rw [h.placed, heq]
        exact List.mem_map_of_mem (List.mem_map_of_mem hp)
      exact (List.getElem?_set_ne hne).trans (h.offsets p hp)
    · obtain rfl := List.mem_singleton.mp hp
      exact (List.getElem?_set_self hlength).trans (congrArg some hoffset)
  sound := h.sound.place (value, i)
  bounded := max_le h.bounded (hoffset ▸ hbounded)

/-! ## The whole placement -/

theorem place_ok (h : Placed s a) (hlength : i < s.offsets.length) (hnew : i ∉ s.placed.map Prod.snd)
    (hvalid : value.Valid) (hbounded : (a.place sizeOf Overlapping (value, i)).bytes ≤ u64Max) :
    ∃ s', s.place value i = .ok s' ∧ Placed s' (a.place sizeOf Overlapping (value, i)) ∧
      s'.offsets.length = s.offsets.length := by
  have hstop : a.offset sizeOf Overlapping (value, i) + alignUp value.bytes ≤ u64Max :=
    (Nat.le_max_right _ _).trans hbounded
  have haligned : alignUp value.bytes ≤ u64Max := (Nat.le_add_left _ _).trans hstop
  have hgap := (h.gap value i).resolve_right fun h => Nat.not_lt.mpr hstop h.2
  refine ⟨_, ?_, h.step hlength hnew rfl hstop, List.length_set⟩
  have hguard : ¬(value.bytes = 0 ∨ value.first > value.last) :=
    not_or.mpr ⟨hvalid.1.ne', Nat.not_lt.mpr hvalid.2⟩
  rw [Placing.place, if_neg hguard, align_eq, if_pos haligned, Outcome.ok_bind, hgap, Outcome.ok_bind, checkedAdd,
    if_pos hstop]
  rfl

theorem place_err (h : Placed s a)
    (hfails : ¬(value.Valid ∧ (a.place sizeOf Overlapping (value, i)).bytes ≤ u64Max)) :
    ∃ error, s.place value i = .err error := by
  rw [Placing.place]
  split
  · exact ⟨_, rfl⟩
  · rename_i hguard
    have hvalid : value.Valid := ⟨Nat.pos_of_ne_zero (not_or.mp hguard).1, Nat.not_lt.mp (not_or.mp hguard).2⟩
    have hstop : u64Max < a.offset sizeOf Overlapping (value, i) + alignUp value.bytes := by
      apply Nat.lt_of_not_le
      intro hle
      exact hfails ⟨hvalid, max_le h.bounded hle⟩
    rw [align_eq]
    split
    · rw [Outcome.ok_bind]
      rcases h.gap value i with hgap | ⟨hgap, -⟩
      · rw [hgap, Outcome.ok_bind, checkedAdd, if_neg (Nat.not_le.mpr hstop)]
        exact ⟨_, rfl⟩
      · rw [hgap]
        exact ⟨_, rfl⟩
    · exact ⟨_, rfl⟩

/-- The remaining order holds each index once, none of them placed already. -/
structure Pending (s : Placing) (order : List (Interval × Nat)) : Prop where
  inRange : ∀ p ∈ order, p.2 < s.offsets.length
  distinct : (s.placed.map Prod.snd ++ order.map Prod.snd).Nodup

variable {order : List (Interval × Nat)}

theorem Pending.new (h : Pending s ((value, i) :: order)) : i ∉ s.placed.map Prod.snd := by
  have hdisjoint := (List.nodup_append.mp h.distinct).2.2
  intro hmem
  exact hdisjoint i hmem i List.mem_cons_self rfl

theorem Pending.step (h : Pending s ((value, i) :: order)) (hrun : s.place value i = .ok s')
    (hlength : s'.offsets.length = s.offsets.length) : Pending s' order where
  inRange := by
    intro p hp
    exact hlength.symm ▸ h.inRange p (List.mem_cons_of_mem _ hp)
  distinct := by
    have hplaced : s'.placed = s.placed ++ [(value, i)] := by
      rw [Placing.place] at hrun
      split at hrun
      · cases hrun
      · obtain ⟨_, -, hrun⟩ := Outcome.bind_eq_ok.mp hrun
        obtain ⟨_, -, hrun⟩ := Outcome.bind_eq_ok.mp hrun
        obtain ⟨_, -, hrun⟩ := Outcome.bind_eq_ok.mp hrun
        rw [← Outcome.ok.inj hrun]
    have hdistinct := h.distinct
    rwa [List.map_cons, ← List.singleton_append, ← List.append_assoc, ← List.map_singleton, ← List.map_append,
      ← hplaced] at hdistinct

theorem placeAll_ok (h : Placed s a) (hpending : Pending s order) (hvalid : ∀ p ∈ order, p.1.Valid)
    (hbounded : (a.placeAll sizeOf Overlapping order).bytes ≤ u64Max) :
    ∃ s', Placing.placeAll order s = .ok s' ∧ Placed s' (a.placeAll sizeOf Overlapping order) ∧
      s'.offsets.length = s.offsets.length := by
  induction order generalizing s a with
  | nil => exact ⟨s, rfl, h, rfl⟩
  | cons p order ih =>
    obtain ⟨value, i⟩ := p
    have hfirst : (a.place sizeOf Overlapping (value, i)).bytes ≤ u64Max := bytes_le_placeAll.trans hbounded
    obtain ⟨s₁, hrun, hplaced, hlength⟩ := place_ok h (hpending.inRange _ List.mem_cons_self) hpending.new
      (hvalid _ List.mem_cons_self) hfirst
    obtain ⟨s₂, hrest, hplaced', hlength'⟩ := ih hplaced (hpending.step hrun hlength)
      (fun p hp => hvalid p (List.mem_cons_of_mem _ hp)) hbounded
    refine ⟨s₂, ?_, hplaced', hlength'.trans hlength⟩
    rw [Placing.placeAll, hrun]
    exact hrest

theorem placeAll_err (h : Placed s a) (hpending : Pending s order)
    (hfails : ¬((∀ p ∈ order, p.1.Valid) ∧ (a.placeAll sizeOf Overlapping order).bytes ≤ u64Max)) :
    ∃ error, Placing.placeAll order s = .err error := by
  induction order generalizing s a with
  | nil => exact absurd ⟨nofun, h.bounded⟩ hfails
  | cons p order ih =>
    obtain ⟨value, i⟩ := p
    rw [Placing.placeAll]
    by_cases hfirst : value.Valid ∧ (a.place sizeOf Overlapping (value, i)).bytes ≤ u64Max
    · obtain ⟨s₁, hrun, hplaced, hlength⟩ :=
        place_ok h (hpending.inRange _ List.mem_cons_self) hpending.new hfirst.1 hfirst.2
      rw [hrun]
      apply ih hplaced (hpending.step hrun hlength)
      rintro ⟨hvalid, hbounded⟩
      exact hfails ⟨List.forall_mem_cons.mpr ⟨hfirst.1, hvalid⟩, hbounded⟩
    · obtain ⟨error, hrun⟩ := place_err h hfirst
      exact ⟨error, by rw [hrun, Outcome.err_bind]⟩

/-! ## Plans are safe -/

variable {intervals : List Interval}

theorem order_perm : List.Perm (Activation.order intervals) intervals.zipIdx :=
  List.perm_insertionSort _ _

theorem mem_order {v : Interval} : (v, i) ∈ Activation.order intervals ↔ intervals[i]? = some v :=
  order_perm.mem_iff.trans List.mem_zipIdx_iff_getElem?

/-- The variables before the loop. -/
def initial (intervals : List Interval) : Placing := ⟨List.replicate intervals.length 0, [], 0⟩

theorem placed_initial : Placed (initial intervals) Arena.empty where
  bytes := rfl
  placed := rfl
  offsets := nofun
  sound := Arena.Sound.empty
  bounded := Nat.zero_le _

theorem pending_initial : Pending (initial intervals) (Activation.order intervals) where
  inRange := by
    intro p hp
    obtain ⟨hlt, -⟩ := List.getElem?_eq_some_iff.mp (mem_order.mp hp)
    exact List.length_replicate.symm ▸ hlt
  distinct := by
    have hnodup : (intervals.zipIdx.map Prod.snd).Nodup := by
      rw [List.zipIdx_map_snd]
      exact List.nodup_range'
    exact (order_perm.map Prod.snd).nodup_iff.mpr hnodup

/-- Everything is valid, and first fit needs no more than there are addresses. -/
def Fits (intervals : List Interval) : Prop := (∀ v ∈ intervals, v.Valid) ∧ needed intervals ≤ u64Max

theorem forall_order {P : Interval → Prop} : (∀ p ∈ Activation.order intervals, P p.1) ↔ ∀ v ∈ intervals, P v := by
  constructor
  · intro h v hv
    obtain ⟨i, hi⟩ := List.mem_iff_getElem?.mp hv
    exact h (v, i) (mem_order.mpr hi)
  · intro h p hp
    exact h p.1 (List.mem_of_getElem? (mem_order.mp hp))

theorem plan_ok (h : Fits intervals) :
    ∃ s, plan intervals = .ok ⟨s.bytes, s.offsets⟩ ∧ Placed s (arena intervals) ∧
      s.offsets.length = intervals.length := by
  obtain ⟨s, hrun, hplaced, hlength⟩ :=
    placeAll_ok placed_initial pending_initial (forall_order.mpr h.1) h.2
  refine ⟨s, ?_, hplaced, hlength.trans List.length_replicate⟩
  rw [initial] at hrun
  rw [plan, hrun]
  rfl

theorem plan_err (h : ¬Fits intervals) : ∃ error, plan intervals = .err error := by
  have hfails : ¬((∀ p ∈ Activation.order intervals, p.1.Valid) ∧ needed intervals ≤ u64Max) :=
    fun hfits => h ⟨forall_order.mp hfits.1, hfits.2⟩
  obtain ⟨error, hrun⟩ := placeAll_err placed_initial pending_initial hfails
  refine ⟨error, ?_⟩
  rw [initial] at hrun
  rw [plan, hrun]
  rfl

theorem mem_arena {v : Interval} (hv : intervals[i]? = some v) : ∃ o, ((v, i), o) ∈ (arena intervals).placed := by
  have hmem : (v, i) ∈ (arena intervals).placed.map Prod.fst := by
    rw [arena, placed_placeAll]
    exact mem_order.mpr hv
  obtain ⟨⟨p, o⟩, hp, rfl⟩ := List.mem_map.mp hmem
  exact ⟨o, hp⟩

theorem Placed.mem (h : Placed s (arena intervals)) {v : Interval} {o : Nat} (hv : intervals[i]? = some v)
    (ho : s.offsets[i]? = some o) : ((v, i), o) ∈ (arena intervals).placed := by
  obtain ⟨o', hmem⟩ := mem_arena hv
  have hsame : o' = o := Option.some.inj ((h.offsets _ hmem).symm.trans ho)
  exact hsame ▸ hmem

theorem total_arena : needed intervals ≤ (intervals.map fun v => alignUp v.bytes).sum := by
  have htotal : needed intervals ≤ ((arena intervals).placed.map fun p => sizeOf p.1).sum :=
    (Arena.Sound.empty.placeAll (Activation.order intervals)).total
  have hsizes : (arena intervals).placed.map (fun p => sizeOf p.1) = (Activation.order intervals).map sizeOf := by
    have hplaced : (arena intervals).placed.map Prod.fst = Activation.order intervals := placed_placeAll
    rw [← hplaced, List.map_map]
    rfl
  have hsum : ((Activation.order intervals).map sizeOf).sum = (intervals.map fun v => alignUp v.bytes).sum := by
    rw [(order_perm.map sizeOf).sum_eq]
    nth_rewrite 2 [← List.zipIdx_map_fst 0 intervals]
    rw [List.map_map]
    rfl
  exact htotal.trans_eq (hsizes ▸ hsum)

/-- Blocks of different values that are alive together do not overlap, whichever was placed first. -/
theorem arena_disjoint {p q : (Interval × Nat) × Nat} (hp : p ∈ (arena intervals).placed)
    (hq : q ∈ (arena intervals).placed) (hne : p ≠ q) (hlive : Overlapping p.1 q.1) :
    (block sizeOf p).Disjoint (block sizeOf q) := by
  have hpairs : (arena intervals).placed.Pairwise fun p q => Overlapping p.1 q.1 →
      (block sizeOf p).Disjoint (block sizeOf q) :=
    (Arena.Sound.empty.placeAll (Activation.order intervals)).disjoint.imp
      fun h hlive => h ⟨hlive.2, hlive.1⟩
  have : Std.Symm fun p q : (Interval × Nat) × Nat => Overlapping p.1 q.1 →
      (block sizeOf p).Disjoint (block sizeOf q) :=
    ⟨fun p q h hlive => (h ⟨hlive.2, hlive.1⟩).symm⟩
  exact hpairs.forall hp hq hne hlive

theorem Placed.safe (h : Placed s (arena intervals)) (hlength : s.offsets.length = intervals.length) :
    Plan.Safe intervals ⟨s.bytes, s.offsets⟩ where
  length := hlength
  aligned := by
    intro o ho
    obtain ⟨i, hi⟩ := List.mem_iff_getElem?.mp ho
    have hlt : i < intervals.length := hlength ▸ (List.getElem?_eq_some_iff.mp hi).1
    have hmem := h.mem (List.getElem?_eq_getElem hlt) hi
    have haligned : (arena intervals).Aligned alignment := Arena.Aligned.empty.placeAll dvd_sizeOf _
    exact haligned.offsets _ hmem
  within := by
    intro i v o hv ho
    have hstop : o + alignUp v.bytes ≤ (arena intervals).bytes := h.sound.within _ (h.mem hv ho)
    exact h.bytes ▸ (Nat.add_le_add_left (le_alignUp v.bytes) o).trans hstop
  disjoint := by
    intro i j v w o o' hij hv hw ho ho' hvw hwv
    have hne : ((v, i), o) ≠ ((w, j), o') := by
      intro heq
      exact hij (congrArg (fun p => p.1.2) heq)
    rcases arena_disjoint (h.mem hv ho) (h.mem hw ho') hne ⟨hvw, hwv⟩ with hle | hle
    · exact Or.inl ((Nat.add_le_add_left (le_alignUp v.bytes) o).trans hle)
    · exact Or.inr ((Nat.add_le_add_left (le_alignUp w.bytes) o').trans hle)
  total := h.bytes.trans_le total_arena

/-- A plan never lets values that are alive together share bytes, and there is one whenever the intervals
are valid and first fit stays within the address space. -/
theorem plan_safe (intervals : List Interval) :
    (∀ p, plan intervals = .ok p → p.Safe intervals) ∧
      ((∃ error, plan intervals = .err error) ↔
        (∃ v ∈ intervals, v.bytes = 0 ∨ v.last < v.first) ∨ u64Max < needed intervals) ∧
      plan intervals ≠ .panic ∧
      needed intervals ≤ (intervals.map fun v => alignUp v.bytes).sum := by
  have hfits : ¬Fits intervals ↔
      (∃ v ∈ intervals, v.bytes = 0 ∨ v.last < v.first) ∨ u64Max < needed intervals := by
    simp only [Fits, Interval.Valid, not_and_or, not_forall, Nat.not_lt, Nat.le_zero, Nat.not_le, exists_prop]
  by_cases h : Fits intervals
  · obtain ⟨s, hrun, hplaced, hlength⟩ := plan_ok h
    rw [hrun, ← hfits]
    refine ⟨?_, ?_, nofun, total_arena⟩
    · intro p hp
      exact Outcome.ok.inj hp ▸ hplaced.safe hlength
    · exact iff_of_false nofun (not_not.mpr h)
  · obtain ⟨error, hrun⟩ := plan_err h
    rw [hrun, ← hfits]
    exact ⟨nofun, iff_of_true ⟨error, rfl⟩ h, nofun, total_arena⟩

/-- Two values of half the address space that are alive together: both are valid and both can be aligned,
but there is no arena for the two. -/
theorem plan_overflow :
    plan [⟨2 ^ 63, 0, 1⟩, ⟨2 ^ 63, 0, 1⟩] = .err (.invalid "activation arena overflow") ∧
      (∀ v ∈ [(⟨2 ^ 63, 0, 1⟩ : Interval), ⟨2 ^ 63, 0, 1⟩], v.Valid ∧ align v.bytes = .ok v.bytes) := by
  refine ⟨rfl, ?_⟩
  intro v hv
  obtain rfl : v = ⟨2 ^ 63, 0, 1⟩ := by simpa using hv
  exact ⟨by decide, rfl⟩

end Inferfabric.Native.Activation
