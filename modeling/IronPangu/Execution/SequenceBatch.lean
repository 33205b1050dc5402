-- SUMMARY: The layout of a packed sequence batch: where the rows of each member are, what they hold, and when a batch is refused.
import IronPangu.Execution.Plan

/-!
# Packed sequence batches

The layout is a family of parallel lists that different kernels read. All of them
are laid out by the running sums of the members' lengths.
-/

namespace Inferfabric.Execution.SequenceBatch

variable {sequences : List SequenceSlice} {residentCapacity tokenBudget context : Nat}

/-! ## Rows -/

/-- The first row of a member: the tokens of the members before it. -/
def offset (sequences : List SequenceSlice) (i : Nat) : Nat := ((sequences.take i).map (·.tokens)).sum

/-- The last rows of the members that sample, in the order of the members. -/
def lastRows (sequences : List SequenceSlice) : List Nat :=
  (sequences.zipIdx.filter (·.1.sample)).map fun (_, i) => offset sequences (i + 1) - 1

@[simp] theorem offset_zero : offset sequences 0 = 0 := by simp [offset]

theorem offset_length : offset sequences sequences.length = (sequences.map (·.tokens)).sum := by
  rw [offset, List.take_length]

theorem offset_succ {i : Nat} {s : SequenceSlice} (hs : sequences[i]? = some s) :
    offset sequences (i + 1) = offset sequences i + s.tokens := by
  rw [offset, List.take_add_one, hs]
  simp [offset]

theorem offset_append {i : Nat} (h : i ≤ sequences.length) (s : SequenceSlice) :
    offset (sequences ++ [s]) i = offset sequences i := by
  rw [offset, List.take_append_of_le_length h, offset]

theorem offset_mono {i j : Nat} (h : i ≤ j) : offset sequences i ≤ offset sequences j := by
  obtain ⟨n, rfl⟩ := Nat.exists_eq_add_of_le h
  rw [offset, offset, List.take_add, List.map_append, List.sum_append]
  exact Nat.le_add_right _ _

theorem offset_le_total (i : Nat) : offset sequences i ≤ (sequences.map (·.tokens)).sum := by
  rw [offset, List.map_take]
  exact (List.take_sublist i _).sum_le_sum fun _ _ => Nat.zero_le _

/-- The layout of the members: every list of it, by the running sums of their tokens. -/
structure Packs (sequences : List SequenceSlice) (out : SequenceBatch) : Prop where
  starts : out.starts = (List.range (sequences.length + 1)).map (offset sequences)
  queryEnds : out.queryEnds = (List.range sequences.length).map fun i => offset sequences (i + 1)
  residents : out.residents = sequences.map (·.resident)
  priorLengths : out.priorLengths = sequences.map (·.position)
  kvLengths : out.kvLengths = sequences.map fun s => s.position + s.tokens
  sizes : out.positions.length = (sequences.map (·.tokens)).sum ∧
    out.rowResidents.length = (sequences.map (·.tokens)).sum ∧
    out.lengths.length = (sequences.map (·.tokens)).sum
  rows : ∀ i s, sequences[i]? = some s → ∀ r < s.tokens,
    out.rowResidents[offset sequences i + r]? = some s.resident ∧
    out.positions[offset sequences i + r]? = some (s.position + r) ∧
    out.lengths[offset sequences i + r]? = some (s.position + r + 1)
  sampleRows : out.sampleRows = lastRows sequences
  sampleResidents : out.sampleResidents = (sequences.filter (·.sample)).map (·.resident)

theorem packs_empty : Packs [] empty where
  starts := rfl
  queryEnds := rfl
  residents := rfl
  priorLengths := rfl
  kvLengths := rfl
  sizes := ⟨rfl, rfl, rfl⟩
  rows i s hs := by simp at hs
  sampleRows := rfl
  sampleResidents := rfl

theorem lastRows_length : (lastRows sequences).length = (sequences.filter (·.sample)).length := by
  rw [lastRows, List.length_map, ← List.countP_eq_length_filter, ← List.countP_eq_length_filter]
  conv_rhs => rw [← List.zipIdx_map_fst 0 sequences, List.countP_map]
  rfl

theorem lastRows_append (s : SequenceSlice) : lastRows (sequences ++ [s]) =
    if s.sample then lastRows sequences ++ [(sequences.map (·.tokens)).sum + s.tokens - 1] else lastRows sequences := by
  have hold : ((sequences.zipIdx.filter (·.1.sample)).map fun (_, i) => offset (sequences ++ [s]) (i + 1) - 1) =
      lastRows sequences := by
    refine List.map_congr_left fun (t, i) hmem => ?_
    have hlt : i < sequences.length := (List.mem_zipIdx (List.mem_of_mem_filter hmem)).2.1.trans_eq (Nat.zero_add _)
    exact congrArg (· - 1) (offset_append hlt s)
  have hnew : offset (sequences ++ [s]) (sequences.length + 1) = (sequences.map (·.tokens)).sum + s.tokens := by
    rw [offset_succ (s := s) (by simp), offset_append le_rfl, offset_length]
  rw [lastRows, List.zipIdx_append, List.filter_append, List.map_append, hold]
  cases hs : s.sample <;> simp [hs, hnew]

/-- One more member goes behind the rows of the others. -/
theorem Packs.add {out : SequenceBatch} (h : Packs sequences out) (s : SequenceSlice) :
    Packs (sequences ++ [s]) (out.add s) := by
  obtain ⟨hpositions, hresidents, hlengths⟩ := h.sizes
  have htotal : (out.positions ++ (List.range s.tokens).map (s.position + ·)).length =
      (sequences.map (·.tokens)).sum + s.tokens := by
    simp [hpositions]
  have hlast : offset (sequences ++ [s]) (sequences.length + 1) = (sequences.map (·.tokens)).sum + s.tokens := by
    rw [offset_succ (s := s) (by simp), offset_append le_rfl, offset_length]
  have hoffsets : ∀ i ∈ List.range (sequences.length + 1), offset sequences i = offset (sequences ++ [s]) i :=
    fun i hi => (offset_append (Nat.lt_succ_iff.mp (List.mem_range.mp hi)) s).symm
  refine {
    starts := ?_
    queryEnds := ?_
    residents := by simp [SequenceBatch.add, h.residents]
    priorLengths := by simp [SequenceBatch.add, h.priorLengths]
    kvLengths := by simp [SequenceBatch.add, h.kvLengths]
    sizes := by simp [SequenceBatch.add, hpositions, hresidents, hlengths]
    rows := ?_
    sampleRows := ?_
    sampleResidents := by cases hs : s.sample <;> simp [SequenceBatch.add, h.sampleResidents, hs] }
  · rw [SequenceBatch.add, htotal, h.starts, List.map_congr_left hoffsets, List.length_append,
      List.length_singleton, List.range_succ (n := sequences.length + 1), List.map_append, List.map_singleton, hlast]
  · rw [SequenceBatch.add, htotal, h.queryEnds, List.length_append, List.length_singleton, List.range_succ,
      List.map_append, List.map_singleton, hlast]
    refine congrArg (· ++ _) (List.map_congr_left fun i hi => ?_)
    exact (offset_append (List.mem_range.mp hi) s).symm
  · intro i t ht r hr
    simp only [SequenceBatch.add]
    rcases Nat.lt_or_ge i sequences.length with hi | hi
    · rw [List.getElem?_append_left hi] at ht
      have hrow : offset sequences i + r < (sequences.map (·.tokens)).sum := by
        have hnext := offset_succ ht
        have hle : offset sequences (i + 1) ≤ _ := offset_le_total (i + 1)
        omega
      rw [offset_append hi.le, List.getElem?_append_left (hresidents ▸ hrow),
        List.getElem?_append_left (hpositions ▸ hrow), List.getElem?_append_left (hlengths ▸ hrow)]
      exact h.rows i t ht r hr
    · obtain rfl : i = sequences.length := by
        have hlt := (List.getElem?_eq_some_iff.mp ht).1
        simp only [List.length_append, List.length_singleton] at hlt
        omega
      obtain rfl : s = t := by simpa using ht
      rw [offset_append le_rfl, offset_length, List.getElem?_append_right (by omega),
        List.getElem?_append_right (by omega), List.getElem?_append_right (by omega), hpositions, hresidents,
        hlengths, Nat.add_sub_cancel_left]
      simp [hr]
  · rw [lastRows_append, ← h.sampleRows]
    simp only [SequenceBatch.add, htotal]

/-- The layout of a batch. -/
theorem packs_layout (sequences : List SequenceSlice) : Packs sequences (sequences.foldl SequenceBatch.add empty) := by
  induction sequences using List.reverseRecOn with
  | nil => exact packs_empty
  | append_singleton sequences s ih =>
    rw [List.foldl_append]
    exact ih.add s

/-! ## Which batches are laid out -/

/-- The limits a batch is made with. -/
def Limits (residentCapacity tokenBudget context : Nat) : Prop :=
  0 < residentCapacity ∧ residentCapacity ≤ int32Max ∧ 0 < tokenBudget ∧ tokenBudget ≤ int32Max ∧
    0 < context ∧ context ≤ int32Max

/-- The member names a resident and has tokens, which end within the context. -/
def Fits (residentCapacity context : Nat) (s : SequenceSlice) : Prop :=
  s.resident < residentCapacity ∧ s.tokens ≠ 0 ∧ s.position + s.tokens ≤ context

/-- The members that are laid out together. -/
structure Admissible (residentCapacity tokenBudget context : Nat) (sequences : List SequenceSlice) : Prop where
  members : ∀ s ∈ sequences, Fits residentCapacity context s
  distinct : (sequences.map (·.resident)).Nodup
  budget : (sequences.map (·.tokens)).sum ≤ tokenBudget

/-- The preflight, from the residents and the tokens it has seen. -/
theorem preflight_eq_ok {seen : List Nat} {total : Nat} (htotal : total ≤ tokenBudget) :
    preflight residentCapacity tokenBudget context seen total sequences = .ok () ↔
      (∀ s ∈ sequences, Fits residentCapacity context s ∧ s.resident ∉ seen) ∧
        (sequences.map (·.resident)).Nodup ∧ total + (sequences.map (·.tokens)).sum ≤ tokenBudget := by
  induction sequences generalizing seen total with
  | nil => simpa [preflight] using htotal
  | cons s sequences ih =>
    rw [preflight]
    simp only [List.forall_mem_cons, List.map_cons, List.nodup_cons, List.sum_cons, Fits]
    split
    · rename_i hbad
      simp only [reduceCtorEq, false_iff]
      rintro ⟨⟨⟨hfits, hseen⟩, -⟩, -⟩
      simp only [hseen, false_or] at hbad
      omega
    · rename_i hgood
      simp only [not_or] at hgood
      obtain ⟨hresident, hseen, htokens, hcontext⟩ := hgood
      split
      · simp only [reduceCtorEq, false_iff]
        omega
      · rw [ih (by omega)]
        simp only [List.mem_cons, not_or, Fits, List.mem_map, not_exists, not_and, Nat.add_assoc]
        constructor
        · rintro ⟨hmembers, hdistinct, hbudget⟩
          exact ⟨⟨⟨⟨by omega, htokens, by omega⟩, hseen⟩, fun t ht => ⟨(hmembers t ht).1, (hmembers t ht).2.2⟩⟩,
            ⟨fun t ht => (hmembers t ht).2.1, hdistinct⟩, hbudget⟩
        · rintro ⟨⟨-, hmembers⟩, ⟨hfresh, hdistinct⟩, hbudget⟩
          exact ⟨fun t ht => ⟨(hmembers t ht).1, hfresh t ht, (hmembers t ht).2⟩, hdistinct, hbudget⟩

/-- A batch is laid out exactly where its limits and its members are good. -/
theorem make_eq_ok {layout : SequenceBatch} :
    make sequences residentCapacity tokenBudget context = .ok layout ↔
      (Limits residentCapacity tokenBudget context ∧ sequences ≠ [] ∧
        Admissible residentCapacity tokenBudget context sequences) ∧
      layout = sequences.foldl SequenceBatch.add empty := by
  rw [make]
  split
  · rename_i hlimits
    simp only [reduceCtorEq, false_iff, Limits]
    rintro ⟨⟨⟨_, _, _, _, _, _⟩, hsome, -⟩, -⟩
    simp only [hsome, false_or] at hlimits
    omega
  · rename_i hlimits
    simp only [not_or] at hlimits
    have hgood : Limits residentCapacity tokenBudget context := by
      unfold Limits
      omega
    have hadmissible : preflight residentCapacity tokenBudget context [] 0 sequences = .ok () ↔
        Admissible residentCapacity tokenBudget context sequences := by
      rw [preflight_eq_ok (Nat.zero_le _)]
      simp only [List.not_mem_nil, not_false_eq_true, and_true, Nat.zero_add]
      exact ⟨fun ⟨hm, hd, hb⟩ => ⟨hm, hd, hb⟩, fun h => ⟨h.members, h.distinct, h.budget⟩⟩
    cases hpreflight : preflight residentCapacity tokenBudget context [] 0 sequences with
    | ok u =>
      simp only [hgood, hlimits.1, hadmissible.mp hpreflight, not_false_eq_true, ne_eq, and_self, true_and]
      exact ⟨fun h => (Except.ok.inj h).symm, fun h => congrArg _ h.symm⟩
    | error message =>
      have hrefused : ¬Admissible residentCapacity tokenBudget context sequences := by
        rw [← hadmissible, hpreflight]
        simp
      simp [hrefused, bind, Except.bind]

/-- A batch is refused exactly where a limit, the number of its members or a member is bad. -/
theorem make_error_iff : (∃ message, make sequences residentCapacity tokenBudget context = .error message) ↔
    ¬Limits residentCapacity tokenBudget context ∨ sequences = [] ∨
      (∃ s ∈ sequences, ¬Fits residentCapacity context s) ∨ ¬(sequences.map (·.resident)).Nodup ∨
      tokenBudget < (sequences.map (·.tokens)).sum := by
  have hmade : (∃ message, make sequences residentCapacity tokenBudget context = .error message) ↔
      ¬∃ layout, make sequences residentCapacity tokenBudget context = .ok layout := by
    cases make sequences residentCapacity tokenBudget context <;> simp
  have hadmissible : Admissible residentCapacity tokenBudget context sequences ↔
      (∀ s ∈ sequences, Fits residentCapacity context s) ∧ (sequences.map (·.resident)).Nodup ∧
        (sequences.map (·.tokens)).sum ≤ tokenBudget :=
    ⟨fun h => ⟨h.members, h.distinct, h.budget⟩, fun ⟨hm, hd, hb⟩ => ⟨hm, hd, hb⟩⟩
  simp only [hmade, make_eq_ok, exists_and_left, exists_eq, and_true, hadmissible, not_and_or, not_not,
    not_forall, not_le, exists_prop]

theorem packs_of_make {layout : SequenceBatch}
    (h : make sequences residentCapacity tokenBudget context = .ok layout) : Packs sequences layout := by
  obtain ⟨-, rfl⟩ := make_eq_ok.mp h
  exact packs_layout sequences

/-! ## Widths -/

/-- The lists of 32-bit integers hold nothing that does not fit. -/
structure Narrow (out : SequenceBatch) : Prop where
  starts : ∀ x ∈ out.starts, x ≤ int32Max
  queryEnds : ∀ x ∈ out.queryEnds, x ≤ int32Max
  residents : ∀ x ∈ out.residents, x ≤ int32Max
  rowResidents : ∀ x ∈ out.rowResidents, x ≤ int32Max
  positions : ∀ x ∈ out.positions, x ≤ int32Max
  priorLengths : ∀ x ∈ out.priorLengths, x ≤ int32Max
  kvLengths : ∀ x ∈ out.kvLengths, x ≤ int32Max

theorem rows_bounded (hmembers : ∀ s ∈ sequences, Fits residentCapacity context s) (out : SequenceBatch)
    (hresidents : ∀ x ∈ out.rowResidents, x < residentCapacity) (hpositions : ∀ x ∈ out.positions, x < context) :
    (∀ x ∈ (sequences.foldl SequenceBatch.add out).rowResidents, x < residentCapacity) ∧
      ∀ x ∈ (sequences.foldl SequenceBatch.add out).positions, x < context := by
  induction sequences generalizing out with
  | nil => exact ⟨hresidents, hpositions⟩
  | cons s sequences ih =>
    obtain ⟨hresident, -, hcontext⟩ := hmembers s List.mem_cons_self
    refine ih (fun t ht => hmembers t (List.mem_cons_of_mem _ ht)) _ ?_ ?_
    · intro x hx
      simp only [SequenceBatch.add, List.mem_append, List.mem_map] at hx
      obtain hx | ⟨r, -, rfl⟩ := hx
      · exact hresidents x hx
      · exact hresident
    · intro x hx
      simp only [SequenceBatch.add, List.mem_append, List.mem_map, List.mem_range] at hx
      obtain hx | ⟨r, hr, rfl⟩ := hx
      · exact hpositions x hx
      · omega

/-- No conversion to a 32-bit integer loses anything. -/
theorem narrow_of_make {layout : SequenceBatch}
    (h : make sequences residentCapacity tokenBudget context = .ok layout) : Narrow layout := by
  have hpacks := packs_of_make h
  obtain ⟨⟨⟨-, hcapacity, -, hbudget, -, hcontext⟩, -, hadmissible⟩, hlayout⟩ := make_eq_ok.mp h
  obtain ⟨hresidents, hpositions⟩ := rows_bounded hadmissible.members empty (by simp [empty]) (by simp [empty])
  rw [← hlayout] at hresidents hpositions
  have hoffset : ∀ i, offset sequences i ≤ int32Max := fun i =>
    (offset_le_total i).trans (hadmissible.budget.trans hbudget)
  refine {
    starts := fun x hx => ?_
    queryEnds := fun x hx => ?_
    residents := fun x hx => ?_
    rowResidents := fun x hx => (hresidents x hx).le.trans hcapacity
    positions := fun x hx => (hpositions x hx).le.trans hcontext
    priorLengths := fun x hx => ?_
    kvLengths := fun x hx => ?_ }
  · rw [hpacks.starts] at hx
    obtain ⟨i, -, rfl⟩ := List.mem_map.mp hx
    exact hoffset i
  · rw [hpacks.queryEnds] at hx
    obtain ⟨i, -, rfl⟩ := List.mem_map.mp hx
    exact hoffset (i + 1)
  · rw [hpacks.residents] at hx
    obtain ⟨s, hs, rfl⟩ := List.mem_map.mp hx
    exact (hadmissible.members s hs).1.le.trans hcapacity
  · rw [hpacks.priorLengths] at hx
    obtain ⟨s, hs, rfl⟩ := List.mem_map.mp hx
    exact ((Nat.le_add_right _ _).trans (hadmissible.members s hs).2.2).trans hcontext
  · rw [hpacks.kvLengths] at hx
    obtain ⟨s, hs, rfl⟩ := List.mem_map.mp hx
    exact (hadmissible.members s hs).2.2.trans hcontext

end Inferfabric.Execution.SequenceBatch
