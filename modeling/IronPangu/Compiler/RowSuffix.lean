-- SUMMARY: A planned output suffix computes the selected rows, has no other readers, and passes the native reader.
import IronPangu.Compiler.OutputRows

open Rust Std

/-!
# The row suffix

`Suffix` is what the planner establishes while it walks back: a chain of instructions to
the end of the program, each reading only the one before it. The claims on a planned
range are inductions on it.
-/

namespace Inferfabric.Compiler.Rows

/-- From `first` to the end, each step reads only what the previous one computed, the first
    one reads `source`. -/
inductive Suffix (nodes : List Instruction) : Nat → Nat → Prop where
  | done {k : Nat} : k + 1 = nodes.length → Suffix nodes k (k + 1)
  | one {source first : Nat} {n : Instruction} : nodes[first]? = some n → independent n = true → n.inputs = [source] →
      Suffix nodes first (first + 1) → Suffix nodes source first
  | two {source first : Nat} {gather n : Instruction} : nodes[first]? = some gather → nodes[first + 1]? = some n →
      gathersHeads gather n = true → n.op = "head_to_token" → n.kind = 0 → n.inputs = [first] →
      gather.inputs = [source] → Suffix nodes (first + 1) (first + 2) → Suffix nodes source first

variable {nodes : List Instruction} {uses : List Nat} {source first : Nat} {n : Instruction}

theorem Suffix.le_length (h : Suffix nodes source first) : first ≤ nodes.length := by
  induction h with
  | done hk => exact hk.le
  | one hn _ _ _ _ => exact (List.getElem?_eq_some_iff.mp hn).1.le
  | two hn _ _ _ _ _ _ _ _ => exact (List.getElem?_eq_some_iff.mp hn).1.le

/-! ## The planner finds one -/

theorem independent_iff : independent n = true ↔ n.kind = 0 ∧ n.inputs.length = 1 ∧ n.op ∈ rowOps := by
  simp [independent, and_assoc]

theorem gathersHeads_iff {gather : Instruction} : gathersHeads gather n = true ↔
    gather.op = "gather_heads" ∧ gather.kind = 0 ∧ gather.inputs.length = 1 ∧ gather.width = n.width ∧
      gather.attrs["heads"]?.isSome = true ∧ gather.attrs["heads"]? = n.attrs["heads"]? := by
  simp [gathersHeads, and_assoc]

theorem inputs_eq_singleton (hlength : n.inputs.length = 1) (hinput : firstInput n = .ok source) :
    n.inputs = [source] := by
  obtain ⟨i, hi⟩ := List.length_eq_one_iff.mp hlength
  rw [firstInput, hi] at hinput
  rw [hi, Outcome.ok.inj hinput]

/-- The suffix starts at `first`, with an instruction that reads `source`. -/
structure Starts (nodes : List Instruction) (source first : Nat) : Prop where
  suffix : Suffix nodes source first
  reads : ∃ n, nodes[first]? = some n ∧ n.inputs = [source]

theorem independentStep_true (h : independentStep nodes n = .ok true) :
    independent n = true ∧ ∃ source, n.inputs = [source] := by
  unfold independentStep at h
  split at h
  · rename_i hindependent
    obtain ⟨i, hi, -⟩ := Outcome.bind_eq_ok.mp h
    exact ⟨hindependent, i, inputs_eq_singleton (independent_iff.mp hindependent).2.1 hi⟩
  · cases h

theorem suffixStep_some {stop start : Nat} (h : suffixStep nodes uses stop = .ok (some start))
    (hrest : Suffix nodes stop (stop + 1)) : start ≤ stop ∧ ∃ source, Starts nodes source start := by
  obtain ⟨n, hn, h⟩ := Outcome.bind_eq_ok.mp h
  obtain ⟨alone, halone, h⟩ := Outcome.bind_eq_ok.mp h
  replace hn := Outcome.unwrap_eq_ok.mp hn
  cases alone with
  | true =>
    obtain rfl : stop = start := Option.some.inj (Outcome.ok.inj h)
    obtain ⟨hindependent, source, hinputs⟩ := independentStep_true halone
    exact ⟨le_rfl, source, .one hn hindependent hinputs hrest, n, hn, hinputs⟩
  | false =>
    simp only [Bool.false_eq_true, if_false, pairStep] at h
    split at h
    · rename_i hpair
      obtain ⟨hpos, hop, hinputs, hkind⟩ := hpair
      obtain ⟨gather, hgather, h⟩ := Outcome.bind_eq_ok.mp h
      obtain ⟨used, -, h⟩ := Outcome.bind_eq_ok.mp h
      replace h := Outcome.ok.inj h
      split at h
      · rename_i hheads
        obtain rfl : stop - 1 = start := Option.some.inj h
        obtain ⟨k, rfl⟩ := Nat.exists_eq_add_one_of_ne_zero (Nat.ne_of_gt hpos)
        rw [Nat.add_sub_cancel] at hgather hinputs ⊢
        replace hgather := Outcome.unwrap_eq_ok.mp hgather
        obtain ⟨source, hsource⟩ := List.length_eq_one_iff.mp (gathersHeads_iff.mp hheads.1).2.2.1
        exact ⟨Nat.le_succ k, source, .two hgather hn hheads.1 hop hkind hinputs hsource hrest, gather, hgather, hsource⟩
      · cases h
    · cases h

/-- The walk stays on suffixes. -/
theorem extend_starts {fuel first' : Nat} (h : extend nodes uses fuel first = .ok first')
    (hstarts : ∃ source, Starts nodes source first) : ∃ source, Starts nodes source first' := by
  induction fuel generalizing first with
  | zero =>
    obtain rfl := Outcome.ok.inj h
    exact hstarts
  | succ fuel ih =>
    rw [extend] at h
    split at h
    · obtain rfl := Outcome.ok.inj h
      exact hstarts
    obtain ⟨n, hn, h⟩ := Outcome.bind_eq_ok.mp h
    obtain ⟨input, hinput, h⟩ := Outcome.bind_eq_ok.mp h
    obtain ⟨used, -, h⟩ := Outcome.bind_eq_ok.mp h
    split at h
    · obtain rfl := Outcome.ok.inj h
      exact hstarts
    rename_i hnext
    obtain ⟨step, hstep, hturn⟩ := Outcome.bind_eq_ok.mp h
    cases step with
    | none =>
      obtain rfl := Outcome.ok.inj hturn
      exact hstarts
    | some start =>
      obtain ⟨source, hsuffix, n', hn', hinputs⟩ := hstarts
      obtain rfl := Option.some.inj ((Outcome.unwrap_eq_ok.mp hn).symm.trans hn')
      rw [firstInput, hinputs] at hinput
      obtain rfl : source = input := Outcome.ok.inj hinput
      obtain rfl : source + 1 = first := not_not.mp fun hne => hnext (.inl hne)
      exact ih hturn (suffixStep_some hstep hsuffix).2

/-- More turns than instructions change nothing. -/
theorem extend_enough {fuel : Nat} (hfuel : first ≤ fuel) (hstarts : ∃ source, Starts nodes source first) :
    extend nodes uses (fuel + 1) first = extend nodes uses fuel first := by
  induction fuel generalizing first with
  | zero =>
    obtain rfl := Nat.le_zero.mp hfuel
    rfl
  | succ fuel ih =>
    rw [extend, extend]
    split
    · rfl
    rename_i hpos
    obtain ⟨source, hsuffix, n, hn, hinputs⟩ := hstarts
    rw [hn, Outcome.unwrap_some, Outcome.ok_bind, Outcome.ok_bind, firstInput, hinputs]
    simp only [List.getElem?_cons_zero, Outcome.unwrap_some, Outcome.ok_bind]
    cases uses[source]? with
    | none => rfl
    | some used =>
      rw [Outcome.unwrap_some, Outcome.ok_bind, Outcome.ok_bind]
      split
      · rfl
      rename_i hnext
      obtain rfl : source + 1 = first := not_not.mp fun hne => hnext (.inl hne)
      cases hstep : suffixStep nodes uses source with
      | err e => rfl
      | panic => rfl
      | ok step =>
        rw [Outcome.ok_bind, Outcome.ok_bind]
        cases step with
        | none => rfl
        | some start =>
          obtain ⟨hle, hnextStarts⟩ := suffixStep_some hstep hsuffix
          exact ih (by omega) hnextStarts

theorem topological_iff : topological nodes = true ↔
    ∀ (id : Nat) n, nodes[id]? = some n → ∀ i ∈ n.inputs, i < id := by
  rw [topological, List.all_eq_true]
  constructor
  · intro h id n hn i hi
    have hmem : (n, id) ∈ nodes.zipIdx := List.mk_mem_zipIdx_iff_getElem?.mpr hn
    exact of_decide_eq_true (List.all_eq_true.mp (h _ hmem) i hi)
  · rintro h ⟨n, id⟩ hmem
    rw [List.all_eq_true]
    exact fun i hi => decide_eq_true (h id n (List.mk_mem_zipIdx_iff_getElem?.mp hmem) i hi)

/-- What `plan` establishes of a range. -/
structure Planned (nodes : List Instruction) (output : Nat) (r : OutputRows) : Prop where
  ordered : topological nodes = true
  whole : output + 1 = nodes.length
  last : r.last = output
  starts : Starts nodes r.source r.first
  width : ∃ s, nodes[r.source]? = some s ∧ s.kind = 0 ∧ s.width = r.sourceWidth ∧ s.width ≠ 0

theorem plan_some {output : Nat} {r : OutputRows} (h : plan nodes output = .ok (some r)) : Planned nodes output r := by
  unfold plan at h
  split at h
  · cases h
  rename_i hvalid
  split at h
  · cases h
  rename_i hlast
  obtain ⟨step, hstep, h⟩ := Outcome.bind_eq_ok.mp h
  cases step with
  | none => cases h
  | some start =>
    have hend : output + 1 = nodes.length := not_not.mp hlast
    obtain ⟨first, hfirst, h⟩ := Outcome.bind_eq_ok.mp h
    obtain ⟨source, hstarts⟩ := extend_starts hfirst (suffixStep_some hstep (.done hend)).2
    obtain ⟨hsuffix, n, hn, hinputs⟩ := hstarts
    rw [planFrom, hn, Outcome.unwrap_some, Outcome.ok_bind, firstInput, hinputs] at h
    simp only [List.getElem?_cons_zero, Outcome.unwrap_some, Outcome.ok_bind] at h
    obtain ⟨s, hs, h⟩ := Outcome.bind_eq_ok.mp h
    replace h := Outcome.ok.inj h
    split at h
    · cases h
    rename_i hwidth
    obtain rfl := Option.some.inj h
    obtain ⟨hkind, hwidth⟩ := not_or.mp hwidth
    exact ⟨Bool.not_eq_false _ ▸ fun htop => hvalid (.inr htop), hend, rfl, ⟨hsuffix, n, hn, hinputs⟩,
      s, Outcome.unwrap_eq_ok.mp hs, not_not.mp hkind, rfl, hwidth⟩

/-! ## Selected rows -/

section

variable {σ ρ : Type} {sem : Semantics σ ρ}

theorem execute_length (st : List (List ρ) × σ) (n : Instruction) : (execute sem st n).1.length = st.1.length + 1 := by
  simp [execute]

theorem run_length (ns : List Instruction) (st : List (List ρ) × σ) :
    (run sem ns st).1.length = st.1.length + ns.length := by
  induction ns generalizing st with
  | nil => rfl
  | cons n ns ih =>
    rw [run, List.foldl_cons]
    refine (ih (execute sem st n)).trans ?_
    rw [execute_length, List.length_cons]
    omega

theorem select_map (rows : List Nat) (v : List ρ) (f : ρ → ρ) : select rows (v.map f) = (select rows v).map f := by
  rw [select, select, List.map_filterMap]
  refine List.filterMap_congr fun row _ => ?_
  rw [List.getElem?_map]

theorem getD_concat (values : List (List ρ)) (v : List ρ) : (values ++ [v]).getD values.length [] = v := by
  simp [List.getD]

/-- A suffix maps one function over the rows of its source, and leaves the state alone. -/
theorem Suffix.run_map (h : Suffix nodes source first) (hsem : RowWise sem) :
    ∃ f : ρ → ρ, ∀ st : List (List ρ) × σ, st.1.length = first →
      (run sem (nodes.drop first) st).1.getD (nodes.length - 1) [] = (st.1.getD source []).map f ∧
      (run sem (nodes.drop first) st).2 = st.2 := by
  induction h with
  | @done k hk =>
    refine ⟨id, fun st _ => ?_⟩
    rw [hk, List.drop_length, List.map_id, ← hk, Nat.add_sub_cancel]
    exact ⟨rfl, rfl⟩
  | @one source first n hn hindependent hinputs hrest ih =>
    obtain ⟨f, hf⟩ := ih
    obtain ⟨g, hg⟩ := hsem.ordinary n hindependent
    refine ⟨f ∘ g, fun st hlength => ?_⟩
    obtain ⟨hlt, rfl⟩ := List.getElem?_eq_some_iff.mp hn
    have hstep : execute sem st nodes[first] = (st.1 ++ [(st.1.getD source []).map g], st.2) := by
      rw [execute, hinputs, List.map_singleton, hg]
    rw [List.drop_eq_getElem_cons hlt, run, List.foldl_cons, hstep]
    obtain ⟨hvalue, hstate⟩ := hf (st.1 ++ [(st.1.getD source []).map g], st.2) (by simp [hlength])
    refine ⟨hvalue.trans ?_, hstate⟩
    rw [← hlength, getD_concat, List.map_map]
  | @two source first gather n hgather hn hheads hop hkind hinputs hsource hrest ih =>
    obtain ⟨f, hf⟩ := ih
    obtain ⟨g, hg⟩ := hsem.pair gather n hheads hop
    refine ⟨f ∘ g, fun st hlength => ?_⟩
    obtain ⟨hlt, rfl⟩ := List.getElem?_eq_some_iff.mp hgather
    obtain ⟨hlt', rfl⟩ := List.getElem?_eq_some_iff.mp hn
    -- The gathered heads are only read by the conversion.
    obtain ⟨u, s, hu⟩ : ∃ u s, sem nodes[first] [st.1.getD source []] st.2 = (u, s) := ⟨_, _, rfl⟩
    have hpair := hg (st.1.getD source []) st.2
    rw [hu] at hpair
    have hfirst : execute sem st nodes[first] = (st.1 ++ [u], s) := by
      rw [execute, hsource, List.map_singleton, hu]
    have hsecond : execute sem (st.1 ++ [u], s) nodes[first + 1] =
        (st.1 ++ [u] ++ [(st.1.getD source []).map g], st.2) := by
      have hread : (st.1 ++ [u]).getD first [] = u := by rw [← hlength, getD_concat]
      rw [execute, hinputs, List.map_singleton]
      dsimp only
      rw [hread, hpair]
    rw [List.drop_eq_getElem_cons hlt, List.drop_eq_getElem_cons hlt', run, List.foldl_cons, List.foldl_cons, hfirst,
      hsecond]
    obtain ⟨hvalue, hstate⟩ := hf (st.1 ++ [u] ++ [(st.1.getD source []).map g], st.2) (by simp [hlength])
    refine ⟨hvalue.trans ?_, hstate⟩
    have hlast : (st.1 ++ [u]).length = first + 1 := by simp [hlength]
    rw [← hlast, getD_concat, List.map_map]

theorem compact_same {output : Nat} {r : OutputRows} (h : Planned nodes output r) (hsem : RowWise sem) (rows : List Nat)
    (s : σ) : runCompact sem nodes r rows s = runAll sem nodes output rows s := by
  obtain ⟨f, hf⟩ := h.starts.suffix.run_map hsem
  obtain ⟨n, hn, hinputs⟩ := h.starts.reads
  have hfirst : r.first < nodes.length := (List.getElem?_eq_some_iff.mp hn).1
  have hsource : r.source < r.first := topological_iff.mp h.ordered r.first n hn r.source (hinputs ▸ List.mem_singleton_self _)
  have hlength : (run sem (nodes.take r.first) ([], s)).1.length = r.first := by
    rw [run_length, List.length_take]
    simp [hfirst.le]
  have hall : run sem nodes ([], s) = run sem (nodes.drop r.first) (run sem (nodes.take r.first) ([], s)) := by
    rw [run, run, run, ← List.foldl_append, List.take_append_drop]
  have hlast : output = nodes.length - 1 := by
    rw [← h.whole, Nat.add_sub_cancel]
  obtain ⟨hvalue, hstate⟩ := hf (run sem (nodes.take r.first) ([], s)) hlength
  rw [runAll, runCompact, hall, h.last, hlast]
  rw [hvalue, hstate, select_map]
  generalize run sem (nodes.take r.first) ([], s) = st at hlength ⊢
  obtain ⟨hvalue', hstate'⟩ :=
    hf (st.1.set r.source (select rows (st.1.getD r.source [])), st.2) (by rw [List.length_set]; exact hlength)
  refine Prod.ext (hvalue'.trans ?_) hstate'
  congr 1
  rw [List.getD_eq_getElem?_getD, List.getElem?_set_self (hlength ▸ hsource), Option.getD_some]

end

/-! ## The range -/

/-- A step of a suffix: a row operation, or half of a pair that lies in the range. -/
def RowStep (nodes : List Instruction) (r : OutputRows) (i : Nat) : Prop :=
  ∃ n, nodes[i]? = some n ∧ n.kind = 0 ∧ n.inputs = [if i = r.first then r.source else i - 1] ∧
    (n.op ∈ rowOps ∨
      (∃ next, nodes[i + 1]? = some next ∧ i < r.last ∧ gathersHeads n next = true ∧ next.op = "head_to_token") ∨
      (∃ gather, nodes[i - 1]? = some gather ∧ r.first < i ∧ gathersHeads gather n = true ∧ n.op = "head_to_token"))

theorem Suffix.row_steps (h : Suffix nodes source first) {r : OutputRows} (hlast : r.last + 1 = nodes.length)
    (hfirst : r.first ≤ first) (hsource : source = if first = r.first then r.source else first - 1) :
    ∀ i, first ≤ i → i ≤ r.last → RowStep nodes r i := by
  have hnext : ∀ k, r.first ≤ k → k = if k + 1 = r.first then r.source else k + 1 - 1 := by
    intro k hk
    rw [if_neg (by omega), Nat.add_sub_cancel]
  induction h with
  | @done k hk =>
    intro i hi hle
    omega
  | @one source first n hn hindependent hinputs hrest ih =>
    intro i hi hle
    rcases Nat.eq_or_lt_of_le hi with rfl | hlt
    · obtain ⟨hkind, -, hop⟩ := independent_iff.mp hindependent
      exact ⟨n, hn, hkind, hsource ▸ hinputs, .inl hop⟩
    · exact ih (Nat.le_succ_of_le hfirst) (hnext first hfirst) i hlt hle
  | @two source first gather n hgather hn hheads hop hkind hinputs hgather_inputs hrest ih =>
    intro i hi hle
    have hlt' := (List.getElem?_eq_some_iff.mp hn).1
    rcases Nat.eq_or_lt_of_le hi with rfl | hlt
    · refine ⟨gather, hgather, (gathersHeads_iff.mp hheads).2.1, hsource ▸ hgather_inputs, .inr (.inl ?_)⟩
      exact ⟨n, hn, by omega, hheads, hop⟩
    rcases Nat.eq_or_lt_of_le (show first + 1 ≤ i from hlt) with rfl | hlt₂
    · refine ⟨n, hn, hkind, ?_, .inr (.inr ⟨gather, hgather, by omega, hheads, hop⟩)⟩
      rw [← hnext first hfirst]
      exact hinputs
    · exact ih (by omega) (hnext (first + 1) (by omega)) i hlt₂ hle

theorem Planned.row_steps {output : Nat} {r : OutputRows} (h : Planned nodes output r) :
    ∀ i, r.first ≤ i → i ≤ r.last → RowStep nodes r i :=
  h.starts.suffix.row_steps (h.last ▸ h.whole) le_rfl (if_pos rfl).symm

/-- What is computed inside the range is read inside it. -/
theorem Planned.closed {output : Nat} {r : OutputRows} (h : Planned nodes output r) {j : Nat} (hj : nodes[j]? = some n)
    (hout : ¬(r.first ≤ j ∧ j ≤ r.last)) : ∀ i ∈ n.inputs, ¬(r.first ≤ i ∧ i ≤ r.last) := by
  rintro i hi ⟨hfirst, -⟩
  have hlt := topological_iff.mp h.ordered j n hj i hi
  have hlength := (List.getElem?_eq_some_iff.mp hj).1
  have hlast := h.last ▸ h.whole
  omega

/-! ## The native reader -/

theorem RowStep.check {r : OutputRows} {i : Nat} (h : RowStep nodes r i) : checkNode nodes r i = .ok () := by
  obtain ⟨n, hn, hkind, hinputs, hop⟩ := h
  rw [checkNode, hn, Outcome.unwrap_some, Outcome.ok_bind, if_neg (by simp [hkind, hinputs])]
  refine if_pos ?_
  rcases hop with hop | ⟨next, hnext, hlt, hheads, hnextOp⟩ | ⟨gather, hgather, hlt, hheads, hnOp⟩
  · simp [hop]
  · obtain ⟨hgop, -, -, hwidth, hsome, hsame⟩ := gathersHeads_iff.mp hheads
    have hmem : "heads" ∈ next.attrs := ExtTreeMap.isSome_getElem?_iff_mem.mp (hsame ▸ hsome)
    simp [hgop, hlt, hnext, hnextOp, hwidth, hsame, hmem]
  · obtain ⟨hgop, -⟩ := gathersHeads_iff.mp hheads
    simp [hnOp, hlt, hgather, hgop]

theorem Planned.check {output : Nat} {r : OutputRows} (h : Planned nodes output r) : checkRows nodes output r = .ok () := by
  obtain ⟨s, hs, hkind, hwidth, hpos⟩ := h.width
  obtain ⟨n, hn, hinputs⟩ := h.starts.reads
  have hfirst : r.first < nodes.length := (List.getElem?_eq_some_iff.mp hn).1
  have hsource : r.source < r.first := topological_iff.mp h.ordered r.first n hn r.source (hinputs ▸ List.mem_singleton_self _)
  have hrange : ¬(r.source ≥ r.first ∨ r.first ≥ nodes.length ∨ r.last ≠ output ∨ output ≠ nodes.length - 1) := by
    have hwhole := h.whole
    have hlast := h.last
    omega
  have hwidth' : ¬(s.kind ≠ 0 ∨ s.width ≠ r.sourceWidth ∨ r.sourceWidth = 0) := by
    rw [← hwidth]
    simp [hkind, hpos]
  have hall : Outcome.collect (checkNode nodes r) (List.range' r.first (r.last + 1 - r.first)) =
      .ok ((List.range' r.first (r.last + 1 - r.first)).map fun _ => ()) := by
    refine Outcome.collect_eq_map fun i hi => (h.row_steps i ?_ ?_).check <;>
    · rw [List.mem_range'_1] at hi
      omega
  rw [checkRows, if_neg hrange, hs, Outcome.unwrap_some, Outcome.ok_bind, if_neg hwidth', hall, Outcome.ok_bind]
  rfl

theorem word_eq {n : Nat} (h : n < 2 ^ 32) : word n = n := Nat.mod_eq_of_lt h

/-- What is written of a validated program is read back unchanged. -/
theorem encodeNode_eq {maxContext : Nat} (h : Validated maxContext nodes) (htop : topological nodes = true)
    {n : Instruction} (hn : n ∈ nodes) : encodeNode n = n := by
  obtain ⟨id, hid⟩ := List.getElem?_of_mem hn
  have hlt := (List.getElem?_eq_some_iff.mp hid).1
  have hlength := h.length
  have hinputs : n.inputs.map word = n.inputs := by
    refine (List.map_congr_left fun i hi => word_eq ?_).trans (List.map_id _)
    have := topological_iff.mp htop id n hid i hi
    omega
  have hkind : word n.kind = n.kind := by
    refine word_eq ?_
    have := h.kinds n hn
    omega
  have hwidth : word n.width = n.width := by
    refine word_eq ?_
    have hcontext := h.context
    rcases h.widths n hn with hle | ⟨-, heq⟩ <;> omega
  rw [encodeNode, hinputs, hkind, hwidth]

theorem Planned.check_encoded {output maxContext : Nat} {r : OutputRows} (h : Planned nodes output r)
    (hvalid : Validated maxContext nodes) : checkRows (nodes.map encodeNode) (word output) (encodeRows r) = .ok () := by
  have hnodes : nodes.map encodeNode = nodes :=
    (List.map_congr_left fun n hn => encodeNode_eq hvalid h.ordered hn).trans (List.map_id _)
  have hlength := hvalid.length
  have hwhole := h.whole
  obtain ⟨s, hs, -, hwidth, -⟩ := h.width
  obtain ⟨n, hn, -⟩ := h.starts.reads
  have hsource := (List.getElem?_eq_some_iff.mp hs).1
  have hfirst := (List.getElem?_eq_some_iff.mp hn).1
  have hsourceWidth : word r.sourceWidth = r.sourceWidth := by
    rw [← hwidth]
    exact congrArg Instruction.width (encodeNode_eq hvalid h.ordered (List.mem_of_getElem? hs))
  have hrows : encodeRows r = r := by
    rw [encodeRows, hsourceWidth, word_eq (by omega), word_eq (by omega), word_eq (by rw [h.last]; omega)]
  rw [hnodes, hrows, word_eq (by omega)]
  exact h.check

/-- A planned range computes the selected rows of the whole program, nothing outside it reads
    what is computed in it, it holds row operations only, and the native reader takes it. -/
theorem output_rows_sound {output : Nat} {r : OutputRows} (h : plan nodes output = .ok (some r)) :
    (∀ {σ ρ : Type} {sem : Semantics σ ρ}, RowWise sem → ∀ rows s,
      runCompact sem nodes r rows s = runAll sem nodes output rows s) ∧
    (∀ j n, nodes[j]? = some n → ¬(r.first ≤ j ∧ j ≤ r.last) → ∀ i ∈ n.inputs, ¬(r.first ≤ i ∧ i ≤ r.last)) ∧
    (∀ i, r.first ≤ i → i ≤ r.last → RowStep nodes r i) ∧
    (∀ maxContext, Validated maxContext nodes →
      checkRows (nodes.map encodeNode) (word output) (encodeRows r) = .ok ()) :=
  ⟨fun hsem rows s => compact_same (plan_some h) hsem rows s, fun _ _ hj hout => (plan_some h).closed hj hout,
    (plan_some h).row_steps, fun _ hvalid => (plan_some h).check_encoded hvalid⟩

/-! ## A sample -/

def instruction (op : String) (inputs : List Nat) : Instruction := ⟨op, inputs, (∅ : ExtTreeMap String String).insert "heads" "8", 0, 16⟩

def sampleNodes : List Instruction :=
  [instruction "embedding" [], instruction "cache_append" [0], instruction "gather_heads" [1],
    instruction "head_to_token" [2], instruction "norm" [3], instruction "linear" [4]]

theorem output_rows_sound_sample :
    plan sampleNodes 5 = .ok (some ⟨1, 16, 2, 5⟩) ∧
    (∀ {σ ρ : Type} {sem : Semantics σ ρ}, RowWise sem → ∀ rows s,
      runCompact sem sampleNodes ⟨1, 16, 2, 5⟩ rows s = runAll sem sampleNodes 5 rows s) ∧
    checkRows (sampleNodes.map encodeNode) (word 5) (encodeRows ⟨1, 16, 2, 5⟩) = .ok () := by
  have hplan : plan sampleNodes 5 = .ok (some ⟨1, 16, 2, 5⟩) := by decide +kernel
  obtain ⟨hsame, -, -, hcheck⟩ := output_rows_sound hplan
  refine ⟨hplan, hsame, hcheck 4096 ⟨by decide, by decide, ?_, ?_⟩⟩
  · decide +kernel
  · decide +kernel

end Inferfabric.Compiler.Rows
