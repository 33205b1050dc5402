-- SUMMARY: The planner's passes keep graphs well-typed: dead-node elimination, constant folding and compaction.
import IronPangu.Plan.Arena
import IronPangu.Plan.Planner.Typed

open Rust Std

/-!
# Optimized graphs

Between the passes a graph may hold values that no node computes any more, but never
one that a node or a result looks at. Folding makes constants of values that nodes
computed; compaction drops what is not looked at and renumbers the rest.
-/

namespace Inferfabric.Plan.Planner

open Ir

variable {F : Type} [Float32 F]

section
variable {values : List (Value F)} {nodes before : List TypedNode} {node other : TypedNode} {ids : List Nat}

omit [Float32 F] in
theorem NodeOk.output_arena (h : NodeOk values before node) : ∃ out, values[node.output]? = some out ∧ out.storage = .arena := by
  obtain ⟨out, -, hout, -⟩ := h.computes.output
  exact ⟨out, hout, h.arena out hout⟩

omit [Float32 F] in
/-- The output of a node is no operand of the node or of one before it. -/
theorem Supported.not_operand (h : Supported values nodes ids) {after : List TypedNode} (hsplit : nodes = before ++ node :: after)
    (hother : other ∈ before ++ [node]) : node.output ∉ other.inputs := by
  intro hmem
  obtain ⟨out, hout, harena⟩ := (h.ordered before node after hsplit).output_arena
  -- the operand is computed before `other`, so it is not the output of `node`
  obtain ⟨before', after', hsplit'⟩ := List.append_of_mem hother
  have hat : nodes = before' ++ other :: (after' ++ after) := by
    rw [hsplit, ← List.singleton_append, ← List.append_assoc, hsplit']
    simp
  obtain ⟨producer, hproducer, houtput⟩ := (h.ordered before' other _ hat).operands node.output hmem out hout harena
  have hbefore : producer ∈ before := by
    rcases List.eq_nil_or_concat after' with rfl | ⟨init, last, rfl⟩
    · obtain ⟨rfl, -⟩ := List.append_inj' hsplit' rfl
      exact hproducer
    · rw [List.concat_eq_append, ← List.cons_append, ← List.append_assoc] at hsplit'
      obtain ⟨rfl, -⟩ := List.append_inj' hsplit' rfl
      exact List.mem_append_left _ hproducer
  have hdistinct := h.distinct
  rw [hsplit, List.map_append, List.map_cons, List.nodup_append'] at hdistinct
  exact hdistinct.2.2 (List.mem_map_of_mem hbefore) (houtput ▸ List.mem_cons_self)

/-! ## Dead nodes -/

theorem subset_markNeeded (debug : Bool) (nodes : List TypedNode) (needed : List Nat) (removed : List String) :
    needed ⊆ (markNeeded debug nodes needed removed).1 := by
  induction nodes generalizing needed removed with
  | nil => exact fun _ h => h
  | cons node nodes ih =>
    rw [markNeeded]
    split
    · exact fun id hid => ih _ _ (List.mem_append_left _ hid)
    · exact ih _ _

/-- What is needed in the end was needed from the start, or is an operand. -/
theorem mem_markNeeded {debug : Bool} {nodes : List TypedNode} {needed : List Nat} {removed : List String} {id : Nat}
    (h : id ∈ (markNeeded debug nodes needed removed).1) : id ∈ needed ∨ ∃ node ∈ nodes, id ∈ node.inputs := by
  induction nodes generalizing needed removed with
  | nil => exact .inl h
  | cons node nodes ih =>
    rw [markNeeded] at h
    split at h
    · rcases ih h with hid | ⟨other, hother, hid⟩
      · rcases List.mem_append.mp hid with hid | hid
        · exact .inl hid
        · exact .inr ⟨node, List.mem_cons_self, hid⟩
      · exact .inr ⟨other, List.mem_cons_of_mem _ hother, hid⟩
    · rcases ih h with hid | ⟨other, hother, hid⟩
      · exact .inl hid
      · exact .inr ⟨other, List.mem_cons_of_mem _ hother, hid⟩

/-- The operands of what is kept are needed, where no node is an operand of one behind it. -/
theorem markNeeded_closed {debug : Bool} {nodes : List TypedNode} {needed : List Nat} {removed : List String}
    (horder : nodes.Pairwise fun a b => a.output ∉ b.inputs) (hnode : node ∈ nodes)
    (h : debug = true ∨ node.output ∈ (markNeeded debug nodes needed removed).1) :
    node.inputs ⊆ (markNeeded debug nodes needed removed).1 := by
  induction nodes generalizing needed removed with
  | nil => cases hnode
  | cons first nodes ih =>
    obtain ⟨hfirst, hrest⟩ := List.pairwise_cons.mp horder
    rw [markNeeded] at h ⊢
    split
    · rename_i hkept
      rw [if_pos hkept] at h
      rcases List.mem_cons.mp hnode with rfl | hnode
      · exact fun id hid => subset_markNeeded _ _ _ _ (List.mem_append_right _ hid)
      · exact ih hrest hnode h
    · rename_i hdropped
      rw [if_neg hdropped] at h
      push Not at hdropped
      rcases List.mem_cons.mp hnode with rfl | hnode
      · rcases h.resolve_left hdropped.1 |> mem_markNeeded with hid | ⟨other, hother, hid⟩
        · exact absurd hid hdropped.2
        · exact absurd hid (hfirst other hother)
      · exact ih hrest hnode h

omit [Float32 F] in
/-- Keeping what is needed. -/
theorem Supported.filter (h : Supported values nodes ids) (debug : Bool) (removed : List String) :
    Supported values (nodes.filter fun node => debug || node.output ∈ (markNeeded debug nodes.reverse ids removed).1)
      ids := by
  let keep : TypedNode → Bool := fun node => debug || node.output ∈ (markNeeded debug nodes.reverse ids removed).1
  have horder : nodes.reverse.Pairwise fun a b => a.output ∉ b.inputs := by
    rw [List.pairwise_reverse]
    have hpairs : ∀ (done rest : List TypedNode), nodes = done ++ rest → rest.Pairwise fun a b => b.output ∉ a.inputs := by
      intro done rest
      induction rest generalizing done with
      | nil => exact fun _ => .nil
      | cons a rest ih =>
        intro hsplit
        refine List.pairwise_cons.mpr ⟨fun b hb => ?_, ih (done ++ [a]) (by simp [hsplit])⟩
        obtain ⟨before, after, rfl⟩ := List.append_of_mem hb
        have hat : nodes = (done ++ a :: before) ++ b :: after := by simp [hsplit]
        exact h.not_operand hat (by simp)
    exact hpairs [] nodes rfl
  have hkept {a b : TypedNode} (ha : a ∈ nodes) (hkeep : keep a = true) (hb : b.output ∈ a.inputs) : keep b = true := by
    have hclosed : a.inputs ⊆ (markNeeded debug nodes.reverse ids removed).1 :=
      markNeeded_closed horder (List.mem_reverse.mpr ha) (by simpa [keep] using hkeep)
    simp only [keep, Bool.or_eq_true, decide_eq_true_eq]
    exact .inr (hclosed hb)
  refine ⟨h.ordered.filter keep fun before node after hsplit hkeep hnode => ⟨hnode.computes, hnode.arena, ?_⟩, ?_, ?_⟩
  · intro id hid v hv harena
    obtain ⟨other, hother, rfl⟩ := hnode.operands id hid v hv harena
    have hmem : node ∈ nodes := hsplit ▸ List.mem_append_right _ List.mem_cons_self
    exact ⟨other, List.mem_filter.mpr ⟨hother, hkept hmem hkeep hid⟩, rfl⟩
  · exact (List.Sublist.map _ List.filter_sublist).nodup h.distinct
  · intro id hid v hv harena
    obtain ⟨node, hnode, rfl⟩ := h.computed id hid v hv harena
    have hneeded := subset_markNeeded debug nodes.reverse ids removed hid
    exact ⟨node, List.mem_filter.mpr ⟨hnode, by simp [hneeded]⟩, rfl⟩

end

/-! ## Folding one node -/

/-- A value that holds data of its size. -/
structure Owned (v : Value F) (data : List F) : Prop where
  initial : v.initial = some data
  size : elements v.shape = .ok data.length
  finite : ∀ x ∈ data, Float32.isFinite x = true

/-- A value, or the constant it has been folded to. -/
structure Narrowed (old v : Value F) : Prop where
  name : v.name = old.name
  shape : v.shape = old.shape
  storage : v = old ∨ old.storage = .arena ∧ v.storage = .constant ∧ ∃ data, Owned v data

theorem Narrowed.refl (v : Value F) : Narrowed v v := ⟨rfl, rfl, .inl rfl⟩

theorem Narrowed.arena {old v : Value F} (h : Narrowed old v) (harena : v.storage = .arena) : v = old := by
  rcases h.storage with rfl | ⟨-, hconstant, -⟩
  · rfl
  · rw [harena] at hconstant
    cases hconstant

theorem Narrowed.valueOk {old v : Value F} (h : Narrowed old v) (hold : ValueOk old) : ValueOk v := by
  rcases h.storage with rfl | ⟨-, hstorage, data, hdata⟩
  · exact hold
  · obtain ⟨n, hn⟩ := hold.size
    refine ⟨h.name ▸ hold.name, ⟨n, h.shape ▸ hn⟩, ?_, fun _ => ⟨data, hdata.initial, hdata.size, hdata.finite⟩⟩
    rw [hstorage]
    simp

section
variable {values : List (Value F)} {node : TypedNode} {before : List TypedNode}

omit [Float32 F] in
theorem allConstant_eq_ok {inputs : List Nat} (hoperands : ∀ id ∈ inputs, ∃ v, values[id]? = some v) :
    ∃ b, allConstant values inputs = .ok b ∧
      (b = true → ∀ id ∈ inputs, ∃ v, values[id]? = some v ∧ v.storage = .constant) := by
  induction inputs with
  | nil => exact ⟨true, rfl, by simp⟩
  | cons id inputs ih =>
    obtain ⟨v, hv⟩ := hoperands id List.mem_cons_self
    obtain ⟨b, hb, hconstant⟩ := ih fun id' hid' => hoperands id' (List.mem_cons_of_mem _ hid')
    simp only [allConstant, hv, Outcome.unwrap_some, Outcome.ok_bind]
    split
    · rename_i hstorage
      refine ⟨b, hb, fun htrue id' hid' => ?_⟩
      rcases List.mem_cons.mp hid' with rfl | hid'
      · exact ⟨v, hv, hstorage⟩
      · exact hconstant htrue id' hid'
    · exact ⟨false, rfl, nofun⟩

omit [Float32 F] in
/-- The operands of an operation of two, and of one. -/
theorem operand_shapes_two {inputs : List Nat} {d d' : List Nat}
    (h : inputs.map (shapeAt values) = [d, d'].map some) : ∃ a b left right, inputs = [a, b] ∧
      values[a]? = some left ∧ values[b]? = some right ∧ left.shape = d ∧ right.shape = d' := by
  obtain ⟨a, rest, rfl, ha, hrest⟩ := List.map_eq_cons_iff.mp h
  obtain ⟨b, others, rfl, hb, hnil⟩ := List.map_eq_cons_iff.mp hrest
  obtain rfl := List.map_eq_nil_iff.mp hnil
  obtain ⟨left, hleft, hd⟩ := Option.map_eq_some_iff.mp ha
  obtain ⟨right, hright, hd'⟩ := Option.map_eq_some_iff.mp hb
  exact ⟨a, b, left, right, rfl, hleft, hright, hd, hd'⟩

omit [Float32 F] in
theorem operand_shapes_one {inputs : List Nat} {d : List Nat} (h : inputs.map (shapeAt values) = [d].map some) :
    ∃ a left, inputs = [a] ∧ values[a]? = some left ∧ left.shape = d := by
  obtain ⟨a, others, rfl, ha, hnil⟩ := List.map_eq_cons_iff.mp h
  obtain rfl := List.map_eq_nil_iff.mp hnil
  obtain ⟨left, hleft, hd⟩ := Option.map_eq_some_iff.mp ha
  exact ⟨a, left, rfl, hleft, hd⟩

theorem shaped_matmul {shapes : List (List Nat)} {d : List Nat} (h : Shaped .matmul shapes d) :
    ∃ m k n, shapes = [[m, k], [k, n]] ∧ d = [m, n] := by
  cases h
  exact ⟨_, _, _, rfl, rfl⟩

theorem shaped_two {op : Op} {shapes : List (List Nat)} {d : List Nat} (h : Shaped op shapes d) (hrelu : op ≠ .relu) :
    ∃ a b, shapes = [a, b] := by
  cases h with
  | add d | mul d => exact ⟨d, d, rfl⟩
  | relu d => exact absurd rfl hrelu
  | matmul m k n => exact ⟨_, _, rfl⟩

theorem nodeWork_eq_ok (hvalues : ∀ v ∈ values, ValueOk v) (hnode : Computes values node) : ∃ n, nodeWork node values = .ok n := by
  obtain ⟨out, shapes, hout, -, hshapes, hshape⟩ := hnode.output
  obtain ⟨n, hn⟩ := (hvalues out (List.mem_of_getElem? hout)).size
  simp only [nodeWork, hout, Outcome.unwrap_some, Outcome.ok_bind, hn]
  split
  · rename_i hop
    rw [hop] at hshape
    obtain ⟨m, k, w, rfl, -⟩ := shaped_matmul (shape_eq_ok hshape)
    obtain ⟨a, b, left, right, hinputs, hleft, -, hk, -⟩ := operand_shapes_two hshapes
    simp [hinputs, secondDimension, hleft, hk]
  · exact ⟨_, rfl⟩

/-- A dot product of entries within bounds. -/
theorem sumProducts_eq {a b : List F} {k n i : Nat} {js : List Nat} (ha : ∀ j ∈ js, i / n * k + j < a.length)
    (hb : ∀ j ∈ js, j * n + i % n < b.length) (sum : F) :
    foldElement.sumProducts a (some b) k n i sum js = .ok (js.foldl
      (fun sum z => Float32.add sum (Float32.mul (entry a (i / n * k + z)) (entry b (z * n + i % n)))) sum) := by
  induction js generalizing sum with
  | nil => rfl
  | cons j js ih =>
    have hx : a[i / n * k + j]? = some (entry a (i / n * k + j)) := by
      simp [entry, List.getD_eq_getElem?_getD, ha j List.mem_cons_self]
    have hy : b[j * n + i % n]? = some (entry b (j * n + i % n)) := by
      simp [entry, List.getD_eq_getElem?_getD, hb j List.mem_cons_self]
    simp only [foldElement.sumProducts, hx, hy, Outcome.unwrap_some, Outcome.ok_bind, List.foldl_cons]
    exact ih (fun j' hj' => ha j' (List.mem_cons_of_mem _ hj')) (fun j' hj' => hb j' (List.mem_cons_of_mem _ hj')) _

/-- A row and a column of a matrix product, by the position in the result. -/
theorem dot_bounds {m k n i j : Nat} (hi : i < m * n) (hj : j < k) : i / n * k + j < m * k ∧ j * n + i % n < k * n := by
  have hn : 0 < n := Nat.pos_of_ne_zero fun hzero => by simp [hzero] at hi
  have hrow : i / n < m := (Nat.div_lt_iff_lt_mul hn).mpr hi
  have hcolumn : i % n < n := Nat.mod_lt i hn
  constructor
  · calc i / n * k + j < i / n * k + k := by omega
      _ = (i / n + 1) * k := by ring
      _ ≤ m * k := Nat.mul_le_mul_right k hrow
  · calc j * n + i % n < j * n + n := by omega
      _ = (j + 1) * n := by ring
      _ ≤ k * n := Nat.mul_le_mul_right n hj

theorem foldElement_eq {op : Op} {shapes : List (List Nat)} {d : List Nat} (hshaped : Shaped op shapes d) {a b : List F}
    (ha : a.length = (shapes.getD 0 []).prod) (hb : op ≠ .relu → b.length = (shapes.getD 1 []).prod) {i : Nat}
    (hi : i < d.prod) :
    foldElement op a (if op = .relu then none else some b) (columns (shapes.getD 0 [])) (columns d) i =
      .ok (cell op (columns (shapes.getD 0 [])) (columns d) a b i) := by
  have hentry {v : List F} {j : Nat} (hj : j < v.length) : v[j]? = some (entry v j) := by
    simp [entry, List.getD_eq_getElem?_getD, hj]
  cases hshaped with
  | add d | mul d =>
    have hx := hentry (v := a) (j := i) (by simpa using ha ▸ hi)
    have hy := hentry (v := b) (j := i) (by simpa using hb (by simp) ▸ hi)
    simp [foldElement, hx, hy, cell]
  | relu d =>
    have hx := hentry (v := a) (j := i) (by simpa using ha ▸ hi)
    simp [foldElement, hx, cell]
  | matmul m k n =>
    have ha' : a.length = m * k := by simpa using ha
    have hb' : b.length = k * n := by simpa using hb (by simp)
    have hi' : i < m * n := by simpa using hi
    have hrow (j : Nat) (hj : j ∈ List.range k) : i / n * k + j < a.length :=
      ha' ▸ (dot_bounds hi' (List.mem_range.mp hj)).1
    have hcolumn (j : Nat) (hj : j ∈ List.range k) : j * n + i % n < b.length :=
      hb' ▸ (dot_bounds hi' (List.mem_range.mp hj)).2
    exact sumProducts_eq hrow hcolumn _

/-- The data of constant operands. -/
def Data (values : List (Value F)) (id : Nat) (data : List F) : Prop :=
  ∃ v, values[id]? = some v ∧ v.storage = .constant ∧ v.initial = some data

theorem data_of_constant (hvalues : ∀ v ∈ values, ValueOk v) {id : Nat} {v : Value F} (hv : values[id]? = some v)
    (hconstant : v.storage = .constant) : ∃ data, initialOf values id = .ok data ∧ Data values id data ∧
      data.length = v.shape.prod := by
  obtain ⟨data, hdata, hsize, -⟩ := (hvalues v (List.mem_of_getElem? hv)).owned (.inr hconstant)
  exact ⟨data, by simp [initialOf, hv, hdata], ⟨v, hv, hconstant, hdata⟩, (elements_prod hsize).symm⟩

/-- A folded node has the value its operation computes. -/
theorem fold_eq_ok (hvalues : ∀ v ∈ values, ValueOk v) {out : Value F} {shapes : List (List Nat)}
    (hout : values[node.output]? = some out) (hshapes : node.inputs.map (shapeAt values) = shapes.map some)
    (hshape : shape node.op shapes = .ok out.shape)
    (hconstant : ∀ id ∈ node.inputs, ∃ v, values[id]? = some v ∧ v.storage = .constant) :
    ∃ datas, List.Forall₂ (Data values) node.inputs datas ∧
      fold node values = .ok (node.op.evaluate shapes datas out.shape) := by
  have hshaped := shape_eq_ok hshape
  obtain ⟨n, hn⟩ := (hvalues out (List.mem_of_getElem? hout)).size
  have hprod := elements_prod hn
  by_cases hrelu : node.op = .relu
  · obtain ⟨d, rfl, hd⟩ : ∃ d, shapes = [d] ∧ out.shape = d := by
      rw [hrelu] at hshaped
      cases hshaped
      exact ⟨_, rfl, rfl⟩
    obtain ⟨a, left, hinputs, hleft, hleftShape⟩ := operand_shapes_one hshapes
    obtain ⟨v, hv, hstorage⟩ := hconstant a (by simp [hinputs])
    obtain rfl := Option.some.inj (hleft.symm.trans hv)
    obtain ⟨data, hinitial, hdata, hlength⟩ := data_of_constant hvalues hleft hstorage
    refine ⟨[data], by rw [hinputs]; exact .cons hdata .nil, ?_⟩
    have helement : ∀ i ∈ List.range n, foldElement node.op data none 0 0 i =
        .ok (cell node.op (columns d) (columns out.shape) data [] i) := by
      intro i hi
      have hbound : i < out.shape.prod := hprod ▸ List.mem_range.mp hi
      have heq := foldElement_eq hshaped (a := data) (b := []) (by simp [hlength, hleftShape]) (by simp [hrelu]) hbound
      simpa [hrelu, foldElement, cell] using heq
    simp only [fold, hinputs, List.getElem?_cons_zero, Outcome.unwrap_some, Outcome.ok_bind, hinitial,
      List.getElem?_cons_succ, List.getElem?_nil, hout, Executor.count_eq hn, foldDimensions, hrelu]
    rw [hrelu] at helement
    simpa [Op.evaluate, hprod] using Outcome.collect_eq_map helement
  · obtain ⟨d, d', rfl⟩ := shaped_two hshaped hrelu
    obtain ⟨a, b, left, right, hinputs, hleft, hright, rfl, rfl⟩ := operand_shapes_two hshapes
    obtain ⟨v, hv, hstorage⟩ := hconstant a (by simp [hinputs])
    obtain rfl := Option.some.inj (hleft.symm.trans hv)
    obtain ⟨w, hw, hstorage'⟩ := hconstant b (by simp [hinputs])
    obtain rfl := Option.some.inj (hright.symm.trans hw)
    obtain ⟨data, hinitial, hdata, hlength⟩ := data_of_constant hvalues hleft hstorage
    obtain ⟨data', hinitial', hdata', hlength'⟩ := data_of_constant hvalues hright hstorage'
    refine ⟨[data, data'], by rw [hinputs]; exact .cons hdata (.cons hdata' .nil), ?_⟩
    have hdimensions : ∃ k w, foldDimensions node values = .ok (k, w) ∧
        ∀ i < out.shape.prod, foldElement node.op data (some data') k w i =
          .ok (cell node.op (columns left.shape) (columns out.shape) data data' i) := by
      have helement (i : Nat) (hi : i < out.shape.prod) :=
        foldElement_eq hshaped (a := data) (b := data') (by simp [hlength]) (by simp [hlength']) hi
      by_cases hmatmul : node.op = .matmul
      · rw [hmatmul] at hshaped
        obtain ⟨m, k, w, heq, houtShape⟩ := shaped_matmul hshaped
        simp only [List.cons.injEq, and_true] at heq
        refine ⟨k, w, by simp [foldDimensions, hmatmul, hinputs, secondDimension, hleft, hout, heq.1, houtShape], ?_⟩
        intro i hi
        simpa [hmatmul, heq.1, houtShape, columns] using helement i hi
      · refine ⟨0, 0, by simp [foldDimensions, hmatmul], fun i hi => ?_⟩
        have heq := helement i hi
        cases hop : node.op with
        | matmul => exact absurd hop hmatmul
        | relu => exact absurd hop hrelu
        | add | mul => simpa [hop, foldElement, cell] using heq
    obtain ⟨k, w, hdims, helement⟩ := hdimensions
    simp only [fold, hinputs, List.getElem?_cons_zero, Outcome.unwrap_some, Outcome.ok_bind, hinitial,
      List.getElem?_cons_succ, hinitial', hout, Executor.count_eq hn, hdims]
    have hmap := Outcome.collect_eq_map fun i hi => helement i (hprod ▸ List.mem_range.mp hi)
    simpa [Op.evaluate, hprod] using hmap

end

/-! ## Folding -/

/-- A node that has been folded: its output holds what it computes from its constant operands. -/
structure FoldedNode (values : List (Value F)) (node : TypedNode) : Prop where
  folded : ∃ v shapes datas, values[node.output]? = some v ∧ v.storage = .constant ∧
    node.inputs.map (shapeAt values) = shapes.map some ∧ List.Forall₂ (Data values) node.inputs datas ∧
    v.initial = some (node.op.evaluate shapes datas v.shape)

/-- What holds when folding has passed the nodes `done`. -/
structure Folded (old : List (Value F)) (done : List TypedNode) (s : Folding F) : Prop where
  length : s.values.length = old.length
  narrowed : ∀ (id : Nat) v₀, old[id]? = some v₀ → ∃ v, s.values[id]? = some v ∧ Narrowed v₀ v
  untouched : ∀ (id : Nat) v₀, old[id]? = some v₀ → (∀ node ∈ done, node.output ≠ id) → s.values[id]? = some v₀
  ordered : Trace.Preceded (NodeOk s.values) s.retained
  sublist : s.retained.Sublist done
  kept : ∀ node ∈ done, ∀ v, s.values[node.output]? = some v → v.storage = .arena → node ∈ s.retained
  folded : ∀ node ∈ done, node ∉ s.retained → FoldedNode s.values node

section
variable {old : List (Value F)} {nodes done : List TypedNode} {node : TypedNode} {s : Folding F} {ids : List Nat}

theorem folded_start (old : List (Value F)) : Folded old [] ⟨old, [], []⟩ where
  length := rfl
  narrowed := fun _ v₀ h => ⟨v₀, h, .refl v₀⟩
  untouched := fun _ _ h _ => h
  ordered := Trace.preceded_nil
  sublist := .slnil
  kept := nofun
  folded := nofun

/-- Values keep their shapes, so nodes keep computing. -/
theorem computes_narrowed {values : List (Value F)}
    (h : ∀ (id : Nat) v₀, old[id]? = some v₀ → ∃ v, values[id]? = some v ∧ Narrowed v₀ v) (hnode : Computes old node) :
    Computes values node := by
  obtain ⟨out, shapes, hout, hname, hshapes, hshape⟩ := hnode.output
  obtain ⟨v, hv, hnarrowed⟩ := h _ out hout
  refine ⟨v, shapes, hv, hnarrowed.name.trans hname, map_shapeAt_congr hshapes fun id v₀ hv₀ => ?_, hnarrowed.shape ▸ hshape⟩
  obtain ⟨w, hw, hsame⟩ := h id v₀ hv₀
  rw [shapeAt, hw, Option.map_some, hsame.shape]

theorem Folded.valueOk (h : Folded old done s) (hold : ∀ v ∈ old, ValueOk v) : ∀ v ∈ s.values, ValueOk v := by
  intro v hv
  obtain ⟨id, hid⟩ := List.mem_iff_getElem?.mp hv
  have hlt := (List.getElem?_eq_some_iff.mp hid).1
  obtain ⟨w, hw, hnarrowed⟩ := h.narrowed id _ (List.getElem?_eq_getElem (h.length ▸ hlt))
  obtain rfl := Option.some.inj (hid.symm.trans hw)
  exact hnarrowed.valueOk (hold _ (List.getElem_mem _))

/-- The node is kept: its operands are not folded, or not all of them. -/
theorem Folded.retain (h : Folded old done s) (hnode : NodeOk old done node) (hnew : ∀ other ∈ done, other.output ≠ node.output) :
    Folded old (done ++ [node]) { s with retained := s.retained ++ [node] } where
  length := h.length
  narrowed := h.narrowed
  untouched := fun id v₀ hv₀ hid => h.untouched id v₀ hv₀ fun other hother => hid other (List.mem_append_left _ hother)
  ordered := by
    refine h.ordered.concat ⟨computes_narrowed h.narrowed hnode.computes, fun v hv => ?_, fun id hid v hv harena => ?_⟩
    · obtain ⟨out, hout, harena⟩ := hnode.output_arena
      rw [h.untouched _ out hout hnew] at hv
      exact Option.some.inj hv ▸ harena
    · obtain ⟨v₀, hv₀⟩ := hnode.computes.operand hid
      obtain ⟨w, hw, hnarrowed⟩ := h.narrowed id v₀ hv₀
      obtain rfl := Option.some.inj (hv.symm.trans hw)
      obtain rfl := hnarrowed.arena harena
      obtain ⟨other, hother, rfl⟩ := hnode.operands id hid v hv₀ harena
      exact ⟨other, h.kept other hother v hv harena, rfl⟩
  sublist := h.sublist.append (.refl _)
  kept := by
    intro other hother v hv harena
    rcases List.mem_append.mp hother with hother | hother
    · exact List.mem_append_left _ (h.kept other hother v hv harena)
    · exact List.mem_append_right _ hother
  folded := by
    intro other hother hnot
    rcases List.mem_append.mp hother with hother | hother
    · exact h.folded other hother fun hmem => hnot (List.mem_append_left _ hmem)
    · exact absurd (List.mem_append_right _ hother) hnot

omit [Float32 F] in
theorem getElem?_setConstant {values : List (Value F)} {id : Nat} {data : List F} {i : Nat} {v : Value F}
    (h : values[i]? = some v) : (setConstant values id data)[i]? =
      some (if i = id then { v with storage := .constant, initial := some data } else v) := by
  rw [setConstant, List.getElem?_modify, h]
  by_cases heq : id = i
  · simp [heq]
  · simp [heq, Ne.symm heq]

omit [Float32 F] in
/-- Data is not changed by folding a value of the arena. -/
theorem Data.setConstant {values : List (Value F)} {out : Value F} {id i : Nat} {data data' : List F} (h : Data values i data')
    (hout : values[id]? = some out) (harena : out.storage = .arena) : Data (setConstant values id data) i data' := by
  obtain ⟨v, hv, hconstant, hinitial⟩ := h
  have hne : i ≠ id := by
    rintro rfl
    obtain rfl := Option.some.inj (hv.symm.trans hout)
    rw [harena] at hconstant
    cases hconstant
  exact ⟨v, by rw [getElem?_setConstant hv, if_neg hne], hconstant, hinitial⟩

omit [Float32 F] in
theorem map_shapeAt_setConstant {values : List (Value F)} {id : Nat} {data : List F} {inputs : List Nat}
    {shapes : List (List Nat)} (h : inputs.map (shapeAt values) = shapes.map some) :
    inputs.map (shapeAt (setConstant values id data)) = shapes.map some := by
  refine map_shapeAt_congr h fun i v hv => ?_
  rw [shapeAt, getElem?_setConstant hv]
  split <;> rfl

/-- The node is folded. -/
theorem Folded.fold (h : Folded old done s) (hnode : NodeOk old done node) (hnew : ∀ other ∈ done, other.output ≠ node.output)
    {out : Value F} {shapes : List (List Nat)} {datas : List (List F)} (hout : old[node.output]? = some out)
    (hshapes : node.inputs.map (shapeAt s.values) = shapes.map some)
    (hdatas : List.Forall₂ (Data s.values) node.inputs datas)
    (hsize : elements out.shape = .ok (node.op.evaluate shapes datas out.shape).length)
    (hfinite : ∀ x ∈ node.op.evaluate shapes datas out.shape, Float32.isFinite x = true) (names : List String) :
    Folded old (done ++ [node])
      ⟨setConstant s.values node.output (node.op.evaluate shapes datas out.shape), s.retained, names⟩ := by
  have harena := hnode.arena out hout
  have hat := h.untouched _ out hout hnew
  have hout' : (setConstant s.values node.output (node.op.evaluate shapes datas out.shape))[node.output]? =
      some { out with storage := .constant, initial := some (node.op.evaluate shapes datas out.shape) } := by
    rw [getElem?_setConstant hat, if_pos rfl]
  have hnarrowed : ∀ (id : Nat) v₀, old[id]? = some v₀ →
      ∃ v, (setConstant s.values node.output (node.op.evaluate shapes datas out.shape))[id]? = some v ∧ Narrowed v₀ v := by
    intro id v₀ hv₀
    by_cases heq : id = node.output
    · subst heq
      obtain rfl := Option.some.inj (hout.symm.trans hv₀)
      exact ⟨_, hout', rfl, rfl, .inr ⟨harena, rfl, _, rfl, hsize, hfinite⟩⟩
    · obtain ⟨v, hv, hsame⟩ := h.narrowed id v₀ hv₀
      exact ⟨v, by rw [getElem?_setConstant hv, if_neg heq], hsame⟩
  -- a value of the arena afterwards was one before
  have hback : ∀ (id : Nat) v, (setConstant s.values node.output (node.op.evaluate shapes datas out.shape))[id]? = some v →
      v.storage = .arena → s.values[id]? = some v := by
    intro id v hv harena
    have hlt : id < s.values.length := by
      simpa [setConstant] using (List.getElem?_eq_some_iff.mp hv).1
    have hold := List.getElem?_eq_getElem hlt
    rw [getElem?_setConstant hold] at hv
    split at hv
    · obtain rfl := Option.some.inj hv
      cases harena
    · rw [hold, hv]
  refine ⟨by simpa [setConstant] using h.length, hnarrowed, ?_, ?_, h.sublist.trans (List.sublist_append_left _ _), ?_, ?_⟩
  · intro id v₀ hv₀ hid
    have hbefore := h.untouched id v₀ hv₀ fun other hother => hid other (List.mem_append_left _ hother)
    have hne : id ≠ node.output := fun heq => hid node (List.mem_append_right _ List.mem_cons_self) heq.symm
    rw [getElem?_setConstant hbefore, if_neg hne]
  · intro before other after hsplit
    have hother := h.ordered before other after hsplit
    have hmem : other ∈ done := h.sublist.subset (hsplit ▸ List.mem_append_right _ List.mem_cons_self)
    obtain ⟨w, shapes', hw, hname, hshapes', hshape'⟩ := hother.computes.output
    refine ⟨⟨w, shapes', by rw [getElem?_setConstant hw, if_neg (hnew other hmem)], hname,
      map_shapeAt_setConstant hshapes', hshape'⟩, fun v hv => ?_, fun id hid v hv harena' => ?_⟩
    · rw [getElem?_setConstant hw, if_neg (hnew other hmem)] at hv
      obtain rfl := Option.some.inj hv
      exact hother.arena w hw
    · exact hother.operands id hid v (hback id v hv harena') harena'
  · intro other hother v hv harena'
    rcases List.mem_append.mp hother with hother | hother
    · exact h.kept other hother v (hback _ v hv harena') harena'
    · obtain rfl := List.mem_singleton.mp hother
      obtain rfl := Option.some.inj (hout'.symm.trans hv)
      cases harena'
  · intro other hother hnot
    rcases List.mem_append.mp hother with hother | hother
    · obtain ⟨v, shapes', datas', hv, hconstant, hshapes', hdatas', hinitial⟩ := (h.folded other hother hnot).folded
      have hne := hnew other hother
      exact ⟨v, shapes', datas', by rw [getElem?_setConstant hv, if_neg hne], hconstant, map_shapeAt_setConstant hshapes',
        hdatas'.imp fun _ _ hdata => hdata.setConstant hat harena, hinitial⟩
    · obtain rfl := List.mem_singleton.mp hother
      exact ⟨_, shapes, datas, hout', rfl, map_shapeAt_setConstant hshapes,
        hdatas.imp fun _ _ hdata => hdata.setConstant hat harena, rfl⟩

theorem foldable_eq_ok (options : CompileOptions) {values : List (Value F)} (hvalues : ∀ v ∈ values, ValueOk v)
    (hnode : Computes values node) : ∃ b, foldable options node values = .ok b ∧
      (b = true → ∀ id ∈ node.inputs, ∃ v, values[id]? = some v ∧ v.storage = .constant) := by
  obtain ⟨work, hwork⟩ := nodeWork_eq_ok hvalues hnode
  simp only [foldable, hwork, Outcome.ok_bind]
  split
  · exact allConstant_eq_ok fun id hid => hnode.operand hid
  · exact ⟨false, rfl, nofun⟩

omit [Float32 F] in
/-- The output of a node is no output of the nodes before it. -/
theorem Supported.output_new (h : Supported old nodes ids) {rest : List TypedNode} (hsplit : nodes = done ++ node :: rest) :
    ∀ other ∈ done, other.output ≠ node.output := by
  intro other hother heq
  have hdistinct := h.distinct
  rw [hsplit, List.map_append, List.map_cons, List.nodup_append'] at hdistinct
  exact hdistinct.2.2 (List.mem_map_of_mem hother) (heq ▸ List.mem_cons_self)

/-- Folding goes through, or finds a value that is not finite. -/
theorem foldNodes_cases (hsupported : Supported old nodes ids) (hold : ∀ v ∈ old, ValueOk v) (options : CompileOptions)
    {rest : List TypedNode} (hsplit : nodes = done ++ rest) (h : Folded old done s) :
    foldNodes options rest s = invalid "nonfinite constant-folded result" ∨
      ∃ s', foldNodes options rest s = .ok s' ∧ Folded old nodes s' := by
  induction rest generalizing done s with
  | nil => exact .inr ⟨s, rfl, by rwa [hsplit, List.append_nil]⟩
  | cons node rest ih =>
    have hnode : NodeOk old done node := hsupported.ordered done node rest hsplit
    have hnew := hsupported.output_new hsplit
    have hvalues := h.valueOk hold
    have hcomputes := computes_narrowed h.narrowed hnode.computes
    have hnext : nodes = (done ++ [node]) ++ rest := by simp [hsplit]
    obtain ⟨b, hb, hconstant⟩ := foldable_eq_ok options hvalues hcomputes
    simp only [foldNodes, hb, Outcome.ok_bind]
    cases b with
    | false => exact ih hnext (h.retain hnode hnew)
    | true =>
      obtain ⟨out, hout, -⟩ := hnode.output_arena
      have hat := h.untouched _ out hout hnew
      obtain ⟨out', shapes, hout', -, hshapes, hshape⟩ := hcomputes.output
      obtain rfl := Option.some.inj (hat.symm.trans hout')
      obtain ⟨datas, hdatas, hfold⟩ := fold_eq_ok hvalues hat hshapes hshape (hconstant rfl)
      obtain ⟨n, hn⟩ := (hold out (List.mem_of_getElem? hout)).size
      have hsize : elements out.shape = .ok (node.op.evaluate shapes datas out.shape).length := by
        rw [hn, Op.evaluate, List.length_map, List.length_range, elements_prod hn]
      simp only [if_true, hfold, Outcome.ok_bind]
      split
      · exact .inl rfl
      · rename_i hfinite
        refine ih hnext (h.fold hnode hnew hout hshapes hdatas hsize ?_ _)
        simpa using hfinite

/-! ## Compaction -/

/-- The values kept, under their new numbers. -/
structure Compacted (values : List (Value F)) (keep : Nat → Value F → Prop) (remap : ExtTreeMap Nat Nat)
    (kept : List (Value F)) : Prop where
  sublist : kept.Sublist values
  forward : ∀ (id : Nat) v, values[id]? = some v → keep id v → ∃ j, remap[id]? = some j
  back : ∀ id j : Nat, remap[id]? = some j → ∃ v, values[id]? = some v ∧ keep id v ∧ kept[j]? = some v
  injective : ∀ a b j : Nat, remap[a]? = some j → remap[b]? = some j → a = b
  onto : ∀ j < kept.length, ∃ id : Nat, remap[id]? = some j

omit [Float32 F] in
theorem compacted_start (keep : Nat → Value F → Prop) : Compacted [] keep ∅ [] where
  sublist := .slnil
  forward := by simp
  back := by simp
  injective := by simp
  onto := by simp

/-- The values that compaction keeps. -/
def Keeps (runtime : List Nat) (id : Nat) (v : Value F) : Prop := v.storage = .input ∨ v.storage = .state ∨ id ∈ runtime

variable {values rest : List (Value F)} {runtime : List Nat} {remap : ExtTreeMap Nat Nat} {kept : List (Value F)} {v : Value F}

omit [Float32 F] in
theorem Compacted.keep (h : Compacted values (Keeps runtime) remap kept) (hkeep : Keeps runtime values.length v) :
    Compacted (values ++ [v]) (Keeps runtime) (remap.insert values.length kept.length) (kept ++ [v]) := by
  have hbound : ∀ id j : Nat, remap[id]? = some j → id < values.length ∧ j < kept.length := by
    intro id j hj
    obtain ⟨w, hw, -, hw'⟩ := h.back id j hj
    exact ⟨(List.getElem?_eq_some_iff.mp hw).1, (List.getElem?_eq_some_iff.mp hw').1⟩
  refine ⟨h.sublist.append (.refl _), ?_, ?_, ?_, ?_⟩
  · intro id w hw hkeepw
    rcases getElem?_concat_some hw with hw | ⟨rfl, -⟩
    · obtain ⟨j, hj⟩ := h.forward id w hw hkeepw
      exact ⟨j, ExtTreeMap.getElem?_insert_eq_some.mpr (.inr ⟨(hbound id j hj).1.ne', hj⟩)⟩
    · exact ⟨kept.length, ExtTreeMap.getElem?_insert_self⟩
  · intro id j hj
    rcases ExtTreeMap.getElem?_insert_eq_some.mp hj with ⟨rfl, rfl⟩ | ⟨-, hj⟩
    · exact ⟨v, by simp, hkeep, by simp⟩
    · obtain ⟨w, hw, hkeepw, hw'⟩ := h.back id j hj
      exact ⟨w, getElem?_append_some hw _, hkeepw, getElem?_append_some hw' _⟩
  · intro a b j ha hb
    rcases ExtTreeMap.getElem?_insert_eq_some.mp ha with ⟨rfl, rfl⟩ | ⟨-, ha⟩ <;>
      rcases ExtTreeMap.getElem?_insert_eq_some.mp hb with ⟨rfl, hj⟩ | ⟨-, hb⟩
    · rfl
    · exact absurd (hbound b _ hb).2 (Nat.lt_irrefl _)
    · exact absurd (hj ▸ (hbound a _ ha).2) (Nat.lt_irrefl _)
    · exact h.injective a b j ha hb
  · intro j hj
    rcases Nat.lt_or_ge j kept.length with hlt | hge
    · obtain ⟨id, hid⟩ := h.onto j hlt
      exact ⟨id, ExtTreeMap.getElem?_insert_eq_some.mpr (.inr ⟨((hbound id j hid).1).ne', hid⟩)⟩
    · have : j = kept.length := by
        simp only [List.length_append, List.length_singleton] at hj
        omega
      exact ⟨values.length, ExtTreeMap.getElem?_insert_eq_some.mpr (.inl ⟨rfl, this.symm⟩)⟩

omit [Float32 F] in
theorem Compacted.drop (h : Compacted values (Keeps runtime) remap kept) (hdrop : ¬Keeps runtime values.length v) :
    Compacted (values ++ [v]) (Keeps runtime) remap kept := by
  refine ⟨h.sublist.trans (List.sublist_append_left _ _), ?_, ?_, h.injective, h.onto⟩
  · intro id w hw hkeepw
    rcases getElem?_concat_some hw with hw | ⟨rfl, rfl⟩
    · exact h.forward id w hw hkeepw
    · exact absurd hkeepw hdrop
  · intro id j hj
    obtain ⟨w, hw, hkeepw, hw'⟩ := h.back id j hj
    exact ⟨w, getElem?_append_some hw _, hkeepw, hw'⟩

omit [Float32 F] in
theorem compact_compacted (h : Compacted values (Keeps runtime) remap kept) (rest : List (Value F)) :
    Compacted (values ++ rest) (Keeps runtime) (compact runtime values.length rest remap kept).1
      (compact runtime values.length rest remap kept).2 := by
  induction rest generalizing values remap kept with
  | nil => simpa [compact] using h
  | cons v rest ih =>
    rw [compact, List.append_cons]
    split
    · rename_i hkeep
      simpa using ih (h.keep hkeep)
    · rename_i hdrop
      simpa using ih (h.drop hdrop)

end

end Inferfabric.Plan.Planner
