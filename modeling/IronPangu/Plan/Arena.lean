-- SUMMARY: Sharing one arena is invisible: the executor answers as if every buffer had private storage.
import IronPangu.Plan.Private
import IronPangu.Plan.Verified

open Rust Method Std

/-!
# The arena

A step writes only the cells of its output, and no operand shares a cell with it
while both are alive. So before step `i` the cells of every buffer alive there still
hold what its own step wrote, whatever happened in between.
-/

namespace Inferfabric.Plan

open Ir

/-! ## Sizes -/

theorem product_eq_some {shape : List Nat} {n : Nat} (h : product shape = some n) : shape.prod = n := by
  have hfold : ∀ (shape : List Nat) (a b : Nat), shape.foldlM (checkedMul u64Max) a = some b → a * shape.prod = b := by
    intro shape
    induction shape with
    | nil =>
      intro a b h
      obtain rfl := Option.some.inj h
      rw [List.prod_nil, Nat.mul_one]
    | cons d shape ih =>
      intro a b h
      obtain ⟨c, hc, h⟩ := Option.bind_eq_some_iff.mp h
      obtain ⟨-, rfl⟩ := checkedMul_eq_some.mp hc
      rw [List.prod_cons, ← Nat.mul_assoc]
      exact ih _ _ h
  have := hfold shape 1 n h
  rwa [Nat.one_mul] at this

theorem elements_prod {shape : List Nat} {n : Nat} (h : elements shape = .ok n) : shape.prod = n :=
  product_eq_some (elements_eq_ok h).1

namespace Executor

variable {F : Type} {e e' e'' : Executor F} {start n : Nat}

/-- The executor without its arena. -/
def toPrivate (e : Executor F) : PrivateExecutor F := ⟨e.plan, e.owned, e.implementations⟩

/-! ## Writing a buffer -/

/-- The later executor differs in some cells of a buffer only: cell `c` holds `value c`. -/
structure Filled (start : Nat) (value : Nat → F) (cells : List Nat) (e e' : Executor F) : Prop where
  toPrivate : e'.toPrivate = e.toPrivate
  length : e'.arena.length = e.arena.length
  inside : ∀ c ∈ cells, e'.arena[start + c]? = some (value c)
  outside : ∀ x, (∀ c ∈ cells, x ≠ start + c) → e'.arena[x]? = e.arena[x]?

/-- The later executor differs inside a range of cells only. -/
structure SameBut (start n : Nat) (e e' : Executor F) : Prop where
  toPrivate : e'.toPrivate = e.toPrivate
  length : e'.arena.length = e.arena.length
  outside : ∀ x, x < start ∨ start + n ≤ x → e'.arena[x]? = e.arena[x]?

theorem SameBut.refl (start n : Nat) (e : Executor F) : SameBut start n e e := ⟨rfl, rfl, fun _ _ => rfl⟩

theorem SameBut.trans (h : SameBut start n e e') (h' : SameBut start n e' e'') : SameBut start n e e'' :=
  ⟨h'.toPrivate.trans h.toPrivate, h'.length.trans h.length,
    fun x hx => (h'.outside x hx).trans (h.outside x hx)⟩

theorem SameBut.plan (h : SameBut start n e e') : e'.plan = e.plan := congrArg PrivateExecutor.plan h.toPrivate

theorem SameBut.owned (h : SameBut start n e e') : e'.owned = e.owned := congrArg PrivateExecutor.owned h.toPrivate

theorem SameBut.implementations (h : SameBut start n e e') : e'.implementations = e.implementations :=
  congrArg PrivateExecutor.implementations h.toPrivate

section

variable {value : Nat → F} {cells cells' : List Nat}

theorem Filled.sameBut (h : Filled start value cells e e') (hcells : ∀ c ∈ cells, c < n) : SameBut start n e e' := by
  refine ⟨h.toPrivate, h.length, fun x hx => h.outside x fun c hc => ?_⟩
  have := hcells c hc
  omega

theorem filled_nil : Filled start value [] e e := ⟨rfl, rfl, by simp, fun _ _ => rfl⟩

/-- A cell written twice gets the same value again. -/
theorem Filled.append (h : Filled start value cells e e') (h' : Filled start value cells' e' e'') :
    Filled start value (cells ++ cells') e e'' := by
  refine ⟨h'.toPrivate.trans h.toPrivate, h'.length.trans h.length, fun c hc => ?_, fun x hx => ?_⟩
  · by_cases hlater : c ∈ cells'
    · exact h'.inside c hlater
    · have hfirst : c ∈ cells := (List.mem_append.mp hc).resolve_right hlater
      rw [h'.outside (start + c) fun d hd heq => hlater (Nat.add_left_cancel heq ▸ hd)]
      exact h.inside c hfirst
  · rw [h'.outside x fun c hc => hx c (List.mem_append_right _ hc),
      h.outside x fun c hc => hx c (List.mem_append_left _ hc)]

theorem write_run {index : Nat} {v : F} (h : index < e.arena.length) :
    write index v e = (.ok (), { e with arena := e.arena.set index v }) := by
  simp [write, bind_run, h]

/-- One cell written. -/
theorem write_filled {c : Nat} (h : start + c < e.arena.length) :
    ∃ e', write (start + c) (value c) e = (.ok (), e') ∧ Filled start value [c] e e' := by
  refine ⟨_, write_run h, rfl, List.length_set, ?_, ?_⟩
  · intro d hd
    obtain rfl := List.mem_singleton.mp hd
    exact List.getElem?_set_self h
  · intro x hx
    exact List.getElem?_set_ne (hx c List.mem_cons_self).symm

/-- A loop each of whose rounds fills some cells fills them all. -/
theorem forEach_filled {ι : Type} {body : ι → Method (Executor F) Error Unit} {fills : ι → List Nat}
    {is : List ι} (hfills : ∀ i ∈ is, ∀ c ∈ fills i, c < n)
    (hbody : ∀ i ∈ is, ∀ e', SameBut start n e e' →
      ∃ e'', body i e' = (.ok (), e'') ∧ Filled start value (fills i) e' e'') :
    ∃ e', forEach is body e = (.ok (), e') ∧ Filled start value (is.flatMap fills) e e' := by
  induction is generalizing e with
  | nil => exact ⟨e, rfl, filled_nil⟩
  | cons i is ih =>
    obtain ⟨e₁, hrun, hfilled⟩ := hbody i List.mem_cons_self e (.refl _ _ _)
    have hsame : SameBut start n e e₁ := hfilled.sameBut (hfills i List.mem_cons_self)
    obtain ⟨e₂, hrest, hfilled'⟩ := ih (fun j hj => hfills j (List.mem_cons_of_mem _ hj))
      (fun j hj e' he' => hbody j (List.mem_cons_of_mem _ hj) e' (hsame.trans he'))
    refine ⟨e₂, ?_, hfilled.append hfilled'⟩
    rw [forEach, bind_ok hrun, hrest]

end

/-- A round that reads a value from the operands and writes it to its own cell. -/
theorem round_filled {c : Nat} {f : Executor F → Result F} {value : Nat → F} (hbound : start + c < e.arena.length)
    (hread : f e = .ok (value c)) :
    ∃ e', (do let x ← Method.read f; write (start + c) x : Method (Executor F) Error Unit) e = (.ok (), e') ∧
      Filled start value [c] e e' := by
  obtain ⟨e', hrun, hfilled⟩ := write_filled hbound
  refine ⟨e', ?_, hfilled⟩
  rw [bind_ok (show Method.read f e = (.ok (value c), e) by rw [read_run, hread]), hrun]

/-! ## Reading a buffer -/

theorem count_eq {shape : List Nat} {n : Nat} (h : elements shape = .ok n) : count shape = .ok n := by
  rw [count, h]

section

variable {inputs : Inputs F} {id : Nat}

theorem get_sameBut {c : Nat} (h : SameBut start n e e')
    (hapart : ∀ b offset, e.plan.buffers[id]? = some b → b.value.storage = .arena → b.offset = some offset →
      offset / 4 + c < start ∨ start + n ≤ offset / 4 + c) :
    e'.get inputs id c = e.get inputs id c := by
  unfold Executor.get Executor.buffer
  rw [h.plan, h.owned]
  cases hb : e.plan.buffers[id]? with
  | none => rfl
  | some b =>
    simp only [Outcome.unwrap_some, Outcome.ok_bind]
    cases hstorage : b.value.storage with
    | input | state | constant => rfl
    | arena =>
      cases hoffset : b.offset with
      | none => rfl
      | some offset =>
        simp only [Outcome.unwrap_some, Outcome.ok_bind]
        rw [h.outside _ (hapart b offset hb hstorage hoffset)]

end

section

variable [Float32 F] {inputs : Inputs F} {id : Nat} {v : List F}

/-- Reading a buffer cell by cell gives the entries of `v`. -/
structure Holds (e : Executor F) (inputs : Inputs F) (id : Nat) (v : List F) : Prop where
  buffer : ∃ b, e.plan.buffers[id]? = some b ∧ elements b.value.shape = .ok v.length
  get : ∀ c < v.length, e.get inputs id c = .ok (entry v c)

theorem entry_eq {c : Nat} {x : F} (h : v[c]? = some x) : entry v c = x := by
  rw [entry, List.getD_eq_getElem?_getD, h, Option.getD_some]

theorem map_entry : (List.range v.length).map (entry v) = v := by
  refine List.ext_getElem (by simp) fun i hi hi' => ?_
  rw [List.getElem_map, List.getElem_range]
  exact entry_eq (List.getElem?_eq_getElem hi')

theorem Holds.collect (h : Holds e inputs id v) : e.collect inputs id = .ok v := by
  obtain ⟨b, hb, hsize⟩ := h.buffer
  have hcells : Outcome.collect (e.get inputs id) (List.range v.length) = .ok ((List.range v.length).map (entry v)) :=
    Outcome.collect_eq_map fun c hc => h.get c (List.mem_range.mp hc)
  simp only [Executor.collect, Executor.buffer, hb, Outcome.unwrap_some, Outcome.ok_bind, count_eq hsize, hcells,
    map_entry]

theorem Holds.sameBut (h : Holds e inputs id v) (hsame : SameBut start n e e')
    (hapart : ∀ b offset, e.plan.buffers[id]? = some b → b.value.storage = .arena → b.offset = some offset →
      offset / 4 + v.length ≤ start ∨ start + n ≤ offset / 4) : Holds e' inputs id v := by
  refine ⟨by rw [hsame.plan]; exact h.buffer, fun c hc => ?_⟩
  rw [get_sameBut hsame, h.get c hc]
  intro b offset hb hstorage hoffset
  have := hapart b offset hb hstorage hoffset
  omega

/-- The operands of a step, whatever it writes to its output. -/
def Held (e : Executor F) (inputs : Inputs F) (start n : Nat) (ids : List Nat) (values : List (List F)) : Prop :=
  List.Forall₂ (fun id v => ∀ e', SameBut start n e e' → Holds e' inputs id v) ids values

end

/-! ## Writing a whole value -/

/-- A value was written to the cells of a buffer, and nothing else changed. -/
structure Written (start : Nat) (v : List F) (e e' : Executor F) : Prop where
  same : SameBut start v.length e e'
  cells : ∀ c < v.length, e'.arena[start + c]? = v[c]?

theorem Filled.written {value : Nat → F} {cells : List Nat} (h : Filled start value cells e e')
    (hcells : ∀ c, c ∈ cells ↔ c < n) : Written start ((List.range n).map value) e e' where
  same := h.sameBut fun c hc => by simpa using (hcells c).mp hc
  cells c hc := by
    have hc : c < n := by simpa using hc
    rw [h.inside c ((hcells c).mpr hc), List.getElem?_map, List.getElem?_range hc, Option.map_some]

/-! ## Tiles -/

theorem mem_span {i first last : Nat} : i ∈ span first last ↔ first ≤ i ∧ i < last := by
  rw [span, List.mem_range'_1]
  omega

theorem mem_stepBy {tile last i : Nat} (htile : 0 < tile) :
    i ∈ stepBy tile last ↔ (∃ q, i = q * tile) ∧ i < last := by
  have hround : ∀ q, q < (last + tile - 1) / tile ↔ q * tile < last := by
    intro q
    rw [← Nat.succ_le_iff, Nat.le_div_iff_mul_le htile, Nat.succ_mul]
    omega
  simp only [stepBy, List.mem_map, List.mem_range, hround]
  constructor
  · rintro ⟨q, hq, rfl⟩
    exact ⟨⟨q, rfl⟩, hq⟩
  · rintro ⟨⟨q, rfl⟩, hq⟩
    exact ⟨q, hq, rfl⟩

/-- Every index is in some tile, and no tile has others. -/
theorem mem_tiles {tile last i : Nat} (htile : 0 < tile) :
    (∃ first ∈ stepBy tile last, i ∈ span first (min (first + tile) last)) ↔ i < last := by
  simp only [mem_stepBy htile, mem_span]
  constructor
  · rintro ⟨first, -, -, hi⟩
    omega
  · intro hi
    have hmod := Nat.mod_lt i htile
    have hdiv := Nat.div_add_mod' i tile
    refine ⟨i / tile * tile, ⟨⟨_, rfl⟩, ?_⟩, ?_, ?_⟩ <;> omega

/-- The cells a tiled product writes, in its order. -/
def tiledCells (tile m n : Nat) : List Nat :=
  (stepBy tile m).flatMap fun row =>
    (stepBy tile n).flatMap fun col =>
      (span row (min (row + tile) m)).flatMap fun i =>
        (span col (min (col + tile) n)).flatMap fun j => [i * n + j]

theorem mem_tiledCells {tile m n c : Nat} (htile : 0 < tile) : c ∈ tiledCells tile m n ↔ c < m * n := by
  have hcell : c ∈ tiledCells tile m n ↔ ∃ i < m, ∃ j < n, c = i * n + j := by
    simp only [tiledCells, List.mem_flatMap, List.mem_singleton]
    constructor
    · rintro ⟨row, hrow, col, hcol, i, hi, j, hj, rfl⟩
      exact ⟨i, (mem_tiles htile).mp ⟨row, hrow, hi⟩, j, (mem_tiles htile).mp ⟨col, hcol, hj⟩, rfl⟩
    · rintro ⟨i, hi, j, hj, rfl⟩
      obtain ⟨row, hrow, hi⟩ := (mem_tiles htile).mpr hi
      obtain ⟨col, hcol, hj⟩ := (mem_tiles htile).mpr hj
      exact ⟨row, hrow, col, hcol, i, hi, j, hj, rfl⟩
  rw [hcell]
  constructor
  · rintro ⟨i, hi, j, hj, rfl⟩
    calc i * n + j < i * n + n := Nat.add_lt_add_left hj _
      _ = (i + 1) * n := (Nat.succ_mul i n).symm
      _ ≤ m * n := Nat.mul_le_mul_right n hi
  · intro hc
    have hn : 0 < n := Nat.pos_of_ne_zero fun hn => by simp [hn] at hc
    exact ⟨c / n, Nat.div_lt_of_lt_mul (by rwa [Nat.mul_comm]), c % n, Nat.mod_lt c hn, (Nat.div_add_mod' c n).symm⟩

/-! ## Kernels -/

section

variable [Float32 F] {inputs : Inputs F}

theorem runElementwise_written {op : Op} {kernel : Kernel} {a : Nat} {b : Option Nat} {k w : Nat} {va vb : List F}
    (hbound : start + n ≤ e.arena.length)
    (helement : ∀ c < n, ∀ e', SameBut start n e e' →
      element inputs kernel a b c e' = .ok (cell op k w va vb c)) :
    ∃ e', runElementwise inputs kernel a b start n e = (.ok (), e') ∧
      Written start ((List.range n).map (cell op k w va vb)) e e' := by
  let body (i : Nat) : Method (Executor F) Error Unit := do
    let value ← Method.read (element inputs kernel a b i)
    write (start + i) value
  obtain ⟨e', hrun, hfilled⟩ : ∃ e', forEach (List.range n) body e = (.ok (), e') ∧
      Filled start (cell op k w va vb) ((List.range n).flatMap fun i => [i]) e e' :=
    forEach_filled
      (fun i hi c hc => by
        obtain rfl := List.mem_singleton.mp hc
        exact List.mem_range.mp hi)
      (fun i hi e' hsame => by
        have hi := List.mem_range.mp hi
        refine round_filled ?_ (helement i hi e' hsame)
        rw [hsame.length]
        omega)
  exact ⟨e', hrun, hfilled.written fun c => by simp⟩

/-- A dot product of entries within bounds. -/
theorem dot_eq {a b k w i j : Nat} {va vb : List F} (ha : Holds e inputs a va) (hb : Holds e inputs b vb)
    {zs : List Nat} (hza : ∀ z ∈ zs, i * k + z < va.length) (hzb : ∀ z ∈ zs, z * w + j < vb.length) (sum : F) :
    dot inputs a (some b) w k i j e sum zs =
      .ok (zs.foldl
        (fun sum z => Float32.add sum (Float32.mul (entry va (i * k + z)) (entry vb (z * w + j)))) sum) := by
  induction zs generalizing sum with
  | nil => rfl
  | cons z zs ih =>
    have hx := ha.get (i * k + z) (hza z List.mem_cons_self)
    have hy := hb.get (z * w + j) (hzb z List.mem_cons_self)
    simp only [dot, hx, hy, Outcome.unwrap_some, Outcome.ok_bind, List.foldl_cons]
    exact ih (fun z' hz' => hza z' (List.mem_cons_of_mem _ hz')) (fun z' hz' => hzb z' (List.mem_cons_of_mem _ hz')) _

/-- Whatever the tiling, cell `i * w + j` gets the dot product of row `i` and
    column `j`. -/
theorem runMatmul_written {a b m k w tile : Nat} {va vb : List F} (htile : 0 < tile)
    (hheld : ∀ e', SameBut start (m * w) e e' → Holds e' inputs a va ∧ Holds e' inputs b vb)
    (ha : va.length = m * k) (hb : vb.length = k * w) (hbound : start + m * w ≤ e.arena.length) :
    ∃ e', runMatmul inputs tile a (some b) start m w k e = (.ok (), e') ∧
      Written start ((List.range (m * w)).map (cell .matmul k w va vb)) e e' := by
  have hcell : ∀ i < m, ∀ j < w, i * w + j < m * w := by
    intro i hi j hj
    calc i * w + j < (i + 1) * w := by rw [Nat.succ_mul]; omega
      _ ≤ m * w := Nat.mul_le_mul_right w hi
  -- One cell: the operands are read as they were before the step.
  have hround : ∀ i < m, ∀ j < w, ∀ e', SameBut start (m * w) e e' →
      ∃ e'', (do
        let sum ← Method.read fun e => dot inputs a (some b) w k i j e Float32.zero (List.range k)
        write (start + i * w + j) sum : Method (Executor F) Error Unit) e' = (.ok (), e'') ∧
        Filled start (cell .matmul k w va vb) [i * w + j] e' e'' := by
    intro i hi j hj e' hsame
    obtain ⟨hva, hvb⟩ := hheld e' hsame
    have hinside := hcell i hi j hj
    rw [Nat.add_assoc]
    refine round_filled (by rw [hsame.length]; omega) ?_
    have hw : 0 < w := Nat.lt_of_le_of_lt (Nat.zero_le j) hj
    have hrow : (i * w + j) / w = i := by
      rw [Nat.add_comm, Nat.add_mul_div_right _ _ hw, Nat.div_eq_of_lt hj, Nat.zero_add]
    have hcol : (i * w + j) % w = j := by
      rw [Nat.add_comm, Nat.add_mul_mod_self_right, Nat.mod_eq_of_lt hj]
    rw [dot_eq hva hvb, cell, hrow, hcol]
    · intro z hz
      have hz := List.mem_range.mp hz
      calc i * k + z < (i + 1) * k := by rw [Nat.succ_mul]; omega
        _ ≤ m * k := Nat.mul_le_mul_right k hi
        _ = va.length := ha.symm
    · intro z hz
      have hz := List.mem_range.mp hz
      calc z * w + j < (z + 1) * w := by rw [Nat.succ_mul]; omega
        _ ≤ k * w := Nat.mul_le_mul_right w hz
        _ = vb.length := hb.symm
  have htiled : ∀ c ∈ tiledCells tile m w, c < m * w := fun c => (mem_tiledCells htile).mp
  have hfills : ∃ e', runMatmul inputs tile a (some b) start m w k e = (.ok (), e') ∧
      Filled start (cell .matmul k w va vb) (tiledCells tile m w) e e' := by
    unfold runMatmul tiledCells
    refine forEach_filled (n := m * w) (fun row hrow c hc => htiled c (List.mem_flatMap.mpr ⟨row, hrow, hc⟩)) ?_
    intro row hrow e₁ h₁
    refine forEach_filled (n := m * w)
      (fun col hcol c hc => htiled c (List.mem_flatMap.mpr ⟨row, hrow, List.mem_flatMap.mpr ⟨col, hcol, hc⟩⟩)) ?_
    intro col hcol e₂ h₂
    have hi : ∀ i ∈ span row (min (row + tile) m), i < m := fun i hi => (mem_tiles htile).mp ⟨row, hrow, hi⟩
    have hj : ∀ j ∈ span col (min (col + tile) w), j < w := fun j hj => (mem_tiles htile).mp ⟨col, hcol, hj⟩
    refine forEach_filled (n := m * w) (fun i hi' c hc => ?_) ?_
    · obtain ⟨j, hj', hc⟩ := List.mem_flatMap.mp hc
      obtain rfl := List.mem_singleton.mp hc
      exact hcell i (hi i hi') j (hj j hj')
    intro i hi' e₃ h₃
    refine forEach_filled (n := m * w) (fun j hj' c hc => ?_) ?_
    · obtain rfl := List.mem_singleton.mp hc
      exact hcell i (hi i hi') j (hj j hj')
    intro j hj' e₄ h₄
    exact hround i (hi i hi') j (hj j hj') e₄ (((h₁.trans h₂).trans h₃).trans h₄)
  obtain ⟨e', hrun, hfilled⟩ := hfills
  exact ⟨e', hrun, hfilled.written fun c => mem_tiledCells htile⟩

end

end Executor

/-! ## Shapes -/

/-- The operand and result shapes an operation may have. -/
inductive Shaped : Op → List (List Nat) → List Nat → Prop where
  | add (d : List Nat) : Shaped .add [d, d] d
  | mul (d : List Nat) : Shaped .mul [d, d] d
  | relu (d : List Nat) : Shaped .relu [d] d
  | matmul (m k n : Nat) : Shaped .matmul [[m, k], [k, n]] [m, n]

theorem matmulShape_eq_ok {shapes : List (List Nat)} {out : List Nat} (h : matmulShape shapes = .ok out) :
    Shaped .matmul shapes out := by
  unfold matmulShape at h
  split at h
  · split at h
    · exact absurd h invalid_ne_ok
    rename_i hinner
    obtain rfl := not_not.mp hinner
    obtain ⟨count, -, h⟩ := Outcome.bind_eq_ok.mp h
    obtain ⟨work, -, h⟩ := Outcome.bind_eq_ok.mp h
    split at h
    · exact absurd h invalid_ne_ok
    · obtain rfl := Outcome.ok.inj h
      exact .matmul _ _ _
  · exact absurd h invalid_ne_ok

theorem shape_eq_ok {op : Op} {shapes : List (List Nat)} {out : List Nat} (h : shape op shapes = .ok out) :
    Shaped op shapes out := by
  by_cases harity : shapes.length = if op = .relu then 1 else 2
  · rw [shape.eq_def, if_neg (not_not.mpr harity)] at h
    cases op with
    | matmul => exact matmulShape_eq_ok h
    | relu =>
      obtain ⟨d, rfl⟩ := List.length_eq_one_iff.mp harity
      obtain rfl := Option.some.inj (Outcome.unwrap_eq_ok.mp h)
      exact .relu _
    | add | mul =>
      obtain ⟨d, d', rfl⟩ := List.length_eq_two.mp harity
      dsimp only at h
      split at h
      · exact absurd h invalid_ne_ok
      rename_i hsame
      obtain rfl := Option.some.inj (not_not.mp hsame)
      obtain rfl := Option.some.inj (Outcome.unwrap_eq_ok.mp h)
      first
        | exact .add _
        | exact .mul _
  · rw [shape.eq_def, if_pos harity] at h
    exact absurd h invalid_ne_ok

/-! ## Steps -/

namespace Executor

variable {F : Type} [Float32 F] {e e' : Executor F} {inputs : Inputs F} {step : Step} {out : Buffer F}
  {shapes : List (List Nat)} {values : List (List F)} {start n a : Nat}

omit [Float32 F] in
theorem operands_one {d : List Nat} (h : List.Forall₂ (fun shape v => shape.prod = v.length) [d] values) :
    ∃ va, values = [va] ∧ d.prod = va.length := by
  obtain ⟨va, _, hva, hnil, rfl⟩ := List.forall₂_cons_left_iff.mp h
  obtain rfl := List.forall₂_nil_left_iff.mp hnil
  exact ⟨va, rfl, hva⟩

omit [Float32 F] in
theorem operands_two {d d' : List Nat} (h : List.Forall₂ (fun shape v => shape.prod = v.length) [d, d'] values) :
    ∃ va vb, values = [va, vb] ∧ d.prod = va.length ∧ d'.prod = vb.length := by
  obtain ⟨va, _, hva, hrest, rfl⟩ := List.forall₂_cons_left_iff.mp h
  obtain ⟨vb, rfl, hvb⟩ := operands_one hrest
  exact ⟨va, vb, rfl, hva, hvb⟩

theorem held_one {ids : List Nat} {va : List F} (h : Held e inputs start n ids [va]) (ha : ids[0]? = some a) :
    ids = [a] ∧ ∀ e', SameBut start n e e' → Holds e' inputs a va := by
  obtain ⟨a', _, hva, hnil, rfl⟩ := List.forall₂_cons_right_iff.mp h
  obtain rfl := List.forall₂_nil_right_iff.mp hnil
  obtain rfl := Option.some.inj ha
  exact ⟨rfl, hva⟩

theorem held_two {ids : List Nat} {va vb : List F} (h : Held e inputs start n ids [va, vb]) (ha : ids[0]? = some a) :
    ∃ b, ids = [a, b] ∧ ∀ e', SameBut start n e e' → Holds e' inputs a va ∧ Holds e' inputs b vb := by
  obtain ⟨a', _, hva, hrest, rfl⟩ := List.forall₂_cons_right_iff.mp h
  obtain ⟨b, _, hvb, hnil, rfl⟩ := List.forall₂_cons_right_iff.mp hrest
  obtain rfl := List.forall₂_nil_right_iff.mp hnil
  obtain rfl := Option.some.inj ha
  exact ⟨b, rfl, fun e' hsame => ⟨hva e' hsame, hvb e' hsame⟩⟩

theorem element_binary {b c k w : Nat} {va vb : List F} (ha : Holds e inputs a va) (hb : Holds e inputs b vb)
    (hc : c < va.length) (hc' : c < vb.length) :
    element inputs .addF32V1 a (some b) c e = .ok (cell .add k w va vb c) ∧
      element inputs .mulF32V1 a (some b) c e = .ok (cell .mul k w va vb c) := by
  simp only [element, ha.get c hc, hb.get c hc', Outcome.unwrap_some, Outcome.ok_bind]
  exact ⟨rfl, rfl⟩

/-- The kernel of a step computes its operation. -/
theorem runKernel_written (hshaped : Shaped step.kernel.op shapes out.value.shape)
    (hheld : Held e inputs start n step.inputs values)
    (hshapes : step.inputs.map e.plan.shapeOf = shapes.map some)
    (hsizes : List.Forall₂ (fun shape v => shape.prod = v.length) shapes values)
    (hn : out.value.shape.prod = n) (ha : step.inputs[0]? = some a) (hbound : start + n ≤ e.arena.length) :
    ∃ e', runKernel inputs step out a start n e = (.ok (), e') ∧
      Written start (step.kernel.op.evaluate shapes values out.value.shape) e e' := by
  rw [Op.evaluate, hn]
  cases hkernel : step.kernel <;> simp only [hkernel, Kernel.op] at hshaped
  all_goals
    generalize hout : out.value.shape = d at hshaped hn
    generalize hids : step.inputs = ids at *
    cases hshaped
  case addF32V1.add | mulF32V1.mul =>
    obtain ⟨va, vb, rfl, ha', hb'⟩ := operands_two hsizes
    obtain ⟨b, rfl, hoperands⟩ := held_two hheld ha
    rw [runKernel, hkernel, hids]
    refine runElementwise_written hbound fun c hc e' hsame => ?_
    obtain ⟨hva, hvb⟩ := hoperands e' hsame
    have hboth := element_binary (k := columns d) (w := columns d) hva hvb (c := c) (by omega) (by omega)
    first
      | exact hboth.1
      | exact hboth.2
  case reluF32V1.relu =>
    obtain ⟨va, rfl, ha'⟩ := operands_one hsizes
    obtain ⟨rfl, hoperand⟩ := held_one hheld ha
    rw [runKernel, hkernel]
    refine runElementwise_written hbound fun c hc e' hsame => ?_
    have hx := (hoperand e' hsame).get c (by omega)
    simp only [element, hx, Outcome.ok_bind]
    rfl
  case matmulF32V1.matmul m k w | matmulBlockedF32V1.matmul m k w =>
    obtain ⟨va, vb, rfl, ha', hb'⟩ := operands_two hsizes
    obtain ⟨b, rfl, hoperands⟩ := held_two hheld ha
    simp only [List.prod_cons, List.prod_nil, Nat.mul_one] at ha' hb' hn
    subst hn
    obtain ⟨left, hleft, hshape⟩ := Option.map_eq_some_iff.mp (List.cons.inj hshapes).1
    have hread : buffer e a = .ok left := Outcome.unwrap_eq_ok.mpr hleft
    simp only [runKernel, hkernel, hout, hids, bind_run, read_run, lift_run, hread, hshape, List.getElem?_cons_zero,
      List.getElem?_cons_succ, Outcome.unwrap_some]
    exact runMatmul_written (by simp) hoperands ha'.symm hb'.symm hbound

theorem finiteCells_eq {v : List F} (h : ∀ c < v.length, e.arena[start + c]? = v[c]?) :
    finiteCells e (span start (start + v.length)) = .ok (v.all Float32.isFinite) := by
  rw [span, Nat.add_sub_cancel_left]
  induction v generalizing start with
  | nil => rfl
  | cons x v ih =>
    have hfirst : e.arena[start]? = some x := h 0 (Nat.succ_pos _)
    have hrest : finiteCells e (List.range' (start + 1) v.length) = .ok (v.all Float32.isFinite) := ih fun c hc => by
      have := h (c + 1) (Nat.succ_lt_succ hc)
      rwa [List.getElem?_cons_succ, Nat.add_comm c 1, ← Nat.add_assoc] at this
    rw [List.length_cons, List.range'_succ, finiteCells, hfirst, hrest, List.all_cons]
    cases hx : Float32.isFinite x <;> simp [hx]

/-- The result of a bound implementation is copied to the cells of the output. -/
theorem writeAll_written {v : List F} (hbound : start + v.length ≤ e.arena.length) :
    ∃ e', forEach v.zipIdx (fun (value, i) => write (start + i) value) e = (.ok (), e') ∧ Written start v e e' := by
  obtain ⟨e', hrun, hfilled⟩ : ∃ e', forEach v.zipIdx (fun (value, i) => write (start + i) value) e = (.ok (), e') ∧
      Filled start (entry v) (v.zipIdx.flatMap fun x => [x.2]) e e' :=
    forEach_filled
      (fun x hx c hc => by
        obtain rfl := List.mem_singleton.mp hc
        exact List.snd_lt_of_mem_zipIdx hx)
      (fun x hx e' hsame => by
        have hx' : x.1 = entry v x.2 := (entry_eq (List.mem_zipIdx_iff_getElem?.mp hx)).symm
        have hlt := List.snd_lt_of_mem_zipIdx hx
        dsimp only
        rw [hx']
        refine write_filled ?_
        rw [hsame.length]
        omega)
  refine ⟨e', hrun, ?_⟩
  have hwritten : Written start ((List.range v.length).map (entry v)) e e' := hfilled.written fun c => by
    simp only [List.mem_flatMap, List.mem_singleton]
    constructor
    · rintro ⟨x, hx, rfl⟩
      exact List.snd_lt_of_mem_zipIdx hx
    · intro hc
      exact ⟨(v[c], c), List.mem_zipIdx_iff_getElem?.mpr (List.getElem?_eq_getElem hc), rfl⟩
  rwa [map_entry] at hwritten

/-! ## One step -/

/-- Between steps: the buffers alive before step `i` hold the values of the private
    interpreter. -/
def Live (p : PhysicalPlan F) (i : Nat) (e : Executor F) (locals : Locals F) : Prop :=
  ∀ id start n first last, Slot p id start n first last → first < i → i ≤ last →
    ∃ v, locals[id]? = some v ∧ v.length = n ∧ ∀ c < n, e.arena[start + c]? = v[c]?

/-- An executor between invocations. -/
structure Ready (e : Executor F) : Prop where
  verified : Verified e.plan
  length : e.arena.length = e.plan.arenaBytes / 4
  owned : ∀ (id : Nat) b, e.plan.buffers[id]? = some b → b.value.storage = .state ∨ b.value.storage = .constant →
    ∃ v, e.owned[id]? = some v ∧ elements b.value.shape = .ok v.length

/-- Every input is given, in its size. -/
def Supplied (inputs : Inputs F) (p : PhysicalPlan F) : Prop :=
  ∀ b ∈ p.buffers, b.value.storage = .input → ∃ v, inputs[b.value.name]? = some v ∧ elements b.value.shape = .ok v.length

/-- What a step or a result reads is there, for both interpreters. -/
theorem value_holds {i id : Nat} {locals : Locals F} (hready : e.Ready) (hinputs : Supplied inputs e.plan)
    (hlive : Live e.plan i e locals) (h : Operand e.plan e.plan.lifetimes i id) :
    ∃ v, e.toPrivate.value inputs locals id = .ok v ∧ Holds e inputs id v := by
  obtain ⟨b, hb⟩ := h.buffer
  cases hstorage : b.value.storage with
  | arena =>
    obtain ⟨start, n, first, last, hslot⟩ := hready.verified.slot hb hstorage
    obtain ⟨-, hlife, hn, offset, hoffset, hstart⟩ := hslot.of_buffer hb
    obtain ⟨first', last', halive, hfirst, hlast⟩ := h.alive b hb hstorage
    obtain ⟨b', hb', hlife'⟩ := alive_iff.mp halive
    obtain rfl := Option.some.inj (hb.symm.trans hb')
    obtain ⟨rfl, rfl⟩ := Prod.mk.inj (Option.some.inj (hlife.symm.trans hlife'))
    obtain ⟨v, hv, rfl, hcells⟩ := hlive id start n first last hslot hfirst hlast
    refine ⟨v, ?_, ⟨b, hb, hn⟩, fun c hc => ?_⟩
    · simp [PrivateExecutor.value, toPrivate, hb, hstorage, hv]
    · simp [Executor.get, Executor.buffer, hb, hstorage, hoffset, hstart, hcells c hc, entry, hc]
  | input =>
    obtain ⟨v, hv, hn⟩ := hinputs b (List.mem_of_getElem? hb) hstorage
    refine ⟨v, ?_, ⟨b, hb, hn⟩, fun c hc => ?_⟩
    · simp [PrivateExecutor.value, toPrivate, hb, hstorage, hv]
    · simp [Executor.get, Executor.buffer, hb, hstorage, hv, entry, hc]
  | state | constant =>
    obtain ⟨v, hv, hn⟩ := hready.owned id b hb (by simp [hstorage])
    refine ⟨v, ?_, ⟨b, hb, hn⟩, fun c hc => ?_⟩
    · simp [PrivateExecutor.value, toPrivate, hb, hstorage, hv]
    · simp [Executor.get, Executor.buffer, hb, hstorage, hv, entry, hc]

/-- A checked step reads operands that its output does not overlap. -/
theorem held_operands {i : Nat} {locals : Locals F} {last : Nat} (hready : e.Ready)
    (hinputs : Supplied inputs e.plan) (hlive : Live e.plan i e locals)
    (hslot : Slot e.plan step.output start n i last) (hlast : i ≤ last) {ids : List Nat}
    (hoperands : ∀ id ∈ ids, Operand e.plan e.plan.lifetimes i id) :
    ∃ values, Outcome.collect (e.toPrivate.value inputs locals) ids = .ok values ∧ Held e inputs start n ids values := by
  induction ids with
  | nil => exact ⟨[], rfl, .nil⟩
  | cons id ids ih =>
    obtain ⟨values, hvalues, hheld⟩ := ih fun id' hid => hoperands id' (List.mem_cons_of_mem _ hid)
    have hoperand := hoperands id List.mem_cons_self
    obtain ⟨v, hv, hholds⟩ := value_holds hready hinputs hlive hoperand
    refine ⟨v :: values, ?_, .cons (fun e' hsame => hholds.sameBut hsame ?_) hheld⟩
    · simp [Outcome.collect, hv, hvalues]
    intro b offset hb harena hoffset
    obtain ⟨first', last', halive, hfirst', hlast'⟩ := hoperand.alive b hb harena
    obtain ⟨start', n', first, last₁, hslot'⟩ := hready.verified.slot hb harena
    obtain ⟨-, hlife, hn', offset', hoffset', rfl⟩ := hslot'.of_buffer hb
    obtain ⟨b', hb', hlife'⟩ := alive_iff.mp halive
    obtain rfl := Option.some.inj (hb.symm.trans hb')
    obtain ⟨rfl, rfl⟩ := Prod.mk.inj (Option.some.inj (hlife.symm.trans hlife'))
    obtain rfl := Option.some.inj (hoffset.symm.trans hoffset')
    obtain ⟨b', hb', hlength⟩ := hholds.buffer
    obtain rfl := Option.some.inj (hb.symm.trans hb')
    obtain rfl := Outcome.ok.inj (hn'.symm.trans hlength)
    -- The operand was produced before the step, the output is produced by it.
    have hne : id ≠ step.output := by
      rintro rfl
      obtain ⟨-, hlife₂, -⟩ := hslot.of_buffer hb
      obtain ⟨rfl, -⟩ := Prod.mk.inj (Option.some.inj (hlife.symm.trans hlife₂))
      omega
    exact hready.verified.disjoint hslot' hslot hne (by omega) hlast'

/-- The executor comes back from some steps as the private interpreter does. -/
inductive Agree (i : Nat) (e : Executor F) : Outcome Error Unit × Executor F → Result (Locals F) → Prop where
  | ok {e' : Executor F} {locals : Locals F} (same : e'.toPrivate = e.toPrivate)
      (length : e'.arena.length = e.arena.length) (live : Live e.plan i e' locals) : Agree i e (.ok (), e') (.ok locals)
  | err {e' : Executor F} {error : Error} (same : e'.toPrivate = e.toPrivate)
      (length : e'.arena.length = e.arena.length) : Agree i e (.err error, e') (.err error)

/-- The output of step `i` joins the live buffers, the others are not overwritten. -/
theorem Live.produced {i : Nat} {locals : Locals F} {v : List F} {last : Nat} (h : Live e.plan i e locals)
    (hready : e.Ready) (hslot : Slot e.plan step.output start v.length i last) (hlast : i ≤ last)
    (hstep : e.plan.steps[i]? = some step) (hwritten : Written start v e e') :
    Live e.plan (i + 1) e' (locals.insert step.output v) := by
  intro id start' n' first last' hslot' hfirst hlast'
  by_cases hid : step.output = id
  · subst hid
    obtain ⟨b, offset, hb, -⟩ := hslot.buffer
    obtain ⟨-, -, hn, offset, hoffset, rfl⟩ := hslot.of_buffer hb
    obtain ⟨-, -, hn', offset', hoffset', rfl⟩ := hslot'.of_buffer hb
    obtain rfl := Outcome.ok.inj (hn.symm.trans hn')
    obtain rfl := Option.some.inj (hoffset.symm.trans hoffset')
    exact ⟨v, ExtTreeMap.getElem?_insert_self, rfl, hwritten.cells⟩
  · have hbefore : first < i := by
      refine Nat.lt_of_le_of_ne (Nat.le_of_lt_succ hfirst) ?_
      rintro rfl
      obtain ⟨b, offset, hb, -, -, -, -, hlife⟩ := hslot'.buffer
      obtain ⟨step', hstep', rfl⟩ := hready.verified.produced id _ last' (alive_iff.mpr ⟨b, hb, hlife⟩)
      obtain rfl := Option.some.inj (hstep.symm.trans hstep')
      exact hid rfl
    obtain ⟨v', hv', hn', hcells⟩ := h id start' n' first last' hslot' hbefore (by omega)
    refine ⟨v', (ExtTreeMap.getElem?_insert_ne hid).trans hv', hn', fun c hc => ?_⟩
    rw [hwritten.same.outside, hcells c hc]
    have := hready.verified.disjoint hslot hslot' hid (by omega) (by omega)
    omega

/-- A value written to the output of step `i` agrees with the private interpreter. -/
theorem agree_written {i : Nat} {locals : Locals F} {v : List F} {last : Nat} (hlive : Live e.plan i e locals)
    (hready : e.Ready) (hslot : Slot e.plan step.output start n i last) (hlast : i ≤ last) (hn : v.length = n)
    (hstep : e.plan.steps[i]? = some step) (hwritten : Written start v e e') :
    Agree (i + 1) e (.ok (), e') (.ok (locals.insert step.output v)) := by
  subst hn
  exact .ok hwritten.same.toPrivate hwritten.same.length (hlive.produced hready hslot hlast hstep hwritten)

theorem runImplementation_agree {i : Nat} {locals : Locals F} {last : Nat} {implementation : CompiledKernel F}
    (himplementation : e.implementations[step.name]? = some implementation) (hlive : Live e.plan i e locals)
    (hready : e.Ready) (hslot : Slot e.plan step.output start n i last) (hlast : i ≤ last)
    (hstep : e.plan.steps[i]? = some step) (hn : out.value.shape.prod = n) {operands : List (Buffer F)}
    (hoperands : Outcome.collect e.buffer step.inputs = .ok operands)
    (hvalues : Outcome.collect (e.collect inputs) step.inputs = .ok values) :
    Agree (i + 1) e (runImplementation inputs step out start n implementation e)
      (do
        let output ← e.toPrivate.result step (operands.map (·.value.shape)) values out.value.shape
        .ok (locals.insert step.output output)) := by
  have hbound : start + n ≤ e.arena.length := hready.length ▸ hslot.bound
  have himplementation' : e.toPrivate.implementations[step.name]? = some implementation := himplementation
  simp only [runImplementation, PrivateExecutor.result, himplementation', bind_run, read_run, lift_run, hoperands, hvalues]
  cases hexecuted : executed implementation (operands.map (·.value.shape)) values out.value.shape with
  | err error => exact .err rfl rfl
  | panic =>
    unfold executed at hexecuted
    split at hexecuted <;> cases hexecuted
  | ok output =>
    simp only [Outcome.ok_bind, hn]
    split
    · exact .err rfl rfl
    · rename_i hcontract
      have hlength : output.length = n := not_not.mp (not_or.mp hcontract).1
      obtain ⟨e', hrun, hwritten⟩ := writeAll_written (show start + output.length ≤ e.arena.length by omega)
      rw [hrun]
      exact agree_written hlive hready hslot hlast hlength hstep hwritten

omit [Float32 F] in
theorem collect_buffers {p : PhysicalPlan F} {ids : List Nat} (h : ids.map p.shapeOf = shapes.map some) :
    ∃ operands, Outcome.collect (fun id => (Outcome.unwrap p.buffers[id]? : Result (Buffer F))) ids = .ok operands ∧
      operands.map (·.value.shape) = shapes := by
  induction ids generalizing shapes with
  | nil =>
    obtain rfl : shapes = [] := by simpa using h.symm
    exact ⟨[], rfl, rfl⟩
  | cons id ids ih =>
    cases shapes with
    | nil => cases h
    | cons shape shapes =>
      obtain ⟨hhead, htail⟩ := List.cons.inj h
      obtain ⟨b, hb, hshape⟩ := Option.map_eq_some_iff.mp hhead
      obtain ⟨operands, hoperands, hall⟩ := ih htail
      refine ⟨b :: operands, ?_, ?_⟩
      · simp [Outcome.collect, hb, hoperands]
      · rw [List.map_cons, hshape, hall]

theorem Held.collect {ids : List Nat} (h : Held e inputs start n ids values) :
    Outcome.collect (e.collect inputs) ids = .ok values :=
  Outcome.collect_eq_ok.mpr (h.imp fun _ _ hholds => (hholds e (.refl _ _ _)).collect)

/-- The operands have as many cells as their shapes say. -/
theorem Held.sizes {ids : List Nat} (h : Held e inputs start n ids values)
    (hshapes : ids.map e.plan.shapeOf = shapes.map some) :
    List.Forall₂ (fun shape v => shape.prod = v.length) shapes values := by
  induction h generalizing shapes with
  | nil =>
    obtain rfl : shapes = [] := by simpa using hshapes.symm
    exact .nil
  | cons hhead _ ih =>
    cases shapes with
    | nil => cases hshapes
    | cons shape shapes =>
      obtain ⟨hshape, hrest⟩ := List.cons.inj hshapes
      obtain ⟨b, hb, hsize⟩ := (hhead e (.refl _ _ _)).buffer
      obtain ⟨b', hb', rfl⟩ := Option.map_eq_some_iff.mp hshape
      obtain rfl := Option.some.inj (hb.symm.trans hb')
      exact .cons (elements_prod hsize) (ih hrest)

omit [Float32 F] in
/-- A step has a first operand. -/
theorem exists_operand {op : Op} {d : List Nat} {ids : List Nat} (hshaped : Shaped op shapes d)
    (hshapes : ids.map e.plan.shapeOf = shapes.map some) : ∃ a, ids[0]? = some a := by
  cases ids with
  | nil =>
    obtain rfl : shapes = [] := by simpa using hshapes.symm
    cases hshaped
  | cons a ids => exact ⟨a, rfl⟩

/-- One step, on the arena and with private storage. -/
theorem runStep_agree {i : Nat} {locals : Locals F} (hready : e.Ready) (hinputs : Supplied inputs e.plan)
    (hlive : Live e.plan i e locals) (hstep : e.plan.steps[i]? = some step) :
    Agree (i + 1) e (runStep inputs step e) (e.toPrivate.runStep inputs step locals) := by
  have hchecked := hready.verified.steps i step hstep
  obtain ⟨out, shapes, hout, harena, -, hshapes, hshape⟩ := hchecked.output
  have hshaped := shape_eq_ok hshape
  obtain ⟨last, hlast, halive⟩ := hchecked.alive
  obtain ⟨start, n, first, last', hslot⟩ := hready.verified.slot hout harena
  obtain ⟨-, hlife, hn, offset, hoffset, rfl⟩ := hslot.of_buffer hout
  obtain ⟨out', hout', hlife'⟩ := alive_iff.mp halive
  obtain rfl := Option.some.inj (hout.symm.trans hout')
  obtain ⟨rfl, rfl⟩ := Prod.mk.inj (Option.some.inj (hlife.symm.trans hlife'))
  obtain ⟨values, hvalues, hheld⟩ := held_operands hready hinputs hlive hslot hlast hchecked.operands
  obtain ⟨operands, hoperands, rfl⟩ := collect_buffers hshapes
  obtain ⟨a, ha⟩ := exists_operand hshaped hshapes
  have hprod := elements_prod hn
  have hbuffer : buffer e step.output = .ok out := Outcome.unwrap_eq_ok.mpr hout
  have hprivate : e.toPrivate.runStep inputs step locals = (do
      let output ← e.toPrivate.result step (operands.map (·.value.shape)) values out.value.shape
      .ok (locals.insert step.output output)) := by
    have hout' : e.toPrivate.plan.buffers[step.output]? = some out := hout
    have hoperands' : Outcome.collect (fun id => (Outcome.unwrap e.toPrivate.plan.buffers[id]? : Result (Buffer F)))
      step.inputs = .ok operands := hoperands
    simp only [PrivateExecutor.runStep, hout', hoperands', hvalues, Outcome.unwrap_some, Outcome.ok_bind]
  rw [hprivate]
  simp only [runStep, bind_run, get_run, lift_run, hbuffer, hoffset, ha, hn, Outcome.unwrap_some]
  cases himplementation : e.implementations[step.name]? with
  | some implementation =>
    exact runImplementation_agree himplementation hlive hready hslot hlast hstep hprod hoperands hheld.collect
  | none =>
    have himplementation' : e.toPrivate.implementations[step.name]? = none := himplementation
    have hbound : offset / 4 + n ≤ e.arena.length := hready.length ▸ hslot.bound
    obtain ⟨e', hrun, hwritten⟩ :=
      runKernel_written hshaped hheld hshapes (hheld.sizes hshapes) hprod ha hbound
    simp only [PrivateExecutor.result, himplementation', hrun, bind_run, read_run]
    generalize hv : step.kernel.op.evaluate (operands.map (·.value.shape)) values out.value.shape = v at *
    have hlength : v.length = n := by simp [← hv, Op.evaluate, hprod]
    rw [← hlength, finiteCells_eq hwritten.cells]
    cases hfinite : v.all Float32.isFinite with
    | true => exact agree_written hlive hready hslot hlast hlength hstep hwritten
    | false => exact .err hwritten.same.toPrivate hwritten.same.length

/-! ## One invocation -/

/-- All that an invocation needs of the executor is left as it was. -/
theorem Ready.same (h : e.Ready) (hsame : e'.toPrivate = e.toPrivate) (hlength : e'.arena.length = e.arena.length) :
    e'.Ready := by
  have hplan : e'.plan = e.plan := congrArg PrivateExecutor.plan hsame
  have howned : e'.owned = e.owned := congrArg PrivateExecutor.owned hsame
  refine ⟨hplan ▸ h.verified, ?_, ?_⟩
  · rw [hlength, hplan, h.length]
  · rw [hplan, howned]
    exact h.owned

omit [Float32 F] in
theorem Agree.mono {i : Nat} {r : Outcome Error Unit × Executor F} {o : Result (Locals F)}
    (hsame : e'.toPrivate = e.toPrivate) (hlength : e'.arena.length = e.arena.length) (h : Agree i e' r o) :
    Agree i e r o := by
  have hplan : e'.plan = e.plan := congrArg PrivateExecutor.plan hsame
  cases h with
  | ok same length live => exact .ok (same.trans hsame) (length.trans hlength) (hplan ▸ live)
  | err same length => exact .err (same.trans hsame) (length.trans hlength)

/-- The remaining steps, on the arena and with private storage. -/
theorem runSteps_agree {i : Nat} {steps : List Step} {locals : Locals F} (hready : e.Ready)
    (hinputs : Supplied inputs e.plan) (hlive : Live e.plan i e locals) (hi : i ≤ e.plan.steps.length)
    (hsteps : e.plan.steps.drop i = steps) :
    Agree e.plan.steps.length e (forEach steps (runStep inputs) e) (e.toPrivate.runSteps inputs steps locals) := by
  induction steps generalizing i e locals with
  | nil =>
    obtain rfl : i = e.plan.steps.length := Nat.le_antisymm hi (List.drop_eq_nil_iff.mp hsteps)
    exact .ok rfl rfl hlive
  | cons step steps ih =>
    have hhere : e.plan.steps[i]? = some step := by
      rw [← List.head?_drop, hsteps]
      rfl
    have hrest : e.plan.steps.drop (i + 1) = steps := by
      rw [← List.drop_drop, hsteps]
      rfl
    have hagree := runStep_agree hready hinputs hlive hhere
    rw [forEach, PrivateExecutor.runSteps, bind_run]
    generalize hrun : runStep inputs step e = r at hagree
    generalize hprivate : e.toPrivate.runStep inputs step locals = o at hagree
    cases hagree with
    | err same length => exact .err same length
    | ok same length live =>
      rename_i e₁ locals₁
      have hplan : e₁.plan = e.plan := congrArg PrivateExecutor.plan same
      have hlater := ih (hready.same same length) (hplan ▸ hinputs) (hplan ▸ live)
        (hplan ▸ (List.getElem?_eq_some_iff.mp hhere).1) (hplan ▸ hrest)
      rw [hplan, same] at hlater
      exact hlater.mono same length

end Executor

end Inferfabric.Plan
