-- SUMMARY: The planner's placement is first fit: values alive at one time are apart, and padding is all it costs.
import IronPangu.Lib.FirstFit
import IronPangu.Plan.Planner.Lifetimes

open Rust Std

/-!
# Placement

The loop that places the outputs of the nodes is first fit over sizes rounded up to
the alignment, where a value conflicts with what is placed already and dies no
earlier than the value is born.
-/

namespace Inferfabric.Plan.Planner

open Ir

variable {F : Type} [Float32 F]

/-! ## Rounding -/

theorem dvd_aligned (n : Nat) : alignment ∣ divCeil n alignment * alignment := Nat.dvd_mul_left _ _

theorem le_aligned (n : Nat) : n ≤ divCeil n alignment * alignment := by
  simp only [divCeil, alignment]
  omega

/-- Sizes are multiples of four bytes, so at most sixty are lost. -/
theorem aligned_le {n : Nat} (h : 4 ∣ n) : divCeil n alignment * alignment ≤ n + 60 := by
  simp only [divCeil, alignment]
  omega

/-! ## One gap -/

/-- The bytes a value takes in the arena. -/
def alignedBytes (values : List (Value F)) (id : Nat) : Nat :=
  divCeil ((values[id]?.map bytesOf).getD 0) alignment * alignment

/-- `j` is alive when `i` is born. -/
def Conflicting (lives : ExtTreeMap Nat (Nat × Nat)) (i j : Nat) : Prop := (lifeOf lives j).2 ≥ (lifeOf lives i).1

instance (lives : ExtTreeMap Nat (Nat × Nat)) : DecidableRel (Conflicting lives) :=
  fun _ _ => inferInstanceAs (Decidable (_ ≥ _))

section
variable {values : List (Value F)} {lives : ExtTreeMap Nat (Nat × Nat)} {a : FirstFit.Arena Nat} {s : Placing F}

/-- The buffers after some outputs are placed. -/
structure Laid (values : List (Value F)) (lives : ExtTreeMap Nat (Nat × Nat)) (a : FirstFit.Arena Nat) (s : Placing F) :
    Prop where
  placed : s.placed = a.placed.map Prod.fst
  bytes : s.arenaBytes = a.bytes
  values : s.buffers.map (·.value) = values
  set : ∀ p ∈ a.placed, ∃ b, s.buffers[p.1]? = some b ∧ b.offset = some p.2 ∧ b.lifetime = some (lifeOf lives p.1)
  unset : ∀ (id : Nat) b, s.buffers[id]? = some b → id ∉ s.placed → b.offset = none ∧ b.lifetime = none

omit [Float32 F] in
theorem laid_start (values : List (Value F)) (lives : ExtTreeMap Nat (Nat × Nat)) :
    Laid values lives FirstFit.Arena.empty ⟨values.map fun v => ⟨v, none, none⟩, [], 0⟩ where
  placed := rfl
  bytes := rfl
  values := by simp [Function.comp_def]
  set := nofun
  unset := by
    intro id b hb _
    rw [List.getElem?_map] at hb
    obtain ⟨v, -, rfl⟩ := Option.map_eq_some_iff.mp hb
    exact ⟨rfl, rfl⟩

omit [Float32 F] in
theorem Laid.offsetOf (h : Laid values lives a s) {p : Nat × Nat} (hp : p ∈ a.placed) : s.offsetOf p.1 = p.2 := by
  obtain ⟨b, hb, hoffset, -⟩ := h.set p hp
  rw [Placing.offsetOf, hb, Option.bind_some, hoffset, Option.getD_some]

theorem Laid.elements_shapeOf (h : Laid values lives a s) (hvalues : ∀ v ∈ values, ValueOk v) {id : Nat} {v : Value F}
    (hv : values[id]? = some v) : ∃ count, elements (s.shapeOf id) = .ok count ∧
      divCeil (count * 4) alignment * alignment = alignedBytes values id := by
  obtain ⟨n, hn⟩ := (hvalues v (List.mem_of_getElem? hv)).size
  have hshape : s.shapeOf id = v.shape := by
    rw [← h.values, List.getElem?_map] at hv
    obtain ⟨b, hb, rfl⟩ := Option.map_eq_some_iff.mp hv
    rw [Placing.shapeOf, hb, Option.map_some, Option.getD_some]
  exact ⟨n, hshape ▸ hn, by rw [alignedBytes, hv, Option.map_some, Option.getD_some, bytesOf, hn]⟩

omit [Float32 F] in
/-- The conflicts, in order, are what first fit keeps clear of. -/
theorem Laid.conflicts (h : Laid values lives a s) (i : Nat) :
    s.conflicts lives (lifeOf lives i).1 = (a.against (Conflicting lives) i).map Prod.fst := by
  have hfilter : s.placed.filter (fun j => (lifeOf lives j).2 ≥ (lifeOf lives i).1) =
      (a.placed.filter fun p => Conflicting lives i p.1).map Prod.fst := by
    rw [h.placed, List.filter_map]
    rfl
  rw [Placing.conflicts, hfilter, FirstFit.Arena.against]
  refine (List.map_insertionSort _ _ Prod.fst _ fun p hp q hq => ?_).symm
  rw [h.offsetOf (List.mem_filter.mp hp).1, h.offsetOf (List.mem_filter.mp hq).1]

theorem Laid.firstGap (h : Laid values lives a s) (hvalues : ∀ v ∈ values, ValueOk v) (aligned : Nat)
    {ps : List (Nat × Nat)} (hps : ∀ p ∈ ps, p ∈ a.placed) (offset : Nat) :
    s.firstGap aligned offset (ps.map Prod.fst) =
      .ok (FirstFit.fit aligned offset (ps.map (FirstFit.block (alignedBytes values)))) := by
  induction ps generalizing offset with
  | nil => rfl
  | cons p ps ih =>
    have hp := hps p List.mem_cons_self
    obtain ⟨b, hb, -⟩ := h.set p hp
    have hv : values[p.1]? = some b.value := by rw [← h.values, List.getElem?_map, hb, Option.map_some]
    obtain ⟨count, hcount, hsize⟩ := h.elements_shapeOf hvalues hv
    have hoffset := h.offsetOf hp
    rw [List.map_cons, List.map_cons, Placing.firstGap, FirstFit.fit, hoffset]
    by_cases hgap : offset + aligned ≤ p.2
    · rw [if_pos hgap]
      exact congrArg Outcome.ok (if_pos hgap).symm
    · rw [if_neg hgap, hcount, Outcome.ok_bind, hsize, ih (fun q hq => hps q (List.mem_cons_of_mem _ hq))]
      exact congrArg Outcome.ok (if_neg hgap).symm

/-- Placing an output is a step of first fit. -/
theorem Laid.place (h : Laid values lives a s) (hvalues : ∀ v ∈ values, ValueOk v) {node : TypedNode} {v : Value F}
    (hv : values[node.output]? = some v) (hnew : node.output ∉ s.placed) (nodes : List TypedNode) :
    ∃ s', Planner.place lives (node :: nodes) s = Planner.place lives nodes s' ∧
      Laid values lives (a.place (alignedBytes values) (Conflicting lives) node.output) s' := by
  obtain ⟨count, hcount, hsize⟩ := h.elements_shapeOf hvalues hv
  let offset := a.offset (alignedBytes values) (Conflicting lives) node.output
  have hgap : s.firstGap (divCeil (count * 4) alignment * alignment) 0 (s.conflicts lives (lifeOf lives node.output).1) =
      .ok offset := by
    rw [h.conflicts, h.firstGap hvalues _ fun p hp => (FirstFit.mem_against.mp hp).1, hsize]
    rfl
  obtain ⟨b, hb, rfl⟩ : ∃ b, s.buffers[node.output]? = some b ∧ b.value = v := by
    rw [← h.values, List.getElem?_map] at hv
    exact Option.map_eq_some_iff.mp hv
  let set (b : Buffer F) : Buffer F := { b with offset := some offset, lifetime := some (lifeOf lives node.output) }
  refine ⟨⟨s.buffers.modify node.output set, s.placed ++ [node.output],
    max s.arenaBytes (offset + divCeil (count * 4) alignment * alignment)⟩, ?_, ?_, ?_, ?_, ?_, ?_⟩
  · rw [Planner.place, hcount, Outcome.ok_bind]
    exact congrArg (· >>= _) hgap
  · rw [FirstFit.Arena.place, List.map_append, h.placed, List.map_singleton]
  · rw [FirstFit.Arena.place, h.bytes, hsize]
  · rw [← h.values]
    refine List.ext_getElem? fun id => ?_
    rw [List.getElem?_map, List.getElem?_map, List.getElem?_modify]
    rcases s.buffers[id]? with _ | c
    · rfl
    · split <;> rfl
  · intro p hp
    rcases List.mem_append.mp hp with hp | hp
    · have hne : node.output ≠ p.1 := by
        intro heq
        exact hnew (heq ▸ h.placed ▸ List.mem_map_of_mem (f := Prod.fst) hp)
      obtain ⟨c, hc, hoffset, hlife⟩ := h.set p hp
      exact ⟨c, by rw [List.getElem?_modify_ne _ _ hne, hc], hoffset, hlife⟩
    · obtain rfl := List.mem_singleton.mp hp
      exact ⟨set b, by rw [List.getElem?_modify_eq, hb]; rfl, rfl, rfl⟩
  · intro id c hc hid
    have hne : node.output ≠ id := fun heq => hid (heq ▸ List.mem_append_right _ List.mem_cons_self)
    rw [List.getElem?_modify_ne _ _ hne] at hc
    exact h.unset id c hc fun hmem => hid (List.mem_append_left _ hmem)

/-- Placing the outputs is first fit. -/
theorem place_eq_ok (hvalues : ∀ v ∈ values, ValueOk v) {nodes : List TypedNode} (h : Laid values lives a s)
    (houtputs : ∀ node ∈ nodes, ∃ v, values[node.output]? = some v)
    (hdistinct : (s.placed ++ nodes.map (·.output)).Nodup) :
    ∃ s', place lives nodes s = .ok s' ∧
      Laid values lives (a.placeAll (alignedBytes values) (Conflicting lives) (nodes.map (·.output))) s' := by
  induction nodes generalizing a s with
  | nil => exact ⟨s, rfl, h⟩
  | cons node nodes ih =>
    obtain ⟨v, hv⟩ := houtputs node List.mem_cons_self
    have hnew : node.output ∉ s.placed := fun hmem =>
      (List.nodup_append'.mp hdistinct).2.2 hmem List.mem_cons_self
    obtain ⟨s₁, hstep, hlaid⟩ := h.place hvalues hv hnew nodes
    have hplaced : s₁.placed = s.placed ++ [node.output] := by
      rw [hlaid.placed, FirstFit.Arena.place, List.map_append, List.map_singleton, ← h.placed]
    obtain ⟨s', hok, hdone⟩ := ih hlaid (fun other hother => houtputs other (List.mem_cons_of_mem _ hother))
      (by simpa [hplaced] using hdistinct)
    exact ⟨s', hstep.trans hok, hdone⟩

end

end Inferfabric.Plan.Planner
