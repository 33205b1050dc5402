-- SUMMARY: The verifier accepts every layout of the planner's, unless padding takes the arena past the limit.
import IronPangu.Plan.Planner.Placement

open Rust Std

/-!
# Layouts

What the planner lays out for a well-typed graph has the lifetimes, the
dependencies and the gaps that the verifier asks for. The one thing it does not see
to is the limit of the arena: typing adds up the bytes of the values, the verifier
looks at the arena, where each value is padded to the alignment.
-/

namespace Inferfabric.Plan.Planner

open Ir

variable {F : Type} [Float32 F]

/-! ## Dependencies -/

theorem mem_ordered {values : List Nat} {n : Nat} : n ∈ ordered values ↔ n ∈ values := by
  rw [ordered, List.mem_insertionSort, List.mem_dedup]

theorem nodup_ordered (values : List Nat) : (ordered values).Nodup :=
  (List.perm_insertionSort _ _).nodup_iff.mpr (List.nodup_dedup values)

theorem getElem?_nodeProducers {nodes : List TypedNode} (hdistinct : (nodes.map (·.output)).Nodup) {id j : Nat} :
    (nodeProducers nodes)[id]? = some j ↔ ∃ node, nodes[j]? = some node ∧ node.output = id := by
  have hmem : (id, j) ∈ nodes.zipIdx.map (fun p => (p.1.output, p.2)) ↔ ∃ node, nodes[j]? = some node ∧ node.output = id := by
    simp [List.mem_zipIdx_iff_getElem?]
  rw [← hmem]
  refine ⟨ExtTreeMap.mem_of_getElem?_ofList, ExtTreeMap.getElem?_ofList_of_mem (by simp) ?_⟩
  have hkeys : (nodes.zipIdx.map fun p => (p.1.output, p.2)).map Prod.fst = nodes.map (·.output) := by
    rw [List.map_map]
    refine List.ext_getElem? fun i => ?_
    rw [List.getElem?_map, List.getElem?_map, List.getElem?_zipIdx, Option.map_map]
    rfl
  have hpairs : (nodes.zipIdx.map fun p => (p.1.output, p.2)).Pairwise fun a b => a.1 ≠ b.1 :=
    List.pairwise_map.mp (hkeys ▸ hdistinct)
  exact hpairs.imp fun hne heq => hne (LawfulEqCmp.eq_of_compare heq)

/-- The output of the step at `i` takes bytes of `old`, which dies at `d`, before. -/
def Reuses (i first stop : Nat) (old : Buffer F) (d : Nat) : Prop :=
  ∃ life offset, old.lifetime = some life ∧ old.offset = some offset ∧ life.2 < i ∧ offset < stop ∧
    first < offset + bytesOf old.value ∧ life.2 = d

section
variable {i first stop : Nat} {old : Buffer F}

omit [Float32 F] in
theorem reused_eq_ok (hsize : ∃ n, elements old.value.shape = .ok n) :
    ∃ r, reused i first stop old = .ok r ∧ ∀ d, r = some d ↔ Reuses i first stop old d := by
  obtain ⟨n, hn⟩ := hsize
  have hbytes : bytesOf old.value = n * 4 := by rw [bytesOf, hn]
  rw [reused]
  split
  · rename_i life offset hlife hoffset
    split
    · rename_i hbefore
      rw [Executor.count_eq hn, Outcome.ok_bind]
      refine ⟨_, rfl, fun d => ?_⟩
      simp [Reuses, hlife, hoffset, hbytes, hbefore]
    · rename_i hnot
      refine ⟨none, rfl, fun d => ⟨fun hnone => (by cases hnone), ?_⟩⟩
      rintro ⟨life', offset', hlife', hoffset', hlt, hlt', -⟩
      obtain rfl := Option.some.inj (hlife.symm.trans hlife')
      obtain rfl := Option.some.inj (hoffset.symm.trans hoffset')
      exact absurd ⟨hlt, hlt'⟩ hnot
  · rename_i hmissing
    refine ⟨none, rfl, fun d => ⟨fun hnone => (by cases hnone), ?_⟩⟩
    rintro ⟨life', offset', hlife', hoffset', -⟩
    exact absurd hoffset' (hmissing life' offset' hlife')

end

omit [Float32 F] in
theorem chooseKernel_eq_ok {g : TypedGraph F} {node : TypedNode} {out : Buffer F} (hcomputes : Computes g.values node)
    (hsize : ∃ n, elements out.value.shape = .ok n) : ∃ kernel, chooseKernel g node out = .ok kernel ∧ kernel.op = node.op := by
  obtain ⟨n, hn⟩ := hsize
  obtain ⟨value, shapes, -, -, hshapes, hshape⟩ := hcomputes.output
  cases hop : node.op with
  | add | mul | relu => exact ⟨_, by rw [chooseKernel, hop], rfl⟩
  | matmul =>
    rw [hop] at hshape
    obtain ⟨m, k, w, rfl, -⟩ := shaped_matmul (shape_eq_ok hshape)
    obtain ⟨a, b, left, right, hinputs, hleft, -, hk, -⟩ := operand_shapes_two hshapes
    refine ⟨if n * k ≥ 4096 then .matmulBlockedF32V1 else .matmulF32V1, ?_, by split <;> rfl⟩
    simp [chooseKernel, hop, hn, hinputs, secondDimension, hleft, hk]

/-! ## Steps -/

section
variable {options : CompileOptions} {g : TypedGraph F} {buffers : List (Buffer F)} {done rest : List TypedNode}
variable {node : TypedNode}

/-- A step waits for the values whose bytes it takes. -/
def Waits (buffers : List (Buffer F)) (i : Nat) (step : Step) : Prop :=
  ∀ out first, buffers[step.output]? = some out → out.offset = some first →
    ∀ old ∈ buffers, ∀ d, Reuses i first (first + bytesOf out.value) old d → d ∈ step.reuseDependencies

theorem WellTyped.mem_dependencies (hg : WellTyped g) {d : Nat} :
    d ∈ dataDependencies (nodeProducers g.nodes) node.inputs ↔
      ∃ other, g.nodes[d]? = some other ∧ other.output ∈ node.inputs := by
  rw [dataDependencies, mem_ordered, List.mem_filterMap]
  constructor
  · rintro ⟨id, hid, hget⟩
    obtain ⟨other, hother, rfl⟩ := (getElem?_nodeProducers hg.supported.distinct).mp hget
    exact ⟨other, hother, hid⟩
  · rintro ⟨other, hother, hid⟩
    exact ⟨other.output, hid, (getElem?_nodeProducers hg.supported.distinct).mpr ⟨other, hother, rfl⟩⟩

/-- A data dependency is on a step before. -/
theorem WellTyped.dependency_lt (hg : WellTyped g) (hsplit : g.nodes = done ++ node :: rest) {d : Nat}
    (hd : d ∈ dataDependencies (nodeProducers g.nodes) node.inputs) : d < done.length := by
  obtain ⟨other, hother, hid⟩ := hg.mem_dependencies.mp hd
  obtain ⟨v, hv, -, harena⟩ := hg.output_arena (List.mem_of_getElem? hother)
  obtain ⟨producer, hproducer, houtput⟩ := (hg.supported.ordered done node rest hsplit).operands other.output hid v hv harena
  obtain ⟨j, hj⟩ := List.mem_iff_getElem?.mp hproducer
  have hlt := (List.getElem?_eq_some_iff.mp hj).1
  have hat : g.nodes[j]? = some producer := hsplit ▸ getElem?_append_some hj _
  -- the producer among the nodes before is the node at `d`
  have hkey (i : Nat) (n : TypedNode) (hn : g.nodes[i]? = some n) : (nodeProducers g.nodes)[n.output]? = some i :=
    (getElem?_nodeProducers hg.supported.distinct).mpr ⟨n, hn, rfl⟩
  have hsame : some d = some j := by rw [← hkey d other hother, ← houtput, hkey j producer hat]
  exact Option.some.inj hsame ▸ hlt

theorem planStep_eq_ok (hg : WellTyped g) (hover : Overridable options g.nodes) (hvalues : buffers.map (·.value) = g.values)
    (hsplit : g.nodes = done ++ node :: rest) {out : Buffer F} {first : Nat} (hout : buffers[node.output]? = some out)
    (hfirst : out.offset = some first) :
    ∃ step, planStep options g buffers (nodeProducers g.nodes) done.length node = .ok step ∧
      Planned g.nodes done.length node step ∧ Waits buffers done.length step := by
  have hnode : node ∈ g.nodes := hsplit ▸ List.mem_append_right _ List.mem_cons_self
  have hok := hg.supported.ordered done node rest hsplit
  have hsize : ∀ b ∈ buffers, ∃ n, elements b.value.shape = .ok n := fun b hb =>
    (hg.values b.value (hvalues ▸ List.mem_map_of_mem hb)).size
  obtain ⟨n, hn⟩ := hsize out (List.mem_of_getElem? hout)
  have hbytes : bytesOf out.value = n * 4 := by rw [bytesOf, hn]
  obtain ⟨reuse, hreuse, hall⟩ : ∃ reuse, Outcome.collect (reused done.length first (first + n * 4)) buffers =
      .ok reuse ∧ List.Forall₂ _ buffers reuse :=
    exists_collect fun old hold => reused_eq_ok (hsize old hold)
  obtain ⟨chosen, hchosen, hop⟩ := chooseKernel_eq_ok hok.computes ⟨n, hn⟩
  have hkernel : ((options.kernelOverrides[node.name]?).getD chosen).op = node.op := by
    rcases hget : options.kernelOverrides[node.name]? with _ | kernel
    · exact hop
    · exact hover node hnode kernel hget
  have hdone : planStep options g buffers (nodeProducers g.nodes) done.length node = .ok {
      name := node.name
      kernel := (options.kernelOverrides[node.name]?).getD chosen
      inputs := node.inputs
      output := node.output
      rank := 0
      stream := 0
      dependencies := dataDependencies (nodeProducers g.nodes) node.inputs
      reuseDependencies := ordered (reuse.filterMap id)
      selectionReason := selectionReason (node.name ∈ options.kernelOverrides)
        ((options.kernelOverrides[node.name]?).getD chosen) } := by
    simp [planStep, hout, hfirst, hn, hreuse, hchosen]
  refine ⟨_, hdone, ⟨rfl, rfl, rfl, hkernel, rfl, rfl, ?_, ?_⟩, ?_⟩
  · intro deps hdeps
    rcases List.mem_cons.mp hdeps with rfl | hdeps
    · exact ⟨fun d hd => hg.dependency_lt hsplit hd, nodup_ordered _⟩
    · obtain rfl := List.mem_singleton.mp hdeps
      refine ⟨fun d hd => ?_, nodup_ordered _⟩
      obtain ⟨r, hr, hsome⟩ := List.mem_filterMap.mp (mem_ordered.mp hd)
      obtain ⟨old, -, heq⟩ := mem_of_forall₂ hall hr
      obtain ⟨life, offset, -, -, hlt, -, -, rfl⟩ := (heq d).mp hsome
      exact hlt
  · exact fun j other hother hid => hg.mem_dependencies.mpr ⟨other, hother, hid⟩
  · intro out' first' hout' hfirst' old hold d hd
    obtain rfl := Option.some.inj (hout.symm.trans hout')
    obtain rfl := Option.some.inj (hfirst.symm.trans hfirst')
    obtain ⟨r, hr, heq⟩ := mem_of_forall₂ hall.flip hold
    exact mem_ordered.mpr (List.mem_filterMap.mpr ⟨r, hr, (heq d).mpr (hbytes ▸ hd)⟩)

end

/-! ## The plan -/

/-- What the planner returns for a graph. -/
structure LaidOut (g : TypedGraph F) (p : PhysicalPlan F) : Prop where
  header : p.version = version ∧ p.target = target ∧ p.policy = "deterministic-cpu-v1" ∧ p.alignment = alignment
  values : p.buffers.map (·.value) = g.values
  outputs : p.outputs = g.outputs
  updates : p.updates = g.updates
  stored : ∀ (id : Nat) b, p.buffers[id]? = some b → b.value.storage = .arena → ∃ offset life, b.offset = some offset ∧
    b.lifetime = some life ∧ (lifetimes g)[id]? = some life ∧ alignment ∣ offset ∧ offset + bytesOf b.value ≤ p.arenaBytes
  unstored : ∀ (id : Nat) b, p.buffers[id]? = some b → b.value.storage ≠ .arena →
    b.offset = none ∧ b.lifetime = none ∧ (lifetimes g)[id]? = none
  apart : ∀ (id id' : Nat) b b' offset offset' life life', p.buffers[id]? = some b → p.buffers[id']? = some b' →
    b.offset = some offset → b'.offset = some offset' → b.lifetime = some life → b'.lifetime = some life' →
    life.1 < life'.1 → life'.1 ≤ life.2 → offset + bytesOf b.value ≤ offset' ∨ offset' + bytesOf b'.value ≤ offset
  steps : List.Forall₂ (fun (pair : TypedNode × Nat) step => Planned g.nodes pair.2 pair.1 step ∧ Waits p.buffers pair.2 step)
    g.nodes.zipIdx p.steps
  aligned : alignment ∣ p.arenaBytes
  padding : p.arenaBytes ≤ (g.nodes.map fun node => alignedBytes g.values node.output).sum

section
variable {options : CompileOptions} {o : Optimized F}

theorem lifeOf_eq {lives : ExtTreeMap Nat (Nat × Nat)} {id : Nat} {life : Nat × Nat} (h : lives[id]? = some life) :
    lifeOf lives id = life := by
  rw [lifeOf, h, Option.getD_some]

/-- The arena that first fit builds for a graph. -/
def arenaOf (g : TypedGraph F) : FirstFit.Arena Nat :=
  FirstFit.Arena.empty.placeAll (alignedBytes g.values) (Conflicting (lifetimes g)) (g.nodes.map (·.output))

variable {g : TypedGraph F} {s : Placing F}

omit [Float32 F] in
theorem placed_arenaOf : (arenaOf g).placed.map Prod.fst = g.nodes.map (·.output) := FirstFit.placed_placeAll

omit [Float32 F] in
theorem arenaOf_sound : (arenaOf g).Sound (alignedBytes g.values) (Conflicting (lifetimes g)) :=
  FirstFit.Arena.Sound.empty.placeAll _

omit [Float32 F] in
theorem arenaOf_aligned : (arenaOf g).Aligned alignment :=
  FirstFit.Arena.Aligned.empty.placeAll (fun _ => dvd_aligned _) _

omit [Float32 F] in
theorem bytesOf_le_aligned {values : List (Value F)} {id : Nat} {v : Value F} (hv : values[id]? = some v) :
    bytesOf v ≤ alignedBytes values id := by
  rw [alignedBytes, hv, Option.map_some, Option.getD_some]
  exact le_aligned _

section
variable (hg : WellTyped g) (h : Laid g.values (lifetimes g) (arenaOf g) s)
include hg h

omit hg [Float32 F] in
theorem Laid.value {id : Nat} {b : Buffer F} (hb : s.buffers[id]? = some b) : g.values[id]? = some b.value := by
  rw [← h.values, List.getElem?_map, hb, Option.map_some]

/-- A computed value is placed at the position of its node. -/
theorem Laid.at {id : Nat} {b : Buffer F} (hb : s.buffers[id]? = some b) (harena : b.value.storage = .arena) :
    ∃ life offset, (lifetimes g)[id]? = some life ∧ b.lifetime = some life ∧ b.offset = some offset ∧
      (arenaOf g).placed[life.1]? = some (id, offset) := by
  obtain ⟨node, hnode, rfl⟩ := hg.produced id b.value (h.value hb) harena
  obtain ⟨i, hi⟩ := List.mem_iff_getElem?.mp hnode
  obtain ⟨last, hlast⟩ := hg.lived.complete i node hi
  have hmap : ((arenaOf g).placed.map Prod.fst)[i]? = some node.output := by
    rw [placed_arenaOf, List.getElem?_map, hi, Option.map_some]
  rw [List.getElem?_map] at hmap
  obtain ⟨⟨id, offset⟩, hp, rfl⟩ := Option.map_eq_some_iff.mp hmap
  obtain ⟨c, hc, hoffset, hlife⟩ := h.set _ (List.mem_of_getElem? hp)
  obtain rfl := Option.some.inj (hb.symm.trans hc)
  exact ⟨(i, last), offset, hlast, by rw [hlife, lifeOf_eq hlast], hoffset, hp⟩

theorem Laid.stored (id : Nat) (b : Buffer F) (hb : s.buffers[id]? = some b) (harena : b.value.storage = .arena) :
    ∃ offset life, b.offset = some offset ∧ b.lifetime = some life ∧ (lifetimes g)[id]? = some life ∧
      alignment ∣ offset ∧ offset + bytesOf b.value ≤ s.arenaBytes := by
  obtain ⟨life, offset, hget, hlife, hoffset, hp⟩ := h.at hg hb harena
  have hmem := List.mem_of_getElem? hp
  refine ⟨offset, life, hoffset, hlife, hget, arenaOf_aligned.offsets _ hmem, ?_⟩
  rw [h.bytes]
  exact (Nat.add_le_add_left (bytesOf_le_aligned (h.value hb)) offset).trans (arenaOf_sound.within _ hmem)

theorem Laid.unstored (id : Nat) (b : Buffer F) (hb : s.buffers[id]? = some b) (hstorage : b.value.storage ≠ .arena) :
    b.offset = none ∧ b.lifetime = none ∧ (lifetimes g)[id]? = none := by
  have hnot (node : TypedNode) (hnode : node ∈ g.nodes) : node.output ≠ id := by
    rintro rfl
    obtain ⟨v, hv, -, harena⟩ := hg.output_arena hnode
    exact hstorage (Option.some.inj (hv.symm.trans (h.value hb)) ▸ harena)
  have hid : id ∉ s.placed := by
    rw [h.placed, placed_arenaOf]
    intro hmem
    obtain ⟨node, hnode, heq⟩ := List.mem_map.mp hmem
    exact hnot node hnode heq
  obtain ⟨hoffset, hlife⟩ := h.unset id b hb hid
  refine ⟨hoffset, hlife, Option.eq_none_iff_forall_ne_some.mpr fun life hget => ?_⟩
  obtain ⟨-, node, hnode, heq⟩ := hg.lived.sound id life hget
  exact hnot node (List.mem_of_getElem? hnode) heq

theorem Laid.storage_of_offset {id : Nat} {b : Buffer F} {offset : Nat} (hb : s.buffers[id]? = some b)
    (hoffset : b.offset = some offset) : b.value.storage = .arena := by
  by_contra hstorage
  rw [(h.unstored hg id b hb hstorage).1] at hoffset
  cases hoffset

/-- What is still alive when a value is born is apart from it. -/
theorem Laid.apart (id id' : Nat) (b b' : Buffer F) (offset offset' : Nat) (life life' : Nat × Nat)
    (hb : s.buffers[id]? = some b) (hb' : s.buffers[id']? = some b') (hoffset : b.offset = some offset)
    (hoffset' : b'.offset = some offset') (hlife : b.lifetime = some life) (hlife' : b'.lifetime = some life')
    (hlt : life.1 < life'.1) (halive : life'.1 ≤ life.2) :
    offset + bytesOf b.value ≤ offset' ∨ offset' + bytesOf b'.value ≤ offset := by
  obtain ⟨l, o, hget, hl, ho, hp⟩ := h.at hg hb (h.storage_of_offset hg hb hoffset)
  obtain ⟨l', o', hget', hl', ho', hp'⟩ := h.at hg hb' (h.storage_of_offset hg hb' hoffset')
  obtain rfl := Option.some.inj (hlife.symm.trans hl)
  obtain rfl := Option.some.inj (hlife'.symm.trans hl')
  obtain rfl := Option.some.inj (hoffset.symm.trans ho)
  obtain rfl := Option.some.inj (hoffset'.symm.trans ho')
  obtain ⟨hi, heq⟩ := List.getElem?_eq_some_iff.mp hp
  obtain ⟨hj, heq'⟩ := List.getElem?_eq_some_iff.mp hp'
  have hpair := List.pairwise_iff_getElem.mp arenaOf_sound.disjoint life.1 life'.1 hi hj hlt
  rw [heq, heq'] at hpair
  have hconflict : Conflicting (lifetimes g) id' id := by rwa [Conflicting, lifeOf_eq hget, lifeOf_eq hget']
  have hsize := bytesOf_le_aligned (h.value hb)
  have hsize' := bytesOf_le_aligned (h.value hb')
  exact (hpair hconflict).imp (fun hle => (Nat.add_le_add_left hsize offset).trans hle)
    fun hle => (Nat.add_le_add_left hsize' offset').trans hle

end

omit [Float32 F] in
theorem arenaOf_bytes_le : (arenaOf g).bytes ≤ (g.nodes.map fun node => alignedBytes g.values node.output).sum := by
  have htotal : (arenaOf g).bytes ≤ (((arenaOf g).placed.map Prod.fst).map (alignedBytes g.values)).sum := by
    rw [List.map_map]
    exact arenaOf_sound.total
  rwa [placed_arenaOf, List.map_map] at htotal

theorem layout_eq_ok (hg : WellTyped o.graph) (hover : Overridable options o.graph.nodes) :
    ∃ p, layout options o = .ok p ∧ LaidOut o.graph p := by
  have houtput (node : TypedNode) (hnode : node ∈ o.graph.nodes) : ∃ v, o.graph.values[node.output]? = some v := by
    obtain ⟨v, hv, -⟩ := hg.output_arena hnode
    exact ⟨v, hv⟩
  obtain ⟨s, hplace, hlaid⟩ :=
    place_eq_ok hg.values (laid_start o.graph.values (lifetimes o.graph)) houtput hg.supported.distinct
  have hstep : ∀ pair ∈ o.graph.nodes.zipIdx, ∃ step,
      planStep options o.graph s.buffers (nodeProducers o.graph.nodes) pair.2 pair.1 = .ok step ∧
      (Planned o.graph.nodes pair.2 pair.1 step ∧ Waits s.buffers pair.2 step) := by
    rintro ⟨node, i⟩ hpair
    have hi : o.graph.nodes[i]? = some node := List.mem_zipIdx_iff_getElem?.mp hpair
    obtain ⟨hlt, heq⟩ := List.getElem?_eq_some_iff.mp hi
    have hsplit : o.graph.nodes = o.graph.nodes.take i ++ node :: o.graph.nodes.drop (i + 1) := by
      rw [← heq, List.getElem_cons_drop, List.take_append_drop]
    obtain ⟨v, hv, -, hstorage⟩ := hg.output_arena (List.mem_of_getElem? hi)
    rw [← hlaid.values, List.getElem?_map] at hv
    obtain ⟨out, hout, rfl⟩ := Option.map_eq_some_iff.mp hv
    obtain ⟨life, first, -, -, hfirst, -⟩ := hlaid.at hg hout hstorage
    have hlength : (o.graph.nodes.take i).length = i := by simp [hlt.le]
    have hplan := planStep_eq_ok hg hover hlaid.values hsplit hout hfirst
    rwa [hlength] at hplan
  obtain ⟨steps, hsteps, hall⟩ := exists_collect hstep
  let p : PhysicalPlan F := {
    version := version
    name := o.graph.name
    target := target
    policy := "deterministic-cpu-v1"
    alignment := alignment
    arenaBytes := s.arenaBytes
    buffers := s.buffers
    steps := steps
    outputs := o.graph.outputs
    updates := o.graph.updates
    removedNodes := o.removedNodes
    foldedNodes := o.foldedNodes }
  have hlayout : layout options o = .ok p := by
    rw [layout, hplace, Outcome.ok_bind]
    exact congrArg (· >>= _) hsteps
  have hbytes : p.arenaBytes = (arenaOf o.graph).bytes := hlaid.bytes
  refine ⟨p, hlayout, ⟨rfl, rfl, rfl, rfl⟩, hlaid.values, rfl, rfl, hlaid.stored hg, hlaid.unstored hg, hlaid.apart hg, hall, ?_, ?_⟩
  · exact hbytes ▸ arenaOf_aligned.bytes
  · exact hbytes ▸ arenaOf_bytes_le

end

/-! ## The verifier on a layout -/

section
variable {g : TypedGraph F} {p : PhysicalPlan F}

omit [Float32 F] in
theorem LaidOut.buffer (h : LaidOut g p) {id : Nat} {v : Value F} (hv : g.values[id]? = some v) :
    ∃ b, p.buffers[id]? = some b ∧ b.value = v := by
  rw [← h.values, List.getElem?_map] at hv
  exact Option.map_eq_some_iff.mp hv

omit [Float32 F] in
theorem LaidOut.value (h : LaidOut g p) {id : Nat} {b : Buffer F} (hb : p.buffers[id]? = some b) :
    g.values[id]? = some b.value := by
  rw [← h.values, List.getElem?_map, hb, Option.map_some]

omit [Float32 F] in
theorem LaidOut.length (h : LaidOut g p) : p.buffers.length = g.values.length := by
  rw [← h.values, List.length_map]

omit [Float32 F] in
theorem LaidOut.steps_length (h : LaidOut g p) : p.steps.length = g.nodes.length := by
  rw [← h.steps.length_eq, List.length_zipIdx]

omit [Float32 F] in
theorem LaidOut.results (h : LaidOut g p) : p.results = Planner.results g := by
  rw [PhysicalPlan.results, Planner.results, h.outputs, h.updates]

/-- Of the header, only the arena can be at fault. -/
theorem LaidOut.checkHeader (h : LaidOut g p) (hg : WellTyped g) : checkHeader p =
    if p.arenaBytes ≤ maxBytes then .ok () else invalid "physical plan resource limit or empty outputs" := by
  have hsteps : ¬p.steps.length > maxNodes := by rw [h.steps_length]; exact Nat.not_lt.mpr hg.nodeCount
  have hbuffers : ¬p.buffers.length > maxNodes * 4 := by rw [h.length]; exact Nat.not_lt.mpr hg.valueCount
  have haligned : p.arenaBytes % alignment = 0 := Nat.mod_eq_zero_of_dvd h.aligned
  have houtputs : p.outputs ≠ [] := h.outputs ▸ hg.someOutput
  obtain ⟨hversion, htarget, hpolicy, halignment⟩ := h.header
  rw [Plan.checkHeader, if_neg (by simp [hversion, htarget, hpolicy, halignment])]
  by_cases hmax : p.arenaBytes ≤ maxBytes
  · rw [if_neg (by simp [hsteps, hbuffers, haligned, houtputs, hmax]), if_pos hmax]
  · rw [if_pos (.inr (.inr (.inl (Nat.lt_of_not_le hmax)))), if_neg hmax]

theorem LaidOut.checkStorage (h : LaidOut g p) (hg : WellTyped g) (hmax : p.arenaBytes ≤ maxBytes) {id : Nat} {b : Buffer F}
    (hb : p.buffers[id]? = some b) {n : Nat} (hn : elements b.value.shape = .ok n) : checkStorage p b (n * 4) = .ok () := by
  have hok := hg.values b.value (List.mem_of_getElem? (h.value hb))
  have hbytes : bytesOf b.value = n * 4 := by rw [bytesOf, hn]
  have hplain (hstorage : b.value.storage ≠ .arena) : ¬(b.offset.isSome = true ∨ b.lifetime.isSome = true) := by
    obtain ⟨hoffset, hlife, -⟩ := h.unstored id b hb hstorage
    simp [hoffset, hlife]
  have howned (hstorage : b.value.storage = .state ∨ b.value.storage = .constant) :
      ∃ data, b.value.initial = some data ∧ data.length = n ∧ ∀ x ∈ data, Float32.isFinite x = true := by
    obtain ⟨data, hdata, hsize, hfinite⟩ := hok.owned hstorage
    exact ⟨data, hdata, Outcome.ok.inj (hsize.symm.trans hn), hfinite⟩
  cases hstorage : b.value.storage with
  | arena =>
    obtain ⟨offset, life, hoffset, hlife, -, haligned, hwithin⟩ := h.stored id b hb hstorage
    have hmod : offset % alignment = 0 := Nat.mod_eq_zero_of_dvd haligned
    have hinitial := hok.unowned (.inr hstorage)
    rw [hbytes] at hwithin
    have hfits : offset + n * 4 ≤ u64Max := by
      have : maxBytes ≤ u64Max := by decide
      omega
    simp [Plan.checkStorage, hstorage, hoffset, hlife, hinitial, hmod, checkedAdd, hfits, hwithin]
  | input =>
    have hinitial := hok.unowned (.inl hstorage)
    have hnone := hplain (by simp [hstorage])
    simp [Plan.checkStorage, hstorage, hinitial, hnone]
  | state =>
    obtain ⟨data, hdata, hlength, hfinite⟩ := howned (.inl hstorage)
    have hnone := hplain (by simp [hstorage])
    simpa [Plan.checkStorage, hstorage, hnone, hdata, hlength] using hfinite
  | constant =>
    obtain ⟨data, hdata, hlength, hfinite⟩ := howned (.inr hstorage)
    have hnone := hplain (by simp [hstorage])
    simpa [Plan.checkStorage, hstorage, hnone, hdata, hlength] using hfinite

theorem checkBuffers_of_stored {buffers : List (Buffer F)} {names : List String} {total : Nat}
    (hstored : ∀ b ∈ buffers, ∃ n, elements b.value.shape = .ok n ∧ checkStorage p b (n * 4) = .ok ())
    (hnames : ∀ b ∈ buffers, (b.value.name ≠ "" ∧ b.value.name.utf8ByteSize ≤ 256) ∧ b.value.name ∉ names)
    (hdistinct : (buffers.map (·.value.name)).Nodup)
    (htotal : total + (buffers.map fun b => bytesOf b.value).sum ≤ maxBytes) : checkBuffers p names total buffers = .ok () := by
  induction buffers generalizing names total with
  | nil => rfl
  | cons b buffers ih =>
    obtain ⟨n, hn, hstorage⟩ := hstored b List.mem_cons_self
    obtain ⟨⟨hempty, hlong⟩, hfresh⟩ := hnames b List.mem_cons_self
    obtain ⟨hhead, htail⟩ := List.nodup_cons.mp hdistinct
    have hbytes : bytesOf b.value = n * 4 := by rw [bytesOf, hn]
    rw [List.map_cons, List.sum_cons, hbytes, ← Nat.add_assoc] at htotal
    have hmax : maxBytes ≤ u64Max := by decide
    have hadd : checkedAdd u64Max total (n * 4) = some (total + n * 4) := checkedAdd_eq_some.mpr ⟨by omega, rfl⟩
    have hcheck : ¬(total + n * 4 > maxBytes ∨ b.value.name = "" ∨ b.value.name.utf8ByteSize > 256 ∨ b.value.name ∈ names) := by
      rintro (hgt | heq | hgt | hmem)
      · omega
      · exact hempty heq
      · exact Nat.not_lt.mpr hlong hgt
      · exact hfresh hmem
    simp only [checkBuffers, hn, Outcome.ok_bind, hadd, Outcome.okOr_some]
    rw [if_neg hcheck, hstorage, Outcome.ok_bind]
    refine ih (fun c hc => hstored c (List.mem_cons_of_mem _ hc)) (fun c hc => ?_) htail htotal
    obtain ⟨hok, hnot⟩ := hnames c (List.mem_cons_of_mem _ hc)
    refine ⟨hok, fun hmem => ?_⟩
    rcases List.mem_cons.mp hmem with heq | hmem
    · exact hhead (List.mem_map.mpr ⟨c, hc, heq⟩)
    · exact hnot hmem

theorem LaidOut.checkBuffers (h : LaidOut g p) (hg : WellTyped g) (hmax : p.arenaBytes ≤ maxBytes) :
    checkBuffers p [] 0 p.buffers = .ok () := by
  have hok (b : Buffer F) (hb : b ∈ p.buffers) : ValueOk b.value := hg.values _ (h.values ▸ List.mem_map_of_mem hb)
  refine checkBuffers_of_stored (fun b hb => ?_) (fun b hb => ⟨(hok b hb).name, List.not_mem_nil⟩) ?_ ?_
  · obtain ⟨n, hn⟩ := (hok b hb).size
    obtain ⟨id, hid⟩ := List.mem_iff_getElem?.mp hb
    exact ⟨n, hn, h.checkStorage hg hmax hid hn⟩
  · have hnames := hg.names
    rwa [← h.values, List.map_map] at hnames
  · have hbytes := hg.bytes
    rw [← h.values, List.map_map] at hbytes
    rw [Nat.zero_add]
    exact hbytes

/-! ## Lifetimes -/

omit [Float32 F] in
theorem LaidOut.step (h : LaidOut g p) {i : Nat} {node : TypedNode} (hi : g.nodes[i]? = some node) :
    ∃ step, p.steps[i]? = some step ∧ Planned g.nodes i node step ∧ Waits p.buffers i step := by
  have hpair : g.nodes.zipIdx[i]? = some (node, i) := by rw [List.getElem?_zipIdx, hi]; simp
  obtain ⟨hlt, heq⟩ := List.getElem?_eq_some_iff.mp hpair
  have hstep := h.steps.get hlt (h.steps.length_eq ▸ hlt)
  simp only [List.get_eq_getElem, heq] at hstep
  exact ⟨_, List.getElem?_eq_getElem _, hstep⟩

/-- The step that a value is born at waits for the values whose bytes it takes. -/
theorem LaidOut.waits (h : LaidOut g p) (hg : WellTyped g) {id id' : Nat} {b b' : Buffer F} {life life' : Nat × Nat}
    {offset offset' : Nat} (hb : p.buffers[id]? = some b) (hb' : p.buffers[id']? = some b') (hlife : b.lifetime = some life)
    (hlife' : b'.lifetime = some life') (hoffset : b.offset = some offset) (hoffset' : b'.offset = some offset')
    (hdead : life.2 < life'.1) (hover : offset < offset' + bytesOf b'.value) (hover' : offset' < offset + bytesOf b.value) :
    ∃ step, p.steps[life'.1]? = some step ∧ life.2 ∈ step.reuseDependencies := by
  have harena : b'.value.storage = .arena := by
    by_contra hstorage
    rw [(h.unstored id' b' hb' hstorage).1] at hoffset'
    cases hoffset'
  obtain ⟨-, l, -, hl, hget, -⟩ := h.stored id' b' hb' harena
  obtain rfl := Option.some.inj (hlife'.symm.trans hl)
  obtain ⟨-, node, hnode, rfl⟩ := hg.lived.sound id' life' hget
  obtain ⟨step, hstep, hplanned, hwaits⟩ := h.step hnode
  exact ⟨step, hstep, hwaits b' offset' (hplanned.output ▸ hb') hoffset' b (List.mem_of_getElem? hb) life.2
    ⟨life, offset, hlife, hoffset, hdead, hover, hover', rfl⟩⟩

/-- Values that overlap are not alive at one time, and the later one waits. -/
theorem LaidOut.checkPair (h : LaidOut g p) (hg : WellTyped g) {id id' : Nat} {b other : Buffer F} {life : Nat × Nat}
    (hb : p.buffers[id]? = some b) (hother : p.buffers[id']? = some other) (hne : id ≠ id') (hlife : b.lifetime = some life) :
    checkPair p b life other = .ok () := by
  rcases holife : other.lifetime with _ | olife
  · rw [Plan.checkPair, holife]
  have harena {i : Nat} {c : Buffer F} {l : Nat × Nat} (hc : p.buffers[i]? = some c) (hl : c.lifetime = some l) :
      ∃ offset n node, c.offset = some offset ∧ elements c.value.shape = .ok n ∧ bytesOf c.value = n * 4 ∧
        g.nodes[l.1]? = some node ∧ node.output = i := by
    have hstorage : c.value.storage = .arena := by
      by_contra hstorage
      rw [(h.unstored i c hc hstorage).2.1] at hl
      cases hl
    obtain ⟨offset, l', hoffset, hl', hget, -⟩ := h.stored i c hc hstorage
    obtain rfl := Option.some.inj (hl.symm.trans hl')
    obtain ⟨n, hn⟩ := (hg.values c.value (List.mem_of_getElem? (h.value hc))).size
    obtain ⟨-, node, hnode, houtput⟩ := hg.lived.sound i l hget
    exact ⟨offset, n, node, hoffset, hn, by rw [bytesOf, hn], hnode, houtput⟩
  obtain ⟨a, n, node, ha, hn, hbytes, hnode, houtput⟩ := harena hb hlife
  obtain ⟨c, m, node', hc, hm, hbytes', hnode', houtput'⟩ := harena hother holife
  have hborn : life.1 ≠ olife.1 := by
    intro heq
    rw [heq, hnode'] at hnode
    exact hne (houtput.symm.trans (Option.some.inj hnode ▸ houtput'))
  by_cases hover : a < c + bytesOf other.value ∧ c < a + bytesOf b.value
  swap
  · have hapart : overlaps b other = .ok false := by
      rw [hbytes, hbytes'] at hover
      simp only [overlaps, ha, hc, Outcome.unwrap_some, Outcome.ok_bind, hm, hn]
      split
      · rename_i hlt
        simpa using fun hgt => hover ⟨hlt, hgt⟩
      · rfl
    rw [Plan.checkPair, holife]
    simp [hapart]
  · have hoverlaps : overlaps b other = .ok true := by
      have hover' := hover
      rw [hbytes, hbytes'] at hover'
      simp [overlaps, ha, hc, hm, hn, hover']
    have hdead : ¬(life.1 ≤ olife.2 ∧ olife.1 ≤ life.2) := by
      rintro ⟨hle, hle'⟩
      rcases Nat.lt_or_gt_of_ne hborn with hlt | hgt
      · have hapart := h.apart id id' b other a c life olife hb hother ha hc hlife holife hlt hle'
        omega
      · have hapart := h.apart id' id other b c a olife life hother hb hc ha holife hlife hgt hle
        omega
    simp only [Plan.checkPair, holife, hoverlaps, Outcome.ok_bind]
    rw [if_neg (by simp), if_neg hdead]
    by_cases hfirst : life.2 < olife.1
    · obtain ⟨step, hstep, hwaits⟩ := h.waits hg hb hother hlife holife ha hc hfirst hover.1 hover.2
      simp [hfirst, hstep, hwaits]
    · have hsecond : olife.2 < life.1 := by omega
      obtain ⟨step, hstep, hwaits⟩ := h.waits hg hother hb holife hlife hc ha hsecond hover.2 hover.1
      simp [hfirst, hstep, hwaits]

/-- The lifetimes in the plan are the ones the verifier has found. -/
theorem LaidOut.checkLifetimes (h : LaidOut g p) (hg : WellTyped g) {list : List (Option (Nat × Nat))}
    (hmatches : Matches p (lifetimes g) list) {earlier rest : List (Buffer F)} (hsplit : p.buffers = earlier.reverse ++ rest) :
    checkLifetimes p list earlier rest = .ok () := by
  induction rest generalizing earlier with
  | nil => rfl
  | cons b rest ih =>
    have hb : p.buffers[earlier.length]? = some b := by simp [hsplit]
    have hfound : b.lifetime = (lifetimes g)[earlier.length]? ∧ (b.value.storage = .arena → b.lifetime ≠ none) := by
      by_cases harena : b.value.storage = .arena
      · obtain ⟨-, life, -, hlife, hget, -⟩ := h.stored _ b hb harena
        exact ⟨hlife.trans hget.symm, fun _ => by simp [hlife]⟩
      · obtain ⟨-, hlife, hget⟩ := h.unstored _ b hb harena
        exact ⟨hlife.trans hget.symm, fun hstorage => absurd hstorage harena⟩
    have hagainst : checkAgainst p b earlier.reverse = .ok () := by
      rcases hlife : b.lifetime with _ | life
      · rw [checkAgainst, hlife]
      · have hpairs : ∀ others : List (Buffer F), (∀ other ∈ others, Plan.checkPair p b life other = .ok ()) →
            checkPairs p b life others = .ok () := by
          intro others
          induction others with
          | nil => exact fun _ => rfl
          | cons other others ih =>
            intro hall
            rw [checkPairs, hall other List.mem_cons_self, Outcome.ok_bind]
            exact ih fun c hc => hall c (List.mem_cons_of_mem _ hc)
        rw [checkAgainst, hlife]
        refine hpairs _ fun other hother => ?_
        obtain ⟨j, hj⟩ := List.mem_iff_getElem?.mp hother
        have hlt := (List.getElem?_eq_some_iff.mp hj).1
        rw [List.length_reverse] at hlt
        have hat : p.buffers[j]? = some other := by rw [hsplit, List.getElem?_append_left (by simpa using hlt), hj]
        exact h.checkPair hg hb hat hlt.ne' hlife
    rw [Plan.checkLifetimes, hmatches _ b hb, Outcome.unwrap_some, Outcome.ok_bind,
      if_neg (by rw [← hfound.1]; simpa using hfound.2), hagainst, Outcome.ok_bind]
    exact ih (by simp [hsplit])

omit [Float32 F] in
theorem checkUpdates_eq_ok {updates : List (Nat × Nat)} (h : ∀ update ∈ updates, checkUpdate p update = .ok ()) :
    checkUpdates p updates = .ok () := by
  induction updates with
  | nil => rfl
  | cons update updates ih =>
    rw [checkUpdates, h update List.mem_cons_self, Outcome.ok_bind]
    exact ih fun u hu => h u (List.mem_cons_of_mem _ hu)

theorem LaidOut.checkUpdates (h : LaidOut g p) (hg : WellTyped g) : checkUpdates p p.updates.toList = .ok () := by
  refine checkUpdates_eq_ok fun update hmem => ?_
  rw [h.updates] at hmem
  obtain ⟨old, new, hold, hnew, hstate, hshape⟩ :=
    hg.updates update.1 update.2 (ExtTreeMap.mem_toList_iff_getElem?_eq_some.mp hmem)
  obtain ⟨t, ht, rfl⟩ := h.buffer hold
  obtain ⟨s, hs, rfl⟩ := h.buffer hnew
  simp [checkUpdate, ht, hs, hstate, hshape]

/-- The verifier accepts a layout exactly when the arena is within the limit. -/
theorem LaidOut.verify (h : LaidOut g p) (hg : WellTyped g) : verify p =
    if p.arenaBytes ≤ maxBytes then .ok () else invalid "physical plan resource limit or empty outputs" := by
  by_cases hmax : p.arenaBytes ≤ maxBytes
  swap
  · rw [Plan.verify, h.checkHeader hg, if_neg hmax]
    rfl
  have hstart : Followed p [] ∅ ⟨∅, List.replicate p.buffers.length none⟩ := by
    refine ⟨lived_start, fun id b hb => ?_, by simp⟩
    have hlt := (List.getElem?_eq_some_iff.mp hb).1
    simp [hlt]
  have hplanned := h.steps.imp fun _ _ hstep => hstep.1
  obtain ⟨l, hsteps, hfollowed⟩ := checkSteps_eq_ok hg h.values (List.nil_append _).symm hstart hplanned
  have hreadable : ∀ id ∈ p.results, Readable p (nodeLives 0 g.nodes ∅) id := by
    intro id hid
    rw [h.results] at hid
    obtain ⟨v, hv⟩ := hg.results id hid
    refine hfollowed.readable h.values hv (hg.supported.computed id hid v hv) fun other hother houtput => ?_
    obtain ⟨w, hw, -, harena⟩ := hg.output_arena hother
    rw [houtput, hv] at hw
    exact Option.some.inj hw ▸ harena
  obtain ⟨list, hresults, hmatches⟩ := checkResults_eq_ok hreadable hfollowed.agrees
  rw [h.steps_length, h.results] at hmatches
  have hlifetimes : Plan.checkLifetimes p list [] p.buffers = .ok () := h.checkLifetimes hg hmatches (by simp)
  have hdistinct : p.outputs.Nodup := h.outputs ▸ hg.distinct
  rw [List.length_nil] at hsteps
  rw [Plan.verify, h.checkHeader hg, if_pos hmax, Outcome.ok_bind, h.checkBuffers hg hmax, Outcome.ok_bind, hsteps,
    Outcome.ok_bind, if_neg (not_not.mpr hdistinct)]
  simp only [h.checkUpdates hg, Outcome.ok_bind, hresults, hlifetimes]

end

end Inferfabric.Plan.Planner
