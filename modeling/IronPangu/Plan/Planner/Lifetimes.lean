-- SUMMARY: The lifetimes the planner computes are the ones the verifier finds again in the steps.
import IronPangu.Plan.Planner.Renumbered

open Rust Std

/-!
# Lifetimes

The planner keeps the lifetimes of computed values in a map, the verifier one for
each buffer. Step by step, both say the same of every value.
-/

namespace Inferfabric.Plan.Planner

open Ir

variable {F : Type} [Float32 F]

/-! ## The planner's lifetimes -/

section
variable {last : Nat} {lives : ExtTreeMap Nat (Nat × Nat)} {done rest : List TypedNode} {node : TypedNode}

theorem getElem?_stretch (id other : Nat) : (stretch last lives id)[other]? =
    if other = id then lives[other]?.map fun life => (life.1, last) else lives[other]? := by
  rcases hlife : lives[id]? with _ | life
  · have hsame : stretch last lives id = lives := by rw [stretch, hlife]
    rw [hsame]
    split
    · rename_i heq
      rw [heq, hlife, Option.map_none]
    · rfl
  · have hinsert : stretch last lives id = lives.insert id (life.1, last) := by rw [stretch, hlife]
    rw [hinsert]
    split
    · rename_i heq
      rw [heq, hlife, Option.map_some, ExtTreeMap.getElem?_insert_self]
    · rename_i hne
      exact ExtTreeMap.getElem?_insert_ne (Ne.symm hne)

theorem getElem?_stretchAll (ids : List Nat) (other : Nat) : (ids.foldl (stretch last) lives)[other]? =
    if other ∈ ids then lives[other]?.map fun life => (life.1, last) else lives[other]? := by
  induction ids generalizing lives with
  | nil => simp
  | cons id ids ih =>
    rw [List.foldl_cons, ih, getElem?_stretch]
    by_cases hid : other = id <;> by_cases hmem : other ∈ ids <;> simp [hid, hmem, Function.comp_def]

/-- The lifetimes of what the nodes `done` compute, each from the position of its node. -/
structure Lived (done : List TypedNode) (lives : ExtTreeMap Nat (Nat × Nat)) : Prop where
  sound : ∀ (id : Nat) life, lives[id]? = some life → life.1 ≤ life.2 ∧ ∃ node, done[life.1]? = some node ∧ node.output = id
  complete : ∀ (i : Nat) node, done[i]? = some node → ∃ last, lives[node.output]? = some (i, last)

theorem lived_start : Lived [] ∅ where
  sound := by simp
  complete := by simp

theorem Lived.stretchAll (h : Lived done lives) (ids : List Nat) (hlast : done.length ≤ last + 1) :
    Lived done (ids.foldl (stretch last) lives) where
  sound := by
    intro id life hlife
    rw [getElem?_stretchAll] at hlife
    split at hlife
    · obtain ⟨old, hold, rfl⟩ := Option.map_eq_some_iff.mp hlife
      obtain ⟨-, node, hnode, houtput⟩ := h.sound id old hold
      have hlt := (List.getElem?_eq_some_iff.mp hnode).1
      exact ⟨Nat.le_of_lt_succ (hlt.trans_le hlast), node, hnode, houtput⟩
    · exact h.sound id life hlife
  complete := by
    intro i node hnode
    obtain ⟨old, hold⟩ := h.complete i node hnode
    rw [getElem?_stretchAll]
    split
    · exact ⟨last, by rw [hold, Option.map_some]⟩
    · exact ⟨old, hold⟩

theorem Lived.insert (h : Lived done lives) (hnew : ∀ other ∈ done, other.output ≠ node.output) :
    Lived (done ++ [node]) (lives.insert node.output (done.length, done.length)) where
  sound := by
    intro id life hlife
    rcases ExtTreeMap.getElem?_insert_eq_some.mp hlife with ⟨rfl, rfl⟩ | ⟨-, hlife⟩
    · exact ⟨Nat.le_refl _, node, by simp, rfl⟩
    · obtain ⟨hle, other, hother, houtput⟩ := h.sound id life hlife
      exact ⟨hle, other, getElem?_append_some hother _, houtput⟩
  complete := by
    intro i other hother
    rcases getElem?_concat_some hother with hother | ⟨rfl, rfl⟩
    · obtain ⟨last, hlast⟩ := h.complete i other hother
      have hne := hnew other (List.mem_of_getElem? hother)
      exact ⟨last, ExtTreeMap.getElem?_insert_eq_some.mpr (.inr ⟨hne.symm, hlast⟩)⟩
    · exact ⟨done.length, ExtTreeMap.getElem?_insert_self⟩

theorem lived_nodeLives (h : Lived done lives) (hdistinct : ((done ++ rest).map (·.output)).Nodup) :
    Lived (done ++ rest) (nodeLives done.length rest lives) := by
  induction rest generalizing done lives with
  | nil => simpa [nodeLives] using h
  | cons node rest ih =>
    have hnew : ∀ other ∈ done, other.output ≠ node.output := by
      intro other hother heq
      rw [List.map_append, List.map_cons, List.nodup_append'] at hdistinct
      exact hdistinct.2.2 (List.mem_map_of_mem hother) (heq ▸ List.mem_cons_self)
    have hnext : Lived (done ++ [node]) (node.inputs.foldl (stretch done.length) _) :=
      (h.insert hnew).stretchAll node.inputs (by simp)
    rw [List.append_cons] at hdistinct ⊢
    simpa [nodeLives] using ih hnext hdistinct

end

theorem WellTyped.lived {g : TypedGraph F} (h : WellTyped g) : Lived g.nodes (lifetimes g) :=
  (lived_nodeLives lived_start h.supported.distinct).stretchAll (results g) (Nat.le_succ _)

/-! ## The verifier's lifetimes -/

section
variable {p : PhysicalPlan F} {lives : ExtTreeMap Nat (Nat × Nat)} {l : Liveness} {i : Nat}

/-- The verifier's list says what the planner's map says. -/
def Matches (p : PhysicalPlan F) (lives : ExtTreeMap Nat (Nat × Nat)) (list : List (Option (Nat × Nat))) : Prop :=
  ∀ (id : Nat) b, p.buffers[id]? = some b → list[id]? = some lives[id]?

/-- Whatever is in the arena and read at this point has been computed. -/
structure Readable (p : PhysicalPlan F) (lives : ExtTreeMap Nat (Nat × Nat)) (id : Nat) : Prop where
  buffer : ∃ b, p.buffers[id]? = some b ∧ (b.value.storage = .arena ↔ ∃ life, lives[id]? = some life)

omit [Float32 F] in
theorem Matches.stretch {list : List (Option (Nat × Nat))} {id last : Nat} {life : Nat × Nat} (h : Matches p lives list)
    (hlife : lives[id]? = some life) : Matches p (stretch last lives id) (list.set id (some (life.1, last))) := by
  intro other b hb
  have hother := h other b hb
  rw [List.getElem?_set, getElem?_stretch]
  split
  · rename_i heq
    subst heq
    rw [if_pos rfl, hlife, Option.map_some, if_pos (List.getElem?_eq_some_iff.mp hother).1]
  · rename_i hne
    rw [if_neg (Ne.symm hne), hother]

theorem stretch_of_none {id last : Nat} (h : lives[id]? = none) : stretch last lives id = lives := by
  rw [Planner.stretch, h]

omit [Float32 F] in
theorem Readable.stretch {id other last : Nat} (h : Readable p lives id) : Readable p (stretch last lives other) id := by
  obtain ⟨b, hb, hiff⟩ := h.buffer
  refine ⟨b, hb, hiff.trans ?_⟩
  rw [getElem?_stretch]
  split <;> simp

omit [Float32 F] in
/-- The operands of a step are computed, and their lifetimes go on to it. -/
theorem checkInputs_eq_ok {ids : List Nat} (hreadable : ∀ id ∈ ids, Readable p lives id) (hmatches : Matches p lives l.lives)
    (hproducer : ∀ (id : Nat) life, lives[id]? = some life → l.producer[id]? = some life.1) :
    ∃ shapes required l', checkInputs p i ids l = .ok (shapes, required, l') ∧
      ids.map (fun id => p.buffers[id]?.map (·.value.shape)) = shapes.map some ∧
      (∀ d ∈ required, ∃ id ∈ ids, l.producer[id]? = some d) ∧ l'.producer = l.producer ∧
      Matches p (ids.foldl (stretch i) lives) l'.lives := by
  induction ids generalizing l lives with
  | nil => exact ⟨[], [], l, rfl, rfl, nofun, rfl, hmatches⟩
  | cons id ids ih =>
    obtain ⟨b, hb, harena⟩ := (hreadable id List.mem_cons_self).buffer
    have hrest : ∀ other ∈ ids, Readable p (Planner.stretch i lives id) other := fun other hother =>
      (hreadable other (List.mem_cons_of_mem _ hother)).stretch
    simp only [checkInputs, hb, Outcome.okOr_some, Outcome.ok_bind, List.foldl_cons, List.map_cons, Option.map_some]
    split
    · rename_i hstorage
      obtain ⟨life, hlife⟩ := harena.mp hstorage
      have hjoin : (l.lives[id]?).join = some life := by rw [hmatches id b hb, hlife]; rfl
      obtain ⟨shapes, required, l', hok, hshapes, hrequired, hsame, hmatches'⟩ :=
        ih (l := { l with lives := l.lives.set id (some (life.1, i)) }) hrest (hmatches.stretch hlife)
          fun other old hold => by
            rw [getElem?_stretch] at hold
            split at hold
            · obtain ⟨old', hold', rfl⟩ := Option.map_eq_some_iff.mp hold
              exact hproducer other old' hold'
            · exact hproducer other old hold
      refine ⟨b.value.shape :: shapes, life.1 :: required, l', ?_, by rw [hshapes, List.map_cons], ?_, hsame, hmatches'⟩
      · simp [hproducer id life hlife, hjoin, hok]
      · intro d hd
        rcases List.mem_cons.mp hd with rfl | hd
        · exact ⟨id, List.mem_cons_self, hproducer id life hlife⟩
        · obtain ⟨other, hother, hget⟩ := hrequired d hd
          exact ⟨other, List.mem_cons_of_mem _ hother, hget⟩
    · rename_i hstorage
      have hnone : lives[id]? = none := by
        rw [Option.eq_none_iff_forall_ne_some]
        exact fun life hlife => hstorage (harena.mpr ⟨life, hlife⟩)
      rw [stretch_of_none hnone] at hrest ⊢
      obtain ⟨shapes, required, l', hok, hshapes, hrequired, hsame, hmatches'⟩ := ih hrest hmatches hproducer
      refine ⟨b.value.shape :: shapes, required, l', by simp [hok], by rw [hshapes, List.map_cons], ?_, hsame, hmatches'⟩
      intro d hd
      obtain ⟨other, hother, hget⟩ := hrequired d hd
      exact ⟨other, List.mem_cons_of_mem _ hother, hget⟩

omit [Float32 F] in
/-- Results are computed, and their lifetimes go on to the end. -/
theorem checkResults_eq_ok {ids : List Nat} {list : List (Option (Nat × Nat))} (hreadable : ∀ id ∈ ids, Readable p lives id)
    (hmatches : Matches p lives list) : ∃ list', checkResults p ids list = .ok list' ∧
      Matches p (ids.foldl (stretch p.steps.length) lives) list' := by
  induction ids generalizing list lives with
  | nil => exact ⟨list, rfl, hmatches⟩
  | cons id ids ih =>
    obtain ⟨b, hb, harena⟩ := (hreadable id List.mem_cons_self).buffer
    have hrest : ∀ other ∈ ids, Readable p (Planner.stretch p.steps.length lives id) other := fun other hother =>
      (hreadable other (List.mem_cons_of_mem _ hother)).stretch
    simp only [checkResults, hb, Outcome.okOr_some, Outcome.ok_bind, List.foldl_cons]
    split
    · rename_i hstorage
      obtain ⟨life, hlife⟩ := harena.mp hstorage
      obtain ⟨list', hok, hmatches'⟩ := ih hrest (hmatches.stretch hlife)
      exact ⟨list', by simp [hmatches id b hb, hlife, hok], hmatches'⟩
    · rename_i hstorage
      have hnone : lives[id]? = none := by
        rw [Option.eq_none_iff_forall_ne_some]
        exact fun life hlife => hstorage (harena.mpr ⟨life, hlife⟩)
      rw [stretch_of_none hnone] at hrest ⊢
      exact ih hrest hmatches

/-! ## Steps -/

/-- A step as the planner makes it of the node at position `i`. -/
structure Planned (nodes : List TypedNode) (i : Nat) (node : TypedNode) (step : Step) : Prop where
  name : step.name = node.name
  inputs : step.inputs = node.inputs
  output : step.output = node.output
  kernel : step.kernel.op = node.op
  rank : step.rank = 0
  stream : step.stream = 0
  prior : ∀ deps ∈ [step.dependencies, step.reuseDependencies], (∀ d ∈ deps, d < i) ∧ deps.Nodup
  required : ∀ j other, nodes[j]? = some other → other.output ∈ node.inputs → j ∈ step.dependencies

/-- What the verifier knows after the steps of the nodes `done`. -/
structure Followed (p : PhysicalPlan F) (done : List TypedNode) (lives : ExtTreeMap Nat (Nat × Nat)) (l : Liveness) :
    Prop where
  lived : Lived done lives
  agrees : Matches p lives l.lives
  producer : ∀ id j : Nat, l.producer[id]? = some j ↔ ∃ node, done[j]? = some node ∧ node.output = id

variable {g : TypedGraph F} {done : List TypedNode} {node : TypedNode} {step : Step}

omit [Float32 F] in
theorem Followed.producer_of_lives (h : Followed p done lives l) (id : Nat) (life : Nat × Nat) (hlife : lives[id]? = some life) :
    l.producer[id]? = some life.1 :=
  (h.producer id life.1).mpr (h.lived.sound id life hlife).2

omit [Float32 F] in
/-- A value is in the arena exactly where a node has computed it, once nothing later does. -/
theorem Followed.readable (h : Followed p done lives l) (hvalues : p.buffers.map (·.value) = g.values) {id : Nat} {v : Value F}
    (hv : g.values[id]? = some v) (hproduced : v.storage = .arena → ∃ other ∈ done, other.output = id)
    (harena : ∀ other ∈ done, other.output = id → v.storage = .arena) : Readable p lives id := by
  rw [← hvalues, List.getElem?_map] at hv
  obtain ⟨b, hb, rfl⟩ := Option.map_eq_some_iff.mp hv
  refine ⟨b, hb, fun hstorage => ?_, fun ⟨life, hlife⟩ => ?_⟩
  · obtain ⟨other, hother, rfl⟩ := hproduced hstorage
    obtain ⟨i, hi⟩ := List.mem_iff_getElem?.mp hother
    obtain ⟨last, hlast⟩ := h.lived.complete i other hi
    exact ⟨_, hlast⟩
  · obtain ⟨-, other, hother, houtput⟩ := h.lived.sound id life hlife
    exact harena other (List.mem_of_getElem? hother) houtput

/-- What is computed is in the arena. -/
theorem WellTyped.output_arena (hg : WellTyped g) (hnode : node ∈ g.nodes) :
    ∃ out, g.values[node.output]? = some out ∧ out.name = node.name ∧ out.storage = .arena := by
  obtain ⟨before, after, hsplit⟩ := List.append_of_mem hnode
  have hok := hg.supported.ordered before node after hsplit
  obtain ⟨out, -, hout, hname, -⟩ := hok.computes.output
  exact ⟨out, hout, hname, hok.arena out hout⟩

omit [Float32 F] in
theorem matches_insert {list : List (Option (Nat × Nat))} {ids : List Nat} {id : Nat} (hid : id ∉ ids)
    (h : Matches p (ids.foldl (stretch i) lives) list) :
    Matches p (ids.foldl (stretch i) (lives.insert id (i, i))) (list.set id (some (i, i))) := by
  intro other b hb
  have hother := h other b hb
  rw [List.getElem?_set, getElem?_stretchAll]
  rw [getElem?_stretchAll] at hother
  split
  · rename_i heq
    subst heq
    rw [if_neg hid, ExtTreeMap.getElem?_insert_self, if_pos (List.getElem?_eq_some_iff.mp hother).1]
  · rename_i hne
    rw [ExtTreeMap.getElem?_insert_ne hne, hother]

/-- One step of the verifier, one node of the planner. -/
theorem checkStep_eq_ok (h : Followed p done lives l) (hg : WellTyped g) (hvalues : p.buffers.map (·.value) = g.values)
    {rest : List TypedNode} (hsplit : g.nodes = done ++ node :: rest) (hstep : Planned g.nodes done.length node step) :
    ∃ l', checkStep p done.length step l = .ok l' ∧
      Followed p (done ++ [node]) (node.inputs.foldl (stretch done.length) (lives.insert node.output (done.length, done.length)))
        l' := by
  have hok := hg.supported.ordered done node rest hsplit
  have hnew := hg.supported.output_new hsplit
  have hmem : ∀ other ∈ done, other ∈ g.nodes := fun other hother => hsplit ▸ List.mem_append_left _ hother
  obtain ⟨out, shapes, hout, hname, hshapes, hshape⟩ := hok.computes.output
  have harena := hok.arena out hout
  obtain ⟨b, hb, rfl⟩ : ∃ b, p.buffers[node.output]? = some b ∧ b.value = out := by
    rw [← hvalues, List.getElem?_map] at hout
    exact Option.map_eq_some_iff.mp hout
  have hreadable : ∀ id ∈ node.inputs, Readable p lives id := by
    intro id hid
    obtain ⟨v, hv⟩ := hok.computes.operand hid
    refine h.readable hvalues hv (hok.operands id hid v hv) fun other hother houtput => ?_
    obtain ⟨w, hw, -, hstorage⟩ := hg.output_arena (hmem other hother)
    rw [houtput, hv] at hw
    exact Option.some.inj hw ▸ hstorage
  obtain ⟨shapes', required, l₁, hinputs, hshapes', hrequired, hproducer, hagrees⟩ :=
    checkInputs_eq_ok (i := done.length) hreadable h.agrees h.producer_of_lives
  have hsame : shapes' = shapes := by
    have hmaps : node.inputs.map (fun id => p.buffers[id]?.map (·.value.shape)) = node.inputs.map (shapeAt g.values) := by
      refine List.map_congr_left fun id _ => ?_
      rw [shapeAt, ← hvalues, List.getElem?_map, Option.map_map, Function.comp_def]
    rw [hmaps, hshapes] at hshapes'
    exact (List.map_injective_iff.mpr (Option.some_injective _) hshapes').symm
  have hfresh : node.output ∉ l.producer := by
    intro hcontains
    obtain ⟨j, hj⟩ := ExtTreeMap.mem_iff_isSome_getElem?.mp hcontains |> Option.isSome_iff_exists.mp
    obtain ⟨other, hother, houtput⟩ := (h.producer _ j).mp hj
    exact hnew other (List.mem_of_getElem? hother) houtput
  have hdata : ¬∃ d ∈ required, d ∉ step.dependencies := by
    rintro ⟨d, hd, hmissing⟩
    obtain ⟨id, hid, hget⟩ := hrequired d hd
    obtain ⟨other, hother, rfl⟩ := (h.producer id d).mp hget
    have hat : g.nodes[d]? = some other := hsplit ▸ getElem?_append_some hother _
    exact hmissing (hstep.required d other hat hid)
  have hdeps : ¬∃ deps ∈ [step.dependencies, step.reuseDependencies], (∃ d ∈ deps, d ≥ done.length) ∨ ¬deps.Nodup := by
    rintro ⟨deps, hdeps, ⟨d, hd, hge⟩ | hdup⟩
    · exact Nat.not_lt.mpr hge ((hstep.prior deps hdeps).1 d hd)
    · exact hdup (hstep.prior deps hdeps).2
  have hnot : node.output ∉ node.inputs := hg.supported.not_operand hsplit (by simp)
  refine ⟨⟨l₁.producer.insert node.output done.length, l₁.lives.set node.output (some (done.length, done.length))⟩, ?_, ?_⟩
  · simp only [checkStep, hstep.rank, hstep.stream, hstep.output, hstep.inputs, hstep.name, hstep.kernel, hb]
    rw [if_neg (by simp), Outcome.okOr_some, Outcome.ok_bind, if_neg (by simp [harena, hname, hfresh]), if_neg hdeps, hinputs,
      Outcome.ok_bind]
    simp [hdata, hsame, hshape]
  · refine ⟨(h.lived.insert hnew).stretchAll _ (by simp), matches_insert hnot hagrees, fun id j => ?_⟩
    rw [hproducer, ExtTreeMap.getElem?_insert_eq_some, h.producer]
    constructor
    · rintro (⟨rfl, rfl⟩ | ⟨-, other, hother, houtput⟩)
      · exact ⟨node, by simp, rfl⟩
      · exact ⟨other, getElem?_append_some hother _, houtput⟩
    · rintro ⟨other, hother, rfl⟩
      rcases getElem?_concat_some hother with hother | ⟨rfl, rfl⟩
      · exact .inr ⟨(hnew other (List.mem_of_getElem? hother)).symm, other, hother, rfl⟩
      · exact .inl ⟨rfl, rfl⟩

theorem checkSteps_eq_ok (hg : WellTyped g) (hvalues : p.buffers.map (·.value) = g.values) {rest : List TypedNode}
    {steps : List Step} (hsplit : g.nodes = done ++ rest) (h : Followed p done lives l)
    (hsteps : List.Forall₂ (fun (pair : TypedNode × Nat) step => Planned g.nodes pair.2 pair.1 step) (rest.zipIdx done.length)
      steps) :
    ∃ l', checkSteps p done.length steps l = .ok l' ∧ Followed p g.nodes (nodeLives done.length rest lives) l' := by
  induction rest generalizing done lives l steps with
  | nil =>
    obtain rfl := List.forall₂_nil_left_iff.mp hsteps
    rw [List.append_nil] at hsplit
    exact ⟨l, rfl, by rwa [hsplit]⟩
  | cons node rest ih =>
    obtain ⟨step, steps, hstep, hrest, rfl⟩ := List.forall₂_cons_left_iff.mp hsteps
    obtain ⟨l₁, hok, hfollowed⟩ := checkStep_eq_ok h hg hvalues hsplit hstep
    obtain ⟨l', hok', hdone⟩ := ih (by simp [hsplit]) hfollowed (by simpa using hrest)
    refine ⟨l', ?_, by simpa [nodeLives] using hdone⟩
    rw [checkSteps, hok, Outcome.ok_bind, ← hok']
    simp

end

end Inferfabric.Plan.Planner
