-- SUMMARY: Optimization as a whole: its errors, and that what it returns is well-typed again.
import IronPangu.Plan.Planner.Optimized

open Rust Std

/-!
# The optimized graph

Eliminating, folding and renumbering a well-typed graph gives a well-typed graph,
whatever the options. The only errors are those about the overrides and about
constants that are not finite.
-/

namespace Inferfabric.Plan.Planner

open Ir

variable {F : Type} [Float32 F]

/-! ## Between folding and compaction -/

section
variable {g : TypedGraph F} {nodes : List TypedNode} {s : Folding F}

omit [Float32 F] in
/-- What looks the same in a value and in a constant made of it adds up the same. -/
theorem map_narrowed {α : Type} {old values : List (Value F)} (f : Value F → α)
    (hlength : values.length = old.length) (hf : ∀ v₀ v : Value F, v.name = v₀.name → v.shape = v₀.shape → f v = f v₀)
    (hnarrowed : ∀ (id : Nat) v₀, old[id]? = some v₀ → ∃ v, values[id]? = some v ∧ v.name = v₀.name ∧ v.shape = v₀.shape) :
    values.map f = old.map f := by
  refine List.ext_getElem? fun id => ?_
  rw [List.getElem?_map, List.getElem?_map]
  rcases hold : old[id]? with _ | v₀
  · have hnone : values[id]? = none := by
      rw [List.getElem?_eq_none_iff] at hold ⊢
      omega
    rw [hnone, Option.map_none]
  · obtain ⟨v, hv, hname, hshape⟩ := hnarrowed id v₀ hold
    rw [hv, Option.map_some, Option.map_some, hf v₀ v hname hshape]

theorem Folded.supported {ids : List Nat} (h : Folded g.values nodes s) (hsupported : Supported g.values nodes ids)
    (hids : ∀ id ∈ ids, ∃ v, g.values[id]? = some v) : Supported s.values s.retained ids where
  ordered := h.ordered
  distinct := (h.sublist.map _).nodup hsupported.distinct
  computed := by
    intro id hid v hv harena
    obtain ⟨v₀, hv₀⟩ := hids id hid
    obtain ⟨w, hw, hnarrowed⟩ := h.narrowed id v₀ hv₀
    obtain rfl := Option.some.inj (hw.symm.trans hv)
    obtain rfl := hnarrowed.arena harena
    obtain ⟨node, hnode, rfl⟩ := hsupported.computed id hid w hv₀ harena
    exact ⟨node, h.kept node hnode w hw harena, rfl⟩

/-- The graph that is left when folding has passed the nodes kept. -/
def retainedGraph (g : TypedGraph F) (s : Folding F) : TypedGraph F := { g with values := s.values, nodes := s.retained }

theorem Folded.sound (h : Folded g.values nodes s) (hg : Sound g) (hsupported : Supported g.values nodes (Planner.results g))
    (hcount : nodes.length ≤ maxNodes) : Sound (retainedGraph g s) where
  values := h.valueOk hg.values
  names := by
    have hmap : s.values.map (·.name) = g.values.map (·.name) := by
      refine map_narrowed _ h.length (fun _ _ hname _ => hname) fun id v₀ hv₀ => ?_
      obtain ⟨v, hv, hnarrowed⟩ := h.narrowed id v₀ hv₀
      exact ⟨v, hv, hnarrowed.name, hnarrowed.shape⟩
    exact hmap ▸ hg.names
  bytes := by
    have hmap : s.values.map bytesOf = g.values.map bytesOf := by
      refine map_narrowed _ h.length (fun _ _ _ hshape => by rw [bytesOf, hshape, bytesOf]) fun id v₀ hv₀ => ?_
      obtain ⟨v, hv, hnarrowed⟩ := h.narrowed id v₀ hv₀
      exact ⟨v, hv, hnarrowed.name, hnarrowed.shape⟩
    exact hmap ▸ hg.bytes
  valueCount := h.length ▸ hg.valueCount
  nodeCount := h.sublist.length_le.trans hcount
  supported := h.supported hsupported hg.results
  someOutput := hg.someOutput
  distinct := hg.distinct
  results := by
    intro id hid
    obtain ⟨v₀, hv₀⟩ := hg.results id hid
    obtain ⟨v, hv, -⟩ := h.narrowed id v₀ hv₀
    exact ⟨v, hv⟩
  updates := by
    intro target source hupdate
    obtain ⟨old, new, hold, hnew, hstate, hshape⟩ := hg.updates target source hupdate
    obtain ⟨v, hv, hnarrowed⟩ := h.narrowed target old hold
    obtain ⟨w, hw, hsame⟩ := h.narrowed source new hnew
    refine ⟨v, w, hv, hw, ?_, by rw [hnarrowed.shape, hshape, hsame.shape]⟩
    rcases hnarrowed.storage with rfl | ⟨harena, -⟩
    · exact hstate
    · rw [hstate] at harena
      cases harena

end

/-! ## Renumbering -/

/-- The same node under new numbers. -/
structure Renamed (remap : ExtTreeMap Nat Nat) (node node' : TypedNode) : Prop where
  name : node'.name = node.name
  op : node'.op = node.op
  inputs : List.Forall₂ (fun id j : Nat => remap[id]? = some j) node.inputs node'.inputs
  output : remap[node.output]? = some node'.output

/-- The same graph under new numbers, without what nothing looks at. -/
structure Renumbered (remap : ExtTreeMap Nat Nat) (g g' : TypedGraph F) : Prop where
  values : Compacted g.values (Keeps (runtimeValues g)) remap g'.values
  nodes : List.Forall₂ (Renamed remap) g.nodes g'.nodes
  outputs : List.Forall₂ (fun id j : Nat => remap[id]? = some j) g.outputs g'.outputs
  updates : ∀ target' source' : Nat, g'.updates[target']? = some source' →
    ∃ target source : Nat, g.updates[target]? = some source ∧ remap[target]? = some target' ∧ remap[source]? = some source'
  name : g'.name = g.name

section
variable {g g' : TypedGraph F} {remap : ExtTreeMap Nat Nat}

omit [Float32 F] in
theorem mem_runtimeValues {id : Nat} : id ∈ runtimeValues g ↔
    id ∈ results g ∨ ∃ node ∈ g.nodes, id ∈ node.inputs ∨ id = node.output := by
  simp [runtimeValues]

/-- Whatever a node or a result looks at has a value. -/
theorem Sound.exists_value (h : Sound g) {id : Nat} (hid : id ∈ runtimeValues g) : ∃ v, g.values[id]? = some v := by
  rcases mem_runtimeValues.mp hid with hresult | ⟨node, hnode, hmem⟩
  · exact h.results id hresult
  · obtain ⟨before, after, hsplit⟩ := List.append_of_mem hnode
    have hok := h.supported.ordered before node after hsplit
    rcases hmem with hinput | rfl
    · exact hok.computes.operand hinput
    · obtain ⟨out, hout, -⟩ := hok.output_arena
      exact ⟨out, hout⟩

/-- Whatever a node or a result looks at is computed, if it has to be. -/
theorem Sound.produced (h : Sound g) {id : Nat} (hid : id ∈ runtimeValues g) {v : Value F} (hv : g.values[id]? = some v)
    (harena : v.storage = .arena) : ∃ node ∈ g.nodes, node.output = id := by
  rcases mem_runtimeValues.mp hid with hresult | ⟨node, hnode, hmem⟩
  · exact h.supported.computed id hresult v hv harena
  · rcases hmem with hinput | rfl
    · obtain ⟨before, after, hsplit⟩ := List.append_of_mem hnode
      obtain ⟨other, hother, heq⟩ := (h.supported.ordered before node after hsplit).operands id hinput v hv harena
      exact ⟨other, hsplit ▸ List.mem_append_left _ hother, heq⟩
    · exact ⟨node, hnode, rfl⟩

/-- A loop whose body always returns something related to its element. -/
theorem exists_collect {α β ε : Type} {f : α → Outcome ε β} {R : α → β → Prop} {as : List α}
    (h : ∀ a ∈ as, ∃ b, f a = .ok b ∧ R a b) : ∃ bs, Outcome.collect f as = .ok bs ∧ List.Forall₂ R as bs := by
  induction as with
  | nil => exact ⟨[], rfl, .nil⟩
  | cons a as ih =>
    obtain ⟨b, hb, hr⟩ := h a List.mem_cons_self
    obtain ⟨bs, hbs, hrs⟩ := ih fun x hx => h x (List.mem_cons_of_mem _ hx)
    exact ⟨b :: bs, by rw [Outcome.collect, hb, Outcome.ok_bind, hbs, Outcome.ok_bind], .cons hr hrs⟩

omit [Float32 F] in
/-- Every number in a list is remapped. -/
theorem collect_renumber {ids : List Nat} (h : ∀ id ∈ ids, ∃ j : Nat, remap[id]? = some j) :
    ∃ js, Outcome.collect (renumber remap) ids = .ok js ∧ List.Forall₂ (fun id j : Nat => remap[id]? = some j) ids js := by
  refine exists_collect fun id hid => ?_
  obtain ⟨j, hj⟩ := h id hid
  exact ⟨j, by rw [renumber, hj, Outcome.unwrap_some], hj⟩

theorem renumberNode_eq_ok {node : TypedNode} (hinputs : ∀ id ∈ node.inputs, ∃ j : Nat, remap[id]? = some j)
    (houtput : ∃ j : Nat, remap[node.output]? = some j) :
    ∃ node', renumberNode remap node = .ok node' ∧ Renamed remap node node' := by
  obtain ⟨js, hjs, hall⟩ := collect_renumber hinputs
  obtain ⟨j, hj⟩ := houtput
  exact ⟨{ node with inputs := js, output := j }, by simp [renumberNode, renumber, hjs, hj], rfl, rfl, hall, hj⟩

/-- Compaction finds a number for everything that is looked at. -/
theorem renumbered_eq_ok (h : Sound g) : ∃ remap g', renumbered g = .ok g' ∧ Renumbered remap g g' := by
  have hcompacted := compact_compacted (compacted_start (Keeps (runtimeValues g))) g.values
  simp only [List.nil_append, List.length_nil] at hcompacted
  rcases hcompact : compact (runtimeValues g) 0 g.values ∅ [] with ⟨remap, kept⟩
  rw [hcompact] at hcompacted
  have hruntime : ∀ id ∈ runtimeValues g, ∃ j : Nat, remap[id]? = some j := by
    intro id hid
    obtain ⟨v, hv⟩ := h.exists_value hid
    exact hcompacted.forward id v hv (.inr (.inr hid))
  have hresult (id : Nat) (hid : id ∈ results g) : ∃ j : Nat, remap[id]? = some j :=
    hruntime id (mem_runtimeValues.mpr (.inl hid))
  have hnode : ∀ node ∈ g.nodes, ∃ node', renumberNode remap node = .ok node' ∧ Renamed remap node node' := fun node hnode =>
    renumberNode_eq_ok (fun id hid => hruntime id (mem_runtimeValues.mpr (.inr ⟨node, hnode, .inl hid⟩)))
      (hruntime _ (mem_runtimeValues.mpr (.inr ⟨node, hnode, .inr rfl⟩)))
  have hupdate : ∀ update ∈ g.updates.toList, ∃ update', renumberUpdate remap update = .ok update' ∧
      (remap[update.1]? = some update'.1 ∧ remap[update.2]? = some update'.2) := by
    rintro ⟨target, source⟩ hmem
    have hget := ExtTreeMap.mem_toList_iff_getElem?_eq_some.mp hmem
    obtain ⟨old, -, hold, -, hstate, -⟩ := h.updates target source hget
    obtain ⟨target', htarget⟩ := hcompacted.forward target old hold (.inr (.inl hstate))
    obtain ⟨source', hsource⟩ := hresult source (List.mem_append_right _ (List.mem_map_of_mem (f := Prod.snd) hmem))
    exact ⟨(target', source'), by simp [renumberUpdate, renumber, htarget, hsource], htarget, hsource⟩
  obtain ⟨nodes, hnodes, hnodesAll⟩ := exists_collect hnode
  obtain ⟨outputs, houtputs, houtputsAll⟩ := collect_renumber fun id hid =>
    hresult id (List.mem_append_left _ hid)
  obtain ⟨updates, hupdates, hupdatesAll⟩ := exists_collect hupdate
  refine ⟨remap, { g with values := kept, nodes := nodes, outputs := outputs, updates := ExtTreeMap.ofList updates },
    by simp [renumbered, hcompact, hnodes, houtputs, hupdates], hcompacted, hnodesAll, houtputsAll, ?_, rfl⟩
  intro target' source' hget
  obtain ⟨⟨target, source⟩, hold, htarget, hsource⟩ := mem_of_forall₂ hupdatesAll (ExtTreeMap.mem_of_getElem?_ofList hget)
  exact ⟨target, source, ExtTreeMap.mem_toList_iff_getElem?_eq_some.mp hold, htarget, hsource⟩

omit [Float32 F] in
/-- A value keeps what it is under its new number. -/
theorem Renumbered.value (h : Renumbered remap g g') {id j : Nat} (hj : remap[id]? = some j) {v : Value F}
    (hv : g'.values[j]? = some v) : g.values[id]? = some v := by
  obtain ⟨w, hw, -, hw'⟩ := h.values.back id j hj
  rw [hw, ← hw', hv]

omit [Float32 F] in
theorem Renumbered.shapeAt (h : Renumbered remap g g') {ids js : List Nat}
    (hall : List.Forall₂ (fun id j : Nat => remap[id]? = some j) ids js) :
    js.map (shapeAt g'.values) = ids.map (Planner.shapeAt g.values) := by
  induction hall with
  | nil => rfl
  | cons hj _ ih =>
    obtain ⟨v, hv, -, hv'⟩ := h.values.back _ _ hj
    rw [List.map_cons, List.map_cons, ih, Planner.shapeAt, Planner.shapeAt, hv, hv']

omit [Float32 F] in
theorem Renumbered.nodeOk (h : Renumbered remap g g') {before before' : List TypedNode} {node node' : TypedNode}
    (hbefore : List.Forall₂ (Renamed remap) before before') (hnode : Renamed remap node node')
    (hok : NodeOk g.values before node) : NodeOk g'.values before' node' := by
  obtain ⟨out, shapes, hout, hname, hshapes, hshape⟩ := hok.computes.output
  obtain ⟨v, hv, -, hv'⟩ := h.values.back _ _ hnode.output
  obtain rfl := Option.some.inj (hout.symm.trans hv)
  refine ⟨⟨out, shapes, hv', hname.trans hnode.name.symm, (h.shapeAt hnode.inputs).trans hshapes, hnode.op.symm ▸ hshape⟩,
    fun w hw => hok.arena w (h.value hnode.output hw), fun j hj w hw harena => ?_⟩
  obtain ⟨id, hid, hremap⟩ := mem_of_forall₂ hnode.inputs hj
  obtain ⟨other, hother, rfl⟩ := hok.operands id hid w (h.value hremap hw) harena
  obtain ⟨other', hother', hrenamed⟩ := mem_of_forall₂ hbefore.flip hother
  exact ⟨other', hother', Option.some.inj (hrenamed.output.symm.trans hremap)⟩

omit [Float32 F] in
/-- A result of the renumbered graph was one of the graph. -/
theorem Renumbered.result (h : Renumbered remap g g') {j : Nat} (hj : j ∈ results g') :
    ∃ id ∈ results g, remap[id]? = some j := by
  rcases List.mem_append.mp hj with hj | hj
  · obtain ⟨id, hid, hremap⟩ := mem_of_forall₂ h.outputs hj
    exact ⟨id, List.mem_append_left _ hid, hremap⟩
  · obtain ⟨⟨target', source'⟩, hmem, rfl⟩ := List.mem_map.mp hj
    obtain ⟨target, source, hget, -, hremap⟩ := h.updates target' source' (ExtTreeMap.mem_toList_iff_getElem?_eq_some.mp hmem)
    have hold := ExtTreeMap.mem_toList_iff_getElem?_eq_some.mpr hget
    exact ⟨source, List.mem_append_right _ (List.mem_map_of_mem (f := Prod.snd) hold), hremap⟩

omit [Float32 F] in
theorem Renumbered.computed (h : Renumbered remap g g') {id j : Nat} (hj : remap[id]? = some j)
    (hproduced : ∃ node ∈ g.nodes, node.output = id) : ∃ node' ∈ g'.nodes, node'.output = j := by
  obtain ⟨node, hnode, rfl⟩ := hproduced
  obtain ⟨node', hnode', hrenamed⟩ := mem_of_forall₂ h.nodes.flip hnode
  exact ⟨node', hnode', Option.some.inj (hrenamed.output.symm.trans hj)⟩

theorem Renumbered.wellTyped (h : Renumbered remap g g') (hg : Sound g) : WellTyped g' where
  values := fun v hv => hg.values v (h.values.sublist.subset hv)
  names := (h.values.sublist.map _).nodup hg.names
  bytes := ((h.values.sublist.map _).sum_le_sum fun _ _ => Nat.zero_le _).trans hg.bytes
  valueCount := h.values.sublist.length_le.trans hg.valueCount
  nodeCount := h.nodes.length_eq ▸ hg.nodeCount
  supported := {
    ordered := hg.supported.ordered.forall₂ h.nodes fun _ _ _ _ hbefore hnode hok => h.nodeOk hbefore hnode hok
    distinct := by
      have hpairs : g.nodes.Pairwise fun a b => a.output ≠ b.output := List.pairwise_map.mp hg.supported.distinct
      refine List.pairwise_map.mpr (pairwise_of_forall₂ h.nodes hpairs fun a a' b b' ha hb hne heq => hne ?_)
      exact h.values.injective _ _ _ ha.output (heq ▸ hb.output)
    computed := by
      intro j hj v hv harena
      obtain ⟨id, hid, hremap⟩ := h.result hj
      exact h.computed hremap (hg.supported.computed id hid v (h.value hremap hv) harena) }
  someOutput := by
    intro hnil
    have hlength := h.outputs.length_eq
    rw [hnil, List.length_nil] at hlength
    exact hg.someOutput (List.length_eq_zero_iff.mp hlength)
  distinct := pairwise_of_forall₂ h.outputs hg.distinct fun a a' b b' ha hb hne heq =>
    hne (h.values.injective _ _ _ ha (heq ▸ hb))
  results := by
    intro j hj
    obtain ⟨id, -, hremap⟩ := h.result hj
    obtain ⟨v, -, -, hv⟩ := h.values.back id j hremap
    exact ⟨v, hv⟩
  updates := by
    intro target' source' hget
    obtain ⟨target, source, hold, htarget, hsource⟩ := h.updates target' source' hget
    obtain ⟨old, new, hold', hnew, hstate, hshape⟩ := hg.updates target source hold
    obtain ⟨v, hv, -, hv'⟩ := h.values.back _ _ htarget
    obtain ⟨w, hw, -, hw'⟩ := h.values.back _ _ hsource
    obtain rfl := Option.some.inj (hold'.symm.trans hv)
    obtain rfl := Option.some.inj (hnew.symm.trans hw)
    exact ⟨old, new, hv', hw', hstate, hshape⟩
  produced := by
    intro j v hv harena
    have hlt := (List.getElem?_eq_some_iff.mp hv).1
    obtain ⟨id, hremap⟩ := h.values.onto j hlt
    obtain ⟨w, hw, hkeep, hw'⟩ := h.values.back id j hremap
    obtain rfl := Option.some.inj (hv.symm.trans hw')
    rcases hkeep with hinput | hstate | hid
    · rw [harena] at hinput
      cases hinput
    · rw [harena] at hstate
      cases hstate
    · exact h.computed hremap (hg.produced hid hw harena)

end

/-! ## The passes in turn -/

section
variable {g : TypedGraph F} {options : CompileOptions}

/-- What optimization may find fault with: the overrides, and constants that are not finite. -/
inductive Unoptimizable : Error → Prop where
  | unknown (name : String) : Unoptimizable (.invalid s!"unknown kernel override node {name}")
  | semantics : Unoptimizable (.invalid "kernel override changes operation semantics")
  | nonfinite : Unoptimizable (.invalid "nonfinite constant-folded result")
  | eliminated (name : String) :
      Unoptimizable (.invalid s!"override node {name} was eliminated; use debug planning to retain it")

/-- The overrides keep the operations of the nodes they name. -/
def Overridable (options : CompileOptions) (nodes : List TypedNode) : Prop :=
  ∀ node ∈ nodes, ∀ kernel, options.kernelOverrides[node.name]? = some kernel → kernel.op = node.op

omit [Float32 F] in
theorem checkOverrides_cases (g : TypedGraph F) (overrides : List (String × Kernel)) :
    checkOverrides g overrides = .ok () ∧
      (∀ name kernel, (name, kernel) ∈ overrides → ∃ node, g.nodes.find? (·.name = name) = some node ∧ node.op = kernel.op) ∨
    ∃ e, Unoptimizable e ∧ checkOverrides g overrides = .err e := by
  induction overrides with
  | nil => exact .inl ⟨rfl, nofun⟩
  | cons override overrides ih =>
    obtain ⟨name, kernel⟩ := override
    rw [checkOverrides]
    split
    · exact .inr ⟨_, .unknown name, rfl⟩
    · rename_i node hfind
      split
      · exact .inr ⟨_, .semantics, rfl⟩
      · rename_i hop
        rcases ih with ⟨hok, hall⟩ | herr
        · refine .inl ⟨hok, fun name' kernel' hmem => ?_⟩
          rcases List.mem_cons.mp hmem with heq | hmem
          · obtain ⟨rfl, rfl⟩ := Prod.mk.inj heq
            exact ⟨node, hfind, not_not.mp hop⟩
          · exact hall name' kernel' hmem
        · exact .inr herr

omit [Float32 F] in
theorem checkRetained_cases (g : TypedGraph F) (names : List String) :
    checkRetained g names = .ok () ∨ ∃ e, Unoptimizable e ∧ checkRetained g names = .err e := by
  induction names with
  | nil => exact .inl rfl
  | cons name names ih =>
    rw [checkRetained]
    split
    · exact .inr ⟨_, .eliminated name, rfl⟩
    · exact ih

/-- Two nodes of one name are the same node. -/
theorem Sound.node_eq_of_name (h : Sound g) {a b : TypedNode} (ha : a ∈ g.nodes) (hb : b ∈ g.nodes) (hname : a.name = b.name) :
    a = b := by
  have hnamed {node : TypedNode} (hnode : node ∈ g.nodes) : (g.values.map (·.name))[node.output]? = some node.name := by
    obtain ⟨before, after, hsplit⟩ := List.append_of_mem hnode
    obtain ⟨out, -, hout, hname, -⟩ := (h.supported.ordered before node after hsplit).computes.output
    rw [List.getElem?_map, hout, Option.map_some, hname]
  have houtput : a.output = b.output := by
    have hlt := (List.getElem?_eq_some_iff.mp (hnamed ha)).1
    exact (List.getElem?_inj hlt h.names).mp (by rw [hnamed ha, hnamed hb, hname])
  exact List.inj_on_of_nodup_map h.supported.distinct ha hb houtput

theorem Sound.overridable (h : Sound g) (hall : ∀ name kernel, (name, kernel) ∈ options.kernelOverrides.toList →
    ∃ node, g.nodes.find? (·.name = name) = some node ∧ node.op = kernel.op) : Overridable options g.nodes := by
  intro node hnode kernel hkernel
  obtain ⟨found, hfind, hop⟩ := hall node.name kernel (ExtTreeMap.mem_toList_iff_getElem?_eq_some.mpr hkernel)
  have hname : found.name = node.name := by simpa using List.find?_some hfind
  rw [← h.node_eq_of_name (List.mem_of_find?_eq_some hfind) hnode hname, hop]

/-- Optimization returns a well-typed graph, whose nodes may be overridden, or says what is wrong. -/
theorem optimize_cases (h : WellTyped g) (options : CompileOptions) :
    (∃ o, optimize options g = .ok o ∧ WellTyped o.graph ∧ Overridable options o.graph.nodes) ∨
      ∃ e, Unoptimizable e ∧ optimize options g = .err e := by
  rcases checkOverrides_cases g options.kernelOverrides.toList with ⟨hchecked, hall⟩ | ⟨e, he, herr⟩
  swap
  · exact .inr ⟨e, he, by rw [optimize, herr, Outcome.err_bind]⟩
  rcases hmark : markNeeded options.debug g.nodes.reverse (results g) [] with ⟨needed, removed⟩
  let nodes := g.nodes.filter fun node => options.debug || node.output ∈ needed
  have hsupported : Supported g.values nodes (results g) := by
    have hfilter := h.supported.filter options.debug []
    rwa [hmark] at hfilter
  rcases foldNodes_cases hsupported h.values options (List.nil_append nodes).symm (folded_start g.values) with
    herr | ⟨s, hfold, hfolded⟩
  · refine .inr ⟨_, .nonfinite, ?_⟩
    simp [optimize, hchecked, hmark, nodes, herr, invalid]
  have hsound := hfolded.sound h.toSound hsupported ((List.length_filter_le _ _).trans h.nodeCount)
  obtain ⟨remap, graph, hrenumbered, hgraph⟩ := renumbered_eq_ok hsound
  have hstart : optimize options g = (do
      checkRetained graph (options.kernelOverrides.toList.map Prod.fst)
      .ok ⟨graph, removed, s.foldedNodes⟩) := by
    simp only [optimize, hchecked, Outcome.ok_bind, hmark]
    rw [hfold, Outcome.ok_bind]
    exact congrArg (· >>= _) hrenumbered
  rcases checkRetained_cases graph (options.kernelOverrides.toList.map Prod.fst) with hok | ⟨e, he, herr⟩
  · refine .inl ⟨_, by rw [hstart, hok, Outcome.ok_bind], hgraph.wellTyped hsound, ?_⟩
    intro node' hnode' kernel hkernel
    obtain ⟨node, hnode, hrenamed⟩ := mem_of_forall₂ hgraph.nodes hnode'
    have hmem : node ∈ g.nodes := (List.mem_filter.mp (hfolded.sublist.subset hnode)).1
    rw [hrenamed.op]
    exact h.toSound.overridable hall node hmem kernel (hrenamed.name ▸ hkernel)
  · exact .inr ⟨e, he, by rw [hstart, herr, Outcome.err_bind]⟩

end

end Inferfabric.Plan.Planner
