-- SUMMARY: What the planner's typing establishes of a graph: its names, sizes, operands and the order of its nodes.
import IronPangu.Lib.Trace
import IronPangu.Plan.Planner

open Rust Std

/-!
# Typed graphs

Every value of a typed graph has a name of its own and a size; every node computes
one value, from values that nodes before it compute or that no node computes. These
are the facts the passes keep and the layout relies on.
-/

namespace Inferfabric.Plan.Planner

open Ir

variable {F : Type} [Float32 F]

/-! ## Well-typed graphs -/

structure ValueOk (v : Value F) : Prop where
  name : v.name ≠ "" ∧ v.name.utf8ByteSize ≤ 256
  size : ∃ n, elements v.shape = .ok n
  unowned : v.storage = .input ∨ v.storage = .arena → v.initial = none
  owned : v.storage = .state ∨ v.storage = .constant →
    ∃ data, v.initial = some data ∧ elements v.shape = .ok data.length ∧ ∀ x ∈ data, Float32.isFinite x = true

/-- The bytes of a value. -/
def bytesOf (v : Value F) : Nat :=
  match elements v.shape with
  | .ok n => n * 4
  | .err _ | .panic => 0

def shapeAt (values : List (Value F)) (id : Nat) : Option (List Nat) := values[id]?.map (·.shape)

/-- A node computes its output from values of fitting shapes. -/
structure Computes (values : List (Value F)) (node : TypedNode) : Prop where
  output : ∃ out shapes, values[node.output]? = some out ∧ out.name = node.name ∧
    node.inputs.map (shapeAt values) = shapes.map some ∧ shape node.op shapes = .ok out.shape

/-- What holds of a node with the nodes before it. -/
structure NodeOk (values : List (Value F)) (before : List TypedNode) (node : TypedNode) : Prop where
  computes : Computes values node
  arena : ∀ v, values[node.output]? = some v → v.storage = .arena
  operands : ∀ id ∈ node.inputs, ∀ v, values[id]? = some v → v.storage = .arena → ∃ other ∈ before, other.output = id

/-- What nodes and the values `ids` look at is computed before, or needs no computing. -/
structure Supported (values : List (Value F)) (nodes : List TypedNode) (ids : List Nat) : Prop where
  ordered : Trace.Preceded (NodeOk values) nodes
  distinct : (nodes.map (·.output)).Nodup
  computed : ∀ id ∈ ids, ∀ v, values[id]? = some v → v.storage = .arena → ∃ node ∈ nodes, node.output = id

/-- An update of a state by a value of its shape. -/
def UpdateOk (values : List (Value F)) (target source : Nat) : Prop :=
  ∃ old new, values[target]? = some old ∧ values[source]? = some new ∧ old.storage = .state ∧ old.shape = new.shape

/-- A graph that may hold values no node computes, as long as nothing looks at them. -/
structure Sound (g : TypedGraph F) : Prop where
  values : ∀ v ∈ g.values, ValueOk v
  names : (g.values.map (·.name)).Nodup
  bytes : (g.values.map bytesOf).sum ≤ maxBytes
  valueCount : g.values.length ≤ maxNodes * 4
  nodeCount : g.nodes.length ≤ maxNodes
  supported : Supported g.values g.nodes (Planner.results g)
  someOutput : g.outputs ≠ []
  distinct : g.outputs.Nodup
  results : ∀ id ∈ Planner.results g, ∃ v, g.values[id]? = some v
  updates : ∀ target source : Nat, g.updates[target]? = some source → UpdateOk g.values target source

structure WellTyped (g : TypedGraph F) : Prop extends Sound g where
  produced : ∀ id v, g.values[id]? = some v → v.storage = .arena → ∃ node ∈ g.nodes, node.output = id

/-! ## Appending -/

section
variable {values : List (Value F)} {before : List TypedNode} {node : TypedNode}

theorem getElem?_append_some {α : Type} {as : List α} {a : α} {id : Nat} (h : as[id]? = some a) (bs : List α) :
    (as ++ bs)[id]? = some a := by
  obtain ⟨hlt, -⟩ := List.getElem?_eq_some_iff.mp h
  rw [List.getElem?_append_left hlt, h]

theorem getElem?_concat_some {α : Type} {as : List α} {a b : α} {i : Nat} (h : (as ++ [a])[i]? = some b) :
    as[i]? = some b ∨ i = as.length ∧ b = a := by
  rcases Nat.lt_trichotomy i as.length with hlt | rfl | hgt
  · exact .inl (by rwa [List.getElem?_append_left hlt] at h)
  · exact .inr ⟨rfl, by simpa [eq_comm] using h⟩
  · rw [List.getElem?_eq_none (by simp; omega)] at h
    cases h

omit [Float32 F] in
/-- The shapes that a list of operands has. -/
theorem exists_shape_iff {inputs : List Nat} :
    (∃ shapes : List (List Nat), inputs.map (shapeAt values) = shapes.map some) ↔
    ∀ id ∈ inputs, ∃ v, values[id]? = some v := by
  induction inputs with
  | nil => exact ⟨fun _ => by simp, fun _ => ⟨[], rfl⟩⟩
  | cons id inputs ih =>
    constructor
    · rintro ⟨shapes, h⟩
      cases shapes with
      | nil => cases h
      | cons s shapes =>
        simp only [List.map_cons, List.cons.injEq, shapeAt, Option.map_eq_some_iff] at h
        obtain ⟨⟨v, hv, -⟩, hrest⟩ := h
        intro id' hid'
        rcases List.mem_cons.mp hid' with rfl | hid'
        · exact ⟨v, hv⟩
        · exact ih.mp ⟨shapes, hrest⟩ id' hid'
    · intro h
      obtain ⟨v, hv⟩ := h id List.mem_cons_self
      obtain ⟨shapes, hshapes⟩ := ih.mpr fun id' hid' => h id' (List.mem_cons_of_mem _ hid')
      exact ⟨v.shape :: shapes, by simp [shapeAt, hv, hshapes]⟩

omit [Float32 F] in
/-- Operands keep their shapes where the values keep theirs. -/
theorem map_shapeAt_congr {values' : List (Value F)} {inputs : List Nat} {shapes : List (List Nat)}
    (h : inputs.map (shapeAt values) = shapes.map some)
    (hsame : ∀ id v, values[id]? = some v → shapeAt values' id = some v.shape) :
    inputs.map (shapeAt values') = shapes.map some := by
  rw [← h]
  refine List.map_congr_left fun id hid => ?_
  obtain ⟨v, hv⟩ := exists_shape_iff.mp ⟨shapes, h⟩ id hid
  rw [hsame id v hv, shapeAt, hv, Option.map_some]

omit [Float32 F] in
theorem Computes.operand (h : Computes values node) {id : Nat} (hid : id ∈ node.inputs) : ∃ v, values[id]? = some v := by
  obtain ⟨-, shapes, -, -, hshapes, -⟩ := h.output
  exact exists_shape_iff.mp ⟨shapes, hshapes⟩ id hid

omit [Float32 F] in
theorem Computes.append (h : Computes values node) (v : Value F) : Computes (values ++ [v]) node := by
  obtain ⟨out, shapes, hout, hname, hshapes, hshape⟩ := h.output
  exact ⟨out, shapes, getElem?_append_some hout _, hname,
    map_shapeAt_congr hshapes fun id v hv => by rw [shapeAt, getElem?_append_some hv, Option.map_some], hshape⟩

omit [Float32 F] in
theorem NodeOk.append (h : NodeOk values before node) (v : Value F) : NodeOk (values ++ [v]) before node := by
  refine ⟨h.computes.append v, fun w hw => ?_, fun id hid w hw harena => ?_⟩
  · obtain ⟨out, -, hout, -⟩ := h.computes.output
    obtain rfl := Option.some.inj ((getElem?_append_some hout [v]).symm.trans hw)
    exact h.arena out hout
  · obtain ⟨u, hu⟩ := h.computes.operand hid
    obtain rfl := Option.some.inj ((getElem?_append_some hu [v]).symm.trans hw)
    exact h.operands id hid u hu harena

end

/-! ## Names -/

theorem checkNames_eq_ok {seen names : List String} (h : checkNames seen names = .ok ()) :
    names.Nodup ∧ ∀ name ∈ names, (name ≠ "" ∧ name.utf8ByteSize ≤ 256) ∧ name ∉ seen := by
  induction names generalizing seen with
  | nil => simp
  | cons name names ih =>
    rw [checkNames] at h
    split at h
    · simp [invalid] at h
    · rename_i hname
      push Not at hname
      obtain ⟨hnodup, hrest⟩ := ih h
      refine ⟨List.nodup_cons.mpr ⟨fun hmem => (hrest name hmem).2 List.mem_cons_self, hnodup⟩, ?_⟩
      intro other hother
      rcases List.mem_cons.mp hother with rfl | hother
      · exact ⟨⟨hname.1, hname.2.1⟩, hname.2.2⟩
      · obtain ⟨hok, hnot⟩ := hrest other hother
        exact ⟨hok, fun hmem => hnot (List.mem_cons_of_mem _ hmem)⟩

/-! ## Typing -/

/-- What holds while the values are typed: `pending` are the names still to come. -/
structure Typing.Ok (t : Typing F) (pending : List String) : Prop where
  values : ∀ v ∈ t.values, ValueOk v
  names : (t.values.map (·.name) ++ pending).Nodup
  pending : ∀ name ∈ pending, name ≠ "" ∧ name.utf8ByteSize ≤ 256
  ids : ∀ (name : String) (id : Nat), t.ids[name]? = some id ↔ ∃ v, t.values[id]? = some v ∧ v.name = name
  nodes : Trace.Preceded (NodeOk t.values) t.nodes
  produced : ∀ id v, t.values[id]? = some v → v.storage = .arena → ∃ node ∈ t.nodes, node.output = id
  nodesDistinct : (t.nodes.map (·.output)).Nodup

namespace Typing.Ok

variable {t : Typing F} {name : String} {pending : List String}

theorem new {names : List String} (hnodup : names.Nodup) (hok : ∀ name ∈ names, name ≠ "" ∧ name.utf8ByteSize ≤ 256) :
    Typing.Ok (Typing.new : Typing F) names where
  values := nofun
  names := hnodup
  pending := hok
  ids := by simp [Typing.new]
  nodes := Trace.preceded_nil
  produced := by simp [Typing.new]
  nodesDistinct := List.nodup_nil

/-- A value is added under a name that is still to come. -/
theorem ids_define (h : t.Ok (name :: pending)) {v : Value F} (hname : v.name = name) (other : String) (id : Nat) :
    (t.define v).ids[other]? = some id ↔ ∃ w, (t.values ++ [v])[id]? = some w ∧ w.name = other := by
  subst hname
  have hfresh : ∀ w ∈ t.values, w.name ≠ v.name := by
    intro w hw heq
    have hdisjoint := (List.nodup_append'.mp h.names).2.2
    exact hdisjoint (List.mem_map_of_mem hw) (heq ▸ List.mem_cons_self)
  simp only [Typing.define, ExtTreeMap.getElem?_insert_eq_some, h.ids]
  constructor
  · rintro (⟨rfl, rfl⟩ | ⟨-, w, hw, hwname⟩)
    · exact ⟨v, by simp, rfl⟩
    · exact ⟨w, getElem?_append_some hw _, hwname⟩
  · rintro ⟨w, hw, rfl⟩
    rcases getElem?_concat_some hw with hw | ⟨rfl, rfl⟩
    · exact .inr ⟨(hfresh w (List.mem_of_getElem? hw)).symm, w, hw, rfl⟩
    · exact .inl ⟨rfl, rfl⟩

theorem names_define (h : t.Ok (name :: pending)) {v : Value F} (hname : v.name = name) :
    ((t.values ++ [v]).map (·.name) ++ pending).Nodup := by
  have hnames := h.names
  simpa [hname] using hnames

/-- A value that no node computes. -/
theorem define (h : t.Ok (name :: pending)) {v : Value F} (hname : v.name = name) (hv : ValueOk v)
    (hstorage : v.storage ≠ .arena) : (t.define v).Ok pending where
  values := by
    intro w hw
    rcases List.mem_append.mp hw with hw | hw
    · exact h.values w hw
    · rwa [List.mem_singleton.mp hw]
  names := h.names_define hname
  pending := fun other hother => h.pending other (List.mem_cons_of_mem _ hother)
  ids := h.ids_define hname
  nodes := h.nodes.mono fun _ _ hnode => hnode.append v
  produced := by
    intro id w hw harena
    rcases getElem?_concat_some hw with hw | ⟨rfl, rfl⟩
    · exact h.produced id w hw harena
    · exact absurd harena hstorage
  nodesDistinct := h.nodesDistinct

end Typing.Ok

section
variable {t t' : Typing F} {pending : List String}

theorem typeInputs_eq_ok {inputs : List Tensor} (ht : t.Ok (inputs.map (·.name) ++ pending))
    (h : typeInputs inputs t = .ok t') : t'.Ok pending ∧ t'.values.length = t.values.length + inputs.length ∧
      t'.nodes = t.nodes := by
  induction inputs generalizing t with
  | nil =>
    obtain rfl : t = t' := by simpa [typeInputs] using h
    exact ⟨ht, rfl, rfl⟩
  | cons input inputs ih =>
    simp only [typeInputs, Outcome.bind_eq_ok] at h
    obtain ⟨n, hn, h⟩ := h
    have hname := ht.pending input.name List.mem_cons_self
    have hv : ValueOk (⟨input.name, input.shape, .input, none⟩ : Value F) :=
      ⟨hname, ⟨n, hn⟩, fun _ => rfl, by simp⟩
    obtain ⟨hok, hlength, hnodes⟩ := ih (ht.define rfl hv (by simp)) h
    exact ⟨hok, by rw [hlength]; simp [Typing.define]; omega, hnodes⟩

theorem typeOwned_eq_ok {storage : Storage} {vs : List (Constant F)} (ht : t.Ok (vs.map (·.name) ++ pending))
    (hstorage : storage = .state ∨ storage = .constant) (h : typeOwned storage vs t = .ok t') :
    t'.Ok pending ∧ t'.values.length = t.values.length + vs.length ∧ t'.nodes = t.nodes := by
  induction vs generalizing t with
  | nil =>
    obtain rfl : t = t' := by simpa [typeOwned] using h
    exact ⟨ht, rfl, rfl⟩
  | cons v vs ih =>
    simp only [typeOwned, Outcome.bind_eq_ok] at h
    obtain ⟨n, hn, h⟩ := h
    split at h
    · simp [invalid] at h
    · rename_i hdata
      push Not at hdata
      obtain ⟨rfl, hfinite⟩ := hdata
      have hname := ht.pending v.name List.mem_cons_self
      have hv : ValueOk (⟨v.name, v.shape, storage, some v.data⟩ : Value F) :=
        ⟨hname, ⟨_, hn⟩, by rcases hstorage with rfl | rfl <;> simp,
          fun _ => ⟨v.data, rfl, hn, by simpa using hfinite⟩⟩
      have hunplaced : storage ≠ .arena := by rcases hstorage with rfl | rfl <;> simp
      obtain ⟨hok, hlength, hnodes⟩ := ih (ht.define rfl hv hunplaced) h
      exact ⟨hok, by rw [hlength]; simp [Typing.define]; omega, hnodes⟩

/-! ## Nodes -/

omit [Float32 F] in
theorem collect_shapes {values : List (Value F)} {inputs : List Nat} {shapes : List (List Nat)}
    (h : Outcome.collect (fun i => (Outcome.unwrap (values[i]?.map (·.shape)) : Result (List Nat))) inputs = .ok shapes) :
    inputs.map (shapeAt values) = shapes.map some := by
  have hall := Outcome.collect_eq_ok.mp h
  clear h
  induction hall with
  | nil => rfl
  | cons hhead _ ih =>
    rw [Outcome.unwrap_eq_ok] at hhead
    simp only [List.map_cons, ih, shapeAt, hhead]

theorem typeNode_eq_ok {node : LogicalNode} (ht : t.Ok (node.name :: pending)) (h : typeNode node t = .ok t') :
    t'.Ok pending ∧ t'.values.length = t.values.length + 1 ∧ t'.nodes.length = t.nodes.length + 1 := by
  simp only [typeNode, Outcome.bind_eq_ok] at h
  obtain ⟨inputs, hinputs, shapes, hshapes, dims, hdims, n, hn, h⟩ := h
  obtain rfl := Outcome.ok.inj h
  have hname := ht.pending node.name List.mem_cons_self
  have hoperands := collect_shapes hshapes
  -- the output is a new value, so it is no operand and no earlier output
  have hbound : ∀ node' ∈ t.nodes, node'.output < t.values.length := by
    intro node' hnode'
    obtain ⟨before, after, hsplit⟩ := List.append_of_mem hnode'
    obtain ⟨out, -, hout, -⟩ := (ht.nodes before node' after hsplit).computes.output
    exact (List.getElem?_eq_some_iff.mp hout).1
  let v : Value F := ⟨node.name, dims, .arena, none⟩
  let last : TypedNode := ⟨node.name, node.op, inputs, t.values.length⟩
  refine ⟨⟨?_, ?_, ?_, ?_, ?_, ?_, ?_⟩, by simp [Typing.define], by simp [Typing.define]⟩
  · intro w hw
    rcases List.mem_append.mp hw with hw | hw
    · exact ht.values w hw
    · rw [List.mem_singleton.mp hw]
      exact ⟨hname, ⟨n, hn⟩, fun _ => rfl, by simp⟩
  · exact ht.names_define rfl
  · exact fun other hother => ht.pending other (List.mem_cons_of_mem _ hother)
  · exact ht.ids_define rfl
  · refine Trace.Preceded.concat (ht.nodes.mono fun _ _ hnode => hnode.append v) ?_
    have hout : (t.values ++ [v])[t.values.length]? = some v := by simp
    refine ⟨⟨v, shapes, hout, rfl, ?_, hdims⟩, fun w hw => ?_, fun id hid w hw harena => ?_⟩
    · refine map_shapeAt_congr hoperands fun id u hu => ?_
      have hsame : shapeAt (t.values ++ [v]) id = some u.shape := by
        rw [shapeAt, getElem?_append_some hu [v], Option.map_some]
      exact hsame
    · obtain rfl := Option.some.inj (hout.symm.trans hw)
      rfl
    · obtain ⟨u, hu⟩ := exists_shape_iff.mp ⟨shapes, hoperands⟩ id hid
      obtain rfl := Option.some.inj ((getElem?_append_some hu [v]).symm.trans hw)
      exact ht.produced id u hu harena
  · intro id w hw harena
    rcases getElem?_concat_some hw with hw | ⟨rfl, -⟩
    · obtain ⟨producer, hproducer, houtput⟩ := ht.produced id w hw harena
      exact ⟨producer, List.mem_append_left _ hproducer, houtput⟩
    · exact ⟨last, List.mem_append_right _ List.mem_cons_self, rfl⟩
  · have hnodes : (t.nodes.map (·.output) ++ [t.values.length]).Nodup := by
      refine List.nodup_append'.mpr ⟨ht.nodesDistinct, List.nodup_singleton _, ?_⟩
      intro id hid hlast
      obtain ⟨node', hnode', rfl⟩ := List.mem_map.mp hid
      have := hbound node' hnode'
      simp only [List.mem_singleton] at hlast
      omega
    simpa [Typing.define] using hnodes

theorem Typing.Ok.perm (h : t.Ok pending) {pending' : List String} (hperm : pending.Perm pending') : t.Ok pending' where
  values := h.values
  names := (hperm.append_left _).nodup_iff.mp h.names
  pending := fun name hname => h.pending name (hperm.mem_iff.mpr hname)
  ids := h.ids
  nodes := h.nodes
  produced := h.produced
  nodesDistinct := h.nodesDistinct

theorem schedule_eq_ok {n : Nat} {nodes : List LogicalNode} (ht : t.Ok (nodes.map (·.name))) (hn : nodes.length = n)
    (h : schedule n nodes t = .ok t') :
    t'.Ok [] ∧ t'.values.length = t.values.length + n ∧ t'.nodes.length = t.nodes.length + n := by
  induction n generalizing nodes t with
  | zero =>
    obtain rfl : t = t' := by simpa [schedule] using h
    obtain rfl := List.length_eq_zero_iff.mp hn
    exact ⟨ht, rfl, rfl⟩
  | succ n ih =>
    simp only [schedule] at h
    split at h
    · simp [invalid] at h
    · rename_i node hfind
      simp only [Outcome.bind_eq_ok] at h
      obtain ⟨u, hu, h⟩ := h
      have hmem := List.mem_of_find?_eq_some hfind
      obtain ⟨found, before, after, -, hname, hsplit, herase⟩ :=
        List.exists_of_eraseP (p := fun other : LogicalNode => decide (other.name = node.name)) hmem (by simp)
      have hfound : found.name = node.name := by simpa using hname
      have hperm : (nodes.map (·.name)).Perm (node.name ::
          (nodes.eraseP fun other => other.name = node.name).map (·.name)) := by
        rw [herase, hsplit]
        simp [hfound, List.perm_middle]
      obtain ⟨hok, hvalues, hnodes⟩ := typeNode_eq_ok (ht.perm hperm) hu
      have hlength : (nodes.eraseP fun other => other.name = node.name).length = n := by
        have := hperm.length_eq
        simp only [List.length_map, List.length_cons] at this
        omega
      obtain ⟨hdone, hvalues', hnodes'⟩ := ih hok hlength h
      exact ⟨hdone, by omega, by omega⟩

/-! ## The whole graph -/

theorem typeValues_eq_ok {graph : LogicalGraph F} (hnames : checkNames [] (LogicalGraph.names graph) = .ok ())
    (h : typeValues graph = .ok t) : t.Ok [] ∧
      t.values.length = graph.inputs.length + graph.constants.length + graph.states.length + graph.nodes.length ∧
      t.nodes.length = graph.nodes.length := by
  simp only [typeValues, Outcome.bind_eq_ok] at h
  obtain ⟨t₁, h₁, t₂, h₂, t₃, h₃, -, -, h⟩ := h
  obtain ⟨hnodup, hok⟩ := checkNames_eq_ok hnames
  have hnew : (Typing.new : Typing F).Ok (LogicalGraph.names graph) := .new hnodup fun name hname => (hok name hname).1
  simp only [LogicalGraph.names, List.append_assoc] at hnew
  obtain ⟨ht₁, hl₁, hn₁⟩ := typeInputs_eq_ok hnew h₁
  obtain ⟨ht₂, hl₂, hn₂⟩ := typeOwned_eq_ok ht₁ (.inr rfl) h₂
  obtain ⟨ht₃, hl₃, hn₃⟩ := typeOwned_eq_ok ht₂ (.inl rfl) h₃
  have hperm : (graph.nodes.map (·.name)).Perm ((byName graph.nodes).map (·.name)) :=
    ((List.perm_insertionSort _ graph.nodes).map _).symm
  have hlength : (byName graph.nodes).length = graph.nodes.length := List.length_insertionSort _ _
  obtain ⟨hdone, hvalues, hnodes⟩ := schedule_eq_ok (ht₃.perm hperm) hlength h
  refine ⟨hdone, ?_, ?_⟩
  · rw [hvalues, hl₃, hl₂, hl₁]
    simp [Typing.new]
  · rw [hnodes, hn₃, hn₂, hn₁]
    simp [Typing.new]

theorem resolve_eq_ok (ht : t.Ok []) {name : String} {id : Nat} (h : t.resolve name = .ok id) :
    ∃ v, t.values[id]? = some v ∧ v.name = name := by
  rw [Typing.resolve, Outcome.okOr_eq_ok] at h
  exact (ht.ids name id).mp h

omit [Float32 F] in
theorem typeUpdates_eq_ok {rest : List (String × String)} {updates updates' : ExtTreeMap Nat Nat}
    (hupdates : ∀ target source : Nat, updates[target]? = some source → UpdateOk t.values target source)
    (h : typeUpdates t rest updates = .ok updates') :
    ∀ target source : Nat, updates'[target]? = some source → UpdateOk t.values target source := by
  induction rest generalizing updates with
  | nil =>
    obtain rfl : updates = updates' := by simpa [typeUpdates] using h
    exact hupdates
  | cons update rest ih =>
    simp only [typeUpdates, Outcome.bind_eq_ok, Outcome.unwrap_eq_ok] at h
    obtain ⟨target, -, source, -, old, hold, new, hnew, h⟩ := h
    split at h
    · simp [invalid] at h
    · rename_i hcheck
      push Not at hcheck
      refine ih (fun target' source' hget => ?_) h
      rcases ExtTreeMap.getElem?_insert_eq_some.mp hget with ⟨rfl, rfl⟩ | ⟨-, hget⟩
      · exact ⟨old, new, hold, hnew, hcheck.1, hcheck.2⟩
      · exact hupdates target' source' hget

omit [Float32 F] in
theorem storageBytes_eq_ok {values : List (Value F)} {total bytes : Nat} (h : storageBytes values total = .ok bytes) :
    bytes = total + (values.map bytesOf).sum := by
  induction values generalizing total with
  | nil => simpa [storageBytes, eq_comm] using h
  | cons v values ih =>
    simp only [storageBytes, Outcome.bind_eq_ok, Outcome.okOr_eq_ok, checkedAdd_eq_some] at h
    obtain ⟨n, hn, total', ⟨-, rfl⟩, h⟩ := h
    rw [ih h, List.map_cons, List.sum_cons, bytesOf, hn, Nat.add_assoc]

end

theorem wellTyped_of_typed {graph : LogicalGraph F} {g : TypedGraph F} (h : typed graph = .ok g) : WellTyped g := by
  simp only [typed, Outcome.bind_eq_ok] at h
  obtain ⟨⟨⟩, hlimits, ⟨⟩, hnames, t, ht, outputs, houtputs, h⟩ := h
  obtain ⟨hok, hvalues, hnodes⟩ := typeValues_eq_ok hnames ht
  simp only [checkLimits] at hlimits
  split at hlimits
  · simp [invalid] at hlimits
  · rename_i hfirst
    split at hlimits
    · simp [invalid] at hlimits
    · rename_i hsecond
      push Not at hfirst
      split at h
      · simp [invalid] at h
      · rename_i hdistinct
        simp only [Outcome.bind_eq_ok] at h
        obtain ⟨updates, hupdates, bytes, hbytes, h⟩ := h
        split at h
        · simp [invalid] at h
        · rename_i hmax
          obtain rfl := Outcome.ok.inj h
          have hall := Outcome.collect_eq_ok.mp houtputs
          have hupdated := typeUpdates_eq_ok (by simp) hupdates
          have htotal := storageBytes_eq_ok hbytes
          have hsum : (t.values.map bytesOf).sum ≤ maxBytes := by omega
          have hcount : t.values.length ≤ maxNodes * 4 := by omega
          have hnodeCount : t.nodes.length ≤ maxNodes := by omega
          have hresults : ∀ id ∈ outputs ++ updates.toList.map Prod.snd, ∃ v, t.values[id]? = some v := by
            intro id hid
            rcases List.mem_append.mp hid with hid | hid
            · obtain ⟨name, -, hresolve⟩ := mem_of_forall₂ hall hid
              obtain ⟨v, hv, -⟩ := resolve_eq_ok hok hresolve
              exact ⟨v, hv⟩
            · obtain ⟨⟨target, source⟩, hmem, rfl⟩ := List.mem_map.mp hid
              obtain ⟨-, new, -, hnew, -⟩ := hupdated target source (ExtTreeMap.mem_toList_iff_getElem?_eq_some.mp hmem)
              exact ⟨new, hnew⟩
          have hsome : outputs ≠ [] := by
            rintro rfl
            exact hfirst.2.2 (List.forall₂_nil_right_iff.mp hall)
          exact ⟨⟨hok.values, by simpa using hok.names, hsum, hcount, hnodeCount,
            ⟨hok.nodes, hok.nodesDistinct, fun id _ => hok.produced id⟩, hsome, not_not.mp hdistinct, hresults, hupdated⟩,
            hok.produced⟩

end Inferfabric.Plan.Planner
