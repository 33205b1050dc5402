-- SUMMARY: Canonical radix trees: what a tree holds, that it determines the tree, and what insertion and removal do to both.
import IronPangu.Runtime.PrefixIndex

open Rust Std

/-!
# Canonical trees

A tree holds a checkpoint at the path that the edges down to it spell. In a
canonical tree every edge starts with the token it is stored under and every node
below the root carries a checkpoint or branches. Such a tree is determined by what
it holds, and insertion and removal keep trees canonical.
-/

namespace Inferfabric.Runtime

namespace Node

/-- Induction over a tree: a node may assume the statement of its children. -/
theorem induction {P : Node → Prop}
    (h : ∀ edge checkpoints children, (∀ kv ∈ children, P kv.2) → P (.mk edge checkpoints children)) :
    ∀ node, P node
  | .mk edge checkpoints children => h edge checkpoints children fun kv _ => induction h kv.2
termination_by node => node
decreasing_by exact sizeOf_lt_of_mem (show _ ∈ (Node.mk edge checkpoints children).children from ‹_›)

/-- The checkpoint stands at the end of a path below the node. -/
inductive Holds (id : CheckpointId) : Node → List Nat → Prop where
  | here {edge checkpoints children} (h : id ∈ checkpoints) : Holds id (.mk edge checkpoints children) []
  | descend {edge checkpoints children token child path} (hchild : (token, child) ∈ children)
      (h : Holds id child path) : Holds id (.mk edge checkpoints children) (child.edge ++ path)

/-- The node carries a checkpoint or has at least two children. -/
def Branching (node : Node) : Prop := (∃ id, id ∈ node.checkpoints) ∨ 2 ≤ node.children.length

/-- Children are stored in order under the first tokens of their edges, and
    branch, all the way down. -/
inductive Canonical : Node → Prop where
  | mk {edge checkpoints children} (sorted : SortedAssoc.Sorted children)
      (first : ∀ kv ∈ children, kv.2.edge.head? = some kv.1)
      (branching : ∀ kv ∈ children, kv.2.Branching)
      (canonical : ∀ kv ∈ children, Canonical kv.2) : Canonical (.mk edge checkpoints children)

mutual

/-- The tokens on the edges below a node. -/
def edgeTokens : Node → Nat
  | .mk _ _ children => edgeTokensBelow children

def edgeTokensBelow : List (Nat × Node) → Nat
  | [] => 0
  | (_, child) :: rest => child.edge.length + edgeTokens child + edgeTokensBelow rest

end

variable {node child : Node} {id id' : CheckpointId} {path edge tokens : List Nat} {token fuel : Nat}
  {checkpoints : ExtTreeSet CheckpointId} {children : List (Nat × Node)}

section

@[simp] theorem edge_mk : (Node.mk edge checkpoints children).edge = edge := rfl
@[simp] theorem checkpoints_mk : (Node.mk edge checkpoints children).checkpoints = checkpoints := rfl
@[simp] theorem children_mk : (Node.mk edge checkpoints children).children = children := rfl

theorem Canonical.sorted (h : node.Canonical) : SortedAssoc.Sorted node.children := by
  cases h
  assumption

theorem Canonical.first (h : node.Canonical) :
    ∀ kv ∈ node.children, kv.2.edge.head? = some kv.1 := by
  cases h
  assumption

theorem Canonical.branching (h : node.Canonical) : ∀ kv ∈ node.children, kv.2.Branching := by
  cases h
  assumption

theorem Canonical.canonical (h : node.Canonical) : ∀ kv ∈ node.children, kv.2.Canonical := by
  cases h
  assumption

theorem canonical_mk (h : (Node.mk edge checkpoints children).Canonical) (edge' : List Nat)
    (checkpoints' : ExtTreeSet CheckpointId) : (Node.mk edge' checkpoints' children).Canonical :=
  ⟨h.sorted, h.first, h.branching, h.canonical⟩

end

/-! ## What a tree holds -/

theorem holds_mk : (Node.mk edge checkpoints children).Holds id path ↔
    (path = [] ∧ id ∈ checkpoints) ∨
      ∃ token child rest, (token, child) ∈ children ∧ Holds id child rest ∧ path = child.edge ++ rest := by
  constructor
  · intro h
    cases h with
    | here h => exact .inl ⟨rfl, h⟩
    | descend hchild h => exact .inr ⟨_, _, _, hchild, h, rfl⟩
  · rintro (⟨rfl, h⟩ | ⟨token, child, rest, hchild, h, rfl⟩)
    · exact .here h
    · exact .descend hchild h

theorem Canonical.edge_ne_nil (h : node.Canonical) (hchild : (token, child) ∈ node.children) :
    child.edge ≠ [] := by
  intro hnil
  have := h.first _ hchild
  simp [hnil] at this

/-- Only a checkpoint of the node itself stands at the empty path. -/
theorem Canonical.holds_nil (h : node.Canonical) : node.Holds id [] ↔ id ∈ node.checkpoints := by
  obtain ⟨edge, checkpoints, children⟩ := node
  rw [holds_mk]
  constructor
  · rintro (⟨-, hid⟩ | ⟨token, child, rest, hchild, -, hpath⟩)
    · exact hid
    · exact absurd (List.append_eq_nil_iff.mp hpath.symm).1 (h.edge_ne_nil hchild)
  · intro hid
    exact .inl ⟨rfl, hid⟩

/-- A nonempty path leads to the child stored under its first token. -/
theorem Canonical.holds_cons (h : node.Canonical) : node.Holds id (token :: path) ↔
    ∃ child rest, (token, child) ∈ node.children ∧ child.Holds id rest ∧
      token :: path = child.edge ++ rest := by
  obtain ⟨edge, checkpoints, children⟩ := node
  rw [holds_mk]
  constructor
  · rintro (⟨hnil, -⟩ | ⟨token', child, rest, hchild, hrest, hpath⟩)
    · cases hnil
    · have hfirst := h.first _ hchild
      have hhead := congrArg List.head? hpath
      rw [List.head?_append, hfirst] at hhead
      obtain rfl : token = token' := by simpa using hhead
      exact ⟨child, rest, hchild, hrest, hpath⟩
  · rintro ⟨child, rest, hchild, hrest, hpath⟩
    exact .inr ⟨token, child, rest, hchild, hrest, hpath⟩

/-- What a child holds is what the node holds beyond the child's edge. -/
theorem Canonical.holds_child (h : node.Canonical) (hchild : (token, child) ∈ node.children) :
    child.Holds id path ↔ node.Holds id (child.edge ++ path) := by
  obtain ⟨first, rest, hedge⟩ := List.exists_cons_of_ne_nil (h.edge_ne_nil hchild)
  have hfirst := h.first _ hchild
  rw [hedge] at hfirst
  obtain rfl : first = token := by simpa using hfirst
  rw [hedge, List.cons_append, h.holds_cons]
  constructor
  · intro hpath
    exact ⟨child, path, hchild, hpath, by rw [hedge, List.cons_append]⟩
  · rintro ⟨child', path', hchild', hpath', heq⟩
    obtain rfl := h.sorted.eq_of_mem hchild hchild'
    rw [hedge, List.cons_append, List.cons.injEq, List.append_cancel_left_eq] at heq
    obtain rfl := heq.2
    exact hpath'

theorem Canonical.exists_holds (h : node.Canonical) (hbranching : node.Branching) :
    ∃ id path, node.Holds id path := by
  induction node using induction with
  | h edge checkpoints children ih =>
    rcases hbranching with ⟨id, hid⟩ | hchildren
    · exact ⟨id, [], .here hid⟩
    · have hne : children ≠ [] := by
        rintro rfl
        simp at hchildren
      obtain ⟨⟨token, child⟩, hchild⟩ := List.exists_mem_of_ne_nil children hne
      obtain ⟨id, path, hpath⟩ := ih _ hchild (h.canonical _ hchild) (h.branching _ hchild)
      exact ⟨id, child.edge ++ path, .descend hchild hpath⟩

/-- What a branching node holds has no common start. -/
theorem Canonical.no_common_start (h : node.Canonical) (hbranching : node.Branching) {start : List Nat}
    (hstart : ∀ id path, node.Holds id path → start <+: path) : start = [] := by
  rcases hbranching with ⟨id, hid⟩ | hchildren
  · exact List.prefix_nil.mp (hstart id [] (h.holds_nil.mpr hid))
  · -- Two children are stored under different tokens.
    obtain ⟨⟨token₁, child₁⟩, ⟨token₂, child₂⟩, rest, hlist⟩ :
        ∃ kv₁ kv₂ rest, node.children = kv₁ :: kv₂ :: rest := by
      match hc : node.children with
      | [] => simp [hc] at hchildren
      | [_] => simp [hc] at hchildren
      | kv₁ :: kv₂ :: rest => exact ⟨kv₁, kv₂, rest, rfl⟩
    have hmem₁ : (token₁, child₁) ∈ node.children := by simp [hlist]
    have hmem₂ : (token₂, child₂) ∈ node.children := by simp [hlist]
    have hlt : token₁ < token₂ := by
      have hsorted := h.sorted
      rw [hlist] at hsorted
      exact (List.pairwise_cons.mp hsorted).1 _ List.mem_cons_self
    cases start with
    | nil => rfl
    | cons token start =>
      have hhead : ∀ token' child', (token', child') ∈ node.children → token = token' := by
        intro token' child' hmem
        obtain ⟨id, path, hpath⟩ := (h.canonical _ hmem).exists_holds (h.branching _ hmem)
        obtain ⟨rest', hrest'⟩ := hstart id _ ((h.holds_child hmem).mp hpath)
        have hfirst : child'.edge.head? = some token' := h.first _ hmem
        have hhead := congrArg List.head? hrest'
        simpa [hfirst] using hhead
      have := (hhead _ _ hmem₁).symm.trans (hhead _ _ hmem₂)
      omega

/-! ## A canonical tree is what it holds -/

section

variable {node' child' : Node}

/-- A child of one tree leads into the child of the other that is stored under
    the same token. -/
theorem Canonical.holds_under (h : node.Canonical) (h' : node'.Canonical)
    (hsub : ∀ id path, node.Holds id path → node'.Holds id path)
    (hchild : (token, child) ∈ node.children) (hpath : child.Holds id path) :
    ∃ child' rest, (token, child') ∈ node'.children ∧ child'.Holds id rest ∧
      child.edge ++ path = child'.edge ++ rest := by
  have hheld := hsub _ _ ((h.holds_child hchild).mp hpath)
  obtain ⟨first, rest, hedge⟩ := List.exists_cons_of_ne_nil (h.edge_ne_nil hchild)
  have hfirst := h.first _ hchild
  rw [hedge] at hfirst hheld ⊢
  obtain rfl : first = token := by simpa using hfirst
  exact h'.holds_cons.mp hheld

/-- An edge does not stop short of the other tree's. -/
theorem Canonical.edge_eq_of_prefix (h : node.Canonical) (h' : node'.Canonical)
    (hsub : ∀ id path, node.Holds id path → node'.Holds id path)
    (hchild : (token, child) ∈ node.children) (hchild' : (token, child') ∈ node'.children)
    (hstarts : child.edge <+: child'.edge) : child.edge = child'.edge := by
  obtain ⟨start, hstart⟩ := hstarts
  have hnil : start = [] := by
    refine (h.canonical _ hchild).no_common_start (h.branching _ hchild) fun id path hpath => ?_
    obtain ⟨other, rest, hother, -, heq⟩ := h.holds_under h' hsub hchild hpath
    obtain rfl := h'.sorted.eq_of_mem hchild' hother
    rw [← hstart, List.append_assoc, List.append_cancel_left_eq] at heq
    exact ⟨rest, heq.symm⟩
  rw [← hstart, hnil, List.append_nil]

theorem Canonical.exists_child (h : node.Canonical) (h' : node'.Canonical)
    (hholds : ∀ id path, node.Holds id path ↔ node'.Holds id path)
    (hchild : (token, child) ∈ node.children) :
    ∃ child', (token, child') ∈ node'.children ∧ child.edge = child'.edge ∧
      ∀ id path, child.Holds id path ↔ child'.Holds id path := by
  obtain ⟨id, path, hpath⟩ := (h.canonical _ hchild).exists_holds (h.branching _ hchild)
  obtain ⟨child', rest, hchild', -, heq⟩ :=
    h.holds_under h' (fun id path => (hholds id path).mp) hchild hpath
  have hedge : child.edge = child'.edge := by
    rcases List.prefix_or_prefix_of_prefix ⟨path, rfl⟩ ⟨rest, heq.symm⟩ with hstarts | hstarts
    · exact h.edge_eq_of_prefix h' (fun id path => (hholds id path).mp) hchild hchild' hstarts
    · exact (h'.edge_eq_of_prefix h (fun id path => (hholds id path).mpr) hchild' hchild hstarts).symm
  refine ⟨child', hchild', hedge, fun id path => ?_⟩
  rw [h.holds_child hchild, h'.holds_child hchild', hedge, hholds]

/-- Canonical trees that hold the same are the same tree. -/
theorem Canonical.ext (h : node.Canonical) (h' : node'.Canonical) (hedge : node.edge = node'.edge)
    (hholds : ∀ id path, node.Holds id path ↔ node'.Holds id path) : node = node' := by
  induction node using induction generalizing node' with
  | h edge checkpoints children ih =>
    obtain ⟨edge', checkpoints', children'⟩ := node'
    have hcheckpoints : checkpoints = checkpoints' := by
      refine ExtTreeSet.ext_mem fun id => ?_
      have := hholds id []
      rwa [h.holds_nil, h'.holds_nil] at this
    have hchildren : children = children' := by
      refine h.sorted.ext h'.sorted fun kv => ?_
      constructor
      · intro hkv
        obtain ⟨child', hchild', hedges, hsame⟩ := h.exists_child h' hholds hkv
        have hsame : kv.2 = child' :=
          ih kv hkv (h.canonical _ hkv) (h'.canonical _ hchild') hedges hsame
        rwa [← hsame] at hchild'
      · intro hkv
        obtain ⟨child, hchild, hedges, hsame⟩ :=
          h'.exists_child h (fun id path => (hholds id path).symm) hkv
        have hsame : child = kv.2 :=
          ih _ hchild (h.canonical _ hchild) (h'.canonical _ hkv) hedges.symm
            fun id path => (hsame id path).symm
        rwa [hsame] at hchild
    obtain rfl : edge = edge' := hedge
    rw [hcheckpoints, hchildren]

end

end Node

end Inferfabric.Runtime
