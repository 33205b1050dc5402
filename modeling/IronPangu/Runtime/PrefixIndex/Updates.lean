-- SUMMARY: Insertion into and removal from canonical trees: what the tree holds afterwards, that it stays canonical, and how much its edges grow.
import IronPangu.Runtime.PrefixIndex.Radix

open Rust Std

namespace Inferfabric.Runtime

namespace Node

variable {node child : Node} {id id' : CheckpointId} {path edge tokens : List Nat} {token fuel : Nat}
  {checkpoints : ExtTreeSet CheckpointId} {children : List (Nat × Node)}

/-- What a child contributes: the paths that start with its edge. -/
def Under (id : CheckpointId) (child : Node) (path : List Nat) : Prop :=
  ∃ rest, child.Holds id rest ∧ path = child.edge ++ rest

theorem holds_iff_under : (Node.mk edge checkpoints children).Holds id path ↔
    (path = [] ∧ id ∈ checkpoints) ∨ ∃ kv ∈ children, Under id kv.2 path := by
  rw [holds_mk]
  refine or_congr_right ⟨?_, ?_⟩
  · rintro ⟨token, child, rest, hchild, hrest, hpath⟩
    exact ⟨(token, child), hchild, rest, hrest, hpath⟩
  · rintro ⟨⟨token, child⟩, hchild, rest, hrest, hpath⟩
    exact ⟨token, child, rest, hchild, hrest, hpath⟩

/-- What a node holds does not depend on its own edge. -/
theorem holds_edge (edge' : List Nat) : (Node.mk edge checkpoints children).Holds id path ↔
    (Node.mk edge' checkpoints children).Holds id path := by
  rw [holds_mk, holds_mk]

/-- A canonical node branches exactly when it holds something and what it holds
    has no common start. -/
theorem Canonical.branching_iff (h : node.Canonical) :
    node.Branching ↔ (∃ id path, node.Holds id path) ∧
      ∀ start : List Nat, (∀ id path, node.Holds id path → start <+: path) → start = [] := by
  constructor
  · intro hbranching
    exact ⟨h.exists_holds hbranching, fun start => h.no_common_start hbranching⟩
  · rintro ⟨⟨id, path, hpath⟩, hstart⟩
    obtain ⟨edge, checkpoints, children⟩ := node
    cases path with
    | nil => exact .inl ⟨id, h.holds_nil.mp hpath⟩
    | cons token path =>
      -- Were there one child and no checkpoint, its token would be a common start.
      by_contra hlinear
      simp only [Branching, not_or, not_exists, Nat.not_le] at hlinear
      obtain ⟨hempty, hfew⟩ := hlinear
      obtain ⟨child, rest, hchild, -, -⟩ := h.holds_cons.mp hpath
      have honly : ∀ kv ∈ children, kv = (token, child) := by
        intro kv hkv
        simp only [children_mk] at hchild hfew
        obtain ⟨kv', rfl⟩ := List.length_eq_one_iff.mp
          (Nat.le_antisymm (Nat.le_of_lt_succ hfew) (List.length_pos_of_mem hkv))
        rw [List.mem_singleton] at hkv hchild
        exact hkv.trans hchild.symm
      have hcommon := hstart [token] fun id' path' hpath' => by
        cases path' with
        | nil => exact absurd (h.holds_nil.mp hpath') (hempty id')
        | cons token' path' =>
          obtain ⟨child', -, hchild', -, -⟩ := h.holds_cons.mp hpath'
          obtain ⟨rfl, -⟩ := Prod.mk.inj (honly _ hchild')
          exact List.cons_prefix_cons.mpr ⟨rfl, List.nil_prefix⟩
      cases hcommon

theorem edgeTokens_mk : (Node.mk edge checkpoints children).edgeTokens =
    (children.map fun kv => kv.2.edge.length + kv.2.edgeTokens).sum := by
  rw [edgeTokens]
  induction children with
  | nil => rfl
  | cons kv rest ih => rw [edgeTokensBelow, ih, List.map_cons, List.sum_cons]

/-! ## Splitting an edge -/

theorem split_whole : split edge.length (.mk edge checkpoints children) = .mk edge checkpoints children := by
  rw [split, List.drop_length]

theorem split_at (pre rest : List Nat) (first : Nat) :
    split pre.length (.mk (pre ++ first :: rest) checkpoints children) =
      .mk pre ∅ [(first, .mk (first :: rest) checkpoints children)] := by
  rw [split, List.drop_left, List.take_left]

/-- The node at which an edge was cut after its first tokens `pre`. -/
structure Split (child : Node) (pre suffix : List Nat) (upper : Node) : Prop where
  edge : upper.edge = pre
  canonical : upper.Canonical
  holds : ∀ id path, upper.Holds id path ↔ ∃ rest, child.Holds id rest ∧ path = suffix ++ rest
  edgeTokens : upper.edge.length + upper.edgeTokens = child.edge.length + child.edgeTokens

theorem split_spec (h : child.Canonical) (hbranching : child.Branching) {pre suffix : List Nat}
    (hedge : child.edge = pre ++ suffix) : Split child pre suffix (child.split pre.length) := by
  obtain ⟨edge, checkpoints, children⟩ := child
  obtain rfl : edge = pre ++ suffix := hedge
  cases suffix with
  | nil =>
    rw [List.append_nil, split_whole]
    exact {
      edge := rfl
      canonical := canonical_mk h _ _
      holds := by
        intro id path
        simp [holds_mk]
      edgeTokens := rfl }
  | cons first rest =>
    rw [split_at]
    have hlower : (Node.mk (first :: rest) checkpoints children).Canonical := canonical_mk h _ _
    exact {
      edge := rfl
      canonical := ⟨List.pairwise_singleton _ _, by simp, by simpa [Branching] using hbranching,
        by simpa using hlower⟩
      holds := by
        intro id path
        rw [holds_iff_under]
        simp only [ExtTreeSet.not_mem_empty, and_false, false_or, List.mem_singleton, exists_eq_left,
          Under, edge_mk]
        exact exists_congr fun rest' => and_congr_left' (holds_edge _)
      edgeTokens := by
        simp [edgeTokens_mk]
        omega }

/-! ## Insertion -/

theorem insert_nil : insert fuel (.mk edge checkpoints children) [] id =
    .mk edge (checkpoints.insert id) children := by
  cases fuel <;> rfl

theorem insert_leaf (h : SortedAssoc.find token children = none) :
    insert (fuel + 1) (.mk edge checkpoints children) (token :: tokens) id =
      .mk edge checkpoints
        (SortedAssoc.insert token (.mk (token :: tokens) (ExtTreeSet.ofList [id]) []) children) := by
  rw [insert, h]

theorem insert_descend (h : SortedAssoc.find token children = some child) {pre rest : List Nat}
    (hpre : pre.length = Scan.common child.edge (token :: tokens)) (hrest : token :: tokens = pre ++ rest) :
    insert (fuel + 1) (.mk edge checkpoints children) (token :: tokens) id =
      .mk edge checkpoints
        (SortedAssoc.insert token (insert fuel (child.split pre.length) rest id) children) := by
  simp only [insert, h]
  rw [← hpre, hrest, List.drop_left]

/-- What insertion makes of a canonical node. -/
structure Inserted (id : CheckpointId) (tokens : List Nat) (node node' : Node) : Prop where
  edge : node'.edge = node.edge
  canonical : node'.Canonical
  holds : ∀ id' path, node'.Holds id' path ↔ node.Holds id' path ∨ id' = id ∧ path = tokens
  edgeTokens : node'.edgeTokens ≤ node.edgeTokens + tokens.length

theorem inserted_here (h : (Node.mk edge checkpoints children).Canonical) :
    Inserted id [] (.mk edge checkpoints children) (.mk edge (checkpoints.insert id) children) where
  edge := rfl
  canonical := canonical_mk h _ _
  holds := by
    intro id' path
    rw [holds_mk, holds_mk, ExtTreeSet.mem_insert_iff]
    constructor
    · rintro (⟨rfl, rfl | hid⟩ | hbelow)
      · exact .inr ⟨rfl, rfl⟩
      · exact .inl (.inl ⟨rfl, hid⟩)
      · exact .inl (.inr hbelow)
    · rintro ((⟨rfl, hid⟩ | hbelow) | ⟨rfl, rfl⟩)
      · exact .inl ⟨rfl, .inr hid⟩
      · exact .inr hbelow
      · exact .inl ⟨rfl, .inl rfl⟩
  edgeTokens := by simp [edgeTokens_mk]

/-- Replacing what is stored under the first token by what holds the new path as
    well. -/
theorem inserted_below {child' : Node} (h : (Node.mk edge checkpoints children).Canonical)
    (hfirst : child'.edge.head? = some token) (hcanonical : child'.Canonical)
    (hbranching : child'.Branching)
    (hunder : ∀ id' path, Under id' child' path ↔
      (∃ child, (token, child) ∈ children ∧ Under id' child path) ∨ id' = id ∧ path = token :: tokens)
    (hedges : child'.edge.length + child'.edgeTokens ≤
      ((SortedAssoc.find token children).map fun child => child.edge.length + child.edgeTokens).getD 0 +
        (token :: tokens).length) :
    Inserted id (token :: tokens) (.mk edge checkpoints children)
      (.mk edge checkpoints (SortedAssoc.insert token child' children)) where
  edge := rfl
  canonical := by
    have hall : ∀ P : Nat × Node → Prop, P (token, child') → (∀ kv ∈ children, P kv) →
        ∀ kv ∈ SortedAssoc.insert token child' children, P kv := by
      intro P hnew hold kv hkv
      rcases (SortedAssoc.Sorted.mem_insert h.sorted).mp hkv with rfl | ⟨-, hkv⟩
      · exact hnew
      · exact hold kv hkv
    exact ⟨SortedAssoc.Sorted.insert h.sorted _ _, hall _ hfirst h.first, hall _ hbranching h.branching,
      hall _ hcanonical h.canonical⟩
  holds := by
    intro id' path
    rw [holds_iff_under, holds_iff_under]
    constructor
    · rintro (hhere | ⟨kv, hkv, hpath⟩)
      · exact .inl (.inl hhere)
      · rcases (SortedAssoc.Sorted.mem_insert h.sorted).mp hkv with rfl | ⟨-, hkv⟩
        · rcases (hunder id' path).mp hpath with ⟨child, hchild, hold⟩ | hnew
          · exact .inl (.inr ⟨(token, child), hchild, hold⟩)
          · exact .inr hnew
        · exact .inl (.inr ⟨kv, hkv, hpath⟩)
    · rintro ((hhere | ⟨⟨token', child⟩, hkv, hpath⟩) | hnew)
      · exact .inl hhere
      · by_cases hkey : token' = token
        · subst hkey
          exact .inr ⟨(token', child'), (SortedAssoc.Sorted.mem_insert h.sorted).mpr (.inl rfl),
            (hunder id' path).mpr (.inl ⟨child, hkv, hpath⟩)⟩
        · exact .inr ⟨(token', child),
            (SortedAssoc.Sorted.mem_insert h.sorted).mpr (.inr ⟨hkey, hkv⟩), hpath⟩
      · exact .inr ⟨(token, child'), (SortedAssoc.Sorted.mem_insert h.sorted).mpr (.inl rfl),
          (hunder id' path).mpr (.inr hnew)⟩
  edgeTokens := by
    have hsum := SortedAssoc.Sorted.sum_insert (k := token) (v := child') h.sorted
      fun child => child.edge.length + child.edgeTokens
    rw [edgeTokens_mk, edgeTokens_mk]
    simp only [children_mk] at hsum
    omega

/-- A new leaf holds one checkpoint at the end of its edge. -/
theorem under_leaf :
    Under id' (.mk edge (ExtTreeSet.ofList [id]) []) path ↔ id' = id ∧ path = edge := by
  simp [Under, holds_mk, @eq_comm _ id]

/-- The two lists part at their common start, which is not empty when they start
    with the same token. -/
theorem exists_parting (tokens : List Nat) {edge : List Nat} (hfirst : edge.head? = some token) :
    ∃ pre suffix rest : List Nat, edge = pre ++ suffix ∧ token :: tokens = pre ++ rest ∧
      pre.length = Scan.common edge (token :: tokens) ∧ pre.head? = some token ∧
        ∀ a b, suffix.head? = some a → rest.head? = some b → a ≠ b := by
  obtain ⟨pre, suffix, rest, hedge, htokens, hlength, hpart⟩ :=
    Scan.common_split edge (token :: tokens)
  refine ⟨pre, suffix, rest, hedge, htokens, hlength, ?_, hpart⟩
  cases pre with
  | nil =>
    simp only [List.nil_append] at hedge htokens
    exact absurd rfl (hpart token token (hedge ▸ hfirst) (by rw [← htokens]; rfl))
  | cons first pre =>
    rw [hedge] at hfirst
    exact hfirst

/-- Where the old and the new tokens part, what is held has no common start. -/
theorem no_start_of_parting (h : child.Canonical) (hbranching : child.Branching)
    {suffix rest start : List Nat}
    (hpart : ∀ a b, suffix.head? = some a → rest.head? = some b → a ≠ b)
    (hold : ∀ id path, child.Holds id path → start <+: suffix ++ path) (hrest : start <+: rest) :
    start = [] := by
  cases suffix with
  | nil => exact h.no_common_start hbranching hold
  | cons first suffix =>
    cases start with
    | nil => rfl
    | cons token start =>
      obtain ⟨id, path, hpath⟩ := h.exists_holds hbranching
      obtain ⟨rfl, -⟩ := List.cons_prefix_cons.mp (hold id path hpath)
      obtain ⟨tail, rfl⟩ := hrest
      exact absurd rfl (hpart token token rfl rfl)

/-- Insertion with enough fuel adds the checkpoint at the end of its tokens and
    nothing else. -/
theorem inserted_insert (id : CheckpointId) (h : node.Canonical) (hfuel : tokens.length ≤ fuel) :
    Inserted id tokens node (insert fuel node tokens id) := by
  induction fuel generalizing node tokens with
  | zero =>
    obtain ⟨edge, checkpoints, children⟩ := node
    obtain rfl := List.eq_nil_of_length_eq_zero (Nat.le_zero.mp hfuel)
    rw [insert_nil]
    exact inserted_here h
  | succ fuel ih =>
    obtain ⟨edge, checkpoints, children⟩ := node
    cases tokens with
    | nil =>
      rw [insert_nil]
      exact inserted_here h
    | cons token tokens =>
      cases hfind : SortedAssoc.find token children with
      | none =>
        rw [insert_leaf hfind]
        refine inserted_below h rfl ⟨List.Pairwise.nil, by simp, by simp, by simp⟩
          (.inl ⟨id, ExtTreeSet.mem_ofList_iff.mpr (by simp)⟩) ?_ ?_
        · intro id' path
          rw [under_leaf, or_iff_right]
          rintro ⟨child, hchild, -⟩
          exact SortedAssoc.find_eq_none.mp hfind child hchild
        · simp [hfind, edgeTokens_mk]
      | some child =>
        have hchild := SortedAssoc.mem_of_find hfind
        obtain ⟨pre, suffix, rest, hedge, htokens, hlength, hhead, hpart⟩ :=
          exists_parting tokens (h.first _ hchild)
        rw [insert_descend hfind hlength htokens]
        have hsplit : Split child pre suffix (child.split pre.length) :=
          split_spec (h.canonical _ hchild) (h.branching _ hchild) hedge
        have hshorter : rest.length ≤ fuel := by
          have hpos : 0 < pre.length := List.length_pos_of_ne_nil (by rintro rfl; cases hhead)
          have hlen := congrArg List.length htokens
          simp only [List.length_cons, List.length_append] at hlen hfuel
          omega
        have hlower : Inserted id rest (child.split pre.length)
            (insert fuel (child.split pre.length) rest id) := ih hsplit.canonical hshorter
        have hedge' : (insert fuel (child.split pre.length) rest id).edge = pre :=
          hlower.edge.trans hsplit.edge
        have hholds : ∀ id' path, (insert fuel (child.split pre.length) rest id).Holds id' path ↔
            (∃ lower, child.Holds id' lower ∧ path = suffix ++ lower) ∨ id' = id ∧ path = rest :=
          fun id' path => by rw [hlower.holds, hsplit.holds]
        refine inserted_below h (hedge'.symm ▸ hhead) hlower.canonical ?_ ?_ ?_
        · rw [hlower.canonical.branching_iff]
          refine ⟨⟨id, rest, (hholds id rest).mpr (.inr ⟨rfl, rfl⟩)⟩, fun start hstart => ?_⟩
          have hrest : start <+: rest := hstart id rest ((hholds id rest).mpr (.inr ⟨rfl, rfl⟩))
          have hold : ∀ id' lower, child.Holds id' lower → start <+: suffix ++ lower :=
            fun id' lower hlower => hstart id' _ ((hholds id' _).mpr (.inl ⟨lower, hlower, rfl⟩))
          exact no_start_of_parting (h.canonical _ hchild) (h.branching _ hchild) hpart hold hrest
        · intro id' path
          rw [Under, hedge', htokens]
          constructor
          · rintro ⟨lower, hheld, rfl⟩
            rcases (hholds id' lower).mp hheld with ⟨lower', hlower', rfl⟩ | ⟨rfl, rfl⟩
            · exact .inl ⟨child, hchild, lower', hlower', by rw [hedge, List.append_assoc]⟩
            · exact .inr ⟨rfl, rfl⟩
          · rintro (⟨child', hchild', lower, hheld, rfl⟩ | ⟨rfl, rfl⟩)
            · obtain rfl := h.sorted.eq_of_mem hchild hchild'
              exact ⟨suffix ++ lower, (hholds id' _).mpr (.inl ⟨lower, hheld, rfl⟩),
                by rw [hedge, List.append_assoc]⟩
            · exact ⟨rest, (hholds id' _).mpr (.inr ⟨rfl, rfl⟩), rfl⟩
        · have hgrown := hlower.edgeTokens
          have hcut := hsplit.edgeTokens
          have hlen := congrArg List.length htokens
          rw [hsplit.edge] at hcut
          rw [hedge', hfind, Option.map_some, Option.getD_some]
          simp only [List.length_append] at hlen
          omega

/-! ## Removal -/

/-- What a child contributes is the same once it is merged with its only child. -/
theorem under_merge (h : node.Canonical) : Under id node.merge path ↔ Under id node path := by
  obtain ⟨edge, checkpoints, children⟩ := node
  rcases children with _ | ⟨⟨token, suffix⟩, _ | ⟨kv, rest⟩⟩
  · rfl
  · rw [merge]
    split
    · rename_i hempty
      obtain ⟨edge', checkpoints', children'⟩ := suffix
      simp only [Under, edge_mk, checkpoints_mk, children_mk]
      constructor
      · rintro ⟨lower, hlower, rfl⟩
        exact ⟨edge' ++ lower, .descend List.mem_cons_self ((holds_edge _).mp hlower),
          List.append_assoc _ _ _⟩
      · rintro ⟨path', hpath', rfl⟩
        rw [holds_iff_under] at hpath'
        rcases hpath' with ⟨-, hid⟩ | ⟨kv, hkv, lower, hlower, rfl⟩
        · exact absurd hid (ExtTreeSet.isEmpty_iff_forall.mp hempty id)
        · obtain rfl := List.mem_singleton.mp hkv
          exact ⟨lower, (holds_edge _).mp hlower, (List.append_assoc _ _ _).symm⟩
    · rfl
  · rfl

theorem canonical_merge (h : node.Canonical) : node.merge.Canonical := by
  obtain ⟨edge, checkpoints, children⟩ := node
  rcases children with _ | ⟨⟨token, suffix⟩, _ | ⟨kv, rest⟩⟩
  · exact h
  · rw [merge]
    split
    · have hsuffix : suffix.Canonical := h.canonical _ List.mem_cons_self
      exact ⟨hsuffix.sorted, hsuffix.first, hsuffix.branching, hsuffix.canonical⟩
    · exact h
  · exact h

theorem head?_merge (hedge : node.edge.head? = some token) : node.merge.edge.head? = some token := by
  obtain ⟨edge, checkpoints, children⟩ := node
  rcases children with _ | ⟨⟨token, suffix⟩, _ | ⟨kv, rest⟩⟩
  · exact hedge
  · rw [merge]
    split
    · rw [edge_mk, List.head?_append, show edge.head? = _ from hedge, Option.some_or]
    · exact hedge
  · exact hedge

/-- A merged node that is worth keeping branches. -/
theorem branching_merge (h : node.Canonical) (hretained : node.merge.retained = true) :
    node.merge.Branching := by
  have hcheckpoint : ∀ {edge : List Nat} {checkpoints : ExtTreeSet CheckpointId}
      {children : List (Nat × Node)}, ¬checkpoints.isEmpty → (Node.mk edge checkpoints children).Branching := by
    intro edge checkpoints children hsome
    rw [ExtTreeSet.isEmpty_iff_forall, not_forall] at hsome
    obtain ⟨id, hid⟩ := hsome
    exact .inl ⟨id, not_not.mp hid⟩
  obtain ⟨edge, checkpoints, children⟩ := node
  rcases children with _ | ⟨⟨token, suffix⟩, _ | ⟨kv, rest⟩⟩
  · exact hcheckpoint (by simpa [merge, retained] using hretained)
  · rw [merge]
    split
    · have hsuffix : suffix.Branching := h.branching _ List.mem_cons_self
      exact hsuffix
    · rename_i hsome
      exact hcheckpoint hsome
  · exact .inr (by simp [merge])

/-- A node that is dropped holds nothing. -/
theorem not_under_of_not_retained (hdropped : node.retained = false) : ¬Under id node path := by
  obtain ⟨edge, checkpoints, children⟩ := node
  simp only [retained, checkpoints_mk, children_mk, Bool.or_eq_false_iff, Bool.not_eq_false',
    List.isEmpty_iff] at hdropped
  obtain ⟨hempty, rfl⟩ := hdropped
  rintro ⟨path', hpath', -⟩
  rw [holds_mk] at hpath'
  rcases hpath' with ⟨-, hid⟩ | ⟨_, _, _, hmem, -⟩
  · exact ExtTreeSet.isEmpty_iff_forall.mp hempty id hid
  · cases hmem

theorem mem_removeBelow {kv : Nat × Node} : kv ∈ removeBelow id children ↔
    ∃ child, (kv.1, child) ∈ children ∧ kv.2 = (remove id child).merge ∧ kv.2.retained = true := by
  obtain ⟨token, node⟩ := kv
  induction children with
  | nil => simp [removeBelow]
  | cons entry rest ih =>
    obtain ⟨token', child'⟩ := entry
    rw [removeBelow]
    simp only [List.mem_cons, Prod.mk.injEq]
    split
    · rename_i hretained
      rw [List.mem_cons, Prod.mk.injEq, ih]
      constructor
      · rintro (⟨rfl, rfl⟩ | ⟨child, hchild, hnode⟩)
        · exact ⟨child', .inl ⟨rfl, rfl⟩, rfl, hretained⟩
        · exact ⟨child, .inr hchild, hnode⟩
      · rintro ⟨child, ⟨rfl, rfl⟩ | hchild, hnode⟩
        · exact .inl ⟨rfl, hnode.1⟩
        · exact .inr ⟨child, hchild, hnode⟩
    · rename_i hdropped
      rw [ih]
      constructor
      · rintro ⟨child, hchild, hnode⟩
        exact ⟨child, .inr hchild, hnode⟩
      · rintro ⟨child, ⟨rfl, rfl⟩ | hchild, rfl, hretained⟩
        · exact absurd hretained hdropped
        · exact ⟨child, hchild, rfl, hretained⟩

theorem sorted_removeBelow (h : SortedAssoc.Sorted children) :
    SortedAssoc.Sorted (removeBelow id children) := by
  induction children with
  | nil => exact List.Pairwise.nil
  | cons entry rest ih =>
    obtain ⟨token, child⟩ := entry
    obtain ⟨hhead, htail⟩ := List.pairwise_cons.mp h
    rw [removeBelow]
    split
    · refine List.pairwise_cons.mpr ⟨fun kv hkv => ?_, ih htail⟩
      obtain ⟨child', hchild', -⟩ := mem_removeBelow.mp hkv
      exact hhead (kv.1, child') hchild'
    · exact ih htail

/-- What removal makes of a canonical node. -/
structure Removed (id : CheckpointId) (node node' : Node) : Prop where
  edge : node'.edge = node.edge
  canonical : node'.Canonical
  holds : ∀ id' path, node'.Holds id' path ↔ id' ≠ id ∧ node.Holds id' path

theorem Removed.under {node' : Node} (h : Removed id node node') :
    Under id' node' path ↔ id' ≠ id ∧ Under id' node path := by
  rw [Under, Under, h.edge]
  constructor
  · rintro ⟨rest, hrest, rfl⟩
    obtain ⟨hne, hrest⟩ := (h.holds _ _).mp hrest
    exact ⟨hne, rest, hrest, rfl⟩
  · rintro ⟨hne, rest, hrest, rfl⟩
    exact ⟨rest, (h.holds _ _).mpr ⟨hne, hrest⟩, rfl⟩

/-- One bottom-up pass takes the checkpoint away and restores the canonical
    form. -/
theorem removed_remove (id : CheckpointId) (h : node.Canonical) : Removed id node (remove id node) := by
  induction node using induction with
  | h edge checkpoints children ih =>
    have hchild : ∀ kv ∈ removeBelow id children, ∃ child, (kv.1, child) ∈ children ∧
        Removed id child (remove id child) ∧ kv.2 = (remove id child).merge ∧ kv.2.retained = true := by
      intro kv hkv
      obtain ⟨child, hmem, hmerged⟩ := mem_removeBelow.mp hkv
      exact ⟨child, hmem, ih _ hmem (h.canonical _ hmem), hmerged⟩
    rw [remove]
    refine ⟨rfl, ⟨sorted_removeBelow h.sorted, fun kv hkv => ?_, fun kv hkv => ?_, fun kv hkv => ?_⟩, ?_⟩
    · obtain ⟨child, hmem, hremoved, hmerged, -⟩ := hchild kv hkv
      rw [hmerged]
      exact head?_merge (hremoved.edge ▸ h.first _ hmem)
    · obtain ⟨child, -, hremoved, hmerged, hretained⟩ := hchild kv hkv
      rw [hmerged] at hretained ⊢
      exact branching_merge hremoved.canonical hretained
    · obtain ⟨child, -, hremoved, hmerged, -⟩ := hchild kv hkv
      rw [hmerged]
      exact canonical_merge hremoved.canonical
    · intro id' path
      rw [holds_iff_under, holds_iff_under, ExtTreeSet.mem_erase_iff]
      constructor
      · rintro (⟨rfl, hne, hid⟩ | ⟨kv, hkv, hpath⟩)
        · exact ⟨hne.symm, .inl ⟨rfl, hid⟩⟩
        · obtain ⟨child, hmem, hremoved, hmerged, -⟩ := hchild kv hkv
          rw [hmerged, under_merge hremoved.canonical, hremoved.under] at hpath
          exact ⟨hpath.1, .inr ⟨(kv.1, child), hmem, hpath.2⟩⟩
      · rintro ⟨hne, ⟨rfl, hid⟩ | ⟨⟨token, child⟩, hmem, hpath⟩⟩
        · exact .inl ⟨rfl, hne.symm, hid⟩
        · have hremoved : Removed id child (remove id child) := ih _ hmem (h.canonical _ hmem)
          have hmerged : Under id' (remove id child).merge path :=
            (under_merge hremoved.canonical).mpr (hremoved.under.mpr ⟨hne, hpath⟩)
          -- A node that still holds something is not dropped.
          have hretained : (remove id child).merge.retained = true := by
            by_contra hdropped
            exact not_under_of_not_retained (Bool.not_eq_true _ ▸ hdropped) hmerged
          exact .inr ⟨(token, (remove id child).merge),
            mem_removeBelow.mpr ⟨child, hmem, rfl, hretained⟩, hmerged⟩

end Node

end Inferfabric.Runtime
