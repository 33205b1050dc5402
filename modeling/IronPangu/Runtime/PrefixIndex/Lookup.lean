-- SUMMARY: Lookup refines a linear scan of the live checkpoints: the longest shared prefix, and the longest and latest restorable checkpoint.
import IronPangu.Runtime.PrefixIndex.Runs

open Rust Std

/-!
# Lookup

The walk goes down the tree along the query and remembers the last restorable
checkpoint it passes. What it returns is stated without the tree: over the list of
live checkpoints.
-/

namespace Inferfabric.Runtime

open Ir

/-- The order of ids. -/
def CheckpointId.Le (id id' : CheckpointId) : Prop := (compare id id').isLE = true

theorem CheckpointId.Le.refl (id : CheckpointId) : id.Le id := by
  simp [CheckpointId.Le]

theorem CheckpointId.Le.of_lt {id id' : CheckpointId} (h : compare id id' = .lt) : id.Le id' := by
  simp [CheckpointId.Le, h]

theorem CheckpointId.Le.antisymm {id id' : CheckpointId} (h : id.Le id') (h' : id'.Le id) : id = id' :=
  LawfulEqOrd.eq_of_compare (OrientedCmp.isLE_antisymm h h')

namespace PrefixIndex

/-- The greatest candidate: the longest boundary and, among equals, the greatest
    id. -/
def Best (S : CheckpointId → Nat → Prop) : Option (CheckpointId × Nat) → Prop
  | none => ∀ id boundary, ¬S id boundary
  | some (id, boundary) => S id boundary ∧
      ∀ id' boundary', S id' boundary' → boundary' < boundary ∨ boundary' = boundary ∧ id'.Le id

section

variable {S T : CheckpointId → Nat → Prop} {best : Option (CheckpointId × Nat)} {id : CheckpointId}
  {boundary : Nat}

theorem Best.congr (h : Best S best) (hiff : ∀ id boundary, S id boundary ↔ T id boundary) :
    Best T best := by
  have : S = T := funext fun id => funext fun boundary => propext (hiff id boundary)
  exact this ▸ h

/-- A candidate above all others takes their place. -/
theorem Best.of_above (hS : S id boundary) (habove : ∀ id' boundary', S id' boundary' →
    boundary' < boundary ∨ boundary' = boundary ∧ id'.Le id) : Best S (some (id, boundary)) :=
  ⟨hS, habove⟩

end

/-! ## Visiting a node -/

section

variable {s : PrefixIndex} {history : ArithmeticHistory} {maxRestore : Nat}

/-- The checkpoint may be handed out. -/
def Restorable (s : PrefixIndex) (history : ArithmeticHistory) (maxRestore : Nat)
    (id : CheckpointId) : Prop :=
  ∃ entry, s.entries[id]? = some entry ∧ entry.restorable history maxRestore = .ok true

/-- The checkpoints of a node, in ascending order, are above all before them. -/
theorem visit_spec {boundary : Nat} {ids : List CheckpointId} {S : CheckpointId → Nat → Prop}
    (result : Match) (hids : ids.Pairwise fun a b => compare a b = .lt)
    (hentries : ∀ id ∈ ids, ∃ entry, s.entries[id]? = some entry ∧ entry.boundary = boundary ∧
      ∃ r, entry.restorable history maxRestore = .ok r)
    (hbest : Best S result.checkpoint)
    (habove : ∀ id boundary', S id boundary' →
      boundary' < boundary ∨ boundary' = boundary ∧ ∀ id' ∈ ids, compare id id' = .lt) :
    ∃ checkpoint, s.visit history maxRestore ids result = .ok ⟨result.matchedTokens, checkpoint⟩ ∧
      Best (fun id b => S id b ∨ id ∈ ids ∧ b = boundary ∧ Restorable s history maxRestore id)
        checkpoint := by
  induction ids generalizing result S with
  | nil => exact ⟨result.checkpoint, rfl, hbest.congr fun id b => by simp⟩
  | cons id ids ih =>
    obtain ⟨hhead, htail⟩ := List.pairwise_cons.mp hids
    obtain ⟨entry, hentry, rfl, r, hr⟩ := hentries id List.mem_cons_self
    have hrest : ∀ id' ∈ ids, ∃ entry', s.entries[id']? = some entry' ∧ entry'.boundary = entry.boundary ∧
        ∃ r, entry'.restorable history maxRestore = .ok r :=
      fun id' hid' => hentries id' (List.mem_cons_of_mem _ hid')
    have hrestorable : Restorable s history maxRestore id ↔ r = true := by
      constructor
      · rintro ⟨entry', hentry', htrue⟩
        obtain rfl := Option.some.inj (hentry.symm.trans hentry')
        exact Outcome.ok.inj (hr.symm.trans htrue)
      · rintro rfl
        exact ⟨entry, hentry, hr⟩
    rw [visit, hentry, Outcome.unwrap_some, Outcome.ok_bind, hr, Outcome.ok_bind]
    cases r with
    | false =>
      obtain ⟨checkpoint, hrun, hresult⟩ := ih result htail hrest hbest fun id' b hb =>
        (habove id' b hb).imp_right (And.imp_right fun hlt x hx => hlt x (List.mem_cons_of_mem _ hx))
      refine ⟨checkpoint, hrun, hresult.congr fun id' b => or_congr_right ?_⟩
      constructor
      · rintro ⟨hid', hb⟩
        exact ⟨List.mem_cons_of_mem _ hid', hb⟩
      · rintro ⟨hid', rfl, hgood⟩
        rcases List.mem_cons.mp hid' with rfl | hid'
        · exact absurd (hrestorable.mp hgood) Bool.false_ne_true
        · exact ⟨hid', rfl, hgood⟩
    | true =>
      have hgood : Restorable s history maxRestore id := hrestorable.mpr rfl
      -- The candidates so far are all below this one, and it is below the rest.
      have hbest' : Best (fun id' b => S id' b ∨ id' = id ∧ b = entry.boundary) (some (id, entry.boundary)) := by
        refine .of_above (.inr ⟨rfl, rfl⟩) ?_
        rintro id' b (hb | ⟨rfl, rfl⟩)
        · exact (habove id' b hb).imp_right
            (And.imp_right fun hlt => .of_lt (hlt id List.mem_cons_self))
        · exact .inr ⟨rfl, .refl _⟩
      obtain ⟨checkpoint, hrun, hresult⟩ := ih ⟨_, some (id, entry.boundary)⟩ htail hrest hbest' (by
          rintro id' b (hb | ⟨rfl, rfl⟩)
          · exact (habove id' b hb).imp_right
              (And.imp_right fun hlt x hx => hlt x (List.mem_cons_of_mem _ hx))
          · exact .inr ⟨rfl, hhead⟩)
      refine ⟨checkpoint, hrun, hresult.congr fun id' b => ?_⟩
      rw [or_assoc]
      refine or_congr_right ?_
      constructor
      · rintro (⟨rfl, rfl⟩ | ⟨hid', hb⟩)
        · exact ⟨List.mem_cons_self, rfl, hgood⟩
        · exact ⟨List.mem_cons_of_mem _ hid', hb⟩
      · rintro ⟨hid', hb, hgood'⟩
        rcases List.mem_cons.mp hid' with rfl | hid'
        · exact .inl ⟨rfl, hb⟩
        · exact .inr ⟨hid', hb, hgood'⟩

end

/-! ## The walk -/

section

variable {s : PrefixIndex} {history : ArithmeticHistory} {maxRestore : Nat}

/-- A node the walk may stand at: what it holds are live checkpoints, as long as
    the way there and on. -/
structure Reached (s : PrefixIndex) (history : ArithmeticHistory) (maxRestore offset : Nat)
    (node : Node) : Prop where
  canonical : node.Canonical
  entries : ∀ id path, node.Holds id path → ∃ entry, s.entries[id]? = some entry ∧
    entry.boundary = offset + path.length ∧ offset + path.length ≤ u32Max ∧
      ∃ r, entry.restorable history maxRestore = .ok r

variable {offset token : Nat} {node child : Node}

theorem Reached.descend (h : Reached s history maxRestore offset node)
    (hchild : (token, child) ∈ node.children) :
    Reached s history maxRestore (offset + child.edge.length) child where
  canonical := h.canonical.canonical _ hchild
  entries := by
    intro id path hpath
    have hheld := h.entries id _ ((h.canonical.holds_child hchild).mp hpath)
    rwa [List.length_append, ← Nat.add_assoc] at hheld

/-- The candidates below a node, for the rest of the query. -/
def Below (s : PrefixIndex) (history : ArithmeticHistory) (maxRestore offset : Nat) (node : Node)
    (query : List Nat) (id : CheckpointId) (boundary : Nat) : Prop :=
  ∃ path, path ≠ [] ∧ node.Holds id path ∧ path <+: query ∧ boundary = offset + path.length ∧
    Restorable s history maxRestore id

/-- How far the query can be followed below a node. -/
def Depth (node : Node) (query : List Nat) (k : Nat) : Prop :=
  IsGreatest {k | k = 0 ∨ ∃ id path, node.Holds id path ∧ k = Scan.common path query} k

/-- What a node holds either leads into the child for the next token or shares
    nothing with the query. -/
theorem holds_towards (token : Nat) (query : List Nat) (h : node.Canonical) {id : CheckpointId}
    {path : List Nat} (hpath : node.Holds id path) :
    (∃ child rest, (token, child) ∈ node.children ∧ child.Holds id rest ∧ path = child.edge ++ rest) ∨
      Scan.common path (token :: query) = 0 := by
  cases path with
  | nil => exact .inr rfl
  | cons first path =>
    by_cases hfirst : first = token
    · subst hfirst
      obtain ⟨child, rest, hchild, hrest, heq⟩ := h.holds_cons.mp hpath
      exact .inl ⟨child, rest, hchild, hrest, heq⟩
    · exact .inr (Scan.common_cons_ne hfirst)

/-- Nothing that shares no token with the query is a candidate. -/
theorem not_prefix_of_common_eq_zero {path query : List Nat} (hne : path ≠ [])
    (hcommon : Scan.common path query = 0) : ¬path <+: query := fun hstarts =>
  hne (List.eq_nil_of_length_eq_zero ((Scan.common_eq_length_iff.mpr hstarts).symm.trans hcommon))

/-- The walk ends where nothing below shares a token with the rest of the query. -/
theorem depth_zero {query : List Nat}
    (h : ∀ id path, node.Holds id path → Scan.common path query = 0) : Depth node query 0 := by
  refine ⟨.inl rfl, ?_⟩
  rintro k (rfl | ⟨id, path, hpath, rfl⟩)
  · exact Nat.le_refl 0
  · exact (h id path hpath).le

theorem best_of_not_below {query : List Nat} {S : CheckpointId → Nat → Prop}
    {best : Option (CheckpointId × Nat)} (hbest : Best S best)
    (h : ∀ id path, node.Holds id path → path ≠ [] → ¬path <+: query) :
    Best (fun id b => S id b ∨ Below s history maxRestore offset node query id b) best := by
  refine hbest.congr fun id b => (or_iff_left ?_).symm
  rintro ⟨path, hne, hpath, hstarts, -⟩
  exact h id path hpath hne hstarts

/-- A canonical child holds something. -/
theorem exists_holds_child (h : node.Canonical) (hchild : (token, child) ∈ node.children) :
    ∃ id rest, child.Holds id rest ∧ node.Holds id (child.edge ++ rest) := by
  obtain ⟨id, rest, hrest⟩ := (h.canonical _ hchild).exists_holds (h.branching _ hchild)
  exact ⟨id, rest, hrest, (h.holds_child hchild).mp hrest⟩

/-- The query leaves the edge of the child: the walk ends within it. -/
theorem depth_edge (h : node.Canonical) (hchild : (token, child) ∈ node.children) {query : List Nat}
    (hpart : Scan.common child.edge (token :: query) < child.edge.length) :
    Depth node (token :: query) (Scan.common child.edge (token :: query)) := by
  obtain ⟨id, rest, -, hheld⟩ := exists_holds_child h hchild
  refine ⟨.inr ⟨id, _, hheld, (Scan.common_append_left hpart rest).symm⟩, ?_⟩
  rintro k (rfl | ⟨id', path, hpath, rfl⟩)
  · exact Nat.zero_le _
  · rcases holds_towards token query h hpath with
      ⟨child', rest', hchild', -, rfl⟩ | hzero
    · obtain rfl := h.sorted.eq_of_mem hchild hchild'
      exact (Scan.common_append_left hpart rest').le
    · exact hzero ▸ Nat.zero_le _

/-- The query follows the edge of the child to its end, and goes on from there. -/
theorem depth_past (h : node.Canonical) (hchild : (token, child) ∈ node.children) {rest : List Nat}
    {query : List Nat} (hquery : token :: query = child.edge ++ rest) {k : Nat}
    (hk : Depth child rest k) : Depth node (token :: query) (child.edge.length + k) := by
  obtain ⟨hshared, hgreatest⟩ := hk
  refine ⟨?_, ?_⟩
  · rcases hshared with rfl | ⟨id, path, hpath, rfl⟩
    · obtain ⟨id, path, hpath, hheld⟩ := exists_holds_child h hchild
      refine .inr ⟨id, _, hheld, ?_⟩
      have hzero : Scan.common path rest = 0 := Nat.le_zero.mp (hgreatest (.inr ⟨id, path, hpath, rfl⟩))
      rw [hquery, Scan.common_append, hzero]
    · refine .inr ⟨id, _, (h.holds_child hchild).mp hpath, ?_⟩
      rw [hquery, Scan.common_append]
  · rintro k' (rfl | ⟨id, path, hpath, rfl⟩)
    · exact Nat.zero_le _
    · rcases holds_towards token query h hpath with
        ⟨child', path', hchild', hpath', rfl⟩ | hzero
      · obtain rfl := h.sorted.eq_of_mem hchild hchild'
        rw [hquery, Scan.common_append]
        exact Nat.add_le_add_left (hgreatest (.inr ⟨id, path', hpath', rfl⟩)) _
      · exact hzero ▸ Nat.zero_le _

/-- The candidates below a node whose child the query passes: the checkpoints of
    the child, and the candidates below it. -/
theorem below_past (h : node.Canonical) (hchild : (token, child) ∈ node.children)
    {rest query : List Nat} (hquery : token :: query = child.edge ++ rest) {id : CheckpointId}
    {boundary : Nat} :
    Below s history maxRestore offset node (token :: query) id boundary ↔
      (id ∈ child.checkpoints ∧ boundary = offset + child.edge.length ∧
        Restorable s history maxRestore id) ∨
      Below s history maxRestore (offset + child.edge.length) child rest id boundary := by
  have hcanonical : child.Canonical := h.canonical _ hchild
  have hedge : child.edge ≠ [] := h.edge_ne_nil hchild
  constructor
  · rintro ⟨path, hne, hpath, hstarts, rfl, hgood⟩
    rcases holds_towards token query h hpath with
      ⟨child', path', hchild', hpath', rfl⟩ | hzero
    · obtain rfl := h.sorted.eq_of_mem hchild hchild'
      rw [hquery, List.prefix_append_right_inj] at hstarts
      cases path' with
      | nil => exact .inl ⟨hcanonical.holds_nil.mp hpath', by simp, hgood⟩
      | cons first path' =>
        exact .inr ⟨first :: path', List.cons_ne_nil _ _, hpath', hstarts,
          by rw [List.length_append, Nat.add_assoc], hgood⟩
    · exact absurd hstarts (not_prefix_of_common_eq_zero hne hzero)
  · rintro (⟨hid, rfl, hgood⟩ | ⟨path, -, hpath, hstarts, rfl, hgood⟩)
    · refine ⟨child.edge, hedge, ?_, hquery ▸ List.prefix_append _ _, rfl, hgood⟩
      have hheld := (h.holds_child hchild).mp (hcanonical.holds_nil.mpr hid)
      rwa [List.append_nil] at hheld
    · refine ⟨child.edge ++ path, by simp [hedge], (h.holds_child hchild).mp hpath, ?_,
        by rw [List.length_append, Nat.add_assoc], hgood⟩
      rw [hquery, List.prefix_append_right_inj]
      exact hstarts

theorem walk_spec (tokens : List Nat) : ∀ (node : Node) {offset : Nat} (result : Match)
    {S : CheckpointId → Nat → Prop}, Reached s history maxRestore offset node →
    result.matchedTokens = offset → Best S result.checkpoint → (∀ id b, S id b → b ≤ offset) →
    ∃ k checkpoint,
      s.walk tokens history maxRestore node offset result = .ok ⟨offset + k, checkpoint⟩ ∧
      Depth node (tokens.drop offset) k ∧
      Best (fun id b => S id b ∨ Below s history maxRestore offset node (tokens.drop offset) id b)
        checkpoint := by
  intro node
  induction node using Node.induction with
  | h edge checkpoints children ih =>
    intro offset result S hreached hmatched hbest hbounded
    obtain ⟨matchedTokens, checkpoint⟩ := result
    obtain rfl : matchedTokens = offset := hmatched
    rw [walk]
    split
    · -- The query ends here.
      rename_i hend
      have hdrop : tokens.drop matchedTokens = [] := by
        rw [List.drop_eq_nil_iff]
        exact List.getElem?_eq_none_iff.mp hend
      rw [hdrop]
      exact ⟨0, checkpoint, rfl, depth_zero fun id path _ => Scan.common_nil_right,
        best_of_not_below hbest fun id path _ hne hstarts => hne (List.prefix_nil.mp hstarts)⟩
    · rename_i token htoken
      obtain ⟨query, hquery⟩ : ∃ query, tokens.drop matchedTokens = token :: query := by
        rw [← List.head?_drop] at htoken
        exact ⟨_, (List.cons_head?_tail htoken).symm⟩
      rw [hquery]
      split
      · -- No child is stored under the next token.
        rename_i hnone
        have hzero : ∀ id path, (Node.mk edge checkpoints children).Holds id path →
            Scan.common path (token :: query) = 0 := by
          intro id path hpath
          rcases holds_towards token query hreached.canonical hpath with
            ⟨child, rest, hchild, -, -⟩ | hzero
          · exact absurd hchild (SortedAssoc.find_eq_none.mp hnone child)
          · exact hzero
        exact ⟨0, checkpoint, rfl, depth_zero hzero, best_of_not_below hbest fun id path hpath hne =>
          not_prefix_of_common_eq_zero hne (hzero id path hpath)⟩
      · rename_i child hfind
        have hchild := SortedAssoc.mem_of_find hfind
        have hle : Scan.common child.edge (token :: query) ≤ child.edge.length := Scan.common_le_left
        have hfits : (matchedTokens + Scan.common child.edge (token :: query)) % (u32Max + 1) =
            matchedTokens + Scan.common child.edge (token :: query) := by
          obtain ⟨id, rest, -, hheld⟩ := exists_holds_child hreached.canonical hchild
          obtain ⟨-, -, -, hsmall, -⟩ := hreached.entries id _ hheld
          rw [List.length_append] at hsmall
          exact Nat.mod_eq_of_lt (by omega)
        simp only [hfits]
        split
        · -- The query leaves the edge before its end.
          rename_i hpart
          have hlt : Scan.common child.edge (token :: query) < child.edge.length :=
            Nat.lt_of_le_of_ne hle hpart
          refine ⟨_, checkpoint, rfl, depth_edge hreached.canonical hchild hlt,
            best_of_not_below hbest fun id path hpath hne hstarts => ?_⟩
          rcases holds_towards token query hreached.canonical hpath with
            ⟨child', rest, hchild', -, rfl⟩ | hzero
          · obtain rfl := hreached.canonical.sorted.eq_of_mem hchild hchild'
            have hedge := Scan.common_eq_length_iff.mpr ((List.prefix_append child.edge rest).trans hstarts)
            exact absurd hedge hlt.ne
          · exact not_prefix_of_common_eq_zero hne hzero hstarts
        · rename_i hwhole
          rw [not_not] at hwhole
          obtain ⟨rest, hrest⟩ := Scan.common_eq_length_iff.mp hwhole
          have hdeeper := hreached.descend hchild
          have hdrop : tokens.drop (matchedTokens + child.edge.length) = rest := by
            rw [← List.drop_drop, hquery, ← hrest, List.drop_left]
          have hentries : ∀ id ∈ child.checkpoints.toList, ∃ entry, s.entries[id]? = some entry ∧
              entry.boundary = matchedTokens + child.edge.length ∧
                ∃ r, entry.restorable history maxRestore = .ok r := by
            intro id hid
            have hheld := hdeeper.canonical.holds_nil.mpr (ExtTreeSet.mem_toList.mp hid)
            obtain ⟨entry, hentry, hboundary, -, hr⟩ := hdeeper.entries id [] hheld
            exact ⟨entry, hentry, hboundary, hr⟩
          have habove : ∀ id b, S id b → b < matchedTokens + child.edge.length ∨
              b = matchedTokens + child.edge.length ∧
                ∀ id' ∈ child.checkpoints.toList, compare id id' = .lt := by
            intro id b hb
            have hpos := List.length_pos_of_ne_nil (hreached.canonical.edge_ne_nil hchild)
            exact .inl (Nat.lt_of_le_of_lt (hbounded id b hb) (Nat.lt_add_of_pos_right hpos))
          obtain ⟨checkpoint', hvisit, hbest'⟩ := visit_spec
            ⟨matchedTokens + child.edge.length, checkpoint⟩ ExtTreeSet.ordered_toList hentries hbest habove
          obtain ⟨k, final, hrun, hdepth, hresult⟩ := ih _ hchild ⟨_, checkpoint'⟩ hdeeper rfl hbest'
            (by
              rintro id b (hb | ⟨-, rfl, -⟩)
              · exact (hbounded id b hb).trans (Nat.le_add_right _ _)
              · exact Nat.le_refl _)
          rw [hdrop] at hdepth hresult
          rw [hwhole, hvisit, Outcome.ok_bind, hrun, Nat.add_assoc]
          refine ⟨_, final, rfl, depth_past hreached.canonical hchild hrest.symm hdepth,
            hresult.congr fun id b => ?_⟩
          rw [below_past hreached.canonical hchild hrest.symm, or_assoc, ExtTreeSet.mem_toList]

end

/-! ## The linear scan -/

/-- Some live checkpoint shares a prefix of this length with the query. -/
def Shares (live : List Checkpoint) (tokens : List Nat) (k : Nat) : Prop :=
  ∃ c ∈ live, ∃ pre : List Nat, pre.length = k ∧ pre <+: c.tokens ∧ pre <+: tokens

/-- The checkpoint may be restored for the query. -/
structure Eligible (tokens : List Nat) (history : CompletedHistory) (maxRestore : Nat)
    (c : Checkpoint) : Prop where
  tokens : c.tokens <+: tokens
  restore : c.tokens.length ≤ maxRestore
  history : c.history.Agree history c.tokens.length

/-- What a linear scan of the live checkpoints reports: the longest shared prefix,
    and of the eligible checkpoints the longest and, among equals, the latest. -/
structure Scanned (live : List Checkpoint) (tokens : List Nat) (history : CompletedHistory)
    (maxRestore : Nat) (m : Match) : Prop where
  matched : IsGreatest {k | k = 0 ∨ Shares live tokens k} m.matchedTokens
  none : m.checkpoint = none → ∀ c ∈ live, ¬Eligible tokens history maxRestore c
  some : ∀ id boundary, m.checkpoint = some (id, boundary) →
    ∃ c ∈ live, c.id = id ∧ c.tokens.length = boundary ∧ Eligible tokens history maxRestore c ∧
      ∀ c' ∈ live, Eligible tokens history maxRestore c' →
        c'.tokens.length < boundary ∨ c'.tokens.length = boundary ∧ c'.id.Le id

section

variable {s : PrefixIndex} {checkpoints : List Checkpoint} {tokens : List Nat}
  {history : CompletedHistory} {maxRestore : Nat} {m m' : Match}

/-- The scan determines its report. -/
theorem Scanned.unique (h : Scanned checkpoints tokens history maxRestore m)
    (h' : Scanned checkpoints tokens history maxRestore m') : m = m' := by
  have hmatched : m.matchedTokens = m'.matchedTokens := h.matched.unique h'.matched
  obtain ⟨matchedTokens, checkpoint⟩ := m
  obtain ⟨matchedTokens', checkpoint'⟩ := m'
  obtain rfl : matchedTokens = matchedTokens' := hmatched
  congr 1
  rcases checkpoint with _ | ⟨id, boundary⟩ <;> rcases checkpoint' with _ | ⟨id', boundary'⟩
  · rfl
  · obtain ⟨c, hc, -, -, heligible, -⟩ := h'.some id' boundary' rfl
    exact absurd heligible (h.none rfl c hc)
  · obtain ⟨c, hc, -, -, heligible, -⟩ := h.some id boundary rfl
    exact absurd heligible (h'.none rfl c hc)
  · obtain ⟨c, hc, rfl, rfl, heligible, hbest⟩ := h.some id boundary rfl
    obtain ⟨c', hc', rfl, rfl, heligible', hbest'⟩ := h'.some id' boundary' rfl
    have hle := hbest c' hc' heligible'
    have hle' := hbest' c hc heligible
    have hboundary : c.tokens.length = c'.tokens.length := by omega
    have hid : c.id = c'.id := CheckpointId.Le.antisymm
      (hle'.resolve_left (by omega)).2 (hle.resolve_left (by omega)).2
    rw [hboundary, hid]

theorem restorable_entry (history : CompletedHistory) (maxRestore : Nat) (c : Checkpoint) :
    ∃ r, c.entry.restorable history.value maxRestore = .ok r ∧
      (r = true ↔ c.tokens.length ≤ maxRestore ∧ c.history.Agree history c.tokens.length) := by
  obtain ⟨same, hsame, hagree⟩ := c.history.samePrefix history c.tokens.length
  rw [Entry.restorable]
  split
  · rename_i hrestore
    exact ⟨same, hsame, by rw [hagree]; exact (and_iff_right hrestore).symm⟩
  · rename_i hbeyond
    refine ⟨false, rfl, ?_⟩
    simp only [Bool.false_eq_true, false_iff, not_and]
    exact fun hrestore => absurd hrestore hbeyond

theorem Indexed.reached (h : Indexed checkpoints s) (history : CompletedHistory) (maxRestore : Nat) :
    Reached s history.value maxRestore 0 s.root where
  canonical := h.canonical
  entries := by
    intro id path hpath
    obtain ⟨c, hc, rfl, rfl⟩ := (h.holds id path).mp hpath
    obtain ⟨r, hr, -⟩ := restorable_entry history maxRestore c
    exact ⟨c.entry, h.getElem? hc, (Nat.zero_add _).symm, by simpa using (h.small c hc).2, r, hr⟩

theorem Indexed.below_iff (h : Indexed checkpoints s) {id : CheckpointId} {boundary : Nat} :
    Below s history.value maxRestore 0 s.root tokens id boundary ↔
      ∃ c ∈ checkpoints, c.id = id ∧ c.tokens.length = boundary ∧
        Eligible tokens history maxRestore c := by
  have hrestorable : ∀ c ∈ checkpoints, Restorable s history.value maxRestore c.id ↔
      c.tokens.length ≤ maxRestore ∧ c.history.Agree history c.tokens.length := by
    intro c hc
    obtain ⟨r, hr, hiff⟩ := restorable_entry history maxRestore c
    rw [← hiff]
    constructor
    · rintro ⟨entry, hentry, htrue⟩
      obtain rfl := Option.some.inj ((h.getElem? hc).symm.trans hentry)
      exact Outcome.ok.inj (hr.symm.trans htrue)
    · rintro rfl
      exact ⟨c.entry, h.getElem? hc, hr⟩
  constructor
  · rintro ⟨path, -, hpath, hstarts, rfl, hgood⟩
    obtain ⟨c, hc, rfl, rfl⟩ := (h.holds id path).mp hpath
    obtain ⟨hrestore, hagree⟩ := (hrestorable c hc).mp hgood
    exact ⟨c, hc, rfl, (Nat.zero_add _).symm, hstarts, hrestore, hagree⟩
  · rintro ⟨c, hc, rfl, rfl, heligible⟩
    exact ⟨c.tokens, (h.small c hc).1, (h.holds _ _).mpr ⟨c, hc, rfl, rfl⟩, heligible.tokens,
      (Nat.zero_add _).symm, (hrestorable c hc).mpr ⟨heligible.restore, heligible.history⟩⟩

theorem Indexed.shares_iff (h : Indexed checkpoints s) {k : Nat} :
    Shares checkpoints tokens k ↔
      ∃ id path, s.root.Holds id path ∧ k ≤ Scan.common path tokens := by
  constructor
  · rintro ⟨c, hc, pre, hlength, hshared, hquery⟩
    exact ⟨c.id, c.tokens, (h.holds _ _).mpr ⟨c, hc, rfl, rfl⟩,
      Scan.le_common_iff.mpr ⟨pre, hlength, hshared, hquery⟩⟩
  · rintro ⟨id, path, hpath, hk⟩
    obtain ⟨c, hc, rfl, rfl⟩ := (h.holds id path).mp hpath
    exact ⟨c, hc, Scan.le_common_iff.mp hk⟩

theorem Indexed.matched (h : Indexed checkpoints s) {k : Nat} (hdepth : Depth s.root tokens k) :
    IsGreatest {k | k = 0 ∨ Shares checkpoints tokens k} k := by
  obtain ⟨hshared, hgreatest⟩ := hdepth
  refine ⟨?_, ?_⟩
  · rcases hshared with rfl | ⟨id, path, hpath, rfl⟩
    · exact .inl rfl
    · exact .inr (h.shares_iff.mpr ⟨id, path, hpath, Nat.le_refl _⟩)
  · rintro k' (rfl | hk')
    · exact Nat.zero_le _
    · obtain ⟨id, path, hpath, hle⟩ := h.shares_iff.mp hk'
      exact hle.trans (hgreatest (.inr ⟨id, path, hpath, rfl⟩))

/-- Of an index of live checkpoints, lookup reports what the scan does. -/
theorem Indexed.lookup (h : Indexed checkpoints s) {identity : PrefixIdentity}
    (hcompatible : s.identity.compatible identity = true) :
    ∃ m, s.lookup identity tokens history.value maxRestore = .ok m ∧
      Scanned checkpoints tokens history maxRestore m := by
  obtain ⟨k, checkpoint, hrun, hdepth, hbest⟩ := walk_spec (S := fun _ _ => False) tokens s.root
    ⟨0, none⟩ (h.reached history maxRestore) rfl (fun _ _ => id)
    (fun _ _ => False.elim)
  rw [List.drop_zero] at hdepth hbest
  refine ⟨⟨k, checkpoint⟩, ?_, h.matched hdepth, ?_, ?_⟩
  · rw [PrefixIndex.lookup, hcompatible]
    simpa using hrun
  · rintro rfl c hc heligible
    exact hbest c.id c.tokens.length (.inr (h.below_iff.mpr ⟨c, hc, rfl, rfl, heligible⟩))
  · rintro id boundary rfl
    obtain ⟨hfound, habove⟩ := hbest
    obtain ⟨c, hc, hid, hboundary, heligible⟩ := h.below_iff.mp (hfound.resolve_left not_false)
    refine ⟨c, hc, hid, hboundary, heligible, fun c' hc' heligible' => ?_⟩
    exact habove c'.id c'.tokens.length (.inr (h.below_iff.mpr ⟨c', hc', rfl, rfl, heligible'⟩))

end

/-- After any run, lookup answers as a linear scan of the live checkpoints does;
    an incompatible identity sees none of them. -/
theorem lookup_refines_scan {p : PrefixIndex} (hp : Fresh p) (ops : List Op) (identity : PrefixIdentity)
    (tokens : List Nat) (history : CompletedHistory) (maxRestore : Nat) :
    ∃ m, (final step ops p).lookup identity tokens history.value maxRestore = .ok m ∧
      (p.identity.compatible identity = true →
        Scanned (live (Rust.history step ops p)) tokens history maxRestore m) ∧
      (p.identity.compatible identity = false → m = ⟨0, none⟩) := by
  obtain ⟨hs, hlimits⟩ := run_indexed hp ops
  cases hcompatible : p.identity.compatible identity with
  | true =>
    obtain ⟨m, hrun, hscanned⟩ := hs.lookup (hlimits.identity ▸ hcompatible)
    exact ⟨m, hrun, fun _ => hscanned, fun hfalse => by cases hfalse⟩
  | false =>
    refine ⟨⟨0, none⟩, ?_, (fun htrue => by cases htrue), fun _ => rfl⟩
    rw [PrefixIndex.lookup, hlimits.identity, hcompatible]
    rfl

/-- The query leaves the shared edge towards the third prefix, and outruns it. -/
theorem lookup_refines_scan_sample :
    ∃ m, (final step sampleOps sampleIndex).lookup sampleIdentity [1, 2, 5, 6, 9]
        (CompletedHistory.of [⟨sampleVariant, 0, 2⟩, ⟨sampleVariant, 2, 2⟩]).value 4 = .ok m ∧
      Scanned (live (history step sampleOps sampleIndex)) [1, 2, 5, 6, 9]
        (CompletedHistory.of [⟨sampleVariant, 0, 2⟩, ⟨sampleVariant, 2, 2⟩]) 4 m := by
  obtain ⟨m, hrun, hscanned, -⟩ := lookup_refines_scan sample_fresh sampleOps sampleIdentity
    [1, 2, 5, 6, 9] (CompletedHistory.of [⟨sampleVariant, 0, 2⟩, ⟨sampleVariant, 2, 2⟩]) 4
  exact ⟨m, hrun, hscanned (by decide +kernel)⟩

end PrefixIndex

end Inferfabric.Runtime
