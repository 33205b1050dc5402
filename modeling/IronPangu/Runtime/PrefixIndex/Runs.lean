-- SUMMARY: Runs of the prefix index: the live checkpoints as a list, that tree and entries are exactly these, and the bounds.
import IronPangu.Lib.Machine
import IronPangu.Runtime.PrefixIndex.Updates

open Rust Std

/-!
# Runs of the prefix index

The live checkpoints of a run are what its calls and replies say: an accepted
insertion adds one, a removal takes out the one with its id. The index is then
determined by that list, whatever the order of the calls.
-/

namespace Inferfabric.Runtime

open Ir

/-- A published prefix. -/
structure Checkpoint where
  id : CheckpointId
  tokens : List Nat
  history : CompletedHistory

namespace Checkpoint

def entry (c : Checkpoint) : Entry := ⟨c.tokens.length, c.history.value⟩

/-- The tokens of the prefixes, before radix sharing. -/
def units (live : List Checkpoint) : Nat := (live.map fun c => c.tokens.length).sum

end Checkpoint

namespace PrefixIndex

inductive Op where
  | insert (identity : PrefixIdentity) (tokens : List Nat) (history : CompletedHistory)
  | remove (id : CheckpointId)

inductive Reply where
  | inserted (id : CheckpointId)
  | removed (found : Bool)
  deriving DecidableEq, Repr

def step : Op → Method PrefixIndex Error Reply
  | .insert identity tokens history => do
    let id ← insert identity tokens history.value
    pure (.inserted id)
  | .remove id => do
    let found ← remove id
    pure (.removed found)

/-- The live checkpoints after one more call. -/
def liveAfter (live : List Checkpoint) (ev : Event PrefixIndex Error Op Reply) : List Checkpoint :=
  match ev.call, ev.reply with
  | .insert _ tokens history, .ok (.inserted id) => live ++ [⟨id, tokens, history⟩]
  | .remove id, _ => live.filter fun c => c.id ≠ id
  | _, _ => live

/-- The live checkpoints of a run. -/
def live (events : List (Event PrefixIndex Error Op Reply)) : List Checkpoint :=
  events.foldl liveAfter []

/-! ## One call -/

section

variable {s : PrefixIndex} {identity : PrefixIdentity} {tokens : List Nat}
  {history : ArithmeticHistory} {id : CheckpointId}

/-- What an insertion has passed. -/
structure Admitted (s : PrefixIndex) (identity : PrefixIdentity) (tokens : List Nat)
    (history : ArithmeticHistory) (id : CheckpointId) : Prop where
  compatible : s.identity.compatible identity = true
  nonempty : tokens ≠ []
  small : tokens.length ≤ u32Max
  aligned : tokens.length % s.alignment = 0
  history : history.tokens = tokens.length
  room : s.len < s.maxEntries
  units : s.tokenUnits + tokens.length ≤ s.maxTokenUnits
  unitsFit : s.tokenUnits + tokens.length ≤ u64Max
  generationFits : s.generation + 1 ≤ u64Max
  id : id = ⟨s.index, s.generation + 1⟩

/-- The index with one more checkpoint. -/
def publish (s : PrefixIndex) (tokens : List Nat) (history : ArithmeticHistory) (id : CheckpointId) :
    PrefixIndex :=
  { s with
    root := s.root.insert tokens.length tokens id
    entries := s.entries.insert id ⟨tokens.length, history⟩
    generation := id.generation
    tokenUnits := s.tokenUnits + tokens.length }

/-- The index without a checkpoint. -/
def withdraw (s : PrefixIndex) (id : CheckpointId) (boundary : Nat) : PrefixIndex :=
  { s with
    root := s.root.remove id
    entries := s.entries.erase id
    tokenUnits := s.tokenUnits - boundary }

theorem refused_eq_ok (identity : PrefixIdentity) (history : ArithmeticHistory) (boundary units : Nat)
    (halignment : 0 < s.alignment) :
    ∃ refused, s.refused identity boundary units history = .ok refused ∧ (refused = false ↔
      s.identity.compatible identity = true ∧ boundary ≠ 0 ∧ boundary % s.alignment = 0 ∧
        history.tokens = boundary ∧ s.len < s.maxEntries ∧ units ≤ s.maxTokenUnits) := by
  rw [refused]
  split
  · rename_i hbad
    refine ⟨true, rfl, ?_⟩
    simp only [Bool.true_eq_false, false_iff]
    rintro ⟨hcompatible, hboundary, -⟩
    simp [hcompatible, hboundary] at hbad
  · rename_i hgood
    simp only [Bool.not_eq_true', not_or, Bool.not_eq_false] at hgood
    rw [Outcome.rem_pos halignment, Outcome.ok_bind]
    refine ⟨_, rfl, ?_⟩
    simp [hgood]

theorem admit_of_admitted (h : Admitted s identity tokens history id) (halignment : 0 < s.alignment) :
    s.admission identity tokens history = .ok (tokens.length, s.tokenUnits + tokens.length, id) := by
  have hboundary : tryFrom u32Max tokens.length = some tokens.length := by simp [h.small]
  have hunits : checkedAdd u64Max s.tokenUnits tokens.length = some (s.tokenUnits + tokens.length) := by
    simp [h.unitsFit]
  have hgeneration : checkedAdd u64Max s.generation 1 = some (s.generation + 1) := by
    simp [h.generationFits]
  obtain ⟨refused, hrefused, hiff⟩ := refused_eq_ok identity history tokens.length
    (s.tokenUnits + tokens.length) halignment
  obtain rfl := hiff.mpr ⟨h.compatible, mt List.length_eq_zero_iff.mp h.nonempty, h.aligned, h.history,
    h.room, h.units⟩
  simp [admission, hboundary, hunits, hrefused, hgeneration, h.id]

/-- The checks of an insertion come back, with an error or with what they let through. -/
theorem admit_cases (identity : PrefixIdentity) (tokens : List Nat) (history : ArithmeticHistory)
    (halignment : 0 < s.alignment) :
    (∃ e, s.admission identity tokens history = .err e) ∨
      ∃ id, Admitted s identity tokens history id := by
  by_cases hsmall : tokens.length ≤ u32Max
  swap
  · exact .inl ⟨.invalid "prefix length overflow", by simp [admission, tryFrom, hsmall]⟩
  by_cases hfit : s.tokenUnits + tokens.length ≤ u64Max
  swap
  · exact .inl ⟨.invalid "prefix metadata overflow", by simp [admission, tryFrom, hsmall, checkedAdd, hfit]⟩
  obtain ⟨refused, hrefused, hiff⟩ := refused_eq_ok identity history tokens.length
    (s.tokenUnits + tokens.length) halignment
  cases refused with
  | true =>
    refine .inl ⟨.invalid "prefix identity, history, alignment or metadata capacity", ?_⟩
    simp [admission, tryFrom, hsmall, checkedAdd, hfit, hrefused, invalid]
  | false =>
    obtain ⟨hcompatible, hnonempty, haligned, hhistory, hroom, hunits⟩ := hiff.mp rfl
    by_cases hgeneration : s.generation + 1 ≤ u64Max
    · exact .inr ⟨⟨s.index, s.generation + 1⟩, {
        compatible := hcompatible
        nonempty := mt List.length_eq_zero_iff.mpr hnonempty
        small := hsmall
        aligned := haligned
        history := hhistory
        room := hroom
        units := hunits
        unitsFit := hfit
        generationFits := hgeneration
        id := rfl }⟩
    · refine .inl ⟨.invalid "checkpoint generations exhausted", ?_⟩
      simp [admission, tryFrom, hsmall, checkedAdd, hfit, hrefused, hgeneration]

theorem insert_of_admitted (h : Admitted s identity tokens history id) (halignment : 0 < s.alignment) :
    insert identity tokens history s = (.ok id, publish s tokens history id) := by
  have hadmit : (Method.read fun s => s.admission identity tokens history : Method PrefixIndex Error _) s =
      (.ok (tokens.length, s.tokenUnits + tokens.length, id), s) := by
    rw [Method.read_run, admit_of_admitted h halignment]
  rw [insert, Method.bind_ok hadmit]
  rfl

/-- An insertion is refused without effect, or publishes. -/
theorem insert_cases (identity : PrefixIdentity) (tokens : List Nat) (history : ArithmeticHistory)
    (halignment : 0 < s.alignment) :
    (∃ e, insert identity tokens history s = (.err e, s)) ∨
      ∃ id, Admitted s identity tokens history id ∧
        insert identity tokens history s = (.ok id, publish s tokens history id) := by
  rcases admit_cases identity tokens history halignment with ⟨e, he⟩ | ⟨id, h⟩
  · exact .inl ⟨e, Method.bind_err (by rw [Method.read_run, he])⟩
  · exact .inr ⟨id, h, insert_of_admitted h halignment⟩

/-- A removal of an unknown id changes nothing. -/
theorem remove_unknown (h : s.entries[id]? = none) : remove id s = (.ok false, s) := by
  rw [remove, Method.bind_ok (Method.get_run s), h]
  rfl

theorem remove_known {entry : Entry} (h : s.entries[id]? = some entry)
    (hunits : entry.boundary ≤ s.tokenUnits) :
    remove id s = (.ok true, withdraw s id entry.boundary) := by
  rw [remove, Method.bind_ok (Method.get_run s), h]
  simp only
  rw [Method.bind_ok (Method.modify_run _ _), Method.bind_ok (by
    rw [Method.read_run, Outcome.sub_of_le hunits])]
  rfl

end

/-! ## The index of a list of checkpoints -/

/-- Tree, entries and counters are those of the live checkpoints. -/
structure Indexed (live : List Checkpoint) (s : PrefixIndex) : Prop where
  alignment : 0 < s.alignment
  root : s.root.edge = []
  canonical : s.root.Canonical
  holds : ∀ id path, s.root.Holds id path ↔ ∃ c ∈ live, c.id = id ∧ c.tokens = path
  entries : ∀ id e, s.entries[id]? = some e ↔ ∃ c ∈ live, c.id = id ∧ c.entry = e
  size : s.entries.size = live.length
  nodup : (live.map Checkpoint.id).Nodup
  ids : ∀ c ∈ live, c.id.index = s.index ∧ c.id.generation ≤ s.generation
  small : ∀ c ∈ live, c.tokens ≠ [] ∧ c.tokens.length ≤ u32Max
  histories : ∀ c ∈ live, c.history.value.tokens = c.tokens.length
  units : s.tokenUnits = Checkpoint.units live
  bounded : s.tokenUnits ≤ s.maxTokenUnits
  room : s.len ≤ s.maxEntries

section

variable {s : PrefixIndex} {live : List Checkpoint} {identity : PrefixIdentity} {tokens : List Nat}
  {history : CompletedHistory} {id : CheckpointId} {c : Checkpoint}

theorem Indexed.getElem? (h : Indexed live s) (hc : c ∈ live) : s.entries[c.id]? = some c.entry :=
  (h.entries _ _).mpr ⟨c, hc, rfl, rfl⟩

theorem Indexed.getElem?_eq_none (h : Indexed live s) (hid : ∀ c ∈ live, c.id ≠ id) :
    s.entries[id]? = none := by
  cases hentry : s.entries[id]? with
  | none => rfl
  | some e =>
    obtain ⟨c, hc, heq, -⟩ := (h.entries id e).mp hentry
    exact absurd heq (hid c hc)

theorem Indexed.eq_of_id (h : Indexed live s) {c' : Checkpoint} (hc : c ∈ live) (hc' : c' ∈ live)
    (heq : c.id = c'.id) : c = c' :=
  List.inj_on_of_nodup_map h.nodup hc hc' heq

/-- The id of an insertion is not in use. -/
theorem Indexed.fresh (h : Indexed live s)
    (hadmitted : Admitted s identity tokens history.value id) : ∀ c ∈ live, c.id ≠ id := by
  intro c hc heq
  have hgeneration := (h.ids c hc).2
  rw [heq, hadmitted.id] at hgeneration
  exact absurd hgeneration (Nat.not_succ_le_self _)

theorem Indexed.publish (h : Indexed live s)
    (hadmitted : Admitted s identity tokens history.value id) :
    Indexed (live ++ [⟨id, tokens, history⟩]) (publish s tokens history.value id) := by
  have hfresh := h.fresh hadmitted
  have hnone := h.getElem?_eq_none hfresh
  have hinserted := Node.inserted_insert id h.canonical (Nat.le_refl tokens.length)
  have hsnoc : ∀ P : Checkpoint → Prop, (∃ c ∈ live ++ [⟨id, tokens, history⟩], P c) ↔
      (∃ c ∈ live, P c) ∨ P ⟨id, tokens, history⟩ := by
    intro P
    simp [or_and_right, exists_or]
  have hall : ∀ P : Checkpoint → Prop, (∀ c ∈ live, P c) → P ⟨id, tokens, history⟩ →
      ∀ c ∈ live ++ [⟨id, tokens, history⟩], P c := by
    intro P hlive hnew c hc
    rcases List.mem_append.mp hc with hc | hc
    · exact hlive c hc
    · exact List.mem_singleton.mp hc ▸ hnew
  exact {
    alignment := h.alignment
    root := hinserted.edge.trans h.root
    canonical := hinserted.canonical
    holds := by
      intro id' path
      rw [hsnoc, ← h.holds, @eq_comm _ id, @eq_comm _ tokens]
      exact hinserted.holds id' path
    entries := by
      intro id' e
      rw [hsnoc, ← h.entries]
      rw [PrefixIndex.publish, ExtTreeMap.getElem?_insert_eq_some]
      constructor
      · rintro (⟨rfl, rfl⟩ | ⟨-, hentry⟩)
        · exact .inr ⟨rfl, rfl⟩
        · exact .inl hentry
      · rintro (hentry | ⟨rfl, rfl⟩)
        · refine .inr ⟨?_, hentry⟩
          rintro rfl
          rw [hnone] at hentry
          cases hentry
        · exact .inl ⟨rfl, rfl⟩
    size := by
      rw [PrefixIndex.publish, ExtTreeMap.size_insert_of_none hnone, h.size, List.length_append,
        List.length_singleton]
    nodup := by
      rw [List.map_append, List.nodup_append]
      refine ⟨h.nodup, List.nodup_singleton _, ?_⟩
      rintro a ha b hb rfl
      obtain ⟨c, hc, heq⟩ := List.mem_map.mp ha
      exact hfresh c hc (heq.trans (List.mem_singleton.mp hb))
    ids := hall _ (fun c hc => ⟨(h.ids c hc).1, by
        have := (h.ids c hc).2
        simp only [PrefixIndex.publish, hadmitted.id]
        omega⟩)
      (by simp [PrefixIndex.publish, hadmitted.id])
    small := hall _ h.small ⟨hadmitted.nonempty, hadmitted.small⟩
    histories := hall _ h.histories hadmitted.history
    units := by
      simp only [PrefixIndex.publish, Checkpoint.units, List.map_append, List.map_cons, List.map_nil,
        List.sum_append, List.sum_cons, List.sum_nil, Nat.add_zero, h.units]
    bounded := hadmitted.units
    room := by
      have hroom : s.entries.size < s.maxEntries := hadmitted.room
      rw [PrefixIndex.publish, PrefixIndex.len, ExtTreeMap.size_insert_of_none hnone]
      exact hroom }

theorem Indexed.withdraw (h : Indexed live s) (hc : c ∈ live) :
    Indexed (live.filter fun x => x.id ≠ c.id) (withdraw s c.id c.tokens.length) := by
  have hremoved := Node.removed_remove c.id h.canonical
  have hperm : live.Perm (c :: live.filter fun x => x.id ≠ c.id) :=
    Scan.perm_cons_filter_ne h.nodup hc
  have hsize := ExtTreeMap.size_erase_of_some (h.getElem? hc)
  have hexists : ∀ P : Checkpoint → Prop, (∃ x ∈ live.filter fun x => x.id ≠ c.id, P x) ↔
      ∃ x ∈ live, x.id ≠ c.id ∧ P x := by
    intro P
    simp only [List.mem_filter, decide_eq_true_eq, and_assoc]
  have hall : ∀ P : Checkpoint → Prop, (∀ x ∈ live, P x) →
      ∀ x ∈ live.filter fun x => x.id ≠ c.id, P x :=
    fun P hlive x hx => hlive x (List.mem_filter.mp hx).1
  have hunits : s.tokenUnits =
      c.tokens.length + Checkpoint.units (live.filter fun x => x.id ≠ c.id) := by
    rw [h.units, Checkpoint.units, (hperm.map _).sum_eq, List.map_cons, List.sum_cons]
    rfl
  exact {
    alignment := h.alignment
    root := hremoved.edge.trans h.root
    canonical := hremoved.canonical
    holds := by
      intro id' path
      rw [hexists, PrefixIndex.withdraw, hremoved.holds, h.holds]
      constructor
      · rintro ⟨hne, x, hx, rfl, hpath⟩
        exact ⟨x, hx, hne, rfl, hpath⟩
      · rintro ⟨x, hx, hne, rfl, hpath⟩
        exact ⟨hne, x, hx, rfl, hpath⟩
    entries := by
      intro id' e
      rw [hexists, PrefixIndex.withdraw, ExtTreeMap.getElem?_erase_eq_some, h.entries]
      constructor
      · rintro ⟨hne, x, hx, rfl, hentry⟩
        exact ⟨x, hx, hne.symm, rfl, hentry⟩
      · rintro ⟨x, hx, hne, rfl, hentry⟩
        exact ⟨hne.symm, x, hx, rfl, hentry⟩
    size := by
      have hlength := hperm.length_eq
      rw [List.length_cons] at hlength
      have := h.size
      rw [PrefixIndex.withdraw]
      simp only
      omega
    nodup := (List.filter_sublist.map _).nodup h.nodup
    ids := hall _ h.ids
    small := hall _ h.small
    histories := hall _ h.histories
    units := by
      rw [PrefixIndex.withdraw]
      simp only
      omega
    bounded := Nat.le_trans (Nat.sub_le _ _) h.bounded
    room := by
      have hroom : s.entries.size ≤ s.maxEntries := h.room
      rw [PrefixIndex.withdraw, len]
      simp only
      omega }

/-- The four ways a call comes back. -/
inductive Answer (live : List Checkpoint) (s : PrefixIndex) : Op → Outcome Error Reply × PrefixIndex → Prop where
  | refused {identity : PrefixIdentity} {tokens : List Nat} {history : CompletedHistory} (e : Error) :
      Answer live s (.insert identity tokens history) (.err e, s)
  | published {identity : PrefixIdentity} {tokens : List Nat} {history : CompletedHistory}
      {id : CheckpointId} (hadmitted : Admitted s identity tokens history.value id) :
      Answer live s (.insert identity tokens history)
        (.ok (.inserted id), publish s tokens history.value id)
  | unknown {id : CheckpointId} (hid : ∀ c ∈ live, c.id ≠ id) : Answer live s (.remove id) (.ok (.removed false), s)
  | withdrawn {c : Checkpoint} (hc : c ∈ live) :
      Answer live s (.remove c.id) (.ok (.removed true), withdraw s c.id c.tokens.length)

theorem Indexed.boundary_le (h : Indexed live s) (hc : c ∈ live) : c.tokens.length ≤ s.tokenUnits := by
  rw [h.units]
  exact List.le_sum_of_mem (List.mem_map.mpr ⟨c, hc, rfl⟩)

theorem Indexed.answer (h : Indexed live s) (op : Op) : Answer live s op (step op s) := by
  cases op with
  | insert identity tokens history =>
    rcases insert_cases identity tokens history.value h.alignment with
      ⟨e, hrun⟩ | ⟨id, hadmitted, hrun⟩
    · rw [PrefixIndex.step, Method.bind_err hrun]
      exact .refused e
    · rw [PrefixIndex.step, Method.bind_ok hrun]
      exact .published hadmitted
  | remove id =>
    by_cases hid : ∃ c ∈ live, c.id = id
    · obtain ⟨c, hc, rfl⟩ := hid
      have hrun := remove_known (h.getElem? hc) (h.boundary_le hc)
      rw [PrefixIndex.step, Method.bind_ok hrun]
      exact .withdrawn hc
    · have hunknown : ∀ c ∈ live, c.id ≠ id := fun c hc heq => hid ⟨c, hc, heq⟩
      have hrun := remove_unknown (h.getElem?_eq_none hunknown)
      rw [PrefixIndex.step, Method.bind_ok hrun]
      exact .unknown hunknown

/-- One more call keeps the index that of its live checkpoints. -/
theorem Indexed.step (h : Indexed live s) (op : Op) :
    Indexed (liveAfter live (event step s op)) (PrefixIndex.step op s).2 := by
  have hanswer := h.answer op
  rw [event]
  revert hanswer
  generalize PrefixIndex.step op s = reply
  intro hanswer
  cases hanswer with
  | refused e => exact h
  | published hadmitted => exact h.publish hadmitted
  | unknown hid =>
    simp only [liveAfter]
    rw [List.filter_eq_self.mpr fun c hc => decide_eq_true (hid c hc)]
    exact h
  | withdrawn hc => exact h.withdraw hc

/-- The parts of an index no call changes. -/
structure SameLimits (s s' : PrefixIndex) : Prop where
  identity : s'.identity = s.identity
  index : s'.index = s.index
  alignment : s'.alignment = s.alignment
  maxEntries : s'.maxEntries = s.maxEntries
  maxTokenUnits : s'.maxTokenUnits = s.maxTokenUnits

theorem Answer.sameLimits {op : Op} {reply : Outcome Error Reply × PrefixIndex}
    (h : Answer live s op reply) : SameLimits s reply.2 := by
  cases h <;> exact ⟨rfl, rfl, rfl, rfl, rfl⟩

end

/-! ## Runs -/

/-- An index that `new` has made. -/
def Fresh (p : PrefixIndex) : Prop :=
  ∃ identity alignment maxEntries maxTokenUnits nextIndex counter,
    new identity alignment maxEntries maxTokenUnits nextIndex = .ok (p, counter)

theorem canonical_default : Node.default.Canonical :=
  ⟨List.Pairwise.nil, by simp, by simp, by simp⟩

theorem not_holds_default {id : CheckpointId} {path : List Nat} : ¬Node.default.Holds id path := by
  simp [Node.default, Node.holds_mk]

theorem Fresh.indexed {p : PrefixIndex} (h : Fresh p) : Indexed [] p := by
  obtain ⟨identity, alignment, maxEntries, maxTokenUnits, nextIndex, counter, hnew⟩ := h
  rw [new] at hnew
  split at hnew
  · exact absurd hnew invalid_ne_ok
  · rename_i hlimits
    simp only [not_or] at hlimits
    split at hnew
    · exact absurd hnew invalid_ne_ok
    · obtain ⟨rfl, -⟩ := Prod.mk.inj (Outcome.ok.inj hnew)
      exact {
        alignment := Nat.pos_of_ne_zero hlimits.2.1
        root := rfl
        canonical := canonical_default
        holds := by simp [not_holds_default]
        entries := by simp
        size := by simp
        nodup := by simp
        ids := by simp
        small := by simp
        histories := by simp
        units := rfl
        bounded := Nat.zero_le _
        room := by simp [len] }

theorem run_indexed {p : PrefixIndex} (h : Fresh p) (ops : List Op) :
    Indexed (live (history step ops p)) (final step ops p) ∧ SameLimits p (final step ops p) := by
  refine history_induction
    (P := fun events s => Indexed (live events) s ∧ SameLimits p s) ⟨h.indexed, rfl, rfl, rfl, rfl, rfl⟩ ?_ ops
  rintro events s op ⟨hs, hlimits⟩
  have hnext := (hs.answer op).sameLimits
  refine ⟨?_, ?_⟩
  · rw [live, List.foldl_append]
    exact hs.step op
  · exact ⟨hnext.identity.trans hlimits.identity, hnext.index.trans hlimits.index,
      hnext.alignment.trans hlimits.alignment, hnext.maxEntries.trans hlimits.maxEntries,
      hnext.maxTokenUnits.trans hlimits.maxTokenUnits⟩

/-! ## The tree of a list of checkpoints -/

/-- Publish checkpoints one after another, into an empty tree. -/
def build (live : List Checkpoint) : Node :=
  live.foldl (fun node c => node.insert c.tokens.length c.tokens c.id) Node.default

theorem built (live : List Checkpoint) :
    (build live).edge = [] ∧ (build live).Canonical ∧
      (∀ id path, (build live).Holds id path ↔ ∃ c ∈ live, c.id = id ∧ c.tokens = path) ∧
      (build live).edgeTokens ≤ Checkpoint.units live := by
  induction live using List.reverseRecOn with
  | nil => exact ⟨rfl, canonical_default, by simp [build, not_holds_default], Nat.zero_le _⟩
  | append_singleton live c ih =>
    obtain ⟨hedge, hcanonical, hholds, hunits⟩ := ih
    have hbuild : build (live ++ [c]) = (build live).insert c.tokens.length c.tokens c.id := by
      rw [build, List.foldl_append]
      rfl
    have hinserted := Node.inserted_insert c.id hcanonical (Nat.le_refl c.tokens.length)
    rw [hbuild]
    refine ⟨hinserted.edge.trans hedge, hinserted.canonical, ?_, ?_⟩
    · intro id path
      rw [hinserted.holds, hholds]
      simp [or_and_right, exists_or, @eq_comm _ id, @eq_comm _ path]
    · have hgrown := hinserted.edgeTokens
      simp only [Checkpoint.units, List.map_append, List.map_cons, List.map_nil, List.sum_append,
        List.sum_cons, List.sum_nil] at hunits ⊢
      omega

theorem Indexed.root_eq_build {live : List Checkpoint} {s : PrefixIndex} (h : Indexed live s) :
    s.root = build live := by
  obtain ⟨hedge, hcanonical, hholds, -⟩ := built live
  refine h.canonical.ext hcanonical (h.root.trans hedge.symm) fun id path => ?_
  rw [h.holds, hholds]

/-- The same live checkpoints make the same tree. -/
theorem Indexed.root_eq {live live' : List Checkpoint} {s s' : PrefixIndex} (h : Indexed live s)
    (h' : Indexed live' s') (hsame : ∀ id tokens, (∃ c ∈ live, c.id = id ∧ c.tokens = tokens) ↔
      ∃ c ∈ live', c.id = id ∧ c.tokens = tokens) : s.root = s'.root :=
  h.canonical.ext h'.canonical (h.root.trans h'.root.symm) fun id path => by
    rw [h.holds, h'.holds, hsame]

theorem Indexed.edgeTokens_le {live : List Checkpoint} {s : PrefixIndex} (h : Indexed live s) :
    s.root.edgeTokens ≤ s.tokenUnits := by
  rw [h.root_eq_build, h.units]
  exact (built live).2.2.2

/-- Every run leaves a canonical tree of exactly the live checkpoints, within the
    limits, and calls that are refused or find nothing leave it alone. -/
theorem radix_canonical {p : PrefixIndex} (hp : Fresh p) (ops : List Op) :
    let s := final step ops p
    let checkpoints := live (history step ops p)
    s.root.Canonical ∧
    (∀ id path, s.root.Holds id path ↔ ∃ c ∈ checkpoints, c.id = id ∧ c.tokens = path) ∧
    (∀ id, (∃ entry, s.entries[id]? = some entry) ↔ ∃ c ∈ checkpoints, c.id = id) ∧
    (checkpoints.map Checkpoint.id).Nodup ∧
    (∀ p', Fresh p' → ∀ ops',
      (∀ id tokens, (∃ c ∈ checkpoints, c.id = id ∧ c.tokens = tokens) ↔
        ∃ c ∈ live (history step ops' p'), c.id = id ∧ c.tokens = tokens) →
      s.root = (final step ops' p').root) ∧
    s.root.edgeTokens ≤ s.tokenUnits ∧
    s.tokenUnits = (checkpoints.map fun c => c.tokens.length).sum ∧
    s.tokenUnits ≤ p.maxTokenUnits ∧
    s.len = checkpoints.length ∧ s.len ≤ p.maxEntries ∧
    ∀ op, (step op s).1 ≠ .panic ∧
      ((∃ e, (step op s).1 = .err e) → (step op s).2 = s) ∧
      (∀ id, op = .remove id → (∀ c ∈ checkpoints, c.id ≠ id) →
        step op s = (.ok (.removed false), s)) := by
  intro s checkpoints
  obtain ⟨hs, hlimits⟩ := run_indexed hp ops
  refine ⟨hs.canonical, hs.holds, ?_, hs.nodup, ?_, hs.edgeTokens_le, hs.units,
    hlimits.maxTokenUnits ▸ hs.bounded, hs.size, hlimits.maxEntries ▸ hs.room, fun op => ?_⟩
  · intro id
    constructor
    · rintro ⟨entry, hentry⟩
      obtain ⟨c, hc, heq, -⟩ := (hs.entries id entry).mp hentry
      exact ⟨c, hc, heq⟩
    · rintro ⟨c, hc, rfl⟩
      exact ⟨c.entry, hs.getElem? hc⟩
  · intro p' hp' ops' hsame
    exact hs.root_eq (run_indexed hp' ops').1 hsame
  · have hanswer := hs.answer op
    revert hanswer
    generalize step op s = reply
    intro hanswer
    cases hanswer with
    | refused e => exact ⟨by simp, fun _ => rfl, fun id hop => by cases hop⟩
    | published hadmitted =>
      exact ⟨by simp, fun herr => by simp at herr, fun id hop => by cases hop⟩
    | unknown hid => exact ⟨by simp, fun _ => rfl, fun id hop hunknown => rfl⟩
    | withdrawn hc =>
      refine ⟨by simp, fun herr => by simp at herr, fun id hop hunknown => ?_⟩
      obtain rfl := Op.remove.inj hop
      exact absurd rfl (hunknown _ hc)

/-! ## A small index -/

def sampleIdentity : PrefixIdentity where
  engine := {
    programSha256 := "0123456789abcdef0123456789abcdef0123456789abcdef0123456789abcdef"
    checkpointMetadataSha256 := "0123456789abcdef0123456789abcdef0123456789abcdef0123456789abcdef"
    backendRevision := "0123456789abcdef0123456789abcdef0123456789abcdef0123456789abcdef"
    devices := [0] }
  numericalClass := "f32"
  tokenizerTemplateSha256 := "0123456789abcdef0123456789abcdef0123456789abcdef0123456789abcdef"
  tenantNamespace := "tenant"
  adapterSha256 := none

def sampleVariant : Variant := ⟨"extend", .extend, 1, 2, 2, 64, "f32", true, true⟩

def sampleIndex : PrefixIndex where
  identity := sampleIdentity
  index := 7
  generation := 0
  alignment := 2
  maxEntries := 4
  maxTokenUnits := 64
  tokenUnits := 0
  root := Node.default
  entries := ∅

theorem sample_fresh : Fresh sampleIndex :=
  ⟨sampleIdentity, 2, 4, 64, 7, 8, by rfl⟩

/-- A branch below a checkpoint, and the removal that makes it a plain edge. -/
def sampleOps : List Op := [
  .insert sampleIdentity [1, 2] (.of [⟨sampleVariant, 0, 2⟩]),
  .insert sampleIdentity [1, 2, 3, 4] (.of [⟨sampleVariant, 0, 2⟩, ⟨sampleVariant, 2, 2⟩]),
  .insert sampleIdentity [1, 2, 5, 6] (.of [⟨sampleVariant, 0, 2⟩, ⟨sampleVariant, 2, 2⟩]),
  .remove ⟨7, 2⟩]

theorem radix_canonical_sample :
    let s := final step sampleOps sampleIndex
    s.root.Canonical ∧ s.root.edgeTokens ≤ s.tokenUnits ∧ s.tokenUnits ≤ 64 ∧ s.len ≤ 4 := by
  obtain ⟨hcanonical, -, -, -, -, hedges, -, hunits, -, hroom, -⟩ :=
    radix_canonical sample_fresh sampleOps
  exact ⟨hcanonical, hedges, hunits, hroom⟩

end PrefixIndex

end Inferfabric.Runtime
