-- SUMMARY: What construction establishes of a state pool, and induction over the runs from it.
import IronPangu.Runtime.StatePool.Linked

open Rust Std

/-!
# Runs of the state pool

A pool accepted by `new` is linked, so no run from it panics and every call of a
run is either rejected without effect or one of the accepted calls.
-/

namespace Inferfabric.Runtime

open Ir

namespace StatePool

/-! ## Construction -/

/-- What `new` has checked, and the pool it makes. -/
structure Fresh (m : Manifest) (capacities : ExtTreeMap Key Nat) (s : StatePool) : Prop where
  valid : m.validate = .ok ()
  context : m.maxContext? = some s.maxContext
  states : m.states ≠ []
  keys : s.pools.map Pool.key = m.states.flatMap fun state =>
    state.ranks.map fun rank => ⟨state.id, rank⟩
  pools : ∀ p ∈ s.pools, ∃ state ∈ m.states, ∃ rank ∈ state.ranks, ∃ layout,
    unitLayout state.storage = .ok layout ∧ rankPool capacities state layout rank = .ok p
  next : s.next = 0
  allocations : s.allocations = ∅
  borrowers : s.borrowers = ∅
  flights : s.flights = ∅
  healthy : s.poisoned = false

theorem rankPool_eq_ok {capacities : ExtTreeMap Key Nat} {state : State} {layout : Option Nat × Nat}
    {rank : Nat} {p : Pool} (h : rankPool capacities state layout rank = .ok p) :
    ∃ capacity, capacities[(⟨state.id, rank⟩ : Key)]? = some capacity ∧ capacity ≠ 0 ∧
      layout.2 * capacity ≤ u64Max ∧ p = {
        key := ⟨state.id, rank⟩
        unitBytes := layout.2
        capacity := capacity
        pageTokens := layout.1
        maxTokens := state.capacityTokens
        retention := state.retention
        free := ExtTreeSet.ofList (List.range capacity) } := by
  unfold rankPool at h
  split at h
  · simp at h
  · rename_i capacity hcapacity
    split at h
    · simp at h
    · rename_i hbudget
      simp only [not_or, checkedMul_eq_none, Nat.not_lt] at hbudget
      exact ⟨capacity, hcapacity, hbudget.1, hbudget.2, (Outcome.ok.inj h).symm⟩

theorem statePools_eq_ok {capacities : ExtTreeMap Key Nat} {state : State} {ps : List Pool}
    (h : statePools capacities state = .ok ps) :
    ps.map Pool.key = state.ranks.map (fun rank => ⟨state.id, rank⟩) ∧
      ∀ p ∈ ps, ∃ rank ∈ state.ranks, ∃ layout, unitLayout state.storage = .ok layout ∧
        rankPool capacities state layout rank = .ok p := by
  simp only [statePools, Outcome.bind_eq_ok, Outcome.collect_eq_ok] at h
  obtain ⟨layout, hlayout, hpools⟩ := h
  revert hpools
  generalize state.ranks = ranks
  intro hpools
  induction hpools with
  | nil => simp
  | @cons rank p ranks ps hhead htail ih =>
    obtain ⟨capacity, -, -, -, hp⟩ := rankPool_eq_ok hhead
    refine ⟨?_, ?_⟩
    · rw [List.map_cons, List.map_cons, ih.1, hp]
    · intro q hq
      rcases List.mem_cons.mp hq with rfl | hq
      · exact ⟨rank, List.mem_cons_self, layout, hlayout, hhead⟩
      · obtain ⟨r, hr, hbuilt⟩ := ih.2 q hq
        exact ⟨r, List.mem_cons_of_mem _ hr, hbuilt⟩

theorem collect_statePools_eq_ok {capacities : ExtTreeMap Key Nat} {states : List State}
    {pools : List (List Pool)}
    (h : List.Forall₂ (fun state ps => statePools capacities state = .ok ps) states pools) :
    pools.flatten.map Pool.key =
        states.flatMap (fun state => state.ranks.map fun rank => ⟨state.id, rank⟩) ∧
      ∀ p ∈ pools.flatten, ∃ state ∈ states, ∃ rank ∈ state.ranks, ∃ layout,
        unitLayout state.storage = .ok layout ∧ rankPool capacities state layout rank = .ok p := by
  induction h with
  | nil => simp
  | @cons state ps states pools hhead htail ih =>
    obtain ⟨hkeys, hbuilt⟩ := statePools_eq_ok hhead
    refine ⟨?_, ?_⟩
    · rw [List.flatten_cons, List.map_append, hkeys, ih.1, List.flatMap_cons]
    · intro p hp
      rcases List.mem_append.mp hp with hp | hp
      · exact ⟨state, List.mem_cons_self, hbuilt p hp⟩
      · obtain ⟨state', hstate', hrest⟩ := ih.2 p hp
        exact ⟨state', List.mem_cons_of_mem _ hstate', hrest⟩

theorem fresh_of_new {m : Manifest} {epoch nextPool counter : Nat} {capacities : ExtTreeMap Key Nat}
    {s : StatePool} (h : new m epoch capacities nextPool = .ok (s, counter)) :
    Fresh m capacities s := by
  simp only [new, Outcome.check_bind_eq_ok] at h
  obtain ⟨hvalid, h⟩ := h
  split at h
  · simp at h
  rename_i hstates
  simp only [Outcome.bind_eq_ok, Outcome.collect_eq_ok] at h
  obtain ⟨pools, hpools, h⟩ := h
  split at h
  · simp at h
  split at h
  · simp at h
  simp only [Outcome.bind_eq_ok, Outcome.unwrap_eq_ok, Outcome.ok.injEq, Prod.mk.injEq] at h
  obtain ⟨context, hcontext, rfl, -⟩ := h
  obtain ⟨hkeys, hbuilt⟩ := collect_statePools_eq_ok hpools
  exact {
    valid := hvalid
    context := hcontext
    states := fun hnil => hstates (.inr hnil)
    keys := hkeys
    pools := hbuilt
    next := rfl
    allocations := rfl
    borrowers := rfl
    flights := rfl
    healthy := rfl }

/-- The layout of an accepted state has pages of at least one token. -/
theorem unitLayout_pages {storage : Storage} {layout : Option Nat × Nat} {n : Nat}
    (h : unitLayout storage = .ok layout) (hn : layout.1 = some n) :
    ∃ rowBytes encoding, storage = .pages n rowBytes encoding ∧ layout.2 = n * rowBytes := by
  cases storage with
  | pages pageTokens rowBytes encoding =>
    simp only [unitLayout] at h
    split at h
    · rename_i unitBytes hbytes
      obtain rfl := Outcome.ok.inj h
      obtain rfl := Option.some.inj hn
      exact ⟨rowBytes, encoding, rfl, (checkedMul_eq_some.mp hbytes).2.symm⟩
    · simp at h
  | slot bytes dtype =>
    obtain rfl := Outcome.ok.inj h
    cases hn

variable {m : Manifest} {capacities : ExtTreeMap Key Nat} {s s₀ : StatePool}

theorem Fresh.linked (h : Fresh m capacities s) : Linked s where
  pools := by
    intro hnil
    obtain ⟨context, query, -, -, hvalid, -⟩ := Manifest.validate_eq_ok h.valid
    obtain ⟨state, hstate⟩ := List.exists_mem_of_ne_nil _ h.states
    obtain ⟨seen, hown⟩ := (hvalid state hstate).ownership
    obtain ⟨rank, hrank⟩ := List.exists_mem_of_ne_nil _ (Manifest.checkOwnership_eq_ok.mp hown).2.2.2.1
    have hkey : (⟨state.id, rank⟩ : Key) ∈ s.pools.map Pool.key := by
      rw [h.keys, List.mem_flatMap]
      exact ⟨state, hstate, List.mem_map.mpr ⟨rank, hrank, rfl⟩⟩
    simp [hnil] at hkey
  pages {p} hp n hn := by
    obtain ⟨context, query, -, -, hvalid, -⟩ := Manifest.validate_eq_ok h.valid
    obtain ⟨state, hstate, rank, -, layout, hlayout, hpool⟩ := h.pools p hp
    obtain ⟨capacity, -, -, -, rfl⟩ := rankPool_eq_ok hpool
    obtain ⟨rowBytes, encoding, hstorage, -⟩ := unitLayout_pages hlayout hn
    obtain ⟨hpage, -, hdvd, -⟩ := Manifest.checkStorage_pages hstorage (hvalid state hstate).storage
    obtain ⟨seen, hown⟩ := (hvalid state hstate).ownership
    have hcapacity : 0 < state.capacityTokens :=
      Nat.pos_of_ne_zero (Manifest.checkOwnership_eq_ok.mp hown).2.2.1
    exact ⟨hpage, Nat.div_pos (Nat.le_of_dvd hcapacity (Nat.dvd_of_mod_eq_zero hdvd)) hpage⟩
  aligned {l a} halloc := by simp [h.allocations] at halloc
  leases {l a} halloc := by simp [h.allocations] at halloc
  borrowIds {id l} hid := by simp [h.borrowers] at hid
  ticketIds {id f} hid := by simp [h.flights] at hid
  borrowers {id l} := by simp [h.borrowers, h.allocations]
  pending {id l} := by simp [h.flights, h.allocations]
  waiting {id f} hid := by simp [h.flights] at hid
  distinct {id f} hid := by simp [h.flights] at hid

/-! ## Runs -/

/-- A call in a linked state is rejected without effect, or accepted. -/
theorem step_cases (hs : Linked s) (op : Op) :
    (∃ e, step op s = (.err e, s)) ∨ ∃ reply t, step op s = (.ok reply, t) ∧ Accepted s op reply t := by
  rcases hrun : step op s with ⟨reply | e | _, t⟩
  · exact .inr ⟨reply, t, rfl, accepted_of_step hrun⟩
  · obtain rfl := step_atomic op s e t hrun
    exact .inl ⟨e, rfl⟩
  · exact absurd (congrArg Prod.fst hrun) (step_ne_panic hs op)

theorem linked_step (hs : Linked s) (op : Op) : Linked (step op s).2 := by
  rcases step_cases hs op with ⟨e, hrun⟩ | ⟨reply, t, hrun, haccepted⟩
  · rwa [hrun]
  · rw [hrun]
    exact haccepted.linked hs

theorem linked_final (hs : Linked s) (ops : List Op) : Linked (final step ops s) :=
  final_induction hs (fun _ op ht => linked_step ht op) ops

/-- Induction over a run from a linked state: a rejected call only adds its
    event, an accepted one also moves the state. -/
theorem run_induction {P : List (Event StatePool Error Op Reply) → StatePool → Prop}
    (hs : Linked s) (hnil : P [] s)
    (herr : ∀ events t op e, Linked t → P events t → step op t = (.err e, t) →
      P (events ++ [event step t op]) t)
    (hok : ∀ events t op reply u, Linked t → P events t → step op t = (.ok reply, u) →
      Accepted t op reply u → P (events ++ [event step t op]) u)
    (ops : List Op) : P (history step ops s) (final step ops s) := by
  suffices hboth : Linked (final step ops s) ∧ P (history step ops s) (final step ops s) from hboth.2
  refine history_induction (P := fun events t => Linked t ∧ P events t) ⟨hs, hnil⟩ ?_ ops
  rintro events t op ⟨ht, hP⟩
  refine ⟨linked_step ht op, ?_⟩
  rcases step_cases ht op with ⟨e, hrun⟩ | ⟨reply, u, hrun, haccepted⟩
  · have := herr events t op e ht hP hrun
    rwa [hrun]
  · have := hok events t op reply u ht hP hrun haccepted
    rwa [hrun]

/-! ## What a run keeps -/

/-- The fixed part of the pools, the identity and the epoch are those of the
    start. -/
theorem frame_final (hs : Linked s) (ops : List Op) : Frame s (final step ops s) := by
  refine run_induction (P := fun _ t => Frame s t) hs
    ⟨rfl, rfl, rfl, rfl, Nat.le_refl _, fun h => h⟩ (fun _ _ _ _ _ ht _ => ht) ?_ ops
  intro _ t op reply u _ ht _ haccepted
  have hu := haccepted.frame
  exact ⟨hu.id.trans ht.id, hu.epoch.trans ht.epoch, hu.maxContext.trans ht.maxContext,
    hu.fixed.trans ht.fixed, ht.next.trans hu.next, fun h => hu.poisoned (ht.poisoned h)⟩

/-- A pool of a run is, but for its free units, one that construction made. -/
theorem Fresh.pool_final (h : Fresh m capacities s) {ops : List Op} {p : Pool}
    (hp : p ∈ (final step ops s).pools) :
    ∃ state ∈ m.states, ∃ rank ∈ state.ranks, ∃ layout capacity,
      unitLayout state.storage = .ok layout ∧
      capacities[(⟨state.id, rank⟩ : Key)]? = some capacity ∧ layout.2 * capacity ≤ u64Max ∧
      p.fixed = {
        key := ⟨state.id, rank⟩
        unitBytes := layout.2
        capacity := capacity
        pageTokens := layout.1
        maxTokens := state.capacityTokens
        retention := state.retention
        free := ∅ } := by
  have hmem : p.fixed ∈ s.pools.map Pool.fixed := by
    rw [← (frame_final h.linked ops).fixed]
    exact List.mem_map_of_mem hp
  obtain ⟨q, hq, heq⟩ := List.mem_map.mp hmem
  obtain ⟨state, hstate, rank, hrank, layout, hlayout, hpool⟩ := h.pools q hq
  obtain ⟨capacity, hcapacity, -, hbytes, rfl⟩ := rankPool_eq_ok hpool
  exact ⟨state, hstate, rank, hrank, layout, capacity, hlayout, hcapacity, hbytes, heq.symm⟩

theorem Fresh.keys_final (h : Fresh m capacities s) (ops : List Op) :
    (final step ops s).pools.map Pool.key = m.states.flatMap fun state =>
      state.ranks.map fun rank => ⟨state.id, rank⟩ := by
  have hkey : ∀ ps : List Pool, ps.map Pool.key = (ps.map Pool.fixed).map Pool.key := by
    intro ps
    rw [List.map_map]
    rfl
  rw [hkey, (frame_final h.linked ops).fixed, ← hkey, h.keys]

/-! ## A small pool -/

def sampleDigest : String := "0123456789abcdef0123456789abcdef0123456789abcdef0123456789abcdef"

/-- Full retention on two ranks, a ring and a slot. -/
def sampleManifest : Manifest where
  version := 1
  residentSequences := 2
  sharedPages := true
  identity := ⟨sampleDigest, sampleDigest, sampleDigest, [0, 1]⟩
  vocabSize := 8
  eos := 0
  variants := [⟨"decode", .decode, 1, 1, 1, 12, "f32", true, false⟩,
    ⟨"prefill", .prefill, 1, 2, 2, 12, "f32", false, true⟩]
  states := [
    ⟨"latent", 0, [0, 1], .pages 2 4 "bf16", 12, .full, none, true⟩,
    ⟨"window", 1, [0], .pages 2 4 "bf16", 6, .slidingWindow 2, some 3, true⟩,
    ⟨"conv", 2, [0], .slot 16 "f32", 12, .full, none, true⟩]
  qualification := none
  limitations := []

def sampleCapacities : ExtTreeMap Key Nat :=
  (((((∅ : ExtTreeMap Key Nat).insert ⟨"latent", 0⟩ 8).insert ⟨"latent", 1⟩ 9).insert
    ⟨"window", 0⟩ 6).insert ⟨"conv", 0⟩ 3)

def samplePool : StatePool where
  id := 0
  epoch := 1
  maxContext := 12
  next := 0
  pools := [
    ⟨⟨"latent", 0⟩, 8, 8, some 2, 12, .full, ExtTreeSet.ofList (List.range 8)⟩,
    ⟨⟨"latent", 1⟩, 8, 9, some 2, 12, .full, ExtTreeSet.ofList (List.range 9)⟩,
    ⟨⟨"window", 0⟩, 8, 6, some 2, 6, .slidingWindow 2, ExtTreeSet.ofList (List.range 6)⟩,
    ⟨⟨"conv", 0⟩, 16, 3, none, 12, .full, ExtTreeSet.ofList (List.range 3)⟩]
  allocations := ∅
  borrowers := ∅
  flights := ∅
  poisoned := false

theorem sample_new : new sampleManifest 1 sampleCapacities 0 = .ok (samplePool, 1) := by
  rfl

/-! ## Rejected calls -/

/-- From any state, a rejected call leaves the pool as it was, serial numbers
    included: the rest of the run goes as if it had not been made. -/
theorem rejected_call_unchanged {e : Error} (ops ops' : List Op) (op : Op)
    (hrejected : (step op (final step ops s₀)).1 = .err e) :
    (step op (final step ops s₀)).2 = final step ops s₀ ∧
      final step (ops ++ op :: ops') s₀ = final step (ops ++ ops') s₀ ∧
      replies step (ops ++ op :: ops') s₀ =
        replies step ops s₀ ++ .err e :: replies step ops' (final step ops s₀) ∧
      replies step (ops ++ ops') s₀ = replies step ops s₀ ++ replies step ops' (final step ops s₀) := by
  have hdrop := @replies_drop_failed _ _ _ _ step s₀ op ops ops' e (step_atomic op) hrejected
  exact ⟨step_atomic op _ e _ (Prod.ext hrejected rfl), hdrop.2, hdrop.1, replies_append⟩

/-- The second reservation finds room on one rank only and takes nothing. -/
theorem rejected_call_unchanged_sample :
    let s := final step [.reserve 1 7 10 none] samplePool
    let op : Op := .reserve 1 8 8 none
    (step op s).1 = .err (.capacity "state pool latent rank 0") ∧
    (step op s).2 = s ∧
      final step ([.reserve 1 7 10 none] ++ op :: [.retire 1 ⟨0, 1⟩]) samplePool =
        final step ([.reserve 1 7 10 none] ++ [.retire 1 ⟨0, 1⟩]) samplePool ∧
      replies step ([.reserve 1 7 10 none] ++ op :: [.retire 1 ⟨0, 1⟩]) samplePool =
        replies step [.reserve 1 7 10 none] samplePool ++
          .err (.capacity "state pool latent rank 0") :: replies step [.retire 1 ⟨0, 1⟩] s ∧
      replies step ([.reserve 1 7 10 none] ++ [.retire 1 ⟨0, 1⟩]) samplePool =
        replies step [.reserve 1 7 10 none] samplePool ++ replies step [.retire 1 ⟨0, 1⟩] s :=
  ⟨by decide +kernel,
    rejected_call_unchanged [.reserve 1 7 10 none] [.retire 1 ⟨0, 1⟩]
      (.reserve 1 8 8 none) (by decide +kernel)⟩

end StatePool

end Inferfabric.Runtime
