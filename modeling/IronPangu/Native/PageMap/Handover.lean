-- SUMMARY: The handing over of a new reservation: the native side takes the page lists the host has reserved.
import IronPangu.Native.PageMap.Admissions

open Rust Std

/-!
# Handing over a reservation

The host reserves first, and gives the pages of every paged state to the map of its
rank afterwards. The lists of one reservation are for different maps, and each fits
the map it is for.
-/

namespace Inferfabric.Native

open Inferfabric.Ir Inferfabric.Runtime
open State (ResidentPages)
open State.ResidentPages (Settled SameLayout Rebound)

namespace Engine

open Method StatePool

variable {w : Watched} {m : Manifest} {state : State} {page : Nat} {e e' : Engine} {s : SharedState} {slot : Nat}

/-! ## What the pool hands over -/

theorem stateBudget_units {residents : Nat} {budget : StateBudget} {node : Nat}
    (h : stateBudget residents state = .ok budget) (hnode : budget.node = some node) :
    ∃ page rowBytes encoding, state.storage = .pages page rowBytes encoding ∧ budget.units = state.capacityTokens / page := by
  obtain ⟨-, -, page, rowBytes, encoding, hstorage⟩ := stateBudget_node h hnode
  refine ⟨page, rowBytes, encoding, hstorage, ?_⟩
  simp only [stateBudget, stateUnits, hstorage, Outcome.bind_eq_ok] at h
  obtain ⟨⟨units, node'⟩, ⟨_, -, quotient, hdiv, hunits⟩, capacities, -, h⟩ := h
  obtain rfl := Outcome.ok.inj h
  obtain ⟨rfl, -⟩ := Prod.mk.inj (Outcome.ok.inj hunits)
  rw [Outcome.div] at hdiv
  split at hdiv
  · cases hdiv
  · exact (Outcome.ok.inj hdiv).symm

theorem limited_of_kept {nextPool counter : Nat} {s₀ : SharedState} (hnew : SharedState.new m nextPool = .ok (s₀, counter))
    (hkept : SharedKept s₀ s) : Limited s := by
  intro component node hnode
  rw [hkept.cacheNodes] at hnode
  rw [hkept.cachePageLimits]
  simp only [SharedState.new, Outcome.bind_eq_ok] at hnew
  obtain ⟨budgets, hbudgets, ⟨pool, nextPool'⟩, hpool, h⟩ := hnew
  obtain ⟨rfl, -⟩ := Prod.mk.inj (Outcome.ok.inj h)
  have hfresh := fresh_of_new hpool
  obtain ⟨budget, hbudget, hpair⟩ := List.mem_filterMap.mp (ExtTreeMap.mem_of_getElem?_ofList hnode)
  obtain ⟨node', hnode', heq⟩ := Option.map_eq_some_iff.mp hpair
  obtain ⟨hid, -⟩ := Prod.mk.inj heq
  have hmem : component ∈ ExtTreeMap.ofList ((budgets.filter (·.node.isSome)).map fun b => (b.id, b.units)) compare := by
    rw [ExtTreeMap.mem_ofList]
    simp only [List.map_map, List.contains_iff_mem, List.mem_map, List.mem_filter]
    exact ⟨budget, ⟨hbudget, by simp [hnode']⟩, hid⟩
  obtain ⟨limit, hlimit⟩ : ∃ limit : Nat, (ExtTreeMap.ofList ((budgets.filter (·.node.isSome)).map fun b => (b.id, b.units)) compare)[component]? = some limit :=
    ⟨_, ExtTreeMap.getElem?_eq_some_getElem hmem⟩
  refine ⟨limit, hlimit, ?_⟩
  obtain ⟨budget', hbudget', heq'⟩ := List.mem_map.mp (ExtTreeMap.mem_of_getElem?_ofList hlimit)
  obtain ⟨-, rfl⟩ := Prod.mk.inj heq'
  obtain ⟨hbudget', hsome⟩ := List.mem_filter.mp hbudget'
  obtain ⟨node₁, hnode₁⟩ := Option.isSome_iff_exists.mp hsome
  obtain ⟨state', hstate', hrun⟩ := Outcome.collect_mem_right hbudgets hbudget'
  obtain ⟨page', rowBytes, encoding, hstorage, hunits⟩ := stateBudget_units hrun hnode₁
  obtain ⟨_, _, -, -, hvalid, -⟩ := Manifest.validate_eq_ok hfresh.valid
  obtain ⟨hpos, -, hmod, -⟩ := Manifest.checkStorage_pages hstorage (hvalid _ hstate').storage
  obtain ⟨seen, hown⟩ := (hvalid _ hstate').ownership
  have hcapacity := Nat.pos_of_ne_zero (Manifest.checkOwnership_eq_ok.mp hown).2.2.1
  rw [hunits]
  exact Nat.div_pos (Nat.le_of_dvd hcapacity (Nat.dvd_of_mod_eq_zero hmod)) hpos

/-- The node of a paged state is registered under its name. -/
theorem cacheNode_of_paged {nextPool counter : Nat} {s₀ : SharedState} (hnew : SharedState.new m nextPool = .ok (s₀, counter))
    (hstate : state ∈ m.states) (hpaged : Paged state page) : s₀.cacheNodes[state.id]? = some state.logicalNode := by
  have hnew' := hnew
  simp only [SharedState.new, Outcome.bind_eq_ok] at hnew
  obtain ⟨budgets, hbudgets, ⟨pool, nextPool'⟩, hpool, h⟩ := hnew
  obtain ⟨rfl, -⟩ := Prod.mk.inj (Outcome.ok.inj h)
  obtain ⟨budget, hbudget, hrun⟩ := Outcome.collect_mem hbudgets hstate
  obtain ⟨rowBytes, encoding, hstorage⟩ := hpaged
  have hbudget' : budget.id = state.id ∧ budget.node = some state.logicalNode := by
    simp only [stateBudget, stateUnits, hstorage, Outcome.bind_eq_ok, Outcome.okOr_eq_ok, tryFrom_eq_some] at hrun
    obtain ⟨⟨units, node'⟩, ⟨_, ⟨-, rfl⟩, quotient, -, hunits⟩, capacities, -, h⟩ := hrun
    obtain rfl := Outcome.ok.inj h
    exact ⟨rfl, (Prod.mk.inj (Outcome.ok.inj hunits)).2.symm⟩
  have hmem : state.id ∈ ExtTreeMap.ofList (budgets.filterMap fun b => b.node.map fun node => (b.id, node)) compare := by
    rw [ExtTreeMap.mem_ofList]
    simp only [List.contains_iff_mem, List.mem_map, List.mem_filterMap]
    exact ⟨(budget.id, state.logicalNode), ⟨budget, hbudget, by rw [hbudget'.2]; rfl⟩, hbudget'.1⟩
  obtain ⟨node, hnode⟩ : ∃ node : Nat,
      (ExtTreeMap.ofList (budgets.filterMap fun b => b.node.map fun node => (b.id, node)) compare)[state.id]? = some node :=
    ⟨_, ExtTreeMap.getElem?_eq_some_getElem hmem⟩
  obtain ⟨state', hstate', hid, rfl, -⟩ := cacheNode_state hnew' hnode
  obtain rfl := state_unique (fresh_of_new hpool).valid hstate' hstate hid
  exact hnode

/-- What a reservation holds in the pool of the map. -/
structure Reservation (m : Manifest) (state : State) (page : Nat) (w : Watched) (s : SharedState) (a : Allocation) (p : Pool)
    (b : Binding) : Prop where
  pool : s.pool.pools[w.index]? = some p
  paged : PagedPool m state page w.map.rank p
  partition : Partition s.pool w.index p
  binding : a.bindings[w.index]? = some b
  component : b.component = state.id
  rank : b.rank = w.map.rank
  fits : Fits a.tokenLimit p b

theorem Watches.linked (h : Watches m state page w) (hkept : SharedKept w.start s) : Linked s.pool ∧ Conserved s.pool ∧
    StatePool.Sized s.pool ∧ (s.pool.pools.map Pool.key).Nodup := by
  obtain ⟨nextPool, counter, hnew⟩ := h.start
  obtain ⟨budgets, -, hfresh, -⟩ := SharedState.new_eq_ok hnew
  obtain ⟨ops, hpool⟩ := hkept.pool
  rw [hpool]
  refine ⟨linked_final hfresh.linked ops, conserved_final hfresh ops, sized_final hfresh ops, ?_⟩
  rw [hfresh.keys_final]
  exact nodup_stateKeys hfresh.valid

theorem Watches.reservation (h : Watches m state page w) (hkept : SharedKept w.start s) {l : Lease} {a : Allocation}
    (halloc : s.pool.allocations[l]? = some a) : ∃ p b, Reservation m state page w s a p b := by
  obtain ⟨hlinked, hconserved, hsized, -⟩ := h.linked hkept
  obtain ⟨nextPool, counter, hnew⟩ := id h.start
  obtain ⟨p₀, hp₀, hkey₀⟩ := h.index
  -- The pools keep their places.
  have hkeys : s.pool.pools.map Pool.key = w.start.pool.pools.map Pool.key := by
    obtain ⟨budgets, -, hfresh, -⟩ := SharedState.new_eq_ok hnew
    obtain ⟨ops, hpool⟩ := hkept.pool
    rw [hpool, hfresh.keys_final, hfresh.keys]
  have hget : (s.pool.pools.map Pool.key)[w.index]? = some ⟨state.id, w.map.rank⟩ := by
    rw [hkeys, List.getElem?_map, hp₀, Option.map_some, hkey₀]
  rw [List.getElem?_map] at hget
  obtain ⟨p, hp, hkey⟩ := Option.map_eq_some_iff.mp hget
  have haligned := hlinked.aligned halloc
  obtain ⟨hi, hp'⟩ := List.getElem?_eq_some_iff.mp hp
  have hi' : w.index < a.bindings.length := haligned.length_eq ▸ hi
  have hof := haligned.get hi hi'
  have hfits := (List.forall₂_iff_get.mp (hsized l a halloc).2).2 w.index hi hi'
  simp only [List.get_eq_getElem, hp'] at hof hfits
  exact ⟨p, a.bindings[w.index], {
    pool := hp
    paged := pagedPool hnew hkept h.member h.paged (List.mem_of_getElem? hp) hkey
    partition := hconserved.partition hlinked hp
    binding := List.getElem?_eq_getElem hi'
    component := by rw [hof.component, hkey]
    rank := by rw [hof.rank, hkey]
    fits := hfits }⟩

theorem Reservation.listed {a : Allocation} {p : Pool} {b : Binding} (hr : Reservation m state page w s a p b)
    (h : Watches m state page w) (hkept : SharedKept w.start s) : (w.map.node, b) ∈ cacheBindings s a.bindings := by
  obtain ⟨nextPool, counter, hnew⟩ := h.start
  refine List.mem_filterMap.mpr ⟨b, List.mem_of_getElem? hr.binding, ?_⟩
  rw [hr.component, hkept.cacheNodes, cacheNode_of_paged hnew h.member h.paged, Option.map_some, h.node]

/-- A listed binding is of a paged state, and of the pool in its place. -/
theorem Watches.listed (h : Watches m state page w) (hkept : SharedKept w.start s) {l : Lease} {a : Allocation}
    (halloc : s.pool.allocations[l]? = some a) {binding : Nat × Binding} (hmem : binding ∈ cacheBindings s a.bindings) :
    ∃ state' ∈ m.states, ∃ page', Paged state' page' ∧ binding.2.component = state'.id ∧ binding.1 = state'.logicalNode ∧
      ∀ unit ∈ binding.2.units, unit < state'.capacityTokens / page' * m.residentSequences := by
  obtain ⟨hlinked, hconserved, -, -⟩ := h.linked hkept
  obtain ⟨nextPool, counter, hnew⟩ := h.start
  obtain ⟨b, hb, hmapped⟩ := List.mem_filterMap.mp hmem
  obtain ⟨node, hnode, rfl⟩ := Option.map_eq_some_iff.mp hmapped
  rw [hkept.cacheNodes] at hnode
  obtain ⟨state', hstate', hid, rfl, page', rowBytes, encoding, hstorage⟩ := cacheNode_state hnew hnode
  refine ⟨state', hstate', page', ⟨rowBytes, encoding, hstorage⟩, hid.symm, rfl, fun unit hunit => ?_⟩
  have haligned := hlinked.aligned halloc
  obtain ⟨i, hi', rfl⟩ := List.mem_iff_getElem.mp hb
  have hi : i < s.pool.pools.length := haligned.length_eq.symm ▸ hi'
  have hof := haligned.get hi hi'
  simp only [List.get_eq_getElem] at hof
  have hp : s.pool.pools[i]? = some s.pool.pools[i] := List.getElem?_eq_getElem hi
  have hkey : s.pool.pools[i].key = ⟨state'.id, s.pool.pools[i].key.rank⟩ := by
    rw [hid, hof.component]
  have hpool := pagedPool hnew hkept hstate' ⟨rowBytes, encoding, hstorage⟩ (List.getElem_mem hi) hkey
  obtain ⟨b', hb', -, hbound⟩ := (hconserved.partition hlinked hp).bound l a halloc
  obtain rfl := Option.some.inj ((List.getElem?_eq_getElem hi').symm.trans hb')
  rw [← hpool.capacity]
  exact (hbound unit hunit).1

theorem Watches.units_le (h : Watches m state page w) (hkept : SharedKept w.start s) {l : Lease} {a : Allocation}
    (halloc : s.pool.allocations[l]? = some a) :
    ∀ binding ∈ cacheBindings s a.bindings, ∀ unit ∈ binding.2.units, unit ≤ i32Max := by
  intro binding hmem unit hunit
  obtain ⟨state', hstate', page', hpaged, -, -, hlt⟩ := h.listed hkept halloc hmem
  exact (hlt unit hunit).le.trans (h.tables state' hstate' page' hpaged)

/-- No two lists are for one map. -/
theorem Watches.keys_nodup (h : Watches m state page w) (hkept : SharedKept w.start s) {l : Lease} {a : Allocation}
    (halloc : s.pool.allocations[l]? = some a) :
    ((cacheBindings s a.bindings).map fun binding => (binding.1, binding.2.rank)).Nodup := by
  obtain ⟨hlinked, -, -, hkeys⟩ := h.linked hkept
  have hapart : a.bindings.Pairwise fun b b' => ¬(b.component = b'.component ∧ b.rank = b'.rank) := by
    refine pairwise_of_forall₂ (hlinked.aligned halloc) (List.pairwise_map.mp hkeys) ?_
    rintro p b p' b' hof hof' hne ⟨hcomponent, hrank⟩
    rw [hof.component, hof'.component] at hcomponent
    rw [hof.rank, hof'.rank] at hrank
    refine hne ?_
    rcases hp : p.key with ⟨c, r⟩
    rcases hp' : p'.key with ⟨c', r'⟩
    rw [hp, hp'] at hcomponent hrank
    obtain rfl : c = c' := hcomponent
    obtain rfl : r = r' := hrank
    rfl
  rw [List.Nodup, List.pairwise_map, cacheBindings, List.pairwise_filterMap]
  refine hapart.imp_of_mem fun {b b'} hb hb' hne binding hlist binding' hlist' heq => hne ?_
  obtain ⟨state₁, hstate₁, page₁, hpaged₁, hid₁, hnode₁, -⟩ := h.listed hkept halloc (List.mem_filterMap.mpr ⟨b, hb, hlist⟩)
  obtain ⟨state₂, hstate₂, page₂, hpaged₂, hid₂, hnode₂, -⟩ := h.listed hkept halloc (List.mem_filterMap.mpr ⟨b', hb', hlist'⟩)
  obtain ⟨hnodes, hranks⟩ := Prod.mk.inj heq
  obtain rfl := h.alone state₁ hstate₁ state₂ hstate₂ page₁ page₂ hpaged₁ hpaged₂ (hnode₁.symm.trans (hnodes.trans hnode₂))
  obtain ⟨_, -, rfl⟩ := Option.map_eq_some_iff.mp hlist
  obtain ⟨_, -, rfl⟩ := Option.map_eq_some_iff.mp hlist'
  exact ⟨hid₁.trans hid₂.symm, hranks⟩

/-! ## Admissions -/

theorem Watches.slots (h : Watches m state page w) : w.Covers ∧ w.start.leases.length = m.residentSequences ∧
    w.initial.pagesPerSlot = state.capacityTokens / page ∧ w.initial.pageTokens = page ∧
    w.initial.logicalTokens = state.capacityTokens := by
  obtain ⟨nextPool, counter, hnew⟩ := h.start
  obtain ⟨budgets, -, -, hleases, -⟩ := SharedState.new_eq_ok hnew
  obtain ⟨r, hr, hinitial⟩ := h.initial
  obtain ⟨hsettled, hcount, hpageTokens, hlogical, hpages, -⟩ := ResidentPages.new_settled hr
  obtain ⟨-, hlayout, -⟩ := ResidentPages.releasePreparation_settled hsettled
  have hlength : w.start.leases.length = m.residentSequences := by rw [hleases, List.length_replicate]
  rw [Watched.Covers, hlength, hinitial]
  exact ⟨by rw [hlayout.slots, hcount], rfl, hlayout.pagesPerSlot.trans hpages, hlayout.pageTokens.trans hpageTokens,
    hlayout.logicalTokens.trans hlogical⟩

/-- The shared state with a new reservation of a resident. -/
def withLease (s : SharedState) (slot tokens : Nat) (l : Lease) (p : StatePool) : SharedState :=
  { s with pool := p, leases := s.leases.set slot (some l), tokenLimits := s.tokenLimits.set slot tokens }

theorem Carried.admitted {epoch request tokens : Nat} {l : Lease} {p : StatePool} (h : Carried w none e s)
    (hnone : s.leases[slot]? = some none) (hindex : w.index < s.pool.pools.length) (hpool : SharedKept s { s with pool := p })
    (haccepted : Accepted s.pool (.reserve epoch request tokens (some slot)) (.lease l) p) :
    Carried w (some slot) { e with shared := some (withLease s slot tokens l p) } (withLease s slot tokens l p) where
  shared := rfl
  world := h.world
  kept := h.kept.trans ⟨hpool.pool, List.length_set, List.length_set, rfl, rfl, rfl⟩
  linked := haccepted.linked h.linked
  settled := h.settled
  layout := h.layout
  unrefused := h.unrefused
  holding _ := by
    obtain ⟨-, -, hnew, hhealthy⟩ := haccepted.reserved_held h.linked
    obtain ⟨hheld, hfree, hdistinct⟩ := h.holding hhealthy
    have hslot : slot < s.leases.length := (List.getElem?_eq_some_iff.mp hnone).1
    -- Every lease but the new one is an old one of another resident.
    have hcases : ∀ {slot' : Nat} {l' : Lease}, (s.leases.set slot (some l))[slot']? = some (some l') →
        (slot = slot' ∧ l' = l) ∨ (slot ≠ slot' ∧ s.leases[slot']? = some (some l')) := by
      intro slot' l' hlease
      rw [List.getElem?_set] at hlease
      split at hlease
      · exact .inl ⟨‹_›, (Option.some.inj (Option.some.inj hlease)).symm⟩
      · exact .inr ⟨‹_›, hlease⟩
    have hfresh : ∀ slot' : Nat, s.leases[slot']? ≠ some (some l) := by
      intro slot' hlease
      obtain ⟨a, -, halloc, -⟩ := hheld hlease
      cases hnew.symm.trans halloc
    refine ⟨fun {slot' l'} hlease => ?_, fun {slot'} hfree' => ?_, fun {slot₁ slot₂ l'} h₁ h₂ => ?_⟩
    · rcases hcases hlease with ⟨rfl, rfl⟩ | ⟨hne, hold⟩
      · cases haccepted with
        | reserve _ _ _ _ hbindings =>
          have hb := List.getElem?_eq_getElem (hbindings.length_eq ▸ hindex)
          exact ⟨_, _, ExtTreeMap.getElem?_insert_self, rfl, hb, fun hne => absurd rfl hne⟩
      · obtain ⟨a, b, halloc, hretired, hb, hpages⟩ := hheld hold
        obtain ⟨a', halloc', hretired', hfixed, -⟩ := haccepted.kept h.linked (fun _ h => by cases h) halloc hretired
        refine ⟨a', b, halloc', hretired', Allocation.bindings_of_fixed hfixed ▸ hb, fun _ => hpages fun h => by cases h⟩
    · rcases hfree' with hfree' | hsame
      · by_cases hsame : slot = slot'
        · subst hsame
          rw [withLease, List.getElem?_set_self hslot] at hfree'
          cases hfree'
        · rw [withLease, List.getElem?_set_ne hsame] at hfree'
          exact hfree (.inl hfree')
      · obtain rfl := Option.some.inj hsame
        exact hfree (.inl hnone)
    · rcases hcases h₁ with ⟨hslot₁, hl₁⟩ | ⟨-, hold₁⟩ <;> rcases hcases h₂ with ⟨hslot₂, hl₂⟩ | ⟨-, hold₂⟩
      · exact hslot₁.symm.trans hslot₂
      · exact absurd (hl₁ ▸ hold₂) (hfresh _)
      · exact absurd (hl₂ ▸ hold₁) (hfresh _)
      · exact hdistinct hold₁ hold₂

theorem Watches.index_lt (h : Watches m state page w) (hkept : SharedKept w.start s) : w.index < s.pool.pools.length := by
  obtain ⟨nextPool, counter, hnew⟩ := h.start
  obtain ⟨budgets, -, hfresh, -⟩ := SharedState.new_eq_ok hnew
  obtain ⟨p, hp, -⟩ := h.index
  obtain ⟨ops, hpool⟩ := hkept.pool
  have hkeys : s.pool.pools.map Pool.key = w.start.pool.pools.map Pool.key := by
    rw [hpool, hfresh.keys_final, hfresh.keys]
  have hlength := congrArg List.length hkeys
  rw [List.length_map, List.length_map] at hlength
  rw [hlength]
  exact (List.getElem?_eq_some_iff.mp hp).1

/-- The handing over of a new reservation. -/
theorem carried_handover {tokens : Nat} {l : Lease} {a : Allocation} (h : Watches m state page w)
    (hcarried : Carried w (some slot) e s) (hactive : (w.pages e.calls).active = slot) (hlive : s.pool.poisoned = false)
    (hlease : s.leases[slot]? = some (some l)) (halloc : s.pool.allocations[l]? = some a) (hlimit : a.tokenLimit = tokens)
    (htokens : 0 < tokens) :
    Triple (· = e) (Method.forEach (cacheBindings s a.bindings) bindState) (fun _ e' => ∃ s', Carried w none e' s')
      (fun e' => ∃ s', Carried w none e' s') := by
  obtain ⟨p, b, hr⟩ := h.reservation hcarried.kept halloc
  obtain ⟨hcovers, hslots, hpages, -, -⟩ := h.slots
  obtain ⟨hsome, hcount⟩ := hr.paged.fits htokens (hlimit ▸ hr.fits)
  have hawaiting : Awaiting w slot b (w.pages e.calls) s e :=
    { hcarried with
      pages := rfl
      active := hactive
      healthy := hlive
      lease := ⟨l, a, hlease, halloc, hr.binding⟩ }
  obtain ⟨r', haccepts, hbound⟩ := hawaiting.accepts hr.pool hr.paged hr.partition ⟨hsome, hcount⟩ hcovers
    (hcarried.kept.leases.trans hslots) (hcarried.layout.pagesPerSlot.trans hpages)
  have hall : Triple (Awaiting w slot b (w.pages e.calls) s) (Method.forEach (cacheBindings s a.bindings) bindState)
      (fun _ e' => ∃ s', Carried w none e' s') (fun e' => ∃ s', Carried w none e' s') :=
    awaiting_all (h.units_le hcarried.kept halloc) (hr.listed h hcarried.kept) (h.keys_nodup hcarried.kept halloc)
      hr.rank haccepts hbound
  refine hall.pre ?_
  rintro _ rfl
  exact hawaiting

/-- The new reservation can be read at once. -/
theorem reservation_taken {p q : StatePool} {epoch request tokens : Nat} {slot : Option Nat} {l : Lease}
    (h : Accepted p (.reserve epoch request tokens slot) (.lease l) q) :
    q.Live epoch ∧ 0 < tokens ∧ ∃ a : Allocation, q.allocations[l]? = some a ∧ a.retired = false ∧ a.tokenLimit = tokens := by
  cases h with
  | reserve hlive htokens =>
    exact ⟨⟨hlive.healthy, hlive.current⟩, htokens, _, ExtTreeMap.getElem?_insert_self, rfl, rfl⟩

theorem Watches.limited (h : Watches m state page w) (hkept : SharedKept w.start s) : Limited s := by
  obtain ⟨nextPool, counter, hnew⟩ := h.start
  exact limited_of_kept hnew hkept

/-- A reservation on a selected resident without one, and the handing over of its pages. -/
theorem carried_prepareShared (h : Watches m state page w) (hcarried : Carried w none e s) (hbindFn : e.world.bindStateFn = true)
    (hactive : (w.pages e.calls).active = slot) (hnone : s.leases[slot]? = some none) (tokens : Nat) :
    Triple (· = e) (prepareShared slot tokens s) (fun _ e' => ∃ s', Carried w none e' s')
      (fun e' => ∃ s', Carried w none e' s') := by
  have hsame : ∃ s', Carried w none e s' := ⟨s, hcarried⟩
  have hslot : slot < s.leases.length := (List.getElem?_eq_some_iff.mp hnone).1
  unfold prepareShared
  refine triple_lift_at hsame fun request _ => ?_
  let s₁ : SharedState := { s with nextRequest := request }
  have hcounted : Carried w none { e with shared := some s₁ } s₁ :=
    { hcarried with
      shared := rfl
      kept := hcarried.kept.trans ⟨⟨[], rfl⟩, rfl, rfl, rfl, rfl, rfl⟩
      holding := fun hhealthy => by
        obtain ⟨hheld, hfree, hdistinct⟩ := hcarried.holding hhealthy
        exact ⟨hheld, hfree, hdistinct⟩ }
  refine triple_modify_at ?_
  rw [hcarried.shared, Option.map_some]
  refine triple_lift_at ⟨_, hcounted⟩ fun _ _ => ?_
  have hcall : IsCall (StatePool.reserveAtSlot 1 request tokens slot) (.reserve 1 request tokens (some slot)) .lease := rfl
  have hkeeps : Keeps (Kept (fun _ => True) fun _ => True) (onPool (StatePool.reserveAtSlot 1 request tokens slot)) :=
    keeps_onPool _ _ hcall
  refine Triple.bind (((triple_onPool _ _ hcall hcounted.shared hcounted.linked).and
    (hkeeps.triple { e with shared := some s₁ })).mono ?_ (fun _ _ h => h) ?_) fun lease => ?_
  · rintro _ rfl
    exact ⟨rfl, Steps.refl _⟩
  · rintro _ ⟨rfl, -⟩
    exact ⟨_, hcounted⟩
  refine triple_at fun _ he₁ => ?_
  obtain ⟨⟨p, haccepted, rfl⟩, hkept⟩ := he₁
  obtain ⟨s₂, hs₂, hpool⟩ := hkept.shared s₁ rfl
  obtain rfl := Option.some.inj hs₂
  have hadmitted := hcounted.admitted hnone (h.index_lt hcounted.kept) hpool haccepted
  obtain ⟨hlive, htokens, a, halloc, hretired, hlimit⟩ := reservation_taken haccepted
  refine triple_modify_at ?_
  let e₂ : Engine := { e with shared := some (withLease s₁ slot tokens lease p) }
  have hread : onPool (Method.read fun pool => pool.bindings 1 lease) e₂ = (.ok a.bindings, e₂) := by
    have hbindings : p.bindings 1 lease = .ok a.bindings := StatePool.bindings_eq_ok.mpr ⟨hlive, a, halloc, hretired, rfl⟩
    rw [onPool]
    simp only [e₂, read_run, withLease, hbindings]
  refine triple_run_at hread ?_
  have hsame : cacheBindings s a.bindings = cacheBindings (withLease s₁ slot tokens lease p) a.bindings := rfl
  rw [hsame]
  obtain ⟨crossing, admissions, peak, hcount⟩ := countAdmission_run hadmitted.shared hadmitted.linked
    (h.limited hadmitted.kept) slot a.bindings
  refine triple_run_at hcount ?_
  refine triple_run_at (require_run hbindFn) ?_
  let s₃ : SharedState := { withLease s₁ slot tokens lease p with
    crossPartitionBindings := crossing
    admissions := admissions
    peakOccupiedBytes := peak }
  have hthird : Carried w (some slot) { e₂ with shared := some s₃ } s₃ :=
    { hadmitted with
      shared := rfl
      kept := hadmitted.kept.trans ⟨⟨[], rfl⟩, rfl, rfl, rfl, rfl, rfl⟩
      holding := fun hhealthy => by
        obtain ⟨hheld, hfree, hdistinct⟩ := hadmitted.holding hhealthy
        exact ⟨hheld, hfree, hdistinct⟩ }
  have hhandover := carried_handover h hthird hactive hlive.healthy (List.getElem?_set_self hslot) halloc hlimit htokens
  exact hhandover

end Engine

end Inferfabric.Native
