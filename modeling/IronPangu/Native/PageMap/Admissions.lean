-- SUMMARY: Resets and admissions beside a page map: pages are given back on the native side first, and taken there last.
import IronPangu.Native.Mirror.Admissions
import IronPangu.Native.PageMap.Holding

open Rust Std

/-!
# Pages given back and taken

The native side gives a resident's pages back before the host retires its lease, and
takes a new list only after the host has reserved it. Two leases never share a unit,
so the map never finds a listed page with another owner.
-/

namespace Inferfabric.Native

open Inferfabric.Ir Inferfabric.Runtime
open State (ResidentPages)
open State.ResidentPages (Settled SameLayout Rebound)

namespace Engine

open Method StatePool

variable {w : Watched} {pending : Option Nat} {e e' : Engine} {s s' : SharedState} {slot : Nat}

/-- A poisoned pool makes no promise about the maps. -/
theorem Carried.of_poisoned {pending' : Option Nat} (h : Carried w pending e s) (hpoisoned : s.pool.poisoned = true) :
    Carried w pending' e s :=
  { h with holding := fun hhealthy => by cases hpoisoned.symm.trans hhealthy }

/-- The map has a slot for every resident. -/
def Watched.Covers (w : Watched) : Prop := w.initial.slots.length = w.start.leases.length

theorem Carried.slots (h : Carried w pending e s) (hcovers : w.Covers) :
    (w.pages e.calls).slots.length = s.leases.length := by
  rw [h.layout.slots, hcovers, h.kept.leases]

/-! ## Resets -/

theorem Carried.poisoned (h : Carried w pending e s) :
    Carried w none (e.mapPool fun p => { p with poisoned := true })
      { s with pool := { s.pool with poisoned := true } } := by
  have haccepted : Accepted s.pool .poison .done { s.pool with poisoned := true } := .poison
  have hcarried := h.accepted rfl haccepted fun _ _ h => by cases h
  have hsame : e.mapPool (fun p => { p with poisoned := true }) =
      { e with shared := some { s with pool := { s.pool with poisoned := true } } } := by
    rw [mapPool, h.shared]
    rfl
  rw [hsame]
  exact hcarried.of_poisoned rfl

/-- A reset that never came back. -/
theorem Carried.reset_failed (h : Carried w pending e s) (hcovers : w.Covers) (hslot : slot < s.leases.length)
    (hstatus : (w.world.answer (.resetResident slot :: e.calls)).status ≠ 0) :
    Carried w pending (e.called (.resetResident slot)) s := by
  have hpages : w.pages (e.called (.resetResident slot)).calls = w.pages e.calls := PageMap.after_refused hstatus
  obtain ⟨r', hrun, -⟩ := ResidentPages.release_settled h.settled ((h.slots hcovers).symm ▸ hslot)
  exact {
    shared := h.shared
    world := h.world
    kept := h.kept
    linked := h.linked
    settled := hpages ▸ h.settled
    layout := hpages ▸ h.layout
    unrefused := ⟨fun _ => congrArg Prod.fst hrun, h.unrefused⟩
    holding := hpages ▸ h.holding }

/-- The leases left by a reset, with the slot given back. -/
theorem Holding.handedBack {r r' : ResidentPages} {p : StatePool} (h : Holding w.index none s r)
    (hlinked : Linked s.pool) (hback : HandedBack s slot p) (hpages : Rebound slot [] r r')
    (hslot : slot < r.sharedPages.length) :
    Holding w.index none { s with pool := p, leases := s.leases.set slot none } r' where
  held := fun {slot' l} hlease => by
    rw [List.getElem?_set] at hlease
    split at hlease
    · split at hlease <;> cases hlease
    rename_i hne
    obtain ⟨a, b, halloc, hretired, hb, hreserved⟩ := h.held hlease
    have hkept : ∃ a' : Allocation, p.allocations[l]? = some a' ∧ a'.retired = false ∧ a'.bindings = a.bindings := by
      rcases hback with ⟨-, rfl⟩ | ⟨l₀, hl₀, haccepted, -⟩
      · exact ⟨a, halloc, hretired, rfl⟩
      · have hop : ∀ epoch, Runtime.Op.retire 1 l₀ ≠ .retire epoch l := by
          rintro epoch ⟨⟩
          exact hne (h.distinct hl₀ hlease)
        obtain ⟨a', halloc', hretired', hfixed, -⟩ := haccepted.kept hlinked hop halloc hretired
        exact ⟨a', halloc', hretired', Allocation.bindings_of_fixed hfixed⟩
    obtain ⟨a', halloc', hretired', hbindings⟩ := hkept
    refine ⟨a', b, halloc', hretired', hbindings ▸ hb, fun hno => ?_⟩
    rw [hpages.reserved, List.getElem?_set_ne hne]
    exact hreserved hno
  free := fun {slot'} hnone => by
    rcases hnone with hnone | hno
    · rw [hpages.reserved]
      by_cases hsame : slot = slot'
      · rw [← hsame]
        exact List.getElem?_set_self hslot
      · rw [List.getElem?_set_ne hsame]
        rw [List.getElem?_set_ne hsame] at hnone
        exact h.free (.inl hnone)
    · cases hno
  distinct := fun {slot₁ slot₂ l} h₁ h₂ => by
    have hold : ∀ {slot' : Nat}, (s.leases.set slot none)[slot']? = some (some l) → s.leases[slot']? = some (some l) := by
      intro slot' hlease
      rw [List.getElem?_set] at hlease
      split at hlease
      · split at hlease <;> cases hlease
      · exact hlease
    exact h.distinct (hold h₁) (hold h₂)

/-- A completed reset: the map gave the pages back, and then the host. -/
theorem Carried.cleared (h : Carried w none e s) (hcovers : w.Covers) (hslot : slot < s.leases.length)
    (hstatus : (w.world.answer (.resetResident slot :: e.calls)).status = 0)
    (hcleared : Cleared (e.called (.resetResident slot)) s slot e')
    (hkept : ∀ s', e'.shared = some s' → SharedKept s s') : ∃ s', Carried w none e' s' := by
  obtain ⟨calls, sequence, p, hcalls, hback, rfl⟩ := hcleared
  obtain ⟨r', hrun, hbound⟩ := ResidentPages.release_settled h.settled ((h.slots hcovers).symm ▸ hslot)
  have hpages : w.pages (.resetResident slot :: e.calls) = r' := PageMap.after_answered hstatus hrun
  have hrange : slot < (w.pages e.calls).sharedPages.length := by
    rw [h.settled.reserved, h.slots hcovers]
    exact hslot
  have hkept' := hkept _ rfl
  have hcarried : Carried w none { e.called (.resetResident slot) with
      shared := some { s with pool := p, leases := s.leases.set slot none } }
      { s with pool := p, leases := s.leases.set slot none } := {
    shared := rfl
    world := h.world
    kept := h.kept.trans hkept'
    linked := by
      obtain ⟨ops, hops⟩ := hkept'.pool
      rw [hops]
      exact linked_final h.linked ops
    settled := hpages.symm ▸ hbound.settled
    layout := h.layout.trans (hpages.symm ▸ hbound.layout)
    unrefused := ⟨fun _ => congrArg Prod.fst hrun, h.unrefused⟩
    holding := fun hhealthy => by
      have hbefore : s.pool.poisoned = false := by
        rcases hback with ⟨-, rfl⟩ | ⟨l, -, haccepted, -⟩
        · exact hhealthy
        · exact (haccepted.healthy).resolve_right fun h => by cases h
      exact hpages.symm ▸ (h.holding hbefore).handedBack h.linked hback hbound hrange }
  refine ⟨{ s with pool := p, leases := s.leases.set slot none }, ?_⟩
  rcases hcalls with rfl | ⟨number, rfl⟩
  · exact hcarried.beside rfl rfl rfl
  · have haudited : w.map.run (.audit number slot) = Pure.pure () := rfl
    exact (hcarried.skip haudited).beside rfl rfl rfl

theorem carried_resetResident (hcovers : w.Covers) (hsafe : SafeWith e s) (h : Carried w none e s) (slot : Nat) :
    ∃ s', Carried w none (resetResident slot e).2 s' := by
  have hkept : Kept (slot = ·) (fun _ => False) e (resetResident slot e).2 := keeps_resetResident rfl e
  rcases resetResident_cases hsafe slot with ⟨-, error, hrun⟩ | ⟨hreset, hstatus, error, hrun⟩ |
    ⟨hreset, hstatus, reply, e', hrun, -, -, hcleared⟩
  · rw [hrun]
    exact ⟨s, h⟩
  all_goals
    have hslot : slot < s.leases.length := by
      rw [hsafe.leases, ← hsafe.seals]
      exact (List.getElem?_eq_some_iff.mp hreset.taken).1
    rw [h.world] at hstatus
    rw [hrun] at hkept ⊢
  · exact ⟨_, (h.reset_failed hcovers hslot hstatus).poisoned⟩
  · refine h.cleared hcovers hslot hstatus hcleared fun s' hs' => ?_
    obtain ⟨s'', hs'', hsame⟩ := hkept.shared s h.shared
    obtain rfl := Option.some.inj (hs'.symm.trans hs'')
    exact hsame

/-! ## The pool of the map -/

def Paged (state : State) (page : Nat) : Prop := ∃ rowBytes encoding, state.storage = .pages page rowBytes encoding

/-- What is watched is the map of a paged state of the manifest, as preparation left
    it, and every paged state has a map on the native side. -/
structure Watches (m : Manifest) (state : State) (page : Nat) (w : Watched) : Prop where
  start : ∃ nextPool counter, SharedState.new m nextPool = .ok (w.start, counter)
  member : state ∈ m.states
  rank : w.map.rank ∈ state.ranks
  paged : Paged state page
  node : w.map.node = state.logicalNode
  /-- No two paged states are of one node. -/
  alone : ∀ state₁ ∈ m.states, ∀ state₂ ∈ m.states, ∀ page₁ page₂, Paged state₁ page₁ → Paged state₂ page₂ →
    state₁.logicalNode = state₂.logicalNode → state₁ = state₂
  initial : ∃ r, ResidentPages.new page state.capacityTokens m.residentSequences true = .ok r ∧
    w.initial = r.releasePreparation
  index : ∃ p, w.start.pool.pools[w.index]? = some p ∧ p.key = ⟨state.id, w.map.rank⟩
  tables : ∀ state' ∈ m.states, ∀ page', Paged state' page' →
    state'.capacityTokens / page' * m.residentSequences ≤ State.int32Max

variable {m : Manifest} {state : State} {page : Nat}

/-- The units a paged state has on each of its ranks. -/
theorem capacity_of_paged {budgets : List StateBudget} {rank capacity : Nat}
    (hbudgets : Outcome.collect (stateBudget m.residentSequences) m.states = .ok budgets) (hvalid : m.validate = .ok ())
    (hstate : state ∈ m.states) (hpaged : Paged state page)
    (hcapacity : (ExtTreeMap.ofList (budgets.flatMap StateBudget.capacities))[(⟨state.id, rank⟩ : Key)]? = some capacity) :
    capacity = state.capacityTokens / page * m.residentSequences := by
  obtain ⟨budget, hbudget, hmem⟩ := List.mem_flatMap.mp (ExtTreeMap.mem_of_getElem?_ofList hcapacity)
  obtain ⟨state', hstate', hrun⟩ := Outcome.collect_mem_right hbudgets hbudget
  simp only [stateBudget, Outcome.bind_eq_ok] at hrun
  obtain ⟨⟨units, node⟩, hunits, capacities, hcapacities, hrun⟩ := hrun
  obtain rfl := Outcome.ok.inj hrun
  obtain ⟨rank', -, hentry⟩ := Outcome.collect_mem_right hcapacities hmem
  simp only [Outcome.bind_eq_ok, Outcome.okOr_eq_ok, checkedMul_eq_some] at hentry
  obtain ⟨_, ⟨-, rfl⟩, hentry⟩ := hentry
  obtain ⟨hkey, rfl⟩ := Prod.mk.inj (Outcome.ok.inj hentry)
  obtain rfl := state_unique hvalid hstate hstate' (Key.mk.inj hkey).1.symm
  obtain ⟨rowBytes, encoding, hstorage⟩ := hpaged
  simp only [stateUnits, hstorage, Outcome.bind_eq_ok] at hunits
  obtain ⟨_, -, quotient, hdiv, hunits⟩ := hunits
  obtain ⟨rfl, -⟩ := Prod.mk.inj (Outcome.ok.inj hunits)
  rw [Outcome.div] at hdiv
  split at hdiv
  · cases hdiv
  · rw [← Outcome.ok.inj hdiv]

/-- The page size and the room of a paged state's pools. -/
structure PagedPool (m : Manifest) (state : State) (page rank : Nat) (p : Pool) : Prop extends PoolFor state rank p where
  pagePos : 0 < page
  dvd : page ∣ state.capacityTokens
  capacityPos : 0 < state.capacityTokens
  pageTokens : p.pageTokens = some page
  capacity : p.capacity = state.capacityTokens / page * m.residentSequences

theorem pagedPool {nextPool counter rank : Nat} {s₀ : SharedState} {p : Pool}
    (hnew : SharedState.new m nextPool = .ok (s₀, counter)) (hkept : SharedKept s₀ s) (hstate : state ∈ m.states)
    (hpaged : Paged state page) (hp : p ∈ s.pool.pools) (hkey : p.key = ⟨state.id, rank⟩) : PagedPool m state page rank p := by
  obtain ⟨budgets, hbudgets, hfresh, -⟩ := SharedState.new_eq_ok hnew
  obtain ⟨ops, hpool⟩ := hkept.pool
  rw [hpool] at hp
  obtain ⟨state', hstate', rank', -, layout, capacity, hlayout, hcapacity, hbytes, hfixed⟩ := hfresh.pool_final hp
  injection hfixed with hkey' hunit hcount hpages hmax hretention
  obtain ⟨hid, rfl⟩ := Key.mk.inj (hkey.symm.trans hkey')
  obtain rfl := state_unique hfresh.valid hstate hstate' hid
  obtain ⟨rowBytes, encoding, hstorage⟩ := id hpaged
  obtain ⟨_, _, -, -, hvalid, -⟩ := Manifest.validate_eq_ok hfresh.valid
  obtain ⟨hpos, -, hmod, -⟩ := Manifest.checkStorage_pages hstorage (hvalid _ hstate).storage
  obtain ⟨seen, hown⟩ := (hvalid _ hstate).ownership
  have hcapacityPos := (Manifest.checkOwnership_eq_ok.mp hown).2.2.1
  have hpage : layout.1 = some page := by
    rw [hstorage, unitLayout] at hlayout
    split at hlayout
    · exact congrArg Prod.fst (Outcome.ok.inj hlayout).symm
    · cases hlayout
  exact {
    key := hkey
    layout := by rw [hlayout, hpages, hunit]
    bytes := by rw [hunit, hcount]; exact hbytes
    maxTokens := hmax
    retention := hretention
    pagePos := hpos
    dvd := Nat.dvd_of_mod_eq_zero hmod
    capacityPos := Nat.pos_of_ne_zero hcapacityPos
    pageTokens := hpages.trans hpage
    capacity := hcount.trans (capacity_of_paged hbudgets hfresh.valid hstate hpaged hcapacity) }

/-- A reservation needs some pages, and no more than one resident may have. -/
theorem PagedPool.fits {rank tokens : Nat} {p : Pool} {b : Binding} (h : PagedPool m state page rank p) (htokens : 0 < tokens)
    (hfits : Fits tokens p b) : b.units ≠ [] ∧ b.units.length ≤ state.capacityTokens / page := by
  have hunits := hfits.units h.pageTokens
  have hcapacity := h.capacityPos
  have hretained : 0 < retained tokens p ∧ retained tokens p ≤ state.capacityTokens := by
    unfold retained
    split
    · exact ⟨htokens, h.maxTokens ▸ hfits.full ‹_›⟩
    · rw [h.maxTokens]
      exact ⟨Nat.lt_min.mpr ⟨htokens, hcapacity⟩, Nat.min_le_right _ _⟩
  constructor
  · intro hnil
    have hlt := Paging.page_lt_pagesFor h.pagePos hretained.1
    rw [← hunits, hnil] at hlt
    cases hlt
  · rw [hunits, ← Paging.pagesFor_of_dvd h.pagePos h.dvd]
    exact Paging.pagesFor_mono hretained.2

/-! ## Admissions -/

variable {binding : Nat × Binding}

/-- A list of page numbers the native side can take is handed over as it is. -/
theorem bindState_cases (hshared : e.shared = some s) (hunits : ∀ unit ∈ binding.2.units, unit ≤ i32Max) :
    let call := Foreign.bindState binding.2.rank binding.1 binding.2.units
    ((e.world.answer (call :: e.calls)).status = 0 ∧ bindState binding e = (.ok (), e.called call)) ∨
      ((e.world.answer (call :: e.calls)).status ≠ 0 ∧ ∃ error,
        bindState binding e = (.err error, (e.called call).mapPool fun p => { p with poisoned := true })) := by
  intro call
  have hpages : (Outcome.collect (fun page => Outcome.okOr (tryFrom i32Max page) (Error.invalid "page ID overflow"))
      binding.2.units) = .ok binding.2.units := by
    have hmap : ∀ unit ∈ binding.2.units,
        Outcome.okOr (tryFrom i32Max unit) (Error.invalid "page ID overflow") = .ok (id unit) := by
      intro unit hunit
      exact Outcome.okOr_eq_ok.mpr (tryFrom_eq_some.mpr ⟨hunits unit hunit, rfl⟩)
    rw [Outcome.collect_eq_map hmap, List.map_id]
  have hlift : (Method.lift (Outcome.collect (fun page => Outcome.okOr (tryFrom i32Max page)
      (Error.invalid "page ID overflow")) binding.2.units) : Call (List Nat)) e = (.ok binding.2.units, e) := by
    rw [lift_run, hpages]
  have hforeign : foreign call e = (.ok (e.world.answer (call :: e.calls)), e.called call) := rfl
  rw [bindState, bind_ok hlift, bind_ok hforeign]
  by_cases hstatus : (e.world.answer (call :: e.calls)).status = 0
  · rw [(check_eq_ok (u := ())).mpr hstatus]
    exact .inl ⟨hstatus, rfl⟩
  · refine .inr ⟨hstatus, ?_⟩
    rw [check, if_neg hstatus]
    have hpoison : onPool StatePool.poison (e.called call) =
        (.ok (), (e.called call).mapPool fun p => { p with poisoned := true }) := by
      rw [onPool, mapPool]
      simp only [called, hshared]
      rfl
    exact ⟨_, bind_ok hpoison⟩

/-- The resident's lease is there, and its pages are still to be bound. -/
structure Awaiting (w : Watched) (slot : Nat) (b : Binding) (r : ResidentPages) (s : SharedState) (e : Engine) : Prop
    extends Carried w (some slot) e s where
  pages : w.pages e.calls = r
  active : r.active = slot
  healthy : s.pool.poisoned = false
  lease : ∃ (l : Lease) (a : Allocation), s.leases[slot]? = some (some l) ∧ s.pool.allocations[l]? = some a ∧
    a.bindings[w.index]? = some b

/-- A list for another map. -/
theorem awaiting_other {b : Binding} {r : ResidentPages} (hunits : ∀ unit ∈ binding.2.units, unit ≤ i32Max)
    (hother : ¬(binding.2.rank = w.map.rank ∧ binding.1 = w.map.node)) :
    Triple (Awaiting w slot b r s) (bindState binding) (fun _ => Awaiting w slot b r s)
      (fun e => ∃ s', Carried w none e s') := by
  intro e he
  have hrun : w.map.run (.bindState binding.2.rank binding.1 binding.2.units) = Pure.pure () := if_neg hother
  have hskip := he.toCarried.skip hrun
  rcases bindState_cases he.shared hunits with ⟨-, hok⟩ | ⟨-, error, herr⟩
  · rw [hok]
    exact ⟨hskip, (PageMap.after_skip hrun).trans he.pages, he.active, he.healthy, he.lease⟩
  · rw [herr]
    exact ⟨_, hskip.poisoned⟩

/-- What a list needs to be bound. -/
structure Takeable (m : Manifest) (state : State) (page : Nat) (b : Binding) : Prop where
  some : b.units ≠ []
  length : b.units.length ≤ state.capacityTokens / page

theorem Awaiting.accepts {b : Binding} {r : ResidentPages} {rank : Nat} {p : Pool} (h : Awaiting w slot b r s e)
    (hp : s.pool.pools[w.index]? = some p) (hpool : PagedPool m state page rank p) (hpartition : Partition s.pool w.index p)
    (hfits : Takeable m state page b) (hcovers : w.Covers) (hslots : s.leases.length = m.residentSequences)
    (hpages : r.pagesPerSlot = state.capacityTokens / page) :
    ∃ r', ResidentPages.bind (b.units.map Int.ofNat) r = (.ok (), r') ∧ Rebound slot (b.units.map Int.ofNat) r r' := by
  obtain ⟨l, a, hlease, halloc, hb⟩ := h.lease
  obtain ⟨b', hb', hnodup, hbound⟩ := hpartition.bound l a halloc
  obtain rfl := Option.some.inj (hb.symm.trans hb')
  obtain ⟨hheld, hfree, hdistinct⟩ := h.holding h.healthy
  rw [h.pages] at hheld hfree
  have hsettled : Settled r := h.pages ▸ h.settled
  have hcount : r.slots.length = s.leases.length := h.pages ▸ h.slots hcovers
  rw [← h.active]
  refine ResidentPages.bind_settled hsettled (by simpa using hfits.some) ?_ ?_ ?_ ?_
  · rw [List.length_map, hpages]
    exact hfits.length
  · exact hnodup.map fun _ _ => Int.ofNat.inj
  · intro unit hunit
    obtain ⟨n, hn, rfl⟩ := List.mem_map.mp hunit
    refine ⟨Int.natCast_nonneg n, ?_⟩
    rw [hsettled.count, hcount, hslots, hpages, ← hpool.capacity]
    exact (hbound n hn).1
  · intro slot' others hslot' hothers unit hunit hmem
    obtain ⟨n, hn, rfl⟩ := List.mem_map.mp hunit
    have hrange : slot' < s.leases.length := by
      rw [← hcount, ← hsettled.reserved]
      exact (List.getElem?_eq_some_iff.mp hothers).1
    obtain ⟨lease, hlease'⟩ : ∃ lease, s.leases[slot']? = some lease := ⟨_, List.getElem?_eq_getElem hrange⟩
    cases lease with
    | none =>
      obtain rfl := Option.some.inj (hothers.symm.trans (hfree (.inl hlease')))
      cases hmem
    | some l' =>
      obtain ⟨a', b', halloc', -, hb', hreserved⟩ := hheld hlease'
      have hne : slot ≠ slot' := fun heq => hslot' (heq ▸ h.active.symm)
      obtain rfl := Option.some.inj (hothers.symm.trans (hreserved fun heq => hne (Option.some.inj heq)))
      obtain ⟨n', hn', heq⟩ := List.mem_map.mp hmem
      obtain rfl := Int.ofNat.inj heq
      have hleases : l ≠ l' := by
        rintro rfl
        exact hne (hdistinct hlease hlease')
      exact hpartition.disjoint l l' a a' b b' hleases halloc halloc' hb hb' hn hn'

/-- The list of the watched map: the map takes it, and the resident has its pages. -/
theorem awaiting_own {b : Binding} {r r' : ResidentPages} (hunits : ∀ unit ∈ b.units, unit ≤ i32Max)
    (hrank : b.rank = w.map.rank)
    (haccepts : ResidentPages.bind (b.units.map Int.ofNat) r = (.ok (), r')) (hbound : Rebound slot (b.units.map Int.ofNat) r r') :
    Triple (Awaiting w slot b r s) (bindState (w.map.node, b)) (fun _ e => ∃ s', Carried w none e s')
      (fun e => ∃ s', Carried w none e s') := by
  intro e he
  let call := Foreign.bindState b.rank w.map.node b.units
  have hrun : w.map.run call (w.pages e.calls) = (.ok (), r') := by
    rw [PageMap.run, if_pos ⟨hrank, rfl⟩, he.pages, haccepts]
  have hunrefused : w.map.Unrefused w.world w.initial (e.called call).calls :=
    ⟨fun _ => congrArg Prod.fst hrun, he.unrefused⟩
  rcases @bindState_cases e s (w.map.node, b) he.shared hunits with ⟨hstatus, hok⟩ | ⟨hstatus, error, herr⟩
  · rw [hok]
    rw [he.world] at hstatus
    have hpages : w.pages (e.called call).calls = r' := PageMap.after_answered hstatus hrun
    refine ⟨s, he.shared, he.world, he.kept, he.linked, hpages ▸ hbound.settled, ?_, hunrefused, fun hhealthy => ?_⟩
    · exact he.layout.trans (hpages ▸ he.pages ▸ hbound.layout)
    · obtain ⟨hheld, hfree, hdistinct⟩ := he.holding hhealthy
      have hslot : slot < r.sharedPages.length := by
        have hnone := hfree (.inr rfl)
        rw [he.pages] at hnone
        exact (List.getElem?_eq_some_iff.mp hnone).1
      rw [hpages]
      refine ⟨fun {slot' l} hlease => ?_, fun {slot'} hnone => ?_, hdistinct⟩
      · obtain ⟨a, b', halloc, hretired, hb', hreserved⟩ := hheld hlease
        refine ⟨a, b', halloc, hretired, hb', fun _ => ?_⟩
        rw [hbound.reserved]
        by_cases hsame : slot = slot'
        · subst hsame
          obtain ⟨l₀, a₀, hl₀, halloc₀, hb₀⟩ := he.lease
          obtain rfl := Option.some.inj (Option.some.inj (hl₀.symm.trans hlease))
          obtain rfl := Option.some.inj (halloc₀.symm.trans halloc)
          obtain rfl := Option.some.inj (hb₀.symm.trans hb')
          exact List.getElem?_set_self hslot
        · rw [List.getElem?_set_ne hsame, ← he.pages]
          exact hreserved fun heq => hsame (Option.some.inj heq)
      · have hlease := hnone.resolve_right fun h => by cases h
        rw [hbound.reserved]
        have hne : slot ≠ slot' := by
          rintro rfl
          obtain ⟨l₀, _, hl₀, -⟩ := he.lease
          cases hl₀.symm.trans hlease
        rw [List.getElem?_set_ne hne, ← he.pages]
        exact hfree (.inl hlease)
  · rw [herr]
    rw [he.world] at hstatus
    have hpages : w.pages (e.called call).calls = w.pages e.calls := PageMap.after_refused hstatus
    have hcalled : Carried w (some slot) (e.called call) s :=
      ⟨he.shared, he.world, he.kept, he.linked, hpages ▸ he.settled, hpages ▸ he.layout, hunrefused, hpages ▸ he.holding⟩
    exact ⟨_, hcalled.poisoned⟩

theorem carries_bindOther (hother : ¬(binding.2.rank = w.map.rank ∧ binding.1 = w.map.node)) :
    Keeps (Carries w) (bindState binding) := by
  have hrun : ∀ pages, w.map.run (.bindState binding.2.rank binding.1 pages) = Pure.pure () := fun _ => if_neg hother
  unfold bindState
  refine (keeps_lift _).bind fun pages => ?_
  refine (carries_foreign (hrun pages)).bind fun answer => ?_
  split
  · exact keeps_pure ()
  · exact carries_poison.bind fun _ => keeps_lift _

/-- All lists of an admission, among them the one of the watched map. -/
theorem awaiting_all {b : Binding} {r r' : ResidentPages} {bindings : List (Nat × Binding)}
    (hunits : ∀ binding ∈ bindings, ∀ unit ∈ binding.2.units, unit ≤ i32Max) (hmem : (w.map.node, b) ∈ bindings)
    (hkeys : (bindings.map fun binding => (binding.1, binding.2.rank)).Nodup) (hrank : b.rank = w.map.rank)
    (haccepts : ResidentPages.bind (b.units.map Int.ofNat) r = (.ok (), r')) (hbound : Rebound slot (b.units.map Int.ofNat) r r') :
    Triple (Awaiting w slot b r s) (Method.forEach bindings bindState) (fun _ e => ∃ s', Carried w none e s')
      (fun e => ∃ s', Carried w none e s') := by
  induction bindings with
  | nil => cases hmem
  | cons first bindings ih =>
    obtain ⟨hfirst, hrest⟩ := List.forall_mem_cons.mp hunits
    obtain ⟨hnew, hkeys⟩ := List.nodup_cons.mp hkeys
    rw [Method.forEach]
    by_cases hown : first.2.rank = w.map.rank ∧ first.1 = w.map.node
    · -- The rest is for other maps.
      have hsame : first = (w.map.node, b) := by
        rcases List.mem_cons.mp hmem with heq | hlater
        · exact heq.symm
        · exact absurd (List.mem_map.mpr ⟨_, hlater, Prod.ext hown.2.symm (hrank.trans hown.1.symm)⟩) hnew
      subst hsame
      refine (awaiting_own hfirst hrank haccepts hbound).bind fun _ => triple_forEach fun binding hbinding => ?_
      have hother : ¬(binding.2.rank = w.map.rank ∧ binding.1 = w.map.node) := by
        rintro ⟨hrank', hnode'⟩
        exact hnew (List.mem_map.mpr ⟨binding, hbinding, Prod.ext hnode' (hrank'.trans hrank.symm)⟩)
      intro e he
      have hcarries := carries_bindOther hother e none he
      rcases hrun : bindState binding e with ⟨_ | _ | _, e'⟩ <;> rw [hrun] at hcarries <;> exact hcarries
    · have hlater : (w.map.node, b) ∈ bindings := by
        rcases List.mem_cons.mp hmem with heq | hlater
        · exact absurd ⟨heq ▸ hrank, heq ▸ rfl⟩ hown
        · exact hlater
      exact (awaiting_other hfirst hown).bind fun _ => ih hrest hlater hkeys

/-! ## Counting an admission -/

/-- Every paged component has its pages counted. -/
def Limited (s : SharedState) : Prop :=
  ∀ (component : String) (node : Nat), s.cacheNodes[component]? = some node →
    ∃ limit : Nat, s.cachePageLimits[component]? = some limit ∧ 0 < limit

theorem crosses_ok {b : Binding} {limit : Nat} (hlimit : s.cachePageLimits[b.component]? = some limit) (hpos : 0 < limit) (units : List Nat) :
    ∃ crossing, crosses s slot b units = .ok crossing := by
  induction units with
  | nil => exact ⟨false, rfl⟩
  | cons unit units ih =>
    rw [crosses, hlimit, Outcome.unwrap_some, Outcome.ok_bind, Outcome.div_pos hpos, Outcome.ok_bind]
    split
    · exact ⟨true, rfl⟩
    · exact ih

/-- Only counters move. -/
theorem countAdmission_run (hshared : e.shared = some s) (hlinked : Linked s.pool) (hlimited : Limited s) (slot : Nat)
    (bindings : List Binding) : ∃ crossing admissions peak, countAdmission slot (cacheBindings s bindings) e =
      (.ok (), { e with shared := some { s with
        crossPartitionBindings := crossing
        admissions := admissions
        peakOccupiedBytes := peak } }) := by
  have hcrossing : ∃ crossing, Outcome.collect (fun binding : Nat × Binding => crosses s slot binding.2 binding.2.units)
      (cacheBindings s bindings) = .ok crossing := by
    have hall : ∀ binding ∈ cacheBindings s bindings, ∃ crossing,
        crosses s slot binding.2 binding.2.units = .ok crossing ∧ crosses s slot binding.2 binding.2.units = .ok crossing ∧ True := by
      intro binding hbinding
      obtain ⟨b, -, hmapped⟩ := List.mem_filterMap.mp hbinding
      obtain ⟨node, hnode, rfl⟩ := Option.map_eq_some_iff.mp hmapped
      obtain ⟨limit, hlimit, hpos⟩ := hlimited _ _ hnode
      obtain ⟨crossing, hok⟩ := crosses_ok hlimit hpos b.units
      exact ⟨crossing, hok, hok, trivial⟩
    obtain ⟨crossing, hok, -⟩ := Outcome.collect_both (P := fun _ => True) hall
    exact ⟨crossing, hok⟩
  obtain ⟨crossing, hcrossing⟩ := hcrossing
  let usage := s.pool.pools.zipIdx.map fun p => s.pool.poolUsage p.1 p.2
  refine ⟨s.crossPartitionBindings + crossing.count true, s.admissions + 1,
    max s.peakOccupiedBytes (usage.map Usage.occupiedBytes).sum, ?_⟩
  have husage : s.pool.usage = .ok usage := usage_eq hlinked
  rw [countAdmission, bind_run, read_run, hshared, Outcome.unwrap_some]
  dsimp only
  rw [bind_run, lift_run, hcrossing]
  dsimp only
  rw [bind_run, lift_run, husage]
  dsimp only
  rw [modifyShared, modify_run, hshared, Option.map_some]

end Engine

end Inferfabric.Native
