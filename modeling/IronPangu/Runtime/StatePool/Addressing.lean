-- SUMMARY: Paged addressing: every position of a live lease has its own row, within the lease's pages, for full and ring retention.
import IronPangu.Lib.Paging
import IronPangu.Runtime.StatePool.Reuse

open Rust Std Paging

/-!
# Addressing

A reservation holds as many pages as its tokens need, a ring no more than its
capacity. A position is kept in the row the ring wraps it to, so two positions
share a row only when they are a multiple of the capacity apart.
-/

namespace Inferfabric.Runtime

open Ir

namespace StatePool

/-! ## Sizes of bindings -/

/-- The units of a binding are the ones the reserved tokens need. -/
structure Fits (tokens : Nat) (p : Pool) (b : Binding) : Prop where
  full : p.retention.isFull = true → tokens ≤ p.maxTokens
  units : ∀ {n}, p.pageTokens = some n → b.units.length = pagesFor n (retained tokens p)

theorem Fits.of_fixed {tokens : Nat} {p q : Pool} {b : Binding} (h : q.fixed = p.fixed)
    (hb : Fits tokens p b) : Fits tokens q b := by
  have hretained : retained tokens q = retained tokens p := by
    injection h with _ _ _ _ hmax hretention
    simp only [retained, hmax, hretention]
  injection h with _ _ _ hpage hmax hretention
  refine ⟨fun hfull => ?_, fun hn => ?_⟩
  · rw [hmax]
    exact hb.full (hretention ▸ hfull)
  · rw [hretained]
    exact hb.units (hpage ▸ hn)

theorem fits_of_prepared {tokens : Nat} {slot : Option Nat} {p : Pool} {b : Binding}
    (hpages : ∀ {n : Nat}, p.pageTokens = some n → 0 < n)
    (h : prepareBinding tokens slot p = .ok b) : Fits tokens p b := by
  obtain ⟨hfull, count, hcount, hroom, hunits, -⟩ := prepareBinding_eq_ok h
  refine ⟨hfull, fun {n} hn => ?_⟩
  simp only [unitCount, hn, Outcome.divCeil_pos (hpages hn), Outcome.ok.injEq] at hcount
  simp only [chooseUnits, hn, Outcome.ok.injEq] at hunits
  rw [← hunits, List.length_take, ExtTreeSet.length_toList, Nat.min_eq_left hroom, ← hcount]
  rfl

/-- Every allocation fits its pools and the executable context. -/
def Sized (s : StatePool) : Prop :=
  ∀ (l : Lease) (a : Allocation), s.allocations[l]? = some a →
    a.tokenLimit ≤ s.maxContext ∧ List.Forall₂ (Fits a.tokenLimit) s.pools a.bindings

theorem Accepted.sized {s t : StatePool} {op : Op} {reply : Reply} (hs : Linked s)
    (hsized : Sized s) (h : Accepted s op reply t) : Sized t := by
  intro l a halloc
  rw [h.frame.maxContext]
  rcases h.origin halloc with ⟨b, hb, hfixed⟩ | ⟨_, _, slot, -, -, -, -, -, hcontext, -, hbindings⟩
  · obtain ⟨hcontext, hfits⟩ := hsized l b hb
    rw [Allocation.tokenLimit_of_fixed hfixed] at hcontext hfits
    rw [Allocation.bindings_of_fixed hfixed] at hfits
    exact ⟨hcontext, forall₂_of_fixed (R := Fits a.tokenLimit) (fun _ _ _ => Fits.of_fixed) h.frame.fixed hfits⟩
  · refine ⟨hcontext, forall₂_of_fixed (R := Fits a.tokenLimit) (fun _ _ _ => Fits.of_fixed) h.frame.fixed ?_⟩
    refine List.forall₂_iff_get.mpr ⟨hbindings.length_eq, fun i hp hb => ?_⟩
    exact fits_of_prepared (fun hn => (hs.pages (List.getElem_mem hp) hn).1)
      ((List.forall₂_iff_get.mp hbindings).2 i hp hb)

theorem sized_final {m : Manifest} {capacities : ExtTreeMap Key Nat} {s : StatePool}
    (h : Fresh m capacities s) (ops : List Op) : Sized (final step ops s) := by
  refine run_induction (P := fun _ t => Sized t) h.linked ?_ (fun _ _ _ _ _ ht _ => ht)
    (fun _ _ _ _ _ hs ht _ haccepted => haccepted.sized hs ht) ops
  intro l a halloc
  simp [h.allocations] at halloc

/-! ## Rows -/

/-- The row, counted over the pages of a binding, that keeps a position. -/
def rowOf (p : Pool) (position : Nat) : Nat :=
  if p.retention.isFull then position else position % p.maxTokens

theorem bindingPage_eq {p : Pool} {n position : Nat} (hn : 0 < n) (hdvd : n ∣ p.maxTokens)
    (hring : 0 < p.maxTokens / n) :
    bindingPage p n (position / n) = .ok (rowOf p position / n) := by
  unfold bindingPage rowOf
  split
  · rfl
  · rw [page_of_wrapped hdvd, Outcome.div_pos hn, Outcome.ok_bind, Outcome.rem_pos hring]

theorem rowOf_mod {p : Pool} {n : Nat} (hdvd : n ∣ p.maxTokens) (position : Nat) :
    rowOf p position % n = position % n := by
  unfold rowOf
  split
  · rfl
  · exact row_of_wrapped hdvd position

/-- The row of a reserved position is on one of the pages of its binding. -/
theorem rowOf_page_lt {tokens : Nat} {p : Pool} {b : Binding} {n position : Nat} (hn : 0 < n)
    (hmax : 0 < p.maxTokens) (hpage : p.pageTokens = some n) (hfits : Fits tokens p b)
    (h : position < tokens) : rowOf p position / n < b.units.length := by
  rw [hfits.units hpage]
  refine page_lt_pagesFor hn ?_
  unfold rowOf retained
  split
  · exact h
  · exact Nat.lt_min.mpr ⟨Nat.lt_of_le_of_lt (Nat.mod_le _ _) h, Nat.mod_lt _ hmax⟩

/-! ## Addresses -/

/-- The pool of a component on a rank is the one `page_address` finds. -/
theorem findIdx?_key {ps : List Pool} (hkeys : (ps.map Pool.key).Nodup) {i : Nat} {p : Pool}
    (hp : ps[i]? = some p) :
    ps.findIdx? (fun q => q.key.component == p.key.component && q.key.rank == p.key.rank) = some i := by
  obtain ⟨hi, rfl⟩ := List.getElem?_eq_some_iff.mp hp
  refine List.findIdx?_eq_some_iff_getElem.mpr ⟨hi, by simp, fun j hj => ?_⟩
  simp only [Bool.not_eq_true, Bool.and_eq_false_iff, beq_eq_false_iff_ne, ne_eq]
  by_contra hboth
  rw [not_or, not_not, not_not] at hboth
  have hkey : ps[j].key = ps[i].key := by
    rcases hj' : ps[j].key with ⟨c, r⟩
    rw [hj'] at hboth
    obtain ⟨rfl, rfl⟩ := hboth
    rfl
  have hj' : j < (ps.map Pool.key).length := by simpa using Nat.lt_trans hj hi
  have hi' : i < (ps.map Pool.key).length := by simpa using hi
  have hkey' : (ps.map Pool.key)[j] = (ps.map Pool.key)[i] := by simpa using hkey
  exact absurd (hkeys.getElem_inj_iff.mp hkey') (Nat.ne_of_lt hj)

/-- A position past the reservation is refused. -/
theorem pageAddress_beyond {s : StatePool} {epoch : Nat} {l : Lease} {a : Allocation}
    {component : String} {rank position : Nat} (hlive : s.Live epoch)
    (halloc : s.allocations[l]? = some a) (hretired : a.retired = false)
    (h : a.tokenLimit ≤ position) :
    s.pageAddress epoch l component rank position = invalid "append exceeds request reservation" := by
  have hbs : s.bindings epoch l = .ok a.bindings := bindings_eq_ok.mpr ⟨hlive, a, halloc, hretired, rfl⟩
  simp [pageAddress, hbs, halloc, h]

/-- The row of a position within the reservation. -/
theorem pageAddress_eq {s : StatePool} {epoch : Nat} {l : Lease} {a : Allocation} {i n position : Nat}
    {p : Pool} {b : Binding} (hs : Linked s) (hkeys : (s.pools.map Pool.key).Nodup)
    (hlive : s.Live epoch) (halloc : s.allocations[l]? = some a) (hretired : a.retired = false)
    (hp : s.pools[i]? = some p) (hb : a.bindings[i]? = some b) (hpage : p.pageTokens = some n)
    (hdvd : n ∣ p.maxTokens) (hfits : Fits a.tokenLimit p b) (h : position < a.tokenLimit) :
    ∃ physicalPage, b.units[rowOf p position / n]? = some physicalPage ∧
      s.pageAddress epoch l p.key.component p.key.rank position = .ok {
        physicalPage := physicalPage
        rowInPage := position % n
        byteOffset := physicalPage * p.unitBytes + position % n * (p.unitBytes / n) } := by
  have hbs : s.bindings epoch l = .ok a.bindings := bindings_eq_ok.mpr ⟨hlive, a, halloc, hretired, rfl⟩
  obtain ⟨hn, hring⟩ := hs.pages (List.mem_of_getElem? hp) hpage
  have hmax : 0 < p.maxTokens := Nat.pos_of_ne_zero fun hzero => by simp [hzero] at hring
  have hlt := rowOf_page_lt hn hmax hpage hfits h
  refine ⟨_, List.getElem?_eq_getElem hlt, ?_⟩
  simp [pageAddress, hbs, halloc, Nat.not_le.mpr h, findIdx?_key hkeys hp, hp, hpage,
    Outcome.div_pos hn, bindingPage_eq hn hdvd hring, hb, List.getElem?_eq_getElem hlt,
    Outcome.rem_pos hn]

/-! ## Pools of a manifest -/

theorem nodup_stateKeys {m : Manifest} (h : m.validate = .ok ()) :
    (m.states.flatMap fun state => state.ranks.map fun rank => (⟨state.id, rank⟩ : Key)).Nodup := by
  obtain ⟨context, query, -, -, hvalid, hids⟩ := Manifest.validate_eq_ok h
  rw [List.nodup_flatMap]
  constructor
  · intro state hstate
    obtain ⟨seen, hown⟩ := (hvalid state hstate).ownership
    refine List.Nodup.map (fun r r' hr => ?_) (Manifest.checkOwnership_eq_ok.mp hown).2.2.2.2.1
    exact (Key.mk.inj hr).2
  · refine (List.pairwise_map.mp hids).imp fun {state state'} hne key hkey hkey' => ?_
    obtain ⟨rank, -, rfl⟩ := List.mem_map.mp hkey
    obtain ⟨rank', -, heq⟩ := List.mem_map.mp hkey'
    exact hne (Key.mk.inj heq).1.symm

/-- What a pool takes from the state and the rank it is for. -/
structure PoolFor (state : State) (rank : Nat) (p : Pool) : Prop where
  key : p.key = ⟨state.id, rank⟩
  layout : unitLayout state.storage = .ok (p.pageTokens, p.unitBytes)
  bytes : p.unitBytes * p.capacity ≤ u64Max
  maxTokens : p.maxTokens = state.capacityTokens
  retention : p.retention = state.retention

variable {m : Manifest} {capacities : ExtTreeMap Key Nat} {s : StatePool}

/-- Every state has its pool on each of its ranks. -/
theorem Fresh.pool_for (h : Fresh m capacities s) (ops : List Op) {state : State} {rank : Nat}
    (hstate : state ∈ m.states) (hrank : rank ∈ state.ranks) :
    ∃ (i : Nat) (p : Pool), (final step ops s).pools[i]? = some p ∧ PoolFor state rank p := by
  have hkey : (⟨state.id, rank⟩ : Key) ∈ (final step ops s).pools.map Pool.key := by
    rw [h.keys_final, List.mem_flatMap]
    exact ⟨state, hstate, List.mem_map.mpr ⟨rank, hrank, rfl⟩⟩
  obtain ⟨p, hp, hkey⟩ := List.mem_map.mp hkey
  obtain ⟨i, hi, rfl⟩ := List.mem_iff_getElem.mp hp
  obtain ⟨state', hstate', rank', -, layout, capacity, hlayout, -, hbytes, hfixed⟩ := h.pool_final hp
  injection hfixed with hkey' hunit hcapacity hpage hmax hretention
  obtain ⟨hid, rfl⟩ := Key.mk.inj (hkey.symm.trans hkey')
  obtain ⟨_, _, -, -, -, hids⟩ := Manifest.validate_eq_ok h.valid
  obtain rfl : state = state' := List.inj_on_of_nodup_map hids hstate hstate' hid
  refine ⟨i, _, List.getElem?_eq_getElem hi, hkey, ?_, ?_, hmax, hretention⟩
  · rw [hlayout, hpage, hunit]
  · rw [hunit, hcapacity]
    exact hbytes

/-! ## A lease in one pool -/

/-- A live lease in the pages of the pool at `i`. -/
structure Located (s : StatePool) (epoch : Nat) (l : Lease) (a : Allocation) (i : Nat) (p : Pool)
    (b : Binding) (page rowBytes : Nat) : Prop where
  linked : Linked s
  keys : (s.pools.map Pool.key).Nodup
  live : s.Live epoch
  allocation : s.allocations[l]? = some a
  retired : a.retired = false
  pool : s.pools[i]? = some p
  partition : Partition s i p
  binding : a.bindings[i]? = some b
  pageTokens : p.pageTokens = some page
  unitBytes : p.unitBytes = page * rowBytes
  dvd : page ∣ p.maxTokens
  rowPos : 0 < rowBytes
  fits : Fits a.tokenLimit p b

namespace Located

variable {epoch i page rowBytes position position' : Nat} {l l' : Lease} {a a' : Allocation}
variable {p : Pool} {b b' : Binding} {address address' : PageAddress}

theorem page_pos (h : Located s epoch l a i p b page rowBytes) : 0 < page :=
  (h.linked.pages (List.mem_of_getElem? h.pool) h.pageTokens).1

/-- The address of a position, with its row counted in rows of the pool. -/
theorem address_of_lt (h : Located s epoch l a i p b page rowBytes) (hlt : position < a.tokenLimit) :
    ∃ physicalPage, b.units[rowOf p position / page]? = some physicalPage ∧
      s.pageAddress epoch l p.key.component p.key.rank position = .ok {
        physicalPage := physicalPage
        rowInPage := position % page
        byteOffset := (physicalPage * page + position % page) * rowBytes } := by
  obtain ⟨physicalPage, hunit, haddress⟩ := pageAddress_eq h.linked h.keys h.live h.allocation
    h.retired h.pool h.binding h.pageTokens h.dvd h.fits hlt
  refine ⟨physicalPage, hunit, ?_⟩
  rw [haddress, h.unitBytes, Nat.mul_div_cancel_left _ h.page_pos, Nat.add_mul, Nat.mul_assoc]

/-- An address that is given is the one of a position within the reservation. -/
theorem of_address (h : Located s epoch l a i p b page rowBytes)
    (haddress : s.pageAddress epoch l p.key.component p.key.rank position = .ok address) :
    position < a.tokenLimit ∧ b.units[rowOf p position / page]? = some address.physicalPage ∧
      address.rowInPage = position % page ∧
      address.byteOffset = (address.physicalPage * page + address.rowInPage) * rowBytes := by
  have hlt : position < a.tokenLimit := by
    by_contra hbeyond
    rw [pageAddress_beyond h.live h.allocation h.retired (Nat.not_lt.mp hbeyond)] at haddress
    simp at haddress
  obtain ⟨physicalPage, hunit, heq⟩ := h.address_of_lt hlt
  obtain rfl := Outcome.ok.inj (heq.symm.trans haddress)
  exact ⟨hlt, hunit, rfl, rfl⟩

/-- Byte offsets determine pages and rows. -/
theorem row_of_byteOffset (h : Located s epoch l a i p b page rowBytes)
    (h' : Located s epoch l' a' i p b' page rowBytes)
    (haddress : s.pageAddress epoch l p.key.component p.key.rank position = .ok address)
    (haddress' : s.pageAddress epoch l' p.key.component p.key.rank position' = .ok address')
    (hbytes : address.byteOffset = address'.byteOffset) :
    address.physicalPage = address'.physicalPage ∧ address.rowInPage = address'.rowInPage := by
  obtain ⟨-, -, hrow, hoffset⟩ := h.of_address haddress
  obtain ⟨-, -, hrow', hoffset'⟩ := h'.of_address haddress'
  rw [hoffset, hoffset'] at hbytes
  refine flat_injective ?_ ?_ (Nat.eq_of_mul_eq_mul_right h.rowPos hbytes)
  · rw [hrow]
    exact Nat.mod_lt _ h.page_pos
  · rw [hrow']
    exact Nat.mod_lt _ h.page_pos

/-- Positions with one address are wrapped to one row. -/
theorem rowOf_eq (h : Located s epoch l a i p b page rowBytes)
    (haddress : s.pageAddress epoch l p.key.component p.key.rank position = .ok address)
    (haddress' : s.pageAddress epoch l p.key.component p.key.rank position' = .ok address')
    (hbytes : address.byteOffset = address'.byteOffset) : rowOf p position = rowOf p position' := by
  obtain ⟨hpage, hrow⟩ := h.row_of_byteOffset h haddress haddress' hbytes
  obtain ⟨-, hunit, hmod, -⟩ := h.of_address haddress
  obtain ⟨-, hunit', hmod', -⟩ := h.of_address haddress'
  obtain ⟨b', hb', hnodup, -⟩ := h.partition.bound l a h.allocation
  obtain rfl := Option.some.inj (h.binding.symm.trans hb')
  have hdiv : rowOf p position / page = rowOf p position' / page := by
    obtain ⟨hlt, hget⟩ := List.getElem?_eq_some_iff.mp hunit
    obtain ⟨hlt', hget'⟩ := List.getElem?_eq_some_iff.mp hunit'
    exact (hnodup.getElem_inj_iff).mp (hget.trans (hpage.trans hget'.symm))
  have hmods : rowOf p position % page = rowOf p position' % page := by
    rw [rowOf_mod h.dvd, rowOf_mod h.dvd, ← hmod, ← hmod', hrow]
  rw [← Nat.div_add_mod (rowOf p position) page, hdiv, hmods, Nat.div_add_mod]

/-- Two leases have no page in common. -/
theorem page_ne (h : Located s epoch l a i p b page rowBytes)
    (h' : Located s epoch l' a' i p b' page rowBytes) (hne : l' ≠ l)
    (haddress : s.pageAddress epoch l p.key.component p.key.rank position = .ok address)
    (haddress' : s.pageAddress epoch l' p.key.component p.key.rank position' = .ok address') :
    address.physicalPage ≠ address'.physicalPage := by
  intro heq
  obtain ⟨-, hunit, -, -⟩ := h.of_address haddress
  obtain ⟨-, hunit', -, -⟩ := h'.of_address haddress'
  exact h.partition.disjoint l l' a a' b b' (Ne.symm hne) h.allocation h'.allocation h.binding
    h'.binding (List.mem_of_getElem? hunit) (heq ▸ List.mem_of_getElem? hunit')

end Located

/-- Every live lease of a run is located in every paged pool. -/
theorem Fresh.located (h : Fresh m capacities s) (ops : List Op) {state : State} {epoch rank page rowBytes : Nat}
    {encoding : String} {l : Lease} {a : Allocation} {i : Nat} {p : Pool} (hstate : state ∈ m.states)
    (hstorage : state.storage = .pages page rowBytes encoding) (hlive : (final step ops s).Live epoch)
    (halloc : (final step ops s).allocations[l]? = some a) (hretired : a.retired = false)
    (hp : (final step ops s).pools[i]? = some p) (hfor : PoolFor state rank p) :
    ∃ b, Located (final step ops s) epoch l a i p b page rowBytes := by
  have hs := linked_final h.linked ops
  have hconserved := conserved_final h ops
  obtain ⟨context, query, -, -, hvalid, -⟩ := Manifest.validate_eq_ok h.valid
  obtain ⟨hpage, hrow, hmod, -⟩ := Manifest.checkStorage_pages hstorage (hvalid state hstate).storage
  obtain ⟨hlayout, hunit⟩ : p.pageTokens = some page ∧ p.unitBytes = page * rowBytes := by
    have hl := hfor.layout
    simp only [hstorage, unitLayout] at hl
    split at hl
    · rename_i unitBytes hbytes
      obtain ⟨h1, h2⟩ := Prod.mk.inj (Outcome.ok.inj hl)
      exact ⟨h1.symm, h2 ▸ (checkedMul_eq_some.mp hbytes).2.symm⟩
    · simp at hl
  obtain ⟨b, hb, -⟩ := (hconserved.partition hs hp).bound l a halloc
  refine ⟨b, {
    linked := hs
    keys := by
      rw [h.keys_final]
      exact nodup_stateKeys h.valid
    live := hlive
    allocation := halloc
    retired := hretired
    pool := hp
    partition := hconserved.partition hs hp
    binding := hb
    pageTokens := hlayout
    unitBytes := hunit
    dvd := by
      rw [hfor.maxTokens]
      exact Nat.dvd_of_mod_eq_zero hmod
    rowPos := hrow
    fits := ?_ }⟩
  have hfits := (sized_final h ops l a halloc).2
  obtain ⟨hi, rfl⟩ := List.getElem?_eq_some_iff.mp hp
  obtain ⟨hi', rfl⟩ := List.getElem?_eq_some_iff.mp hb
  exact (List.forall₂_iff_get.mp hfits).2 i hi hi'

/-! ## The addressing theorem -/

/-- The addresses of one live lease in the pages of one state on one rank. -/
structure SafeAddressing (s : StatePool) (epoch : Nat) (l : Lease) (a : Allocation) (state : State)
    (rank page rowBytes : Nat) : Prop where
  inLimit : ∀ position < a.tokenLimit, ∃ address,
    s.pageAddress epoch l state.id rank position = .ok address
  beyond : ∀ position ≥ a.tokenLimit, ∃ e,
    s.pageAddress epoch l state.id rank position = .err e
  bound : ∀ position address, s.pageAddress epoch l state.id rank position = .ok address →
    ∃ (i : Nat) (p : Pool) (b : Binding), s.pools[i]? = some p ∧ p.key = ⟨state.id, rank⟩ ∧ a.bindings[i]? = some b ∧
      address.physicalPage ∈ b.units ∧ address.rowInPage < page ∧
      address.byteOffset = (address.physicalPage * page + address.rowInPage) * rowBytes ∧
      address.byteOffset + rowBytes ≤ p.capacity * p.unitBytes ∧ p.capacity * p.unitBytes ≤ u64Max
  apart : ∀ l' position position' address address', l' ≠ l →
    s.pageAddress epoch l state.id rank position = .ok address →
    s.pageAddress epoch l' state.id rank position' = .ok address' →
      address.physicalPage ≠ address'.physicalPage ∧ address.byteOffset ≠ address'.byteOffset
  full : state.retention = .full → ∀ position position' address address',
    s.pageAddress epoch l state.id rank position = .ok address →
    s.pageAddress epoch l state.id rank position' = .ok address' →
      address.byteOffset = address'.byteOffset → position = position'
  window : ∀ maxQuery w, state.retention = .slidingWindow maxQuery → state.windowTokens = some w →
    ∀ start query, query ≤ maxQuery → start + query ≤ a.tokenLimit →
      ∀ position position' address address',
        start + 1 - w ≤ position → position < start + query →
        start + 1 - w ≤ position' → position' < start + query →
        s.pageAddress epoch l state.id rank position = .ok address →
        s.pageAddress epoch l state.id rank position' = .ok address' →
          address.byteOffset = address'.byteOffset → position = position'

/-- The ring of a sliding window: the capacity holds the window and the writes of
    a whole chunk, or the whole context. -/
theorem slidingCapacity_spans {context window query page capacity : Nat}
    (h : slidingCapacity context window query page = .ok capacity) :
    context ≤ capacity ∨ window + query ≤ capacity + 1 := by
  obtain ⟨-, -, -, hpage, -, -, rfl⟩ := slidingCapacity_eq_ok.mp h
  have hcontext : context ≤ pagesFor page context * page := le_pagesFor_mul hpage
  have hwindow := Nat.lt_div_mul_add hpage (a := window + query - 1 + page - 2)
  rcases Nat.le_total ((window + query - 1 + page - 2) / page + 1) (pagesFor page context) with hle | hle
  · refine .inr ?_
    rw [slidingPages, show (context + page - 1) / page = pagesFor page context from rfl,
      Nat.min_eq_left hle, Nat.add_mul, Nat.one_mul]
    omega
  · refine .inl ?_
    rw [slidingPages, show (context + page - 1) / page = pagesFor page context from rfl,
      Nat.min_eq_right hle]
    exact hcontext

/-- What the positions of the window and of the chunk after it have between them,
    the ring keeps apart. -/
theorem rowOf_injective_window {context w maxQuery page start query x y : Nat} {p : Pool}
    (hfull : p.retention.isFull = false)
    (hcapacity : slidingCapacity context w maxQuery page = .ok p.maxTokens)
    (hquery : query ≤ maxQuery) (hcontext : start + query ≤ context)
    (hx : start + 1 - w ≤ x) (hx' : x < start + query)
    (hy : start + 1 - w ≤ y) (hy' : y < start + query)
    (h : rowOf p x = rowOf p y) : x = y := by
  simp only [rowOf, hfull, Bool.false_eq_true, if_false] at h
  rcases slidingCapacity_spans hcapacity with hspan | hspan
  · exact eq_of_wrapped_eq h (by omega) (by omega)
  · exact eq_of_wrapped_eq h (by omega) (by omega)

/-- In every run, the addresses of a live lease in a paged state are given exactly
    for its reserved positions, stay within its own pages, and are distinct as far
    as the retention promises. -/
theorem paged_addressing {m : Manifest} {epoch nextPool counter : Nat}
    {capacities : ExtTreeMap Key Nat} {s₀ : StatePool}
    (hnew : new m epoch capacities nextPool = .ok (s₀, counter)) (ops : List Op)
    {now page rowBytes rank : Nat} {encoding : String} {state : State} {l : Lease} {a : Allocation}
    (hstate : state ∈ m.states) (hrank : rank ∈ state.ranks)
    (hstorage : state.storage = .pages page rowBytes encoding)
    (hlive : (final step ops s₀).Live now)
    (halloc : (final step ops s₀).allocations[l]? = some a) (hretired : a.retired = false) :
    SafeAddressing (final step ops s₀) now l a state rank page rowBytes := by
  have hfresh := fresh_of_new hnew
  obtain ⟨i, p, hp, hfor⟩ := hfresh.pool_for ops hstate hrank
  have haddress : ∀ (l : Lease) (position : Nat),
      (final step ops s₀).pageAddress now l state.id rank position =
        (final step ops s₀).pageAddress now l p.key.component p.key.rank position := by
    intro l position
    rw [hfor.key]
  obtain ⟨b, hb⟩ := hfresh.located ops hstate hstorage hlive halloc hretired hp hfor
  refine {
    inLimit := ?_
    beyond := ?_
    bound := ?_
    apart := ?_
    full := ?_
    window := ?_ }
  · intro position hlt
    obtain ⟨physicalPage, -, hok⟩ := hb.address_of_lt hlt
    exact ⟨_, (haddress l position).trans hok⟩
  · intro position hge
    exact ⟨_, pageAddress_beyond hlive halloc hretired hge⟩
  · intro position address hok
    rw [haddress] at hok
    obtain ⟨-, hunit, hrow, hoffset⟩ := hb.of_address hok
    have hmem := List.mem_of_getElem? hunit
    obtain ⟨b', hb', -, hunits⟩ := hb.partition.bound l a halloc
    obtain rfl := Option.some.inj (hb.binding.symm.trans hb')
    have hlt := (hunits _ hmem).1
    have hrowlt : address.rowInPage < page := hrow ▸ Nat.mod_lt _ hb.page_pos
    refine ⟨i, p, b, hp, hfor.key, hb.binding, hmem, hrowlt, hoffset, ?_, ?_⟩
    · rw [hoffset, hb.unitBytes, ← Nat.mul_assoc, ← Nat.succ_mul]
      refine Nat.mul_le_mul_right _ ?_
      calc address.physicalPage * page + address.rowInPage + 1
          ≤ address.physicalPage * page + page := by omega
        _ = (address.physicalPage + 1) * page := by rw [Nat.add_mul, Nat.one_mul]
        _ ≤ p.capacity * page := Nat.mul_le_mul_right _ hlt
    · rw [Nat.mul_comm]
      exact hfor.bytes
  · intro l' position position' address address' hne hok hok'
    rw [haddress] at hok hok'
    obtain ⟨bs, hbs, -⟩ := Outcome.bind_eq_ok.mp hok'
    obtain ⟨-, a', halloc', hretired', -⟩ := bindings_eq_ok.mp hbs
    obtain ⟨b', hb'⟩ := hfresh.located ops hstate hstorage hlive halloc' hretired' hp hfor
    have hpage := hb.page_ne hb' hne hok hok'
    exact ⟨hpage, fun hbytes => hpage (hb.row_of_byteOffset hb' hok hok' hbytes).1⟩
  · intro hretention position position' address address' hok hok' hbytes
    rw [haddress] at hok hok'
    have hrow := hb.rowOf_eq hok hok' hbytes
    simpa [rowOf, hfor.retention, hretention, Retention.isFull] using hrow
  · intro maxQuery w hretention hwindow start query hquery hlimit x y address address' hx hx' hy hy'
      hok hok' hbytes
    rw [haddress] at hok hok'
    obtain ⟨context, largest, hcontext, -, hvalid, -⟩ := Manifest.validate_eq_ok hfresh.valid
    obtain ⟨page', rowBytes', encoding', w', hstorage', hwindow', -, hcapacity⟩ :=
      Manifest.checkRetention_sliding hretention (hvalid state hstate).retention
    rw [hstorage] at hstorage'
    obtain ⟨rfl, -, -⟩ := Storage.pages.inj hstorage'
    obtain rfl := Option.some.inj (hwindow.symm.trans hwindow')
    rw [← hfor.maxTokens] at hcapacity
    have hcontext' : (final step ops s₀).maxContext = context := by
      rw [(frame_final hfresh.linked ops).maxContext]
      exact Option.some.inj (hfresh.context.symm.trans hcontext)
    have htokens := (sized_final hfresh ops l a halloc).1
    refine rowOf_injective_window ?_ hcapacity hquery (by omega) hx hx' hy hy'
      (hb.rowOf_eq hok hok' hbytes)
    rw [hfor.retention, hretention]
    rfl

/-- The ring of the small pool under a request for twelve tokens. -/
theorem paged_addressing_sample :
    ∃ a, (final step [.reserve 1 7 12 none] samplePool).allocations[(⟨0, 1⟩ : Lease)]? = some a ∧
      a.tokenLimit = 12 ∧
      SafeAddressing (final step [.reserve 1 7 12 none] samplePool) 1 ⟨0, 1⟩ a
        ⟨"window", 1, [0], .pages 2 4 "bf16", 6, .slidingWindow 2, some 3, true⟩ 0 2 4 :=
  ⟨_, rfl, rfl, paged_addressing sample_new [.reserve 1 7 12 none] (by decide) (by decide) rfl ⟨rfl, rfl⟩ rfl rfl⟩

end StatePool

end Inferfabric.Runtime
