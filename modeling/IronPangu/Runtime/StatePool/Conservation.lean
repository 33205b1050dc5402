-- SUMMARY: Unit conservation: in every pool the free units and the units of the allocations partition the capacity.
import IronPangu.Runtime.StatePool.Runs

open Rust Std
open scoped List

/-!
# Conservation of units

For each pool, the free units together with the units bound by the allocations
are a rearrangement of `0, .., capacity - 1`. Only reserving and reclaiming move
units, and each moves a list from one part to the other.
-/

namespace Inferfabric.Runtime

open Ir

namespace StatePool

/-! ## Bound units -/

/-- The units a list of bindings holds in the pool at `i`. -/
def unitsAt (i : Nat) (bs : List Binding) : List Nat := ((bs[i]?).map (·.units)).getD []

/-- The units all allocations hold in the pool at `i`. -/
def unitsBound (s : StatePool) (i : Nat) : List Nat :=
  s.allocations.toList.flatMap fun e => unitsAt i e.2.bindings

theorem mem_unitsBound {s : StatePool} {i u : Nat} :
    u ∈ s.unitsBound i ↔ ∃ (l : Lease) (a : Allocation) (b : Binding),
      s.allocations[l]? = some a ∧ a.bindings[i]? = some b ∧ u ∈ b.units := by
  simp only [unitsBound, List.mem_flatMap, Prod.exists, ExtTreeMap.mem_toList_iff_getElem?_eq_some,
    unitsAt]
  refine exists_congr fun l => exists_congr fun a => ?_
  cases hb : a.bindings[i]? <;> simp

/-- Updates of the other fields of allocations bind no unit and free none. -/
theorem unitsBound_congr {s t : StatePool} {i : Nat}
    (h : t.allocations.toList.map (fun e => (e.1, e.2.bindings)) =
      s.allocations.toList.map (fun e => (e.1, e.2.bindings))) :
    t.unitsBound i = s.unitsBound i := by
  have hmap : ∀ r : StatePool, r.unitsBound i =
      (r.allocations.toList.map fun e => (e.1, e.2.bindings)).flatMap fun e => unitsAt i e.2 := by
    intro r
    rw [List.flatMap_map]
    rfl
  rw [hmap, hmap, h]

/-- The units of one allocation among those of all. -/
theorem unitsBound_perm {s : StatePool} {l : Lease} {a : Allocation} {b : Binding} {i : Nat}
    (halloc : s.allocations[l]? = some a) (hb : a.bindings[i]? = some b) :
    s.unitsBound i ~ b.units ++ (s.handBack l).unitsBound i := by
  have := (ExtTreeMap.toList_erase_perm halloc).flatMap_right
    (fun e : Lease × Allocation => unitsAt i e.2.bindings)
  simpa [unitsBound, handBack, unitsAt, hb] using this

theorem chooseUnits_eq_ok {slot : Option Nat} {count : Nat} {p : Pool} {units : List Nat}
    (h : chooseUnits slot count p = .ok units) : units.Nodup ∧ ∀ u ∈ units, u ∈ p.free := by
  have htake : (p.free.toList.take count).Nodup ∧ ∀ u ∈ p.free.toList.take count, u ∈ p.free :=
    ⟨p.free.nodup_toList.sublist (List.take_sublist _ _),
      fun u hu => ExtTreeSet.mem_toList.mp (List.mem_of_mem_take hu)⟩
  unfold chooseUnits at h
  split at h
  · split at h
    · cases h
    · rename_i hfree
      obtain rfl := Outcome.ok.inj h
      simpa using hfree
  · obtain rfl := Outcome.ok.inj h
    exact htake

/-! ## The invariant -/

/-- Free and bound units of every pool are the units of its capacity, each
    once. -/
def Conserved (s : StatePool) : Prop :=
  ∀ i p, s.pools[i]? = some p → (p.free.toList ++ s.unitsBound i).Perm (List.range p.capacity)

/-- What was prepared for the pool at `i`. -/
theorem prepared_getElem? {tokens : Nat} {slot : Option Nat} {ps : List Pool} {bs : List Binding}
    (h : List.Forall₂ (fun p b => prepareBinding tokens slot p = .ok b) ps bs) {i : Nat} {p : Pool}
    (hp : ps[i]? = some p) : ∃ b, bs[i]? = some b ∧ prepareBinding tokens slot p = .ok b := by
  induction h generalizing i with
  | nil => simp at hp
  | cons hhead _ ih =>
    cases i with
    | zero =>
      obtain rfl := Option.some.inj hp
      exact ⟨_, rfl, hhead⟩
    | succ i => exact ih hp

theorem conserved_reserved {s : StatePool} {request tokens : Nat} {slot : Option Nat}
    {bindings : List Binding} (hs : Linked s) (hconserved : Conserved s)
    (hbindings : List.Forall₂ (fun p b => prepareBinding tokens slot p = .ok b) s.pools bindings) :
    Conserved (s.reserved request tokens bindings) := by
  intro i q hq
  have hlt : i < s.pools.length := by
    simpa [reserved] using (List.getElem?_eq_some_iff.mp hq).1
  obtain ⟨p, hp⟩ : ∃ p, s.pools[i]? = some p := ⟨_, List.getElem?_eq_getElem hlt⟩
  obtain ⟨b, hb, hprepared⟩ := prepared_getElem? hbindings hp
  obtain ⟨-, _, -, -, hunits, -⟩ := prepareBinding_eq_ok hprepared
  obtain ⟨hnodup, hfree⟩ := chooseUnits_eq_ok hunits
  obtain rfl : takeUnits p b = q := by
    have := getElem?_zipPools (f := takeUnits) hp hb
    exact Option.some.inj (this.symm.trans hq)
  have hbound : ((s.reserved request tokens bindings).unitsBound i).Perm (b.units ++ s.unitsBound i) := by
    have hinsert := ExtTreeMap.toList_insert_perm hs.fresh_lease (v := {
      request := request, tokenLimit := tokens, bindings := bindings, retired := false,
      isSealed := false, borrowers := ∅, pending := ∅ })
    have := hinsert.flatMap_right (fun e : Lease × Allocation => unitsAt i e.2.bindings)
    simpa [unitsBound, reserved, unitsAt, hb] using this
  calc (takeUnits p b).free.toList ++ (s.reserved request tokens bindings).unitsBound i
      ~ (p.free.eraseAll b.units).toList ++ (b.units ++ s.unitsBound i) := hbound.append_left _
    _ ~ (b.units ++ (p.free.eraseAll b.units).toList) ++ s.unitsBound i := by
        rw [← List.append_assoc]
        exact List.perm_append_comm.append_right _
    _ ~ p.free.toList ++ s.unitsBound i :=
        (ExtTreeSet.toList_eraseAll_perm hnodup hfree).symm.append_right _
    _ ~ List.range p.capacity := hconserved i p hp

theorem handBack_of_none {s : StatePool} {lease : Lease} (h : s.allocations[lease]? = none) :
    s.handBack lease = s := by
  have herase : s.allocations.erase lease = s.allocations := by
    refine ExtTreeMap.ext_getElem? fun k => ?_
    by_cases hk : lease = k
    · subst hk
      simp [h]
    · rw [ExtTreeMap.getElem?_erase_ne hk]
  have hzip : ∀ ps : List Pool, zipPools giveUnits ps [] = ps := fun ps => by cases ps <;> rfl
  simp only [handBack, h, herase, Option.map_none, Option.getD_none, hzip]

/-- Handing back one allocation moves its units from the bound to the free. -/
theorem conserved_handBack {s : StatePool} {lease : Lease} (hconserved : Conserved s)
    (haligned : ∀ a : Allocation, s.allocations[lease]? = some a →
      a.bindings.length = s.pools.length) :
    Conserved (s.handBack lease) := by
  cases halloc : s.allocations[lease]? with
  | none => rwa [handBack_of_none halloc]
  | some a =>
    intro i q hq
    have hpools : (s.handBack lease).pools = zipPools giveUnits s.pools a.bindings := by
      simp [handBack, halloc]
    rw [hpools] at hq
    have hlt : i < s.pools.length := by simpa using (List.getElem?_eq_some_iff.mp hq).1
    obtain ⟨p, hp⟩ : ∃ p, s.pools[i]? = some p := ⟨_, List.getElem?_eq_getElem hlt⟩
    obtain ⟨b, hb⟩ : ∃ b, a.bindings[i]? = some b :=
      ⟨_, List.getElem?_eq_getElem (by rw [haligned a halloc]; exact hlt)⟩
    obtain rfl : giveUnits p b = q :=
      Option.some.inj ((getElem?_zipPools hp hb).symm.trans hq)
    have hbound := unitsBound_perm halloc hb
    have hbefore := hconserved i p hp
    have hnodup : (p.free.toList ++ s.unitsBound i).Nodup := hbefore.nodup_iff.mpr List.nodup_range
    rw [List.nodup_append'] at hnodup
    obtain ⟨-, hboundNodup, hdisjoint⟩ := hnodup
    have hunits : b.units.Nodup :=
      (List.nodup_append'.mp (hbound.nodup_iff.mp hboundNodup)).1
    have hnew : ∀ u ∈ b.units, u ∉ p.free := by
      intro u hu hfree
      exact hdisjoint (ExtTreeSet.mem_toList.mpr hfree)
        (hbound.mem_iff.mpr (List.mem_append_left _ hu))
    calc (giveUnits p b).free.toList ++ (s.handBack lease).unitsBound i
        ~ (b.units ++ p.free.toList) ++ (s.handBack lease).unitsBound i :=
          (ExtTreeSet.toList_insertMany_perm hunits hnew).append_right _
      _ ~ p.free.toList ++ (b.units ++ (s.handBack lease).unitsBound i) := by
          rw [← List.append_assoc]
          exact List.perm_append_comm.append_right _
      _ ~ p.free.toList ++ s.unitsBound i := hbound.symm.append_left _
      _ ~ List.range p.capacity := hbefore

theorem conserved_reclaimed {s : StatePool} (hconserved : Conserved s)
    (haligned : ∀ (l : Lease) (a : Allocation), s.allocations[l]? = some a →
      a.bindings.length = s.pools.length) :
    Conserved s.reclaimed := by
  have hfold : ∀ (leases : List Lease) (t : StatePool), Conserved t →
      (∀ (l : Lease) (a : Allocation), t.allocations[l]? = some a →
        a.bindings.length = t.pools.length) →
      Conserved (leases.foldl handBack t) := by
    intro leases
    induction leases with
    | nil => exact fun t ht _ => ht
    | cons lease leases ih =>
      intro t ht hal
      refine ih _ (conserved_handBack ht fun a => hal lease a) fun l a halloc => ?_
      rw [handBack, length_zipPools]
      exact hal l a (ExtTreeMap.getElem?_erase_eq_some.mp halloc).2
  exact hfold s.ready s hconserved haligned

/-- A state with the same pools and the same bindings under every lease. -/
theorem Conserved.congr {s t : StatePool} (hs : Conserved s) (hpools : t.pools = s.pools)
    (hbound : t.allocations.toList.map (fun e => (e.1, e.2.bindings)) =
      s.allocations.toList.map (fun e => (e.1, e.2.bindings))) : Conserved t := by
  intro i p hp
  rw [unitsBound_congr hbound]
  exact hs i p (hpools ▸ hp)

theorem Linked.bindings_length {s : StatePool} (hs : Linked s) {l : Lease} {a : Allocation}
    (halloc : s.allocations[l]? = some a) : a.bindings.length = s.pools.length :=
  (hs.aligned halloc).length_eq.symm

/-- The state `reclaim` runs on: the pools of a linked state, and bindings as
    they were. -/
theorem Conserved.reclaimed_of {s t : StatePool} (hs : Linked s) (hconserved : Conserved s)
    (hpools : t.pools = s.pools)
    (hbound : t.allocations.toList.map (fun e => (e.1, e.2.bindings)) =
      s.allocations.toList.map (fun e => (e.1, e.2.bindings)))
    : Conserved t.reclaimed := by
  refine conserved_reclaimed (hconserved.congr hpools hbound) fun l a halloc => ?_
  have hmem : (l, a.bindings) ∈ s.allocations.toList.map (fun e => (e.1, e.2.bindings)) := by
    rw [← hbound]
    exact List.mem_map.mpr ⟨(l, a), ExtTreeMap.mem_toList_iff_getElem?_eq_some.mpr halloc, rfl⟩
  obtain ⟨⟨l', a'⟩, hmem', heq⟩ := List.mem_map.mp hmem
  obtain ⟨rfl, hbs⟩ := Prod.mk.inj heq
  rw [hpools, ← hbs]
  exact hs.bindings_length (ExtTreeMap.mem_toList_iff_getElem?_eq_some.mp hmem')

/-- Every accepted call conserves the units. -/
theorem Accepted.conserved {s t : StatePool} {op : Op} {reply : Reply} (hs : Linked s)
    (hconserved : Conserved s) (h : Accepted s op reply t) : Conserved t := by
  cases h with
  | reserve hlive htokens hcontext hrequest hbindings =>
    exact conserved_reserved hs hconserved hbindings
  | borrow => exact hconserved.congr rfl (ExtTreeMap.toList_map_modify (by simp))
  | borrowSealed => exact hconserved.congr rfl (ExtTreeMap.toList_map_modify (by simp))
  | sealLease => exact hconserved.congr rfl (ExtTreeMap.toList_map_modify (by simp))
  | release => exact hconserved.reclaimed_of hs rfl (ExtTreeMap.toList_map_modify (by simp))
  | submit => exact hconserved.congr rfl (ExtTreeMap.toList_map_modifyAll (by simp) _)
  | completeRank => exact hconserved.congr rfl rfl
  | completeLast => exact hconserved.reclaimed_of hs rfl (ExtTreeMap.toList_map_modifyAll (by simp) _)
  | retire => exact hconserved.reclaimed_of hs rfl (ExtTreeMap.toList_map_modify (by simp))
  | poison => exact hconserved.congr rfl rfl

theorem Fresh.conserved {m : Manifest} {capacities : ExtTreeMap Key Nat} {s : StatePool}
    (h : Fresh m capacities s) : Conserved s := by
  intro i p hp
  have hbound : s.unitsBound i = [] := by simp [unitsBound, h.allocations]
  obtain ⟨state, -, rank, -, layout, -, hpool⟩ := h.pools p (List.mem_of_getElem? hp)
  obtain ⟨capacity, -, -, -, rfl⟩ := rankPool_eq_ok hpool
  rw [hbound, List.append_nil]
  exact ExtTreeSet.toList_ofList_perm List.nodup_range

theorem conserved_final {m : Manifest} {capacities : ExtTreeMap Key Nat} {s : StatePool}
    (h : Fresh m capacities s) (ops : List Op) : Conserved (final step ops s) :=
  run_induction (P := fun _ t => Conserved t) h.linked h.conserved (fun _ _ _ _ _ ht _ => ht)
    (fun _ _ _ _ _ ht hconserved _ haccepted => haccepted.conserved ht hconserved) ops

/-! ## Partition and usage -/

/-- The units of one pool: each is free or bound by exactly one allocation, once. -/
structure Partition (s : StatePool) (i : Nat) (p : Pool) : Prop where
  free_lt : ∀ u ∈ p.free, u < p.capacity
  bound : ∀ (l : Lease) (a : Allocation), s.allocations[l]? = some a →
    ∃ b, a.bindings[i]? = some b ∧ b.units.Nodup ∧ ∀ u ∈ b.units, u < p.capacity ∧ u ∉ p.free
  disjoint : ∀ (l l' : Lease) (a a' : Allocation) (b b' : Binding), l ≠ l' →
    s.allocations[l]? = some a → s.allocations[l']? = some a' →
    a.bindings[i]? = some b → a'.bindings[i]? = some b' → b.units.Disjoint b'.units
  covered : ∀ u < p.capacity, u ∈ p.free ∨ ∃ (l : Lease) (a : Allocation) (b : Binding),
    s.allocations[l]? = some a ∧ a.bindings[i]? = some b ∧ u ∈ b.units

theorem Conserved.partition {s : StatePool} {i : Nat} {p : Pool} (hs : Linked s)
    (hconserved : Conserved s) (hp : s.pools[i]? = some p) : Partition s i p := by
  have hperm := hconserved i p hp
  have hnodup : (p.free.toList ++ s.unitsBound i).Nodup := hperm.nodup_iff.mpr List.nodup_range
  obtain ⟨-, hboundNodup, hdisjoint⟩ := List.nodup_append'.mp hnodup
  have hlt : ∀ u ∈ p.free.toList ++ s.unitsBound i, u < p.capacity :=
    fun u hu => List.mem_range.mp (hperm.mem_iff.mp hu)
  refine ⟨fun u hu => hlt u (List.mem_append_left _ (ExtTreeSet.mem_toList.mpr hu)), ?_, ?_, ?_⟩
  · intro l a halloc
    obtain ⟨b, hb⟩ : ∃ b, a.bindings[i]? = some b := by
      refine ⟨_, List.getElem?_eq_getElem ?_⟩
      rw [hs.bindings_length halloc]
      exact (List.getElem?_eq_some_iff.mp hp).1
    have hsplit := hboundNodup
    rw [(unitsBound_perm halloc hb).nodup_iff, List.nodup_append'] at hsplit
    refine ⟨b, hb, hsplit.1, fun u hu => ?_⟩
    have hmem : u ∈ s.unitsBound i := mem_unitsBound.mpr ⟨l, a, b, halloc, hb, hu⟩
    exact ⟨hlt u (List.mem_append_right _ hmem),
      fun hfree => hdisjoint (ExtTreeSet.mem_toList.mpr hfree) hmem⟩
  · intro l l' a a' b b' hne halloc halloc' hb hb' u hu hu'
    have hsplit := hboundNodup
    rw [(unitsBound_perm halloc hb).nodup_iff, List.nodup_append'] at hsplit
    refine hsplit.2.2 hu (mem_unitsBound.mpr ⟨l', a', b', ?_, hb', hu'⟩)
    exact ExtTreeMap.getElem?_erase_eq_some.mpr ⟨hne, halloc'⟩
  · intro u hu
    rcases List.mem_append.mp (hperm.mem_iff.mpr (List.mem_range.mpr hu)) with hfree | hbound
    · exact .inl (ExtTreeSet.mem_toList.mp hfree)
    · exact .inr (mem_unitsBound.mp hbound)

/-- Bytes one allocation binds in the pool at `i`. -/
def allocatedBytes (i : Nat) (a : Allocation) : Nat :=
  ((a.bindings[i]?).map fun b => b.units.length * b.bytesPerUnit).getD 0

theorem boundBytes_eq {s : StatePool} {i : Nat} {p : Pool} (hs : Linked s)
    (hp : s.pools[i]? = some p) (filter : Allocation → Bool) :
    s.boundBytes i p filter =
      .ok ((((s.allocations.toList.map Prod.snd).filter filter).map (allocatedBytes i)).sum) := by
  have hbody : ∀ a ∈ (s.allocations.toList.map Prod.snd).filter filter,
      (do let binding ← Outcome.unwrap a.bindings[i]?
          .ok (binding.units.length * p.unitBytes) : Result Nat) = .ok (allocatedBytes i a) := by
    intro a ha
    obtain ⟨⟨l, a'⟩, hmem, rfl⟩ := List.mem_map.mp (List.mem_filter.mp ha).1
    have halloc := ExtTreeMap.mem_toList_iff_getElem?_eq_some.mp hmem
    obtain ⟨b, hb, hof⟩ : ∃ b, a'.bindings[i]? = some b ∧ Binding.Of p b := by
      have haligned := hs.aligned halloc
      obtain ⟨hlt, rfl⟩ := List.getElem?_eq_some_iff.mp hp
      have hlt' : i < a'.bindings.length := haligned.length_eq ▸ hlt
      exact ⟨_, List.getElem?_eq_getElem hlt', haligned.get hlt hlt'⟩
    simp [allocatedBytes, hb, hof.bytesPerUnit]
  rw [boundBytes, Outcome.collect_eq_map hbody, Outcome.ok_bind]

/-- The entry of `usage` for one pool. -/
def poolUsage (s : StatePool) (p : Pool) (i : Nat) : Usage :=
  let bytes (filter : Allocation → Bool) :=
    (((s.allocations.toList.map Prod.snd).filter filter).map (allocatedBytes i)).sum
  { component := p.key.component
    rank := p.key.rank
    reservedBytes := p.capacity * p.unitBytes
    occupiedBytes := (p.capacity - p.free.size) * p.unitBytes
    retiringBytes := bytes fun a => a.retired
    borrowedBytes := bytes fun a => !a.borrowers.isEmpty
    sealedBytes := bytes fun a => a.isSealed }

/-- `usage` finds every binding it sums over. -/
theorem usage_eq {s : StatePool} (hs : Linked s) :
    s.usage = .ok (s.pools.zipIdx.map fun e => s.poolUsage e.1 e.2) := by
  refine Outcome.collect_eq_map ?_
  rintro ⟨p, i⟩ hmem
  have hp : s.pools[i]? = some p := List.mem_zipIdx_iff_getElem?.mp hmem
  simp only [boundBytes_eq hs hp, Outcome.ok_bind]
  rfl

/-- The occupied bytes of a pool are the bytes its allocations bind. -/
theorem occupiedBytes_eq {s : StatePool} {i : Nat} {p : Pool} (hs : Linked s)
    (hconserved : Conserved s) (hp : s.pools[i]? = some p) :
    (p.capacity - p.free.size) * p.unitBytes =
      ((s.allocations.toList.map fun e => allocatedBytes i e.2).sum) := by
  have hlen := (hconserved i p hp).length_eq
  rw [List.length_append, List.length_range, ExtTreeSet.length_toList] at hlen
  have hcount : p.capacity - p.free.size = (s.unitsBound i).length := by omega
  have hbytes : ∀ e ∈ s.allocations.toList,
      allocatedBytes i e.2 = (unitsAt i e.2.bindings).length * p.unitBytes := by
    rintro ⟨l, a⟩ hmem
    have haligned := hs.aligned (ExtTreeMap.mem_toList_iff_getElem?_eq_some.mp hmem)
    obtain ⟨hlt, rfl⟩ := List.getElem?_eq_some_iff.mp hp
    have hlt' : i < a.bindings.length := haligned.length_eq ▸ hlt
    have hof := haligned.get hlt hlt'
    simp only [List.get_eq_getElem] at hof
    simp [allocatedBytes, unitsAt, List.getElem?_eq_getElem hlt', hof.bytesPerUnit]
  rw [hcount, unitsBound, List.length_flatMap, List.map_congr_left hbytes, List.sum_map_mul_right]

/-- In every run, each pool is partitioned into its free units and the units of
    the allocations, and `usage` accounts for exactly the bound ones. -/
theorem unit_conservation {m : Manifest} {epoch nextPool counter : Nat}
    {capacities : ExtTreeMap Key Nat} {s₀ : StatePool}
    (hnew : new m epoch capacities nextPool = .ok (s₀, counter)) (ops : List Op) :
    (∀ i p, (final step ops s₀).pools[i]? = some p →
      capacities[p.key]? = some p.capacity ∧ Partition (final step ops s₀) i p) ∧
    ∃ us, (final step ops s₀).usage = .ok us ∧
      us.length = (final step ops s₀).pools.length ∧
      ∀ i p u, (final step ops s₀).pools[i]? = some p → us[i]? = some u →
        u.component = p.key.component ∧ u.rank = p.key.rank ∧
        u.occupiedBytes =
          ((final step ops s₀).allocations.toList.map fun e => allocatedBytes i e.2).sum := by
  have hfresh := fresh_of_new hnew
  have hs := linked_final hfresh.linked ops
  have hconserved := conserved_final hfresh ops
  refine ⟨fun i p hp => ⟨?_, hconserved.partition hs hp⟩, _, usage_eq hs, by simp, ?_⟩
  · obtain ⟨state, -, rank, -, layout, capacity, -, hcapacity, -, hfixed⟩ :=
      hfresh.pool_final (List.mem_of_getElem? hp)
    have hkey : p.key = ⟨state.id, rank⟩ := congrArg (fun q => q.key) hfixed
    have hcap : p.capacity = capacity := congrArg (fun q => q.capacity) hfixed
    rw [hkey, hcap, hcapacity]
  · intro i p u hp hu
    have hentry : (final step ops s₀).poolUsage p i = u := by
      simpa [List.getElem?_map, List.getElem?_zipIdx, hp] using hu
    rw [← hentry]
    exact ⟨rfl, rfl, occupiedBytes_eq hs hconserved hp⟩

/-- The small pool after a reservation, a borrow and the retirement of the
    lease. -/
theorem unit_conservation_sample :
    let s := final step [.reserve 1 7 3 none, .borrow 1 ⟨0, 1⟩, .retire 1 ⟨0, 1⟩] samplePool
    (∀ i p, s.pools[i]? = some p → sampleCapacities[p.key]? = some p.capacity ∧ Partition s i p) ∧
    ∃ us, s.usage = .ok us ∧ us.length = s.pools.length ∧
      ∀ i p u, s.pools[i]? = some p → us[i]? = some u →
        u.component = p.key.component ∧ u.rank = p.key.rank ∧
        u.occupiedBytes = (s.allocations.toList.map fun e => allocatedBytes i e.2).sum :=
  unit_conservation sample_new _

end StatePool

end Inferfabric.Runtime
