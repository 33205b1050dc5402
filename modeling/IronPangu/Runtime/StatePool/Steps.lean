-- SUMMARY: The state pool as a machine: its calls, what each accepted call checks and does, and that a failed call changes nothing.
import IronPangu.Lib.Machine
import IronPangu.Runtime.StatePool

open Rust Std

/-!
# Steps of the state pool

The public operations as calls of one machine. `Accepted` lists what an accepted
call has checked and the state it leaves, so that invariants are proved from it
and never by unfolding an operation.
-/

namespace Inferfabric.Runtime

/-- A call on the pool, with whatever handles the caller has. `slot` tells
    `reserve_at_slot` from `reserve`. -/
inductive Op where
  | reserve (epoch request tokens : Nat) (slot : Option Nat)
  | borrow (epoch : Nat) (lease : Lease)
  | borrowSealed (epoch : Nat) (sealedLease : SealedLease)
  | sealLease (epoch : Nat) (lease : Lease)
  | release (epoch : Nat) (borrowed : Borrow)
  | submit (epoch : Nat) (leases : List Lease) (reads : List Borrow)
  | complete (epoch : Nat) (ticket : Ticket) (rank : Nat)
  | retire (epoch : Nat) (lease : Lease)
  | poison
  deriving DecidableEq, Repr

inductive Reply where
  | lease (lease : Lease)
  | borrow (borrowed : Borrow)
  | sealedLease (sealedLease : SealedLease)
  | ticket (ticket : Ticket)
  | done
  deriving DecidableEq, Repr

namespace StatePool

def step : Op → Method StatePool Error Reply
  | .reserve epoch request tokens none => do return .lease (← reserve epoch request tokens)
  | .reserve epoch request tokens (some slot) => do
    return .lease (← reserveAtSlot epoch request tokens slot)
  | .borrow epoch lease => do return .borrow (← borrow epoch lease)
  | .borrowSealed epoch sealedLease => do return .borrow (← borrowSealed epoch sealedLease)
  | .sealLease epoch lease => do return .sealedLease (← sealLease epoch lease)
  | .release epoch borrowed => do
    release epoch borrowed
    return .done
  | .submit epoch leases reads => do return .ticket (← submit epoch leases reads)
  | .complete epoch ticket rank => do
    complete epoch ticket rank
    return .done
  | .retire epoch lease => do
    retire epoch lease
    return .done
  | .poison => do
    poison
    return .done

/-! ## Failed calls -/

section Atomic

open Method

theorem atomic_serial : Atomic serial := by
  refine Atomic.bind readOnly_get fun s => ?_
  cases checkedAdd u64Max s.next 1 with
  | none => exact (readOnly_fail _).atomic
  | some next => exact (Infallible.bind (infallible_modify _) fun _ => infallible_pure _).atomic

theorem infallible_updateAllocation (lease : Lease) (f : Allocation → Allocation) :
    Infallible (updateAllocation lease f) :=
  Infallible.bind (infallible_unwrap _) fun _ => infallible_modify _

theorem infallible_reclaim : Infallible reclaim :=
  Infallible.bind (m := Method.get) (fun s e s' h => by simp at h) fun _ =>
    Infallible.forEach (fun _ => Infallible.bind (infallible_unwrap _) fun _ => infallible_modify _) _

/-- Every reservation is prepared before any free list is touched, so a pool
    without room late in the list takes nothing from the pools before it. -/
theorem atomic_reserveInner (epoch request tokens : Nat) (slot : Option Nat) :
    Atomic (reserveInner epoch request tokens slot) := by
  refine Atomic.bind readOnly_get fun s => Atomic.bind (readOnly_lift _) fun _ => ?_
  split
  · exact (readOnly_fail _).atomic
  split
  · exact (readOnly_fail _).atomic
  refine Atomic.bind (readOnly_lift _) fun bindings => ?_
  exact atomic_serial.bind_infallible fun _ =>
    Infallible.bind (infallible_modify _) fun _ => infallible_pure _

theorem atomic_pin (lease : Lease) : Atomic (pin lease) :=
  atomic_serial.bind_infallible fun _ =>
    Infallible.bind (infallible_updateAllocation _ _) fun _ =>
      Infallible.bind (infallible_modify _) fun _ =>
        Infallible.bind (m := Method.get) (fun s e s' h => by simp at h) fun _ => infallible_pure _

theorem atomic_borrow (epoch : Nat) (lease : Lease) : Atomic (borrow epoch lease) :=
  Atomic.bind (readOnly_read _) fun _ => atomic_pin lease

theorem atomic_borrowSealed (epoch : Nat) (sealedLease : SealedLease) :
    Atomic (borrowSealed epoch sealedLease) := by
  refine Atomic.bind (readOnly_read _) fun _ => Atomic.bind readOnly_get fun s => ?_
  split
  · exact (readOnly_fail _).atomic
  · exact atomic_pin _

theorem atomic_sealLease (epoch : Nat) (lease : Lease) : Atomic (sealLease epoch lease) := by
  refine Atomic.bind (readOnly_read _) fun _ => Atomic.bind (readOnly_read _) fun a => ?_
  split
  · exact (readOnly_fail _).atomic
  · exact (Infallible.bind (infallible_updateAllocation _ _) fun _ => infallible_pure _).atomic

theorem atomic_release (epoch : Nat) (borrowed : Borrow) : Atomic (release epoch borrowed) := by
  refine Atomic.bind (readOnly_read _) fun _ => Atomic.bind (readOnly_read _) fun lease => ?_
  exact (Infallible.bind (infallible_modify _) fun _ =>
    Infallible.bind (infallible_updateAllocation _ _) fun _ => infallible_reclaim).atomic

/-- Both handle lists are checked before any allocation is marked. -/
theorem atomic_submit (epoch : Nat) (leases : List Lease) (reads : List Borrow) :
    Atomic (submit epoch leases reads) := by
  refine Atomic.bind readOnly_get fun s => Atomic.bind (readOnly_lift _) fun _ =>
    Atomic.bind (readOnly_lift _) fun writes => Atomic.bind (readOnly_lift _) fun borrowed => ?_
  extract_lets all
  split
  · exact (readOnly_fail _).atomic
  refine Atomic.bind (readOnly_lift _) fun ranks => ?_
  exact atomic_serial.bind_infallible fun _ =>
    Infallible.bind (Infallible.forEach (fun _ => infallible_updateAllocation _ _) _) fun _ =>
      Infallible.bind (infallible_modify _) fun _ => infallible_pure _

theorem infallible_finishRank (id rank : Nat) (flight : Flight) :
    Infallible (finishRank id rank flight) := by
  refine Infallible.bind (infallible_modify _) fun _ => ?_
  split
  · exact Infallible.bind (infallible_unwrap _) fun _ =>
      Infallible.bind (infallible_modify _) fun _ =>
        Infallible.bind (Infallible.forEach (fun _ => infallible_updateAllocation _ _) _) fun _ =>
          infallible_reclaim
  · exact infallible_pure _

theorem atomic_complete (epoch : Nat) (ticket : Ticket) (rank : Nat) :
    Atomic (complete epoch ticket rank) := by
  refine Atomic.bind readOnly_get fun s => Atomic.bind (readOnly_lift _) fun _ => ?_
  split
  · exact (readOnly_fail _).atomic
  refine Atomic.bind (readOnly_lift _) fun flight => ?_
  split
  · exact (readOnly_fail _).atomic
  · exact (infallible_finishRank _ _ _).atomic

theorem atomic_retire (epoch : Nat) (lease : Lease) : Atomic (retire epoch lease) :=
  Atomic.bind (readOnly_read _) fun _ =>
    (Infallible.bind (infallible_updateAllocation _ _) fun _ => infallible_reclaim).atomic

/-- A rejected call leaves the pool as it was. -/
theorem step_atomic (op : Op) : Atomic (step op) := by
  cases op with
  | reserve epoch request tokens slot =>
    cases slot <;> exact (atomic_reserveInner _ _ _ _).bind_infallible fun _ => infallible_pure _
  | borrow epoch lease => exact (atomic_borrow _ _).bind_infallible fun _ => infallible_pure _
  | borrowSealed epoch sealedLease =>
    exact (atomic_borrowSealed _ _).bind_infallible fun _ => infallible_pure _
  | sealLease epoch lease => exact (atomic_sealLease _ _).bind_infallible fun _ => infallible_pure _
  | release epoch borrowed => exact (atomic_release _ _).bind_infallible fun _ => infallible_pure _
  | submit epoch leases reads =>
    exact (atomic_submit _ _ _).bind_infallible fun _ => infallible_pure _
  | complete epoch ticket rank =>
    exact (atomic_complete _ _ _).bind_infallible fun _ => infallible_pure _
  | retire epoch lease => exact (atomic_retire _ _).bind_infallible fun _ => infallible_pure _
  | poison => exact (Infallible.bind (infallible_modify _) fun _ => infallible_pure _).atomic

end Atomic

/-! ## What accepted calls do -/

structure Live (s : StatePool) (epoch : Nat) : Prop where
  healthy : s.poisoned = false
  current : epoch = s.epoch

def reserved (s : StatePool) (request tokens : Nat) (bindings : List Binding) : StatePool :=
  { s with
    next := s.next + 1
    pools := zipPools takeUnits s.pools bindings
    allocations := s.allocations.insert ⟨s.id, s.next + 1⟩ {
      request := request
      tokenLimit := tokens
      bindings := bindings
      retired := false
      isSealed := false
      borrowers := ∅
      pending := ∅ } }

def pinned (s : StatePool) (lease : Lease) : StatePool :=
  { s with
    next := s.next + 1
    allocations := s.allocations.modify lease fun a =>
      { a with borrowers := a.borrowers.insert (s.next + 1) }
    borrowers := s.borrowers.insert (s.next + 1) lease }

def markedSealed (s : StatePool) (lease : Lease) : StatePool :=
  { s with allocations := s.allocations.modify lease fun a => { a with isSealed := true } }

def unpinned (s : StatePool) (id : Nat) (lease : Lease) : StatePool :=
  { s with
    allocations := s.allocations.modify lease fun a => { a with borrowers := a.borrowers.erase id }
    borrowers := s.borrowers.erase id }

/-- The leases of a submission, each once. -/
def submission (leases borrowed : List Lease) : List Lease :=
  ((ExtTreeSet.ofList leases).insertMany borrowed : ExtTreeSet Lease).toList

/-- The ranks a lease is bound on. -/
def ranksOf (s : StatePool) (lease : Lease) : List Nat :=
  ((s.allocations[lease]?).map fun a => a.bindings.map (·.rank)).getD []

def submitted (s : StatePool) (leases : List Lease) : StatePool :=
  { s with
    next := s.next + 1
    allocations := s.allocations.modifyAll leases fun a =>
      { a with pending := a.pending.insert (s.next + 1) }
    flights := s.flights.insert (s.next + 1) {
      remainingRanks := ExtTreeSet.ofList (leases.flatMap s.ranksOf)
      leases := leases } }

def rankDone (s : StatePool) (id rank : Nat) : StatePool :=
  { s with flights := s.flights.modify id fun f =>
      { f with remainingRanks := f.remainingRanks.erase rank } }

def landed (s : StatePool) (id : Nat) (leases : List Lease) : StatePool :=
  { s with
    allocations := s.allocations.modifyAll leases fun a => { a with pending := a.pending.erase id }
    flights := s.flights.erase id }

def markedRetired (s : StatePool) (lease : Lease) : StatePool :=
  { s with allocations := s.allocations.modify lease fun a => { a with retired := true } }

/-- `reclaimOne` on an allocation that is there. -/
def handBack (s : StatePool) (lease : Lease) : StatePool :=
  { s with
    allocations := s.allocations.erase lease
    pools := zipPools giveUnits s.pools (((s.allocations[lease]?).map (·.bindings)).getD []) }

def reclaimed (s : StatePool) : StatePool := s.ready.foldl handBack s

/-- What an accepted call has checked, its reply and the state it leaves. -/
inductive Accepted (s : StatePool) : Op → Reply → StatePool → Prop where
  | reserve {epoch request tokens : Nat} {slot : Option Nat} {bindings : List Binding}
      (hlive : s.Live epoch) (htokens : 0 < tokens) (hcontext : tokens ≤ s.maxContext)
      (hrequest : ∀ (l : Lease) (a : Allocation), s.allocations[l]? = some a → a.request ≠ request)
      (hbindings : List.Forall₂ (fun p b => prepareBinding tokens slot p = .ok b) s.pools bindings)
      (hnext : s.next + 1 ≤ u64Max) :
      Accepted s (.reserve epoch request tokens slot) (.lease ⟨s.id, s.next + 1⟩)
        (s.reserved request tokens bindings)
  | borrow {epoch : Nat} {lease : Lease} {a : Allocation}
      (hlive : s.Live epoch) (halloc : s.allocations[lease]? = some a) (hretired : a.retired = false)
      (hnext : s.next + 1 ≤ u64Max) :
      Accepted s (.borrow epoch lease) (.borrow ⟨s.id, s.next + 1⟩) (s.pinned lease)
  | borrowSealed {epoch : Nat} {lease : Lease} {a : Allocation}
      (hlive : s.Live epoch) (halloc : s.allocations[lease]? = some a) (hsealed : a.isSealed = true)
      (hnext : s.next + 1 ≤ u64Max) :
      Accepted s (.borrowSealed epoch ⟨lease⟩) (.borrow ⟨s.id, s.next + 1⟩) (s.pinned lease)
  | sealLease {epoch : Nat} {lease : Lease} {a : Allocation}
      (hlive : s.Live epoch) (halloc : s.allocations[lease]? = some a) (hretired : a.retired = false)
      (hpending : a.pending.isEmpty = true) :
      Accepted s (.sealLease epoch lease) (.sealedLease ⟨lease⟩) (s.markedSealed lease)
  | release {epoch : Nat} {borrowed : Borrow} {lease : Lease} {a : Allocation}
      (hlive : s.Live epoch) (hpool : borrowed.pool = s.id)
      (hborrower : s.borrowers[borrowed.id]? = some lease) (halloc : s.allocations[lease]? = some a) :
      Accepted s (.release epoch borrowed) .done (s.unpinned borrowed.id lease).reclaimed
  | submit {epoch : Nat} {leases : List Lease} {reads : List Borrow} {borrowed : List Lease}
      (hlive : s.Live epoch)
      (hwrites : ∀ l ∈ leases, ∃ a : Allocation, s.allocations[l]? = some a ∧ a.retired = false ∧
        a.isSealed = false)
      (hreads : List.Forall₂ (fun b l => b.pool = s.id ∧ s.borrowers[b.id]? = some l ∧
        (s.allocations[l]?).isSome) reads borrowed)
      (hsome : submission leases borrowed ≠ []) (hnext : s.next + 1 ≤ u64Max) :
      Accepted s (.submit epoch leases reads) (.ticket ⟨s.id, s.next + 1⟩)
        (s.submitted (submission leases borrowed))
  | completeRank {epoch rank : Nat} {ticket : Ticket} {flight : Flight}
      (hlive : s.Live epoch) (hpool : ticket.pool = s.id)
      (hflight : s.flights[ticket.id]? = some flight) (hrank : rank ∈ flight.remainingRanks)
      (hmore : (flight.remainingRanks.erase rank).isEmpty = false) :
      Accepted s (.complete epoch ticket rank) .done (s.rankDone ticket.id rank)
  | completeLast {epoch rank : Nat} {ticket : Ticket} {flight : Flight}
      (hlive : s.Live epoch) (hpool : ticket.pool = s.id)
      (hflight : s.flights[ticket.id]? = some flight) (hrank : rank ∈ flight.remainingRanks)
      (hlast : (flight.remainingRanks.erase rank).isEmpty = true) :
      Accepted s (.complete epoch ticket rank) .done (s.landed ticket.id flight.leases).reclaimed
  | retire {epoch : Nat} {lease : Lease} {a : Allocation}
      (hlive : s.Live epoch) (halloc : s.allocations[lease]? = some a) (hretired : a.retired = false) :
      Accepted s (.retire epoch lease) .done (s.markedRetired lease).reclaimed
  | poison : Accepted s .poison .done { s with poisoned := true }

/-! ## Accepted calls check and do that -/

theorem live_eq_ok {s : StatePool} {epoch : Nat} {u : Unit} :
    s.live epoch = .ok u ↔ s.Live epoch := by
  unfold live
  constructor
  · intro h
    split at h
    · simp at h
    · split at h
      · cases h
      · exact ⟨by simp_all, by simp_all⟩
  · rintro ⟨hhealthy, hcurrent⟩
    simp [hhealthy, hcurrent]

theorem bindings_eq_ok {s : StatePool} {epoch : Nat} {lease : Lease} {bs : List Binding} :
    s.bindings epoch lease = .ok bs ↔
      s.Live epoch ∧ ∃ a, s.allocations[lease]? = some a ∧ a.retired = false ∧ a.bindings = bs := by
  unfold bindings
  rw [Outcome.check_bind_eq_ok, live_eq_ok, Outcome.bind_eq_ok]
  simp only [Outcome.okOr_eq_ok]
  refine and_congr_right fun _ => exists_congr fun a => and_congr_right fun _ => ?_
  cases a.retired <;> simp

theorem borrowedBindings_eq_ok {s : StatePool} {epoch : Nat} {borrowed : Borrow}
    {bs : List Binding} :
    s.borrowedBindings epoch borrowed = .ok bs ↔
      s.Live epoch ∧ borrowed.pool = s.id ∧ ∃ lease a, s.borrowers[borrowed.id]? = some lease ∧
        s.allocations[lease]? = some a ∧ a.bindings = bs := by
  unfold borrowedBindings
  rw [Outcome.check_bind_eq_ok, live_eq_ok]
  refine and_congr_right fun _ => ?_
  by_cases hpool : borrowed.pool = s.id
  · simp [hpool, Outcome.bind_eq_ok]
  · simp [hpool]

theorem serial_eq_ok {s t : StatePool} {id : Nat} :
    serial s = (.ok id, t) ↔
      s.next + 1 ≤ u64Max ∧ id = s.next + 1 ∧ t = { s with next := s.next + 1 } := by
  unfold serial
  rw [Method.get_bind_eq_ok]
  by_cases hnext : s.next + 1 ≤ u64Max
  · have hadd : checkedAdd u64Max s.next 1 = some (s.next + 1) := by simp [hnext]
    simp only [hadd, Method.modify_bind_eq_ok, Method.pure_run, Prod.mk.injEq, Outcome.ok.injEq,
      hnext, true_and]
    exact and_congr eq_comm eq_comm
  · have hadd : checkedAdd u64Max s.next 1 = none := by simp; omega
    simp [hadd, hnext]

theorem updateAllocation_eq_ok {s t : StatePool} {lease : Lease} {f : Allocation → Allocation}
    {u : Unit} :
    updateAllocation lease f s = (.ok u, t) ↔
      (∃ a, s.allocations[lease]? = some a) ∧
        t = { s with allocations := s.allocations.modify lease f } := by
  unfold updateAllocation
  simp only [Method.read_bind_eq_ok, Outcome.unwrap_eq_ok, Method.modify_run, Prod.mk.injEq,
    true_and, exists_and_right]
  exact and_congr_right fun _ => eq_comm

theorem forEach_updateAllocation_eq_ok {f : Allocation → Allocation} {leases : List Lease}
    {s t : StatePool} (h : Method.forEach leases (fun l => updateAllocation l f) s = (.ok (), t)) :
    t = { s with allocations := s.allocations.modifyAll leases f } := by
  induction leases generalizing s with
  | nil =>
    simp only [Method.forEach, Method.pure, Prod.mk.injEq] at h
    exact h.2.symm
  | cons lease leases ih =>
    simp only [Method.forEach, Method.bind_eq_ok, updateAllocation_eq_ok] at h
    obtain ⟨-, u, ⟨-, rfl⟩, hrest⟩ := h
    exact ih hrest

theorem mem_ready {s : StatePool} {lease : Lease} :
    lease ∈ s.ready ↔ ∃ a, s.allocations[lease]? = some a ∧ a.retired = true ∧
      a.borrowers.isEmpty = true ∧ a.pending.isEmpty = true := by
  simp only [ready, List.mem_map, List.mem_filter, Prod.exists,
    ExtTreeMap.mem_toList_iff_getElem?_eq_some, Bool.and_eq_true, and_assoc]
  constructor
  · rintro ⟨_, a, halloc, hretired, hborrowers, hpending, rfl⟩
    exact ⟨a, halloc, hretired, hborrowers, hpending⟩
  · rintro ⟨a, halloc, hretired, hborrowers, hpending⟩
    exact ⟨lease, a, halloc, hretired, hborrowers, hpending, rfl⟩

theorem nodup_ready (s : StatePool) : s.ready.Nodup := by
  have hkeys : (s.allocations.toList.map Prod.fst).Nodup := by
    rw [ExtTreeMap.map_fst_toList_eq_keys]
    exact ExtTreeMap.nodup_keys
  exact hkeys.sublist (List.filter_sublist.map _)

/-- `reclaim` finds every allocation it is about to hand back. -/
theorem reclaim_run (s : StatePool) : reclaim s = (.ok (), s.reclaimed) := by
  have hbody : ∀ lease leases (t : StatePool),
      ((lease :: leases).Nodup ∧ ∀ l ∈ lease :: leases, ∃ a, t.allocations[l]? = some a) →
      reclaimOne lease t = (.ok (), t.handBack lease) ∧
        (leases.Nodup ∧ ∀ l ∈ leases, ∃ a, (t.handBack lease).allocations[l]? = some a) := by
    rintro lease leases t ⟨hnodup, hmem⟩
    obtain ⟨a, ha⟩ := hmem lease List.mem_cons_self
    rw [List.nodup_cons] at hnodup
    refine ⟨by simp [reclaimOne, handBack, ha, Method.bind_run], hnodup.2, fun l hl => ?_⟩
    have hne : lease ≠ l := fun heq => hnodup.1 (heq ▸ hl)
    simpa [handBack, ha, ExtTreeMap.getElem?_erase_ne hne] using hmem l (List.mem_cons_of_mem _ hl)
  exact Method.forEach_run (I := fun t ls => ls.Nodup ∧ ∀ l ∈ ls, ∃ a, t.allocations[l]? = some a)
    hbody s.ready s ⟨s.nodup_ready, fun l hl => (mem_ready.mp hl).imp fun _ h => h.1⟩

theorem reclaim_eq_ok {s t : StatePool} : reclaim s = (.ok (), t) ↔ t = s.reclaimed := by
  rw [reclaim_run]
  simp [eq_comm]

theorem reserveInner_eq_ok {s t : StatePool} {epoch request tokens : Nat} {slot : Option Nat}
    {lease : Lease} (h : reserveInner epoch request tokens slot s = (.ok lease, t)) :
    Accepted s (.reserve epoch request tokens slot) (.lease lease) t := by
  simp only [reserveInner, Method.get_bind_eq_ok, Method.lift_bind_eq_ok, live_eq_ok] at h
  obtain ⟨-, hlive, h⟩ := h
  split at h
  · cases h
  rename_i hfree
  split at h
  · cases h
  rename_i hcontext
  simp only [Method.lift_bind_eq_ok, Outcome.collect_eq_ok, Method.bind_eq_ok (m := serial),
    serial_eq_ok, Method.modify_bind_eq_ok, Method.pure_run, Prod.mk.injEq, Outcome.ok.injEq] at h
  obtain ⟨bindings, hbindings, -, -, ⟨hnext, rfl, rfl⟩, rfl, rfl⟩ := h
  simp only [not_or, List.any_eq_true, Prod.exists, ExtTreeMap.mem_toList_iff_getElem?_eq_some,
    beq_iff_eq, not_exists, not_and] at hfree
  exact .reserve hlive (Nat.pos_of_ne_zero hfree.1) (Nat.le_of_not_gt hcontext) hfree.2 hbindings hnext

theorem pin_eq_ok {s t : StatePool} {lease : Lease} {borrowed : Borrow}
    (h : pin lease s = (.ok borrowed, t)) :
    s.next + 1 ≤ u64Max ∧ borrowed = ⟨s.id, s.next + 1⟩ ∧ t = s.pinned lease := by
  simp only [pin, Method.bind_eq_ok (m := serial), serial_eq_ok,
    Method.bind_eq_ok (m := updateAllocation _ _), updateAllocation_eq_ok, Method.modify_bind_eq_ok,
    Method.get_bind_eq_ok, Method.pure_run, Prod.mk.injEq, Outcome.ok.injEq] at h
  obtain ⟨-, -, ⟨hnext, rfl, rfl⟩, -, -, ⟨-, rfl⟩, rfl, rfl⟩ := h
  exact ⟨hnext, rfl, rfl⟩

theorem borrow_eq_ok {s t : StatePool} {epoch : Nat} {lease : Lease} {borrowed : Borrow}
    (h : borrow epoch lease s = (.ok borrowed, t)) :
    Accepted s (.borrow epoch lease) (.borrow borrowed) t := by
  simp only [borrow, Method.read_bind_eq_ok, bindings_eq_ok] at h
  obtain ⟨-, ⟨hlive, a, halloc, hretired, -⟩, hpin⟩ := h
  obtain ⟨hnext, rfl, rfl⟩ := pin_eq_ok hpin
  exact .borrow hlive halloc hretired hnext

theorem borrowSealed_eq_ok {s t : StatePool} {epoch : Nat} {sealedLease : SealedLease}
    {borrowed : Borrow} (h : borrowSealed epoch sealedLease s = (.ok borrowed, t)) :
    Accepted s (.borrowSealed epoch sealedLease) (.borrow borrowed) t := by
  simp only [borrowSealed, Method.read_bind_eq_ok, live_eq_ok, Method.get_bind_eq_ok] at h
  obtain ⟨-, hlive, h⟩ := h
  split at h
  · cases h
  rename_i hsealed
  simp only [Bool.not_eq_false, Option.any_eq_true] at hsealed
  obtain ⟨a, halloc, hsealed⟩ := hsealed
  obtain ⟨hnext, rfl, rfl⟩ := pin_eq_ok h
  exact .borrowSealed hlive halloc hsealed hnext

theorem sealLease_eq_ok {s t : StatePool} {epoch : Nat} {lease : Lease} {sealedLease : SealedLease}
    (h : sealLease epoch lease s = (.ok sealedLease, t)) :
    Accepted s (.sealLease epoch lease) (.sealedLease sealedLease) t := by
  simp only [sealLease, Method.read_bind_eq_ok, bindings_eq_ok, Outcome.unwrap_eq_ok] at h
  obtain ⟨-, ⟨hlive, a, halloc, hretired, -⟩, a', halloc', h⟩ := h
  obtain rfl : a = a' := Option.some.inj (halloc.symm.trans halloc')
  split at h
  · cases h
  rename_i hpending
  simp only [Method.bind_eq_ok (m := updateAllocation _ _), updateAllocation_eq_ok, Method.pure_run,
    Prod.mk.injEq, Outcome.ok.injEq] at h
  obtain ⟨-, -, ⟨-, rfl⟩, rfl, rfl⟩ := h
  exact .sealLease hlive halloc hretired (by simpa using hpending)

theorem release_eq_ok {s t : StatePool} {epoch : Nat} {borrowed : Borrow}
    (h : release epoch borrowed s = (.ok (), t)) : Accepted s (.release epoch borrowed) .done t := by
  simp only [release, Method.read_bind_eq_ok, borrowedBindings_eq_ok, Outcome.unwrap_eq_ok,
    Method.modify_bind_eq_ok, Method.bind_eq_ok (m := updateAllocation _ _),
    updateAllocation_eq_ok, reclaim_eq_ok] at h
  obtain ⟨-, ⟨hlive, hpool, lease, a, hborrower, halloc, -⟩, lease', hborrower', -, -, ⟨-, rfl⟩, rfl⟩ := h
  obtain rfl : lease = lease' := Option.some.inj (hborrower.symm.trans hborrower')
  exact .release hlive hpool hborrower halloc

theorem writeLease_eq_ok {s : StatePool} {epoch : Nat} {lease l : Lease} :
    s.writeLease epoch lease = .ok l ↔
      s.Live epoch ∧ lease = l ∧
        ∃ a, s.allocations[lease]? = some a ∧ a.retired = false ∧ a.isSealed = false := by
  unfold writeLease
  simp only [Outcome.bind_eq_ok, bindings_eq_ok, Outcome.unwrap_eq_ok]
  constructor
  · rintro ⟨-, ⟨hlive, a, halloc, hretired, -⟩, a', halloc', h⟩
    obtain rfl : a = a' := Option.some.inj (halloc.symm.trans halloc')
    split at h
    · cases h
    · rename_i hsealed
      exact ⟨hlive, Outcome.ok.inj h, a, halloc, hretired, by simpa using hsealed⟩
  · rintro ⟨hlive, rfl, a, halloc, hretired, hsealed⟩
    exact ⟨_, ⟨hlive, a, halloc, hretired, rfl⟩, a, halloc, by simp [hsealed]⟩

theorem readLease_eq_ok {s : StatePool} {epoch : Nat} {read : Borrow} {l : Lease} :
    s.readLease epoch read = .ok l ↔
      s.Live epoch ∧ read.pool = s.id ∧ s.borrowers[read.id]? = some l ∧
        (s.allocations[l]?).isSome := by
  unfold readLease
  simp only [Outcome.bind_eq_ok, borrowedBindings_eq_ok, Outcome.unwrap_eq_ok]
  constructor
  · rintro ⟨-, ⟨hlive, hpool, l', a, hborrower, halloc, -⟩, hborrower'⟩
    obtain rfl : l' = l := Option.some.inj (hborrower.symm.trans hborrower')
    exact ⟨hlive, hpool, hborrower, by simp [halloc]⟩
  · rintro ⟨hlive, hpool, hborrower, halloc⟩
    obtain ⟨a, halloc⟩ := Option.isSome_iff_exists.mp halloc
    exact ⟨_, ⟨hlive, hpool, l, a, hborrower, halloc, rfl⟩, hborrower⟩

/-- The leases a submission writes are the ones it was given. -/
theorem collect_writeLease_eq_ok {s : StatePool} {epoch : Nat} {leases writes : List Lease}
    (h : List.Forall₂ (fun l w => s.writeLease epoch l = .ok w) leases writes) :
    writes = leases ∧ ∀ l ∈ leases, s.writeLease epoch l = .ok l := by
  induction h with
  | nil => exact ⟨rfl, by simp⟩
  | cons hhead _ ih =>
    obtain rfl := (writeLease_eq_ok.mp hhead).2.1
    obtain ⟨rfl, htail⟩ := ih
    exact ⟨rfl, List.forall_mem_cons.mpr ⟨hhead, htail⟩⟩

theorem collect_leaseRanks_eq_ok {s : StatePool} {leases : List Lease} {ranks : List (List Nat)}
    (h : List.Forall₂ (fun l r => s.leaseRanks l = .ok r) leases ranks) :
    ranks.flatten = leases.flatMap s.ranksOf := by
  induction h with
  | nil => rfl
  | cons hhead _ ih =>
    simp only [leaseRanks, Outcome.bind_eq_ok, Outcome.unwrap_eq_ok, Outcome.ok.injEq] at hhead
    obtain ⟨a, halloc, rfl⟩ := hhead
    simp [ih, ranksOf, halloc]

theorem submit_eq_ok {s t : StatePool} {epoch : Nat} {leases : List Lease} {reads : List Borrow}
    {ticket : Ticket} (h : submit epoch leases reads s = (.ok ticket, t)) :
    Accepted s (.submit epoch leases reads) (.ticket ticket) t := by
  simp only [submit, Method.get_bind_eq_ok, Method.lift_bind_eq_ok, live_eq_ok,
    Outcome.collect_eq_ok] at h
  obtain ⟨-, hlive, writes, hwrites, borrowed, hborrowed, h⟩ := h
  obtain ⟨rfl, hwritable⟩ := collect_writeLease_eq_ok hwrites
  split at h
  · cases h
  rename_i hsome
  simp only [Method.lift_bind_eq_ok, Outcome.collect_eq_ok, Method.bind_eq_ok (m := serial),
    serial_eq_ok, Method.bind_eq_ok (m := Method.forEach _ _), Method.modify_bind_eq_ok,
    Method.pure_run, Prod.mk.injEq, Outcome.ok.injEq] at h
  obtain ⟨ranks, hranks, -, -, ⟨hnext, rfl, rfl⟩, _, u, hmarked, rfl, rfl⟩ := h
  rw [forEach_updateAllocation_eq_ok hmarked, collect_leaseRanks_eq_ok hranks]
  refine .submit hlive (fun l hl => ?_) (hborrowed.imp fun b l hread => (readLease_eq_ok.mp hread).2)
    ?_ hnext
  · exact (writeLease_eq_ok.mp (hwritable l hl)).2.2
  · intro hnil
    exact hsome (by simpa [submission] using hnil)

theorem complete_eq_ok {s t : StatePool} {epoch rank : Nat} {ticket : Ticket}
    (h : complete epoch ticket rank s = (.ok (), t)) :
    Accepted s (.complete epoch ticket rank) .done t := by
  simp only [complete, Method.get_bind_eq_ok, Method.lift_bind_eq_ok, live_eq_ok] at h
  obtain ⟨-, hlive, h⟩ := h
  split at h
  · cases h
  rename_i hpool
  rw [not_not] at hpool
  simp only [Method.lift_bind_eq_ok, Outcome.okOr_eq_ok] at h
  obtain ⟨flight, hflight, h⟩ := h
  split at h
  · cases h
  rename_i hrank
  rw [not_not] at hrank
  rw [finishRank, Method.modify_bind_eq_ok] at h
  split at h
  · rename_i hlast
    simp only [Method.read_bind_eq_ok, Outcome.unwrap_eq_ok, Method.modify_bind_eq_ok,
      Method.bind_eq_ok (m := Method.forEach _ _), reclaim_eq_ok,
      ExtTreeMap.getElem?_modify_self, hflight, Option.map_some, Option.some.injEq] at h
    obtain ⟨_, rfl, _, u, hmarked, rfl⟩ := h
    rw [forEach_updateAllocation_eq_ok hmarked, ExtTreeMap.erase_modify]
    have haccepted := Accepted.completeLast hlive hpool hflight hrank hlast
    exact haccepted
  · rename_i hmore
    simp only [Method.pure_run, Prod.mk.injEq, true_and] at h
    subst h
    exact .completeRank hlive hpool hflight hrank (by simpa using hmore)

theorem retire_eq_ok {s t : StatePool} {epoch : Nat} {lease : Lease}
    (h : retire epoch lease s = (.ok (), t)) : Accepted s (.retire epoch lease) .done t := by
  simp only [retire, Method.read_bind_eq_ok, bindings_eq_ok,
    Method.bind_eq_ok (m := updateAllocation _ _), updateAllocation_eq_ok, reclaim_eq_ok] at h
  obtain ⟨-, ⟨hlive, a, halloc, hretired, -⟩, -, -, ⟨-, rfl⟩, rfl⟩ := h
  exact .retire hlive halloc hretired

/-- What an accepted call has checked, and the state it leaves. -/
theorem accepted_of_step {s t : StatePool} {op : Op} {reply : Reply}
    (h : step op s = (.ok reply, t)) : Accepted s op reply t := by
  cases op with
  | reserve epoch request tokens slot =>
    cases slot <;>
    · simp only [step, Method.bind_eq_ok, Method.pure_run, Prod.mk.injEq, Outcome.ok.injEq] at h
      obtain ⟨lease, u, hrun, rfl, rfl⟩ := h
      exact reserveInner_eq_ok hrun
  | borrow epoch lease =>
    simp only [step, Method.bind_eq_ok, Method.pure_run, Prod.mk.injEq, Outcome.ok.injEq] at h
    obtain ⟨b, u, hrun, rfl, rfl⟩ := h
    exact borrow_eq_ok hrun
  | borrowSealed epoch sealedLease =>
    simp only [step, Method.bind_eq_ok, Method.pure_run, Prod.mk.injEq, Outcome.ok.injEq] at h
    obtain ⟨b, u, hrun, rfl, rfl⟩ := h
    exact borrowSealed_eq_ok hrun
  | sealLease epoch lease =>
    simp only [step, Method.bind_eq_ok, Method.pure_run, Prod.mk.injEq, Outcome.ok.injEq] at h
    obtain ⟨l, u, hrun, rfl, rfl⟩ := h
    exact sealLease_eq_ok hrun
  | release epoch borrowed =>
    simp only [step, Method.bind_eq_ok, Method.pure_run, Prod.mk.injEq, Outcome.ok.injEq] at h
    obtain ⟨_, u, hrun, rfl, rfl⟩ := h
    exact release_eq_ok hrun
  | submit epoch leases reads =>
    simp only [step, Method.bind_eq_ok, Method.pure_run, Prod.mk.injEq, Outcome.ok.injEq] at h
    obtain ⟨ticket, u, hrun, rfl, rfl⟩ := h
    exact submit_eq_ok hrun
  | complete epoch ticket rank =>
    simp only [step, Method.bind_eq_ok, Method.pure_run, Prod.mk.injEq, Outcome.ok.injEq] at h
    obtain ⟨_, u, hrun, rfl, rfl⟩ := h
    exact complete_eq_ok hrun
  | retire epoch lease =>
    simp only [step, Method.bind_eq_ok, Method.pure_run, Prod.mk.injEq, Outcome.ok.injEq] at h
    obtain ⟨_, u, hrun, rfl, rfl⟩ := h
    exact retire_eq_ok hrun
  | poison =>
    simp only [step, poison, Method.modify_bind_eq_ok, Method.pure_run, Prod.mk.injEq,
      Outcome.ok.injEq] at h
    obtain ⟨rfl, rfl⟩ := h
    exact .poison

/-- A property kept by every accepted call is kept by every call that does not
    panic. -/
theorem step_induction {P : StatePool → Prop} {s : StatePool} {op : Op} (hs : P s)
    (hpanic : (step op s).1 ≠ .panic) (h : ∀ reply t, Accepted s op reply t → P t) :
    P (step op s).2 := by
  rcases hrun : step op s with ⟨reply | e | _, t⟩
  · exact h reply t (accepted_of_step hrun)
  · obtain rfl := step_atomic op s e t hrun
    exact hs
  · exact absurd (congrArg Prod.fst hrun) hpanic

end StatePool

end Inferfabric.Runtime
