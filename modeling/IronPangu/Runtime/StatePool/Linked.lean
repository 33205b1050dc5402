-- SUMMARY: The cross-reference invariant of the state pool, kept by every accepted call, and the absence of panics.
import IronPangu.Runtime.StatePool.Steps

open Rust Std

/-!
# Cross references of the state pool

Three maps point into one another: allocations list their borrowers and pending
tickets, borrowers name a lease, flights list leases. `Linked` says that the three
agree and that no handle runs ahead of the serial counter; no operation can then
miss an entry it looks up.
-/

namespace Inferfabric.Runtime

/-- What no operation changes in a pool. -/
def Pool.fixed (p : Pool) : Pool := { p with free := ∅ }

/-- What no operation changes in an allocation. -/
def Allocation.fixed (a : Allocation) : Allocation :=
  { a with retired := false, isSealed := false, borrowers := ∅, pending := ∅ }

theorem Allocation.bindings_of_fixed {a b : Allocation} (h : b.fixed = a.fixed) :
    b.bindings = a.bindings := by
  injection h

theorem Allocation.tokenLimit_of_fixed {a b : Allocation} (h : b.fixed = a.fixed) :
    b.tokenLimit = a.tokenLimit := by
  injection h

/-- The binding a pool contributes. -/
structure Binding.Of (p : Pool) (b : Binding) : Prop where
  component : b.component = p.key.component
  rank : b.rank = p.key.rank
  bytesPerUnit : b.bytesPerUnit = p.unitBytes

/-- Retired, and nothing refers to it any more. -/
structure Allocation.Ended (a : Allocation) : Prop where
  retired : a.retired = true
  borrowers : a.borrowers.isEmpty = true
  pending : a.pending.isEmpty = true

namespace StatePool

/-! ## Pools and bindings in step -/

theorem map_zipPools {γ : Type} {f : Pool → Binding → Pool} {g : Pool → γ}
    (h : ∀ p b, g (f p b) = g p) (ps : List Pool) (bs : List Binding) :
    (zipPools f ps bs).map g = ps.map g := by
  induction ps generalizing bs with
  | nil => cases bs <;> rfl
  | cons p ps ih =>
    cases bs with
    | nil => rfl
    | cons b bs => simp only [zipPools, List.map_cons, h, ih]

@[simp] theorem length_zipPools (f : Pool → Binding → Pool) (ps : List Pool) (bs : List Binding) :
    (zipPools f ps bs).length = ps.length := by
  simpa using congrArg List.length (map_zipPools (f := f) (g := fun _ => ()) (fun _ _ => rfl) ps bs)

theorem getElem?_zipPools {f : Pool → Binding → Pool} {ps : List Pool} {bs : List Binding} {i : Nat}
    {p : Pool} {b : Binding} (hp : ps[i]? = some p) (hb : bs[i]? = some b) :
    (zipPools f ps bs)[i]? = some (f p b) := by
  induction ps generalizing bs i with
  | nil => simp at hp
  | cons p' ps ih =>
    cases bs with
    | nil => simp at hb
    | cons b' bs =>
      cases i with
      | zero =>
        simp only [List.getElem?_cons_zero, Option.some.injEq] at hp hb
        simp [zipPools, hp, hb]
      | succ i =>
        simp only [List.getElem?_cons_succ] at hp hb
        simpa [zipPools] using ih hp hb

/-- What relates pools to bindings without looking at the free units holds of the
    same pools at any other time. -/
theorem forall₂_of_fixed {R : Pool → Binding → Prop}
    (hR : ∀ p q b, q.fixed = p.fixed → R p b → R q b) {ps qs : List Pool} {bs : List Binding}
    (h : qs.map Pool.fixed = ps.map Pool.fixed) (hbs : List.Forall₂ R ps bs) :
    List.Forall₂ R qs bs := by
  induction hbs generalizing qs with
  | nil =>
    rw [List.map_nil, List.map_eq_nil_iff] at h
    rw [h]
    exact .nil
  | @cons p b ps bs hhead _ ih =>
    cases qs with
    | nil => cases h
    | cons q qs =>
      obtain ⟨hq, hqs⟩ := List.cons.inj h
      exact .cons (hR p q b hq hhead) (ih hqs)

theorem Binding.Of.of_fixed {p q : Pool} {b : Binding} (h : q.fixed = p.fixed) (hb : Binding.Of p b) :
    Binding.Of q b := by
  injection h with hkey hbytes
  exact ⟨hkey ▸ hb.component, hkey ▸ hb.rank, hbytes ▸ hb.bytesPerUnit⟩

/-- What a prepared binding has found free. -/
theorem prepareBinding_eq_ok {tokens : Nat} {slot : Option Nat} {p : Pool} {b : Binding}
    (h : prepareBinding tokens slot p = .ok b) :
    (p.retention.isFull = true → tokens ≤ p.maxTokens) ∧
      ∃ count, unitCount tokens p = .ok count ∧ count ≤ p.free.size ∧
        chooseUnits slot count p = .ok b.units ∧ Binding.Of p b := by
  unfold prepareBinding at h
  split at h
  · simp at h
  rename_i hfull
  simp only [Outcome.bind_eq_ok] at h
  obtain ⟨count, hcount, h⟩ := h
  split at h
  · cases h
  rename_i hroom
  simp only [Outcome.bind_eq_ok, Outcome.ok.injEq] at h
  obtain ⟨units, hunits, rfl⟩ := h
  exact ⟨fun hf => by simp_all, count, hcount, Nat.le_of_not_gt hroom, hunits, rfl, rfl, rfl⟩

/-! ## Reclaiming -/

theorem getElem?_foldl_handBack {leases : List Lease} {s : StatePool} {l : Lease} {a : Allocation} :
    (leases.foldl handBack s).allocations[l]? = some a ↔
      s.allocations[l]? = some a ∧ l ∉ leases := by
  induction leases generalizing s with
  | nil => simp
  | cons lease leases ih =>
    rw [List.foldl_cons, ih, List.mem_cons, not_or]
    simp only [handBack, ExtTreeMap.getElem?_erase_eq_some]
    constructor
    · rintro ⟨⟨hne, halloc⟩, hmem⟩
      exact ⟨halloc, Ne.symm hne, hmem⟩
    · rintro ⟨halloc, hne, hmem⟩
      exact ⟨⟨Ne.symm hne, halloc⟩, hmem⟩

/-- What reclaiming leaves: the allocations that have not ended. -/
theorem reclaimed_getElem? {s : StatePool} {l : Lease} {a : Allocation} :
    s.reclaimed.allocations[l]? = some a ↔ s.allocations[l]? = some a ∧ ¬ a.Ended := by
  rw [reclaimed, getElem?_foldl_handBack]
  refine and_congr_right fun halloc => not_congr ?_
  rw [mem_ready]
  constructor
  · rintro ⟨a', halloc', hended⟩
    obtain rfl : a = a' := Option.some.inj (halloc.symm.trans halloc')
    exact ⟨hended.1, hended.2.1, hended.2.2⟩
  · intro hended
    exact ⟨a, halloc, hended.retired, hended.borrowers, hended.pending⟩

/-- Reclaiming is not seen by what ended allocations do not have. -/
theorem exists_reclaimed {s : StatePool} {l : Lease} {P : Allocation → Prop}
    (hP : ∀ a, a.Ended → ¬ P a) :
    (∃ a, s.reclaimed.allocations[l]? = some a ∧ P a) ↔ ∃ a, s.allocations[l]? = some a ∧ P a := by
  refine exists_congr fun a => ?_
  rw [reclaimed_getElem?, and_assoc]
  exact and_congr_right fun _ => and_iff_right_of_imp fun ha hended => hP a hended ha

/-- What reclaiming does not touch. -/
theorem reclaimed_frame {γ : Type} {g : StatePool → γ} (h : ∀ t l, g (handBack t l) = g t)
    (s : StatePool) : g s.reclaimed = g s := by
  have hfold : ∀ (leases : List Lease) (t : StatePool), g (leases.foldl handBack t) = g t := by
    intro leases
    induction leases with
    | nil => exact fun _ => rfl
    | cons lease leases ih => exact fun t => (ih _).trans (h t lease)
  exact hfold s.ready s

section

variable (s : StatePool)

@[simp] theorem reclaimed_id : s.reclaimed.id = s.id := reclaimed_frame (fun _ _ => rfl) s
@[simp] theorem reclaimed_epoch : s.reclaimed.epoch = s.epoch := reclaimed_frame (fun _ _ => rfl) s
@[simp] theorem reclaimed_maxContext : s.reclaimed.maxContext = s.maxContext :=
  reclaimed_frame (fun _ _ => rfl) s
@[simp] theorem reclaimed_next : s.reclaimed.next = s.next := reclaimed_frame (fun _ _ => rfl) s
@[simp] theorem reclaimed_borrowers : s.reclaimed.borrowers = s.borrowers :=
  reclaimed_frame (fun _ _ => rfl) s
@[simp] theorem reclaimed_flights : s.reclaimed.flights = s.flights :=
  reclaimed_frame (fun _ _ => rfl) s
@[simp] theorem reclaimed_poisoned : s.reclaimed.poisoned = s.poisoned :=
  reclaimed_frame (fun _ _ => rfl) s

@[simp] theorem reclaimed_fixed : s.reclaimed.pools.map Pool.fixed = s.pools.map Pool.fixed :=
  reclaimed_frame (g := fun t => t.pools.map Pool.fixed)
    (fun t _ => map_zipPools (f := giveUnits) (fun _ _ => rfl) t.pools _) s

end

/-! ## What never changes -/

/-- What an accepted call keeps of the state. -/
structure Frame (s t : StatePool) : Prop where
  id : t.id = s.id
  epoch : t.epoch = s.epoch
  maxContext : t.maxContext = s.maxContext
  fixed : t.pools.map Pool.fixed = s.pools.map Pool.fixed
  next : s.next ≤ t.next
  poisoned : s.poisoned = true → t.poisoned = true

theorem Accepted.frame {s t : StatePool} {op : Op} {reply : Reply} (h : Accepted s op reply t) :
    Frame s t := by
  cases h with
  | reserve hlive htokens hcontext hrequest hbindings hnext =>
    exact ⟨rfl, rfl, rfl, map_zipPools (f := takeUnits) (fun _ _ => rfl) _ _, Nat.le_succ _, fun h => h⟩
  | borrow => exact ⟨rfl, rfl, rfl, rfl, Nat.le_succ _, fun h => h⟩
  | borrowSealed => exact ⟨rfl, rfl, rfl, rfl, Nat.le_succ _, fun h => h⟩
  | sealLease => exact ⟨rfl, rfl, rfl, rfl, Nat.le_refl _, fun h => h⟩
  | release => exact ⟨by simp [unpinned], by simp [unpinned], by simp [unpinned],
      by simp [unpinned], by simp [unpinned], by simp [unpinned]⟩
  | submit => exact ⟨rfl, rfl, rfl, rfl, Nat.le_succ _, fun h => h⟩
  | completeRank => exact ⟨rfl, rfl, rfl, rfl, Nat.le_refl _, fun h => h⟩
  | completeLast => exact ⟨by simp [landed], by simp [landed], by simp [landed], by simp [landed],
      by simp [landed], by simp [landed]⟩
  | retire => exact ⟨by simp [markedRetired], by simp [markedRetired], by simp [markedRetired],
      by simp [markedRetired], by simp [markedRetired], by simp [markedRetired]⟩
  | poison => exact ⟨rfl, rfl, rfl, rfl, Nat.le_refl _, fun _ => rfl⟩

/-- An allocation after an accepted call was there before it, with the same
    reservation, or has just been reserved. -/
theorem Accepted.origin {s t : StatePool} {op : Op} {reply : Reply} (h : Accepted s op reply t)
    {l : Lease} {a : Allocation} (halloc : t.allocations[l]? = some a) :
    (∃ b, s.allocations[l]? = some b ∧ b.fixed = a.fixed) ∨
      (∃ epoch request slot, op = .reserve epoch request a.tokenLimit slot ∧ reply = .lease l ∧
        l = ⟨s.id, s.next + 1⟩ ∧ a.fixed = a ∧ 0 < a.tokenLimit ∧ a.tokenLimit ≤ s.maxContext ∧
        t.next = s.next + 1 ∧
        List.Forall₂ (fun p b => prepareBinding a.tokenLimit slot p = .ok b) s.pools a.bindings) := by
  have hmodify : ∀ {lease : Lease} {f : Allocation → Allocation},
      (s.allocations.modify lease f)[l]? = some a → (∀ b, (f b).fixed = b.fixed) →
        ∃ b, s.allocations[l]? = some b ∧ b.fixed = a.fixed := by
    intro lease f ha hf
    exact (ExtTreeMap.exists_modify_congr fun b => by rw [hf]).mp ⟨a, ha, rfl⟩
  have hmodifyAll : ∀ {leases : List Lease} {f : Allocation → Allocation},
      (s.allocations.modifyAll leases f)[l]? = some a → (∀ b, (f b).fixed = b.fixed) →
        ∃ b, s.allocations[l]? = some b ∧ b.fixed = a.fixed := by
    intro leases f ha hf
    exact (ExtTreeMap.exists_modifyAll_congr fun b => by rw [hf]).mp ⟨a, ha, rfl⟩
  cases h with
  | @reserve epoch request tokens slot bindings hlive htokens hcontext hrequest hbindings hnext =>
    simp only [reserved, ExtTreeMap.getElem?_insert_eq_some] at halloc
    rcases halloc with ⟨rfl, rfl⟩ | ⟨-, halloc⟩
    · exact .inr ⟨epoch, request, slot, rfl, rfl, rfl, rfl, htokens, hcontext, rfl, hbindings⟩
    · exact .inl ⟨a, halloc, rfl⟩
  | borrow => exact .inl (hmodify halloc fun _ => rfl)
  | borrowSealed => exact .inl (hmodify halloc fun _ => rfl)
  | sealLease => exact .inl (hmodify halloc fun _ => rfl)
  | release => exact .inl (hmodify (reclaimed_getElem?.mp halloc).1 fun _ => rfl)
  | submit =>
    exact .inl (hmodifyAll halloc fun _ => rfl)
  | completeRank => exact .inl ⟨a, halloc, rfl⟩
  | completeLast => exact .inl (hmodifyAll (reclaimed_getElem?.mp halloc).1 fun _ => rfl)
  | retire => exact .inl (hmodify (reclaimed_getElem?.mp halloc).1 fun _ => rfl)
  | poison => exact .inl ⟨a, halloc, rfl⟩

/-! ## The invariant -/

/-- The three maps agree, and every handle in them has been issued. -/
structure Linked (s : StatePool) : Prop where
  pools : s.pools ≠ []
  pages : ∀ {p : Pool}, p ∈ s.pools → ∀ {n : Nat}, p.pageTokens = some n →
    0 < n ∧ 0 < p.maxTokens / n
  aligned : ∀ {l : Lease} {a : Allocation}, s.allocations[l]? = some a →
    List.Forall₂ Binding.Of s.pools a.bindings
  leases : ∀ {l : Lease} {a : Allocation}, s.allocations[l]? = some a →
    l.pool = s.id ∧ l.generation ≤ s.next
  borrowIds : ∀ {id : Nat} {l : Lease}, s.borrowers[id]? = some l → id ≤ s.next
  ticketIds : ∀ {id : Nat} {f : Flight}, s.flights[id]? = some f → id ≤ s.next
  borrowers : ∀ {id : Nat} {l : Lease}, s.borrowers[id]? = some l ↔
    ∃ a, s.allocations[l]? = some a ∧ id ∈ a.borrowers
  pending : ∀ {id : Nat} {l : Lease}, (∃ f, s.flights[id]? = some f ∧ l ∈ f.leases) ↔
    ∃ a, s.allocations[l]? = some a ∧ id ∈ a.pending
  waiting : ∀ {id : Nat} {f : Flight}, s.flights[id]? = some f → f.remainingRanks.isEmpty = false
  distinct : ∀ {id : Nat} {f : Flight}, s.flights[id]? = some f → f.leases.Nodup

namespace Linked

variable {s : StatePool} {l lease : Lease} {a : Allocation}

/-- The next serial number is no borrower's id yet. -/
theorem notMem_borrowers (h : Linked s) (halloc : s.allocations[l]? = some a) :
    s.next + 1 ∉ a.borrowers := by
  intro hmem
  have := h.borrowIds (h.borrowers.mpr ⟨a, halloc, hmem⟩)
  omega

/-- The next serial number is no ticket's id yet. -/
theorem notMem_pending (h : Linked s) (halloc : s.allocations[l]? = some a) :
    s.next + 1 ∉ a.pending := by
  intro hmem
  obtain ⟨f, hflight, -⟩ := h.pending.mpr ⟨a, halloc, hmem⟩
  have := h.ticketIds hflight
  omega

/-- The lease the next serial number makes is not taken. -/
theorem fresh_lease (h : Linked s) : s.allocations[(⟨s.id, s.next + 1⟩ : Lease)]? = none := by
  rw [Option.eq_none_iff_forall_ne_some]
  intro a halloc
  have := (h.leases halloc).2
  simp at this

theorem fresh_borrower (h : Linked s) : s.borrowers[s.next + 1]? = none := by
  rw [Option.eq_none_iff_forall_ne_some]
  intro l hborrower
  have := h.borrowIds hborrower
  omega

theorem fresh_ticket (h : Linked s) : s.flights[s.next + 1]? = none := by
  rw [Option.eq_none_iff_forall_ne_some]
  intro f hflight
  have := h.ticketIds hflight
  omega

/-! ### Borrowers -/

theorem borrowers_pinned (h : Linked s) (halloc : s.allocations[lease]? = some a) {id : Nat} :
    (s.pinned lease).borrowers[id]? = some l ↔
      ∃ a, (s.pinned lease).allocations[l]? = some a ∧ id ∈ a.borrowers := by
  simp only [StatePool.pinned, ExtTreeMap.getElem?_insert_eq_some, ExtTreeMap.exists_modify]
  by_cases hid : s.next + 1 = id
  · subst hid
    simp only [true_and, ne_eq, not_true_eq_false, false_and, or_false]
    constructor
    · rintro rfl
      exact ⟨a, halloc, by simp⟩
    · rintro ⟨a', halloc', hmem⟩
      by_contra hne
      rw [if_neg hne] at hmem
      exact h.notMem_borrowers halloc' hmem
  · simp only [hid, false_and, ne_eq, not_false_eq_true, true_and, false_or, h.borrowers]
    refine exists_congr fun a => and_congr_right fun _ => ?_
    split
    · simp [hid]
    · rfl

theorem borrowers_unpinned (h : Linked s) {id' : Nat} (hid' : s.borrowers[id']? = some lease)
    {id : Nat} :
    (s.unpinned id' lease).borrowers[id]? = some l ↔
      ∃ a, (s.unpinned id' lease).allocations[l]? = some a ∧ id ∈ a.borrowers := by
  simp only [StatePool.unpinned, ExtTreeMap.getElem?_erase_eq_some, ExtTreeMap.exists_modify]
  by_cases hl : lease = l
  · subst hl
    simp only [if_true, ExtTreeSet.mem_erase_iff, h.borrowers]
    grind
  · simp only [hl, if_false, ← h.borrowers]
    refine and_iff_right_of_imp fun hid => ?_
    rintro rfl
    exact hl (Option.some.inj (hid'.symm.trans hid))

/-! ### Pending tickets -/

theorem pending_submitted (h : Linked s) {leases : List Lease} (hleases : leases.Nodup)
    (hall : ∀ l ∈ leases, ∃ a, s.allocations[l]? = some a) {id : Nat} :
    (∃ f, (s.submitted leases).flights[id]? = some f ∧ l ∈ f.leases) ↔
      ∃ a, (s.submitted leases).allocations[l]? = some a ∧ id ∈ a.pending := by
  simp only [StatePool.submitted, ExtTreeMap.exists_insert_fresh h.fresh_ticket,
    ExtTreeMap.exists_modifyAll hleases, h.pending]
  by_cases hl : l ∈ leases
  · obtain ⟨a, halloc⟩ := hall l hl
    simp [hl, halloc]
  · simp [hl]

theorem pending_landed (h : Linked s) {flight : Flight} {id' : Nat}
    (hflight : s.flights[id']? = some flight) {id : Nat} :
    (∃ f, (s.landed id' flight.leases).flights[id]? = some f ∧ l ∈ f.leases) ↔
      ∃ a, (s.landed id' flight.leases).allocations[l]? = some a ∧ id ∈ a.pending := by
  simp only [StatePool.landed, ExtTreeMap.exists_erase,
    ExtTreeMap.exists_modifyAll (h.distinct hflight)]
  by_cases hl : l ∈ flight.leases
  · simp only [hl, if_true, ExtTreeSet.mem_erase_iff, h.pending]
    grind
  · simp only [hl, if_false, ← h.pending]
    refine and_iff_right_of_imp ?_
    rintro ⟨f, hf, hmem⟩ rfl
    obtain rfl : flight = f := Option.some.inj (hflight.symm.trans hf)
    exact hl hmem

end Linked

theorem nodup_submission (leases borrowed : List Lease) : (submission leases borrowed).Nodup :=
  ExtTreeSet.nodup_toList _

theorem mem_submission {leases borrowed : List Lease} {l : Lease} :
    l ∈ submission leases borrowed ↔ l ∈ leases ∨ l ∈ borrowed := by
  rw [submission, ExtTreeSet.mem_toList, ExtTreeSet.mem_insertMany, ExtTreeSet.mem_ofList_iff]

/-- Every lease of an accepted submission has an allocation. -/
theorem submission_allocated {s : StatePool} {leases borrowed : List Lease} {reads : List Borrow}
    (hwrites : ∀ l ∈ leases, ∃ a : Allocation, s.allocations[l]? = some a ∧ a.retired = false ∧
      a.isSealed = false)
    (hreads : List.Forall₂ (fun b l => b.pool = s.id ∧ s.borrowers[b.id]? = some l ∧
      (s.allocations[l]?).isSome) reads borrowed) :
    ∀ l ∈ submission leases borrowed, ∃ a, s.allocations[l]? = some a := by
  intro l hl
  rcases mem_submission.mp hl with hl | hl
  · exact (hwrites l hl).imp fun _ h => h.1
  · obtain ⟨i, hi, rfl⟩ := List.mem_iff_getElem.mp hl
    have hread := (List.forall₂_iff_get.mp hreads).2 i (by rw [hreads.length_eq]; exact hi) hi
    exact Option.isSome_iff_exists.mp hread.2.2

theorem map_rank_aligned {ps : List Pool} {bs : List Binding} (h : List.Forall₂ Binding.Of ps bs) :
    bs.map (·.rank) = ps.map (·.key.rank) := by
  induction h with
  | nil => rfl
  | cons hhead _ ih => rw [List.map_cons, List.map_cons, ih, hhead.rank]

theorem mem_ranksOf {s : StatePool} (h : Linked s) {l : Lease} {a : Allocation}
    (halloc : s.allocations[l]? = some a) {r : Nat} :
    r ∈ s.ranksOf l ↔ ∃ p ∈ s.pools, p.key.rank = r := by
  have hranks : s.ranksOf l = s.pools.map (·.key.rank) := by
    simp only [ranksOf, halloc, Option.map_some, Option.getD_some, map_rank_aligned (h.aligned halloc)]
  rw [hranks, List.mem_map]

namespace Accepted

variable {s t : StatePool} {op : Op} {reply : Reply}

theorem borrowIds (hs : Linked s) (h : Accepted s op reply t) {id : Nat} {l : Lease}
    (hid : t.borrowers[id]? = some l) : id ≤ t.next := by
  have hpinned : ∀ {lease : Lease}, (s.pinned lease).borrowers[id]? = some l → id ≤ s.next + 1 := by
    intro lease hid
    simp only [pinned, ExtTreeMap.getElem?_insert_eq_some] at hid
    rcases hid with ⟨rfl, -⟩ | ⟨-, hid⟩
    · exact Nat.le_refl _
    · exact Nat.le_succ_of_le (hs.borrowIds hid)
  cases h with
  | reserve => exact Nat.le_succ_of_le (hs.borrowIds hid)
  | borrow => exact hpinned hid
  | borrowSealed => exact hpinned hid
  | sealLease => exact hs.borrowIds hid
  | release =>
    simp only [reclaimed_borrowers, reclaimed_next, unpinned, ExtTreeMap.getElem?_erase_eq_some] at hid ⊢
    exact hs.borrowIds hid.2
  | submit => exact Nat.le_succ_of_le (hs.borrowIds hid)
  | completeRank => exact hs.borrowIds hid
  | completeLast =>
    simp only [reclaimed_borrowers, reclaimed_next] at hid ⊢
    exact hs.borrowIds hid
  | retire =>
    simp only [reclaimed_borrowers, reclaimed_next] at hid ⊢
    exact hs.borrowIds hid
  | poison => exact hs.borrowIds hid

/-- A flight after an accepted call was there before it, with the same leases and
    at most one rank fewer, or has just been submitted. -/
theorem flight_origin (h : Accepted s op reply t) {id : Nat} {f : Flight}
    (hid : t.flights[id]? = some f) :
    (∃ g, s.flights[id]? = some g ∧ g.leases = f.leases) ∨
      (∃ epoch leases reads borrowed, op = .submit epoch leases reads ∧
        reply = .ticket ⟨s.id, id⟩ ∧ id = s.next + 1 ∧ f.leases = submission leases borrowed ∧
        (∀ l ∈ leases, ∃ a : Allocation, s.allocations[l]? = some a ∧ a.retired = false ∧
          a.isSealed = false) ∧
        List.Forall₂ (fun b l => b.pool = s.id ∧ s.borrowers[b.id]? = some l ∧
          (s.allocations[l]?).isSome) reads borrowed) := by
  cases h with
  | @submit epoch leases reads borrowed hlive hwrites hreads hsome hnext =>
    simp only [submitted, ExtTreeMap.getElem?_insert_eq_some] at hid
    rcases hid with ⟨rfl, rfl⟩ | ⟨-, hid⟩
    · exact .inr ⟨epoch, leases, reads, borrowed, rfl, rfl, rfl, rfl, hwrites, hreads⟩
    · exact .inl ⟨f, hid, rfl⟩
  | completeRank =>
    simp only [rankDone, ExtTreeMap.getElem?_modify_eq_some] at hid
    rcases hid with ⟨rfl, g, hg, rfl⟩ | ⟨-, hid⟩
    · exact .inl ⟨g, hg, rfl⟩
    · exact .inl ⟨f, hid, rfl⟩
  | completeLast =>
    simp only [reclaimed_flights, landed, ExtTreeMap.getElem?_erase_eq_some] at hid
    exact .inl ⟨f, hid.2, rfl⟩
  | reserve => exact .inl ⟨f, hid, rfl⟩
  | borrow => exact .inl ⟨f, hid, rfl⟩
  | borrowSealed => exact .inl ⟨f, hid, rfl⟩
  | sealLease => exact .inl ⟨f, hid, rfl⟩
  | release =>
    rw [reclaimed_flights] at hid
    exact .inl ⟨f, hid, rfl⟩
  | retire =>
    rw [reclaimed_flights] at hid
    exact .inl ⟨f, hid, rfl⟩
  | poison => exact .inl ⟨f, hid, rfl⟩

theorem ticketIds (hs : Linked s) (h : Accepted s op reply t) {id : Nat} {f : Flight}
    (hid : t.flights[id]? = some f) : id ≤ t.next := by
  rcases h.flight_origin hid with ⟨g, hg, -⟩ | ⟨_, _, _, _, rfl, -, rfl, -⟩
  · exact (hs.ticketIds hg).trans h.frame.next
  · cases h
    exact Nat.le_refl _

theorem waiting (hs : Linked s) (h : Accepted s op reply t) {id : Nat} {f : Flight}
    (hid : t.flights[id]? = some f) : f.remainingRanks.isEmpty = false := by
  cases h with
  | @submit epoch leases reads borrowed hlive hwrites hreads hsome hnext =>
    simp only [submitted, ExtTreeMap.getElem?_insert_eq_some] at hid
    rcases hid with ⟨rfl, rfl⟩ | ⟨-, hid⟩
    · obtain ⟨l, hl⟩ := List.exists_mem_of_ne_nil _ hsome
      obtain ⟨a, halloc⟩ := submission_allocated hwrites hreads l hl
      obtain ⟨p, hp⟩ := List.exists_mem_of_ne_nil _ hs.pools
      have hrank : p.key.rank ∈ s.ranksOf l := (mem_ranksOf hs halloc).mpr ⟨p, hp, rfl⟩
      rw [← Bool.not_eq_true, ExtTreeSet.isEmpty_iff_forall]
      intro hempty
      exact hempty _ (ExtTreeSet.mem_ofList_iff.mpr (List.mem_flatMap.mpr ⟨l, hl, hrank⟩))
    · exact hs.waiting hid
  | completeRank hlive hpool hflight hrank hmore =>
    simp only [rankDone, ExtTreeMap.getElem?_modify_eq_some] at hid
    rcases hid with ⟨rfl, g, hg, rfl⟩ | ⟨-, hid⟩
    · obtain rfl := Option.some.inj (hflight.symm.trans hg)
      exact hmore
    · exact hs.waiting hid
  | completeLast =>
    simp only [reclaimed_flights, landed, ExtTreeMap.getElem?_erase_eq_some] at hid
    exact hs.waiting hid.2
  | reserve => exact hs.waiting hid
  | borrow => exact hs.waiting hid
  | borrowSealed => exact hs.waiting hid
  | sealLease => exact hs.waiting hid
  | release =>
    rw [reclaimed_flights] at hid
    exact hs.waiting hid
  | retire =>
    rw [reclaimed_flights] at hid
    exact hs.waiting hid
  | poison => exact hs.waiting hid

theorem distinct (hs : Linked s) (h : Accepted s op reply t) {id : Nat} {f : Flight}
    (hid : t.flights[id]? = some f) : f.leases.Nodup := by
  rcases h.flight_origin hid with ⟨g, hg, heq⟩ | ⟨_, leases, _, borrowed, -, -, -, heq, -⟩
  · rw [← heq]
    exact hs.distinct hg
  · rw [heq]
    exact nodup_submission leases borrowed

theorem borrowers (hs : Linked s) (h : Accepted s op reply t) {id : Nat} {l : Lease} :
    t.borrowers[id]? = some l ↔ ∃ a, t.allocations[l]? = some a ∧ id ∈ a.borrowers := by
  have hended : ∀ a : Allocation, a.Ended → ¬ id ∈ a.borrowers :=
    fun a ha => ExtTreeSet.isEmpty_iff_forall.mp ha.borrowers id
  cases h with
  | reserve =>
    simp only [reserved, ExtTreeMap.exists_insert_fresh hs.fresh_lease, ← hs.borrowers]
    simp
  | borrow hlive halloc => exact hs.borrowers_pinned halloc
  | borrowSealed hlive halloc => exact hs.borrowers_pinned halloc
  | sealLease => exact hs.borrowers.trans (ExtTreeMap.exists_modify_congr (by simp)).symm
  | release hlive hpool hborrower =>
    rw [reclaimed_borrowers, exists_reclaimed hended]
    exact hs.borrowers_unpinned hborrower
  | submit => exact hs.borrowers.trans (ExtTreeMap.exists_modifyAll_congr (by simp)).symm
  | completeRank => exact hs.borrowers
  | completeLast =>
    rw [reclaimed_borrowers, exists_reclaimed hended]
    exact hs.borrowers.trans (ExtTreeMap.exists_modifyAll_congr (by simp)).symm
  | retire =>
    rw [reclaimed_borrowers, exists_reclaimed hended]
    exact hs.borrowers.trans (ExtTreeMap.exists_modify_congr (by simp)).symm
  | poison => exact hs.borrowers

theorem pending (hs : Linked s) (h : Accepted s op reply t) {id : Nat} {l : Lease} :
    (∃ f, t.flights[id]? = some f ∧ l ∈ f.leases) ↔
      ∃ a, t.allocations[l]? = some a ∧ id ∈ a.pending := by
  have hended : ∀ a : Allocation, a.Ended → ¬ id ∈ a.pending :=
    fun a ha => ExtTreeSet.isEmpty_iff_forall.mp ha.pending id
  cases h with
  | reserve =>
    simp only [reserved, ExtTreeMap.exists_insert_fresh hs.fresh_lease, hs.pending]
    simp
  | borrow => exact hs.pending.trans (ExtTreeMap.exists_modify_congr (by simp)).symm
  | borrowSealed => exact hs.pending.trans (ExtTreeMap.exists_modify_congr (by simp)).symm
  | sealLease => exact hs.pending.trans (ExtTreeMap.exists_modify_congr (by simp)).symm
  | release =>
    rw [reclaimed_flights, exists_reclaimed hended]
    exact hs.pending.trans (ExtTreeMap.exists_modify_congr (by simp)).symm
  | submit hlive hwrites hreads =>
    exact hs.pending_submitted (nodup_submission _ _) (submission_allocated hwrites hreads)
  | completeRank => exact (ExtTreeMap.exists_modify_congr (by simp)).trans hs.pending
  | completeLast hlive hpool hflight =>
    rw [reclaimed_flights, exists_reclaimed hended]
    exact hs.pending_landed hflight
  | retire =>
    rw [reclaimed_flights, exists_reclaimed hended]
    exact hs.pending.trans (ExtTreeMap.exists_modify_congr (by simp)).symm
  | poison => exact hs.pending

/-- Every accepted call keeps the maps linked. -/
theorem linked (hs : Linked s) (h : Accepted s op reply t) : Linked t where
  pools := by
    intro hnil
    have hfixed := h.frame.fixed
    rw [hnil, List.map_nil, eq_comm, List.map_eq_nil_iff] at hfixed
    exact hs.pools hfixed
  pages {p} hp n hn := by
    have hmem : p.fixed ∈ s.pools.map Pool.fixed := h.frame.fixed ▸ List.mem_map_of_mem hp
    obtain ⟨q, hq, heq⟩ := List.mem_map.mp hmem
    have hmax : q.maxTokens = p.maxTokens := congrArg (fun r => r.maxTokens) heq
    rw [← hmax]
    exact hs.pages hq ((congrArg Pool.pageTokens heq).trans hn)
  aligned {l a} halloc := by
    refine forall₂_of_fixed (R := Binding.Of) (fun _ _ _ => Binding.Of.of_fixed) h.frame.fixed ?_
    rcases h.origin halloc with ⟨b, hb, heq⟩ | ⟨_, _, _, -, -, -, -, -, -, -, hbindings⟩
    · rw [← Allocation.bindings_of_fixed heq]
      exact hs.aligned hb
    · refine hbindings.imp fun p b hb => ?_
      obtain ⟨-, _, -, -, -, hof⟩ := prepareBinding_eq_ok hb
      exact hof
  leases {l a} halloc := by
    rw [h.frame.id]
    rcases h.origin halloc with ⟨b, hb, -⟩ | ⟨_, _, _, -, -, rfl, -, -, -, hnext, -⟩
    · exact ⟨(hs.leases hb).1, (hs.leases hb).2.trans h.frame.next⟩
    · exact ⟨rfl, hnext.ge⟩
  borrowIds := h.borrowIds hs
  ticketIds := h.ticketIds hs
  borrowers := h.borrowers hs
  pending := h.pending hs
  waiting := h.waiting hs
  distinct := h.distinct hs

end Accepted

/-! ## No panics -/

section Panics

variable {s : StatePool} {epoch : Nat}

@[simp] theorem live_ne_panic : s.live epoch ≠ .panic := by
  unfold live
  split
  · simp
  · split <;> simp

@[simp] theorem bindings_ne_panic {lease : Lease} : s.bindings epoch lease ≠ .panic := by
  unfold bindings
  intro hpanic
  simp only [Outcome.bind_eq_panic, live_ne_panic, Outcome.okOr_ne_panic, false_or] at hpanic
  obtain ⟨_, -, a, -, hpanic⟩ := hpanic
  split at hpanic <;> cases hpanic

theorem borrowedBindings_ne_panic (hs : Linked s) {borrowed : Borrow} :
    s.borrowedBindings epoch borrowed ≠ .panic := by
  unfold borrowedBindings
  intro hpanic
  simp only [Outcome.check_bind_eq_panic, live_ne_panic, false_or] at hpanic
  obtain ⟨-, hpanic⟩ := hpanic
  split at hpanic
  · cases hpanic
  · simp only [Outcome.bind_eq_panic, Outcome.okOr_ne_panic, Outcome.okOr_eq_ok,
      Outcome.unwrap_eq_panic, false_or, reduceCtorEq, and_false, exists_false, or_false] at hpanic
    obtain ⟨l, hl, hnone⟩ := hpanic
    obtain ⟨a, halloc, -⟩ := hs.borrowers.mp hl
    rw [halloc] at hnone
    cases hnone

theorem serial_ne_panic : (serial s).1 ≠ .panic := by
  refine Method.get_bind_ne_panic ?_
  cases checkedAdd u64Max s.next 1 with
  | none => exact Method.fail_ne_panic
  | some next => exact Method.pure_ne_panic (a := next) (s := s)

theorem updateAllocation_ne_panic {lease : Lease} {f : Allocation → Allocation}
    (halloc : ∃ a, s.allocations[lease]? = some a) : (updateAllocation lease f s).1 ≠ .panic := by
  obtain ⟨a, halloc⟩ := halloc
  refine Method.read_bind_ne_panic (by simp [halloc]) fun _ _ => ?_
  simp

/-- A loop of updates over leases that are all there. -/
theorem forEach_updateAllocation_ne_panic {leases : List Lease} {f : Allocation → Allocation}
    (hall : ∀ l ∈ leases, ∃ a, s.allocations[l]? = some a) :
    (Method.forEach leases (fun l => updateAllocation l f) s).1 ≠ .panic := by
  induction leases generalizing s with
  | nil => exact Method.pure_ne_panic
  | cons lease leases ih =>
    refine Method.bind_ne_panic (updateAllocation_ne_panic (hall lease List.mem_cons_self))
      fun _ t ht => ih fun l hl => ?_
    obtain ⟨-, rfl⟩ := updateAllocation_eq_ok.mp ht
    obtain ⟨a, halloc⟩ := hall l (List.mem_cons_of_mem _ hl)
    obtain ⟨b, hb, -⟩ := (ExtTreeMap.exists_modify (P := fun _ => True)).mpr ⟨a, halloc, trivial⟩
    exact ⟨b, hb⟩

theorem reclaim_ne_panic : (reclaim s).1 ≠ .panic := by
  rw [reclaim_run]
  simp

theorem prepareBinding_ne_panic {tokens : Nat} {slot : Option Nat} {p : Pool}
    (hpages : ∀ {n : Nat}, p.pageTokens = some n → 0 < n) :
    prepareBinding tokens slot p ≠ .panic := by
  have hcount : unitCount tokens p ≠ .panic := by
    unfold unitCount
    split
    · simp
    · rename_i n hn
      simp [Outcome.divCeil_pos (hpages hn)]
  have hunits : ∀ count, chooseUnits slot count p ≠ .panic := by
    intro count
    unfold chooseUnits
    split
    · split <;> simp
    · simp
  unfold prepareBinding
  intro hpanic
  split at hpanic
  · simp at hpanic
  · simp only [Outcome.bind_eq_panic, hcount, false_or] at hpanic
    obtain ⟨count, -, hpanic⟩ := hpanic
    split at hpanic
    · cases hpanic
    · simp [Outcome.bind_eq_panic, hunits] at hpanic

theorem reserveInner_ne_panic (hs : Linked s) {request tokens : Nat} {slot : Option Nat} :
    (reserveInner epoch request tokens slot s).1 ≠ .panic := by
  refine Method.get_bind_ne_panic (Method.lift_bind_ne_panic live_ne_panic fun _ _ => ?_)
  split
  · exact Method.fail_ne_panic
  split
  · exact Method.fail_ne_panic
  refine Method.lift_bind_ne_panic
    (Outcome.collect_ne_panic fun p hp => prepareBinding_ne_panic fun hn => (hs.pages hp hn).1) fun bindings _ => ?_
  exact Method.bind_ne_panic serial_ne_panic fun generation t _ => Method.pure_ne_panic

theorem pin_ne_panic {lease : Lease} (halloc : ∃ a, s.allocations[lease]? = some a) :
    (pin lease s).1 ≠ .panic := by
  refine Method.bind_ne_panic serial_ne_panic fun id t ht => ?_
  obtain ⟨-, -, rfl⟩ := serial_eq_ok.mp ht
  exact Method.bind_ne_panic (updateAllocation_ne_panic halloc) fun _ u _ => Method.pure_ne_panic

theorem borrow_ne_panic {lease : Lease} : (borrow epoch lease s).1 ≠ .panic := by
  refine Method.read_bind_ne_panic bindings_ne_panic fun bs hbs => pin_ne_panic ?_
  exact (bindings_eq_ok.mp hbs).2.imp fun _ h => h.1

theorem borrowSealed_ne_panic {sealedLease : SealedLease} :
    (borrowSealed epoch sealedLease s).1 ≠ .panic := by
  refine Method.read_bind_ne_panic live_ne_panic fun _ _ => Method.get_bind_ne_panic ?_
  split
  · exact Method.fail_ne_panic
  · rename_i hsealed
    rw [Bool.not_eq_false, Option.any_eq_true] at hsealed
    exact pin_ne_panic (hsealed.imp fun _ h => h.1)

theorem sealLease_ne_panic {lease : Lease} : (sealLease epoch lease s).1 ≠ .panic := by
  refine Method.read_bind_ne_panic bindings_ne_panic fun bs hbs => ?_
  obtain ⟨-, a, halloc, -⟩ := bindings_eq_ok.mp hbs
  refine Method.read_bind_ne_panic (by simp [halloc]) fun b _ => ?_
  split
  · exact Method.fail_ne_panic
  · exact Method.bind_pure_ne_panic (updateAllocation_ne_panic ⟨a, halloc⟩)

theorem release_ne_panic (hs : Linked s) {borrowed : Borrow} :
    (release epoch borrowed s).1 ≠ .panic := by
  refine Method.read_bind_ne_panic (borrowedBindings_ne_panic hs) fun bs hbs => ?_
  obtain ⟨-, -, lease, a, hborrower, halloc, -⟩ := borrowedBindings_eq_ok.mp hbs
  refine Method.read_bind_ne_panic (by simp [hborrower]) fun lease' hlease' => ?_
  obtain rfl : lease = lease' := by simpa [hborrower] using hlease'
  refine Method.modify_bind_ne_panic (Method.bind_ne_panic ?_ fun _ _ _ => reclaim_ne_panic)
  exact updateAllocation_ne_panic ⟨a, halloc⟩

theorem writeLease_ne_panic {lease : Lease} : s.writeLease epoch lease ≠ .panic := by
  unfold writeLease
  intro hpanic
  simp only [Outcome.bind_eq_panic, bindings_ne_panic, bindings_eq_ok, false_or,
    Outcome.unwrap_eq_panic, Outcome.unwrap_eq_ok] at hpanic
  obtain ⟨_, ⟨-, a, halloc, -, -⟩, hpanic⟩ := hpanic
  simp only [halloc, reduceCtorEq, Option.some.injEq, exists_eq_left', false_or] at hpanic
  split at hpanic <;> cases hpanic

theorem readLease_ne_panic (hs : Linked s) {read : Borrow} : s.readLease epoch read ≠ .panic := by
  unfold readLease
  intro hpanic
  simp only [Outcome.bind_eq_panic, borrowedBindings_ne_panic hs, borrowedBindings_eq_ok, false_or,
    Outcome.unwrap_eq_panic] at hpanic
  obtain ⟨_, ⟨-, -, lease, a, hborrower, -, -⟩, hpanic⟩ := hpanic
  rw [hborrower] at hpanic
  cases hpanic

theorem submit_ne_panic (hs : Linked s) {leases : List Lease} {reads : List Borrow} :
    (submit epoch leases reads s).1 ≠ .panic := by
  refine Method.get_bind_ne_panic (Method.lift_bind_ne_panic live_ne_panic fun _ _ => ?_)
  refine Method.lift_bind_ne_panic
    (Outcome.collect_ne_panic fun _ _ => writeLease_ne_panic) fun writes hwrites => ?_
  refine Method.lift_bind_ne_panic
    (Outcome.collect_ne_panic fun _ _ => readLease_ne_panic hs) fun borrowed hborrowed => ?_
  rw [Outcome.collect_eq_ok] at hwrites hborrowed
  obtain ⟨rfl, hwritable⟩ := collect_writeLease_eq_ok hwrites
  have hall := submission_allocated (fun l hl => (writeLease_eq_ok.mp (hwritable l hl)).2.2)
    (hborrowed.imp fun b l hread => (readLease_eq_ok.mp hread).2)
  extract_lets all
  split
  · exact Method.fail_ne_panic
  refine Method.lift_bind_ne_panic (Outcome.collect_ne_panic fun l hl hranks => ?_) fun ranks _ => ?_
  · obtain ⟨a, halloc⟩ := hall l hl
    simp [leaseRanks, halloc] at hranks
  refine Method.bind_ne_panic serial_ne_panic fun id t ht => ?_
  obtain ⟨-, -, rfl⟩ := serial_eq_ok.mp ht
  exact Method.bind_ne_panic (forEach_updateAllocation_ne_panic hall) fun _ u _ => Method.pure_ne_panic

theorem complete_ne_panic (hs : Linked s) {ticket : Ticket} {rank : Nat} :
    (complete epoch ticket rank s).1 ≠ .panic := by
  refine Method.get_bind_ne_panic (Method.lift_bind_ne_panic live_ne_panic fun _ _ => ?_)
  split
  · exact Method.fail_ne_panic
  refine Method.lift_bind_ne_panic Outcome.okOr_ne_panic fun flight hflight => ?_
  rw [Outcome.okOr_eq_ok] at hflight
  split
  · exact Method.fail_ne_panic
  rw [finishRank]
  refine Method.modify_bind_ne_panic ?_
  split
  · have hall : ∀ l ∈ flight.leases, ∃ a, s.allocations[l]? = some a := fun l hl =>
      (hs.pending.mp ⟨flight, hflight, hl⟩).imp fun _ h => h.1
    refine Method.read_bind_ne_panic (by simp [hflight]) fun flight' hflight' => ?_
    rw [Outcome.unwrap_eq_ok, ExtTreeMap.getElem?_modify_self, hflight] at hflight'
    obtain rfl := Option.some.inj hflight'
    refine Method.modify_bind_ne_panic (Method.bind_ne_panic ?_ fun _ _ _ => reclaim_ne_panic)
    exact forEach_updateAllocation_ne_panic hall
  · exact Method.pure_ne_panic

theorem retire_ne_panic {lease : Lease} : (retire epoch lease s).1 ≠ .panic := by
  refine Method.read_bind_ne_panic bindings_ne_panic fun bs hbs => ?_
  have halloc := (bindings_eq_ok.mp hbs).2.imp fun _ h => h.1
  exact Method.bind_ne_panic (updateAllocation_ne_panic halloc) fun _ _ _ => reclaim_ne_panic

/-- In a linked state no call panics, whatever handles it is given. -/
theorem step_ne_panic (hs : Linked s) (op : Op) : (step op s).1 ≠ .panic := by
  cases op with
  | reserve epoch request tokens slot =>
    cases slot <;> exact Method.bind_pure_ne_panic (reserveInner_ne_panic hs)
  | borrow epoch lease => exact Method.bind_pure_ne_panic borrow_ne_panic
  | borrowSealed epoch sealedLease => exact Method.bind_pure_ne_panic borrowSealed_ne_panic
  | sealLease epoch lease => exact Method.bind_pure_ne_panic sealLease_ne_panic
  | release epoch borrowed =>
    exact Method.bind_pure_ne_panic (f := fun _ => Reply.done) (release_ne_panic hs)
  | submit epoch leases reads => exact Method.bind_pure_ne_panic (submit_ne_panic hs)
  | complete epoch ticket rank =>
    exact Method.bind_pure_ne_panic (f := fun _ => Reply.done) (complete_ne_panic hs)
  | retire epoch lease =>
    exact Method.bind_pure_ne_panic (f := fun _ => Reply.done) retire_ne_panic
  | poison => exact Method.pure_ne_panic (a := Reply.done) (s := { s with poisoned := true })

end Panics

end StatePool

end Inferfabric.Runtime
