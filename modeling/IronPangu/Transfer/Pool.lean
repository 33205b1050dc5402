-- SUMMARY: What one call of a resource pool does, and what it keeps: pages, slots and generations.
import IronPangu.Transfer

open Rust Method Std

/-!
# The resource pool

Every call of the pool is refused, panics, or does one of four things. What a pool
owns is counted in its leases, the active ones and then the retired ones: a call
moves pages and slots between the free sets and the leases and loses none.
-/

namespace Inferfabric.Transfer

open Ir

namespace ResourcePool

variable {s t : ResourcePool} {lease current : Lease} {request epoch tokens : Nat}

/-! ## What a call does -/

inductive Op where
  | reserve (request epoch tokens : Nat)
  | ensure (lease : Lease) (tokens : Nat)
  | retire (lease : Lease)
  | completionFence
  deriving DecidableEq, Repr

inductive Reply where
  | lease (lease : Lease)
  | done
  deriving DecidableEq, Repr

def step : Op → Method ResourcePool Error Reply
  | .reserve request epoch tokens => do return .lease (← reserve request epoch tokens)
  | .ensure lease tokens => do return .lease (← ensure lease tokens)
  | .retire lease => do
    retire lease
    return .done
  | .completionFence => do
    completionFence
    return .done

/-- The pool after a reservation. -/
def reserved (s : ResourcePool) (lease : Lease) : ResourcePool :=
  { s with
    freePages := s.freePages.eraseAll lease.pages
    freeSlots := s.freeSlots.erase lease.slot
    active := s.active.insert lease.request lease
    generation := lease.generation }

/-- The pool after the lease of a request was given more pages. -/
def grown (s : ResourcePool) (request : Nat) (current : Lease) (pages : List Nat) : ResourcePool :=
  { s with
    freePages := s.freePages.eraseAll pages
    active := s.active.insert request { current with pages := current.pages ++ pages } }

def fenced (s : ResourcePool) : ResourcePool :=
  { s with
    freePages := s.retired.foldl (fun free lease => free.insertMany lease.pages) s.freePages
    freeSlots := s.retired.foldl (fun free lease => free.insert lease.slot) s.freeSlots
    retired := [] }

/-- Pages that can be taken at once. -/
structure Available (s : ResourcePool) (pages : List Nat) : Prop where
  distinct : pages.Nodup
  free : ∀ p ∈ pages, p ∈ s.freePages

/-- The lease a lease value stands for. -/
structure Held (s : ResourcePool) (lease current : Lease) : Prop where
  active : s.active[lease.request]? = some current
  epoch : current.epoch = lease.epoch
  generation : current.generation = lease.generation
  slot : current.slot = lease.slot

/-- Everything an accepted call can do. -/
inductive Accepted (s : ResourcePool) : Op → Reply → ResourcePool → Prop where
  | reserve {lease : Lease} {tokens : Nat} (hpages : s.Available lease.pages)
      (hcount : lease.pages.length = (tokens + s.pageTokens - 1) / s.pageTokens)
      (hslot : lease.slot ∈ s.freeSlots) (hgeneration : lease.generation = s.generation + 1)
      (hinactive : s.active[lease.request]? = none) :
      Accepted s (.reserve lease.request lease.epoch tokens) (.lease lease) (s.reserved lease)
  | ensure {lease current : Lease} {tokens : Nat} {pages : List Nat} (hheld : s.Held lease current)
      (hpages : s.Available pages)
      (hcount : pages.length = (tokens + s.pageTokens - 1) / s.pageTokens - current.pages.length) :
      Accepted s (.ensure lease tokens) (.lease { current with pages := current.pages ++ pages })
        (s.grown lease.request current pages)
  | retire {lease current : Lease} (hheld : s.Held lease current) :
      Accepted s (.retire lease) .done
        { s with active := s.active.erase lease.request, retired := s.retired ++ [current] }
  | completionFence : Accepted s .completionFence .done s.fenced

theorem Accepted.inactive {reply : Reply} (h : Accepted s (.reserve request epoch tokens) reply t) :
    s.active[request]? = none := by
  cases h with
  | reserve _ _ _ _ hinactive => exact hinactive

theorem Accepted.issued (h : Accepted s (.reserve request epoch tokens) (.lease lease) t) :
    lease.generation = s.generation + 1 := by
  cases h with
  | reserve _ _ _ hgeneration => exact hgeneration

theorem check_eq_ok : s.check lease = .ok () ↔ ∃ current, s.Held lease current := by
  unfold check
  cases hactive : s.active[lease.request]? with
  | none => exact iff_of_false (by simp) fun ⟨_, h⟩ => by simp [h.active] at hactive
  | some current =>
    simp only [ite_eq_left_iff, reduceCtorEq, imp_false, not_not]
    constructor
    · rintro ⟨hepoch, hgeneration, hslot⟩
      exact ⟨current, hactive, hepoch, hgeneration, hslot⟩
    · rintro ⟨held, h⟩
      obtain rfl := Option.some.inj (hactive.symm.trans h.active)
      exact ⟨h.epoch, h.generation, h.slot⟩

/-- A lease value is current or stale. -/
theorem check_cases (s : ResourcePool) (lease : Lease) :
    (∃ current, s.Held lease current ∧ s.check lease = .ok ()) ∨ s.check lease = .err .stale := by
  by_cases h : s.check lease = .ok ()
  · obtain ⟨current, hheld⟩ := check_eq_ok.mp h
    exact .inl ⟨current, hheld, h⟩
  · refine .inr ?_
    unfold check at h ⊢
    split
    · split
      · simp_all
      · rfl
    · rfl

/-! ## Taking pages -/

theorem grown_nil (h : s.active[request]? = some current) : s.grown request current [] = s := by
  simp only [grown, List.append_nil]
  rw [ExtTreeMap.insert_eq_self h]
  rfl

theorem grown_grown (s : ResourcePool) (request : Nat) (current : Lease) (pages pages' : List Nat) :
    (s.grown request current pages).grown request { current with pages := current.pages ++ pages } pages' =
      s.grown request current (pages ++ pages') := by
  simp only [grown, ExtTreeMap.insert_insert, ExtTreeSet.eraseAll, List.foldl_append, List.append_assoc]

theorem growPage_run (hactive : s.active[request]? = some current) (hroom : 0 < s.freePages.size) :
    ∃ page ∈ s.freePages, growPage request s = (.ok (), s.grown request current [page]) := by
  obtain ⟨page, hfree, hhead⟩ := ExtTreeSet.exists_head hroom
  refine ⟨page, hfree, ?_⟩
  simp only [growPage, Method.bind_run, Method.get_run, hhead, Method.modify_run, grown,
    ExtTreeMap.modify_eq_insert hactive]
  rfl

/-- The loop takes as many pages as it is asked for, when there are so many. -/
theorem growPages_run {additional : Nat} (hactive : s.active[request]? = some current)
    (hroom : additional ≤ s.freePages.size) :
    ∃ pages, s.Available pages ∧ pages.length = additional ∧
      growPages request additional s = (.ok (), s.grown request current pages) := by
  induction additional generalizing s current with
  | zero => exact ⟨[], ⟨List.nodup_nil, by simp⟩, rfl, by rw [grown_nil hactive]; rfl⟩
  | succ additional ih =>
    obtain ⟨page, hpage, hrun⟩ := growPage_run hactive (Nat.lt_of_lt_of_le (Nat.succ_pos _) hroom)
    have hfree : (s.grown request current [page]).freePages = s.freePages.erase page := rfl
    obtain ⟨pages, havailable, hlength, hrest⟩ := ih (s := s.grown request current [page])
      (ExtTreeMap.getElem?_insert_self : (s.grown request current [page]).active[request]? =
        some { current with pages := current.pages ++ [page] })
      (by rw [hfree]; have := ExtTreeSet.size_erase_of_mem hpage; omega)
    have hrest' : ∀ p ∈ pages, page ≠ p ∧ p ∈ s.freePages := fun p hp =>
      ExtTreeSet.mem_erase_iff.mp (hfree ▸ havailable.free p hp)
    refine ⟨page :: pages, ⟨?_, ?_⟩, by rw [List.length_cons, hlength], ?_⟩
    · exact List.nodup_cons.mpr ⟨fun hmem => (hrest' page hmem).1 rfl, havailable.distinct⟩
    · intro p hp
      rcases List.mem_cons.mp hp with rfl | hp
      · exact hpage
      · exact (hrest' p hp).2
    · rw [growPages, Method.bind_ok hrun, hrest, grown_grown]
      rfl

/-! ## Calls -/

theorem popSlot_run {slot : Nat} (h : s.freeSlots.toList.head? = some slot) :
    popSlot s = (.ok slot, { s with freeSlots := s.freeSlots.erase slot }) := by
  simp only [popSlot, Method.bind_run, Method.get_run, h, Method.modify_run, Method.pure_run]

theorem nextGeneration_run (h : s.generation < u64Max) :
    nextGeneration s = (.ok (s.generation + 1), { s with generation := s.generation + 1 }) := by
  have hadd : checkedAdd u64Max s.generation 1 = some (s.generation + 1) := checkedAdd_eq_some.mpr ⟨h, rfl⟩
  simp only [nextGeneration, Method.bind_run, Method.get_run, Method.lift_run, hadd, Outcome.unwrap_some,
    Method.modify_run, Method.pure_run]

theorem nextGeneration_panic (h : u64Max ≤ s.generation) : nextGeneration s = (.panic, s) := by
  have hadd : checkedAdd u64Max s.generation 1 = none := checkedAdd_eq_none.mpr (Nat.lt_succ_of_le h)
  simp only [nextGeneration, Method.bind_run, Method.get_run, Method.lift_run, hadd, Outcome.unwrap_none]

theorem reserve_cases (s : ResourcePool) (request epoch tokens : Nat) (hpage : 0 < s.pageTokens) :
    (∃ error, reserve request epoch tokens s = (.err error, s)) ∨
    (u64Max ≤ s.generation ∧ (reserve request epoch tokens s).1 = .panic) ∨
    ∃ lease, reserve request epoch tokens s = (.ok lease, s.reserved lease) ∧
      Accepted s (.reserve request epoch tokens) (.lease lease) (s.reserved lease) := by
  by_cases howned : request ∈ s.active ∨ ∃ l ∈ s.retired, l.request = request
  · refine .inl ⟨.invalid "request already owns resources", ?_⟩
    simp only [reserve, Method.bind_run, Method.get_run, if_pos howned, Method.fail_run]
  by_cases hroom : (tokens + s.pageTokens - 1) / s.pageTokens > s.freePages.size ∨ s.freeSlots.isEmpty
  · refine .inl ⟨.capacity "pages/slots", ?_⟩
    simp only [reserve, Method.bind_run, Method.get_run, if_neg howned, Method.lift_run,
      Outcome.divCeil_pos hpage, if_pos hroom, Method.fail_run]
  obtain ⟨hpages, hslots⟩ := not_or.mp hroom
  obtain ⟨slot, hslot, hhead⟩ := ExtTreeSet.exists_head (s := s.freeSlots) (Nat.pos_of_ne_zero fun hzero =>
    hslots (by rw [ExtTreeSet.isEmpty_iff, ExtTreeSet.eq_empty_iff_size_eq_zero]; exact hzero))
  have hinactive : s.active[request]? = none := ExtTreeMap.getElem?_eq_none fun h => howned (.inl h)
  generalize hcount : (tokens + s.pageTokens - 1) / s.pageTokens = count at hroom hpages
  generalize htake : s.freePages.toList.take count = pages
  have hrun : reserve request epoch tokens s = (do
      let generation ← nextGeneration
      let lease : Lease := ⟨request, epoch, slot, generation, pages⟩
      Method.modify fun s => { s with active := s.active.insert request lease }
      return lease : Method ResourcePool Error Lease)
        { s with freePages := s.freePages.eraseAll pages, freeSlots := s.freeSlots.erase slot } := by
    have hpop := popSlot_run (s := { s with freePages := s.freePages.eraseAll pages }) hhead
    rw [reserve, Method.bind_run, Method.get_run]
    simp only [if_neg howned, Method.bind_run, Method.lift_run, Outcome.divCeil_pos hpage, hcount,
      if_neg hroom, Method.modify_run, htake, hpop]
  rw [hrun]
  rcases Nat.lt_or_ge s.generation u64Max with hlast | hlast
  · refine .inr (.inr ⟨⟨request, epoch, slot, s.generation + 1, pages⟩, ?_, ?_⟩)
    · exact Method.bind_ok (nextGeneration_run (s := { s with
        freePages := s.freePages.eraseAll pages, freeSlots := s.freeSlots.erase slot }) hlast)
    · refine @Accepted.reserve s ⟨request, epoch, slot, s.generation + 1, pages⟩ tokens ⟨?_, ?_⟩ ?_ hslot rfl
        hinactive
      · exact htake ▸ s.freePages.nodup_toList.sublist (List.take_sublist _ _)
      · intro p hp
        exact ExtTreeSet.mem_toList.mp (List.mem_of_mem_take (htake ▸ hp))
      · simp only [← htake, List.length_take, ExtTreeSet.length_toList, hcount]
        omega
  · refine .inr (.inl ⟨hlast, ?_⟩)
    rw [Method.bind_run, nextGeneration_panic (s := { s with
      freePages := s.freePages.eraseAll pages, freeSlots := s.freeSlots.erase slot }) hlast]

theorem ensure_cases (s : ResourcePool) (lease : Lease) (tokens : Nat) (hpage : 0 < s.pageTokens) :
    (∃ error, ensure lease tokens s = (.err error, s) ∧ ∀ current, s.Held lease current →
      s.freePages.size < (tokens + s.pageTokens - 1) / s.pageTokens - current.pages.length) ∨
    ∃ current pages, s.Held lease current ∧ s.Available pages ∧
      pages.length = (tokens + s.pageTokens - 1) / s.pageTokens - current.pages.length ∧
      ensure lease tokens s =
        (.ok { current with pages := current.pages ++ pages }, s.grown lease.request current pages) := by
  rcases s.check_cases lease with ⟨current, hheld, hcheck⟩ | hcheck
  · by_cases hroom : (tokens + s.pageTokens - 1) / s.pageTokens - current.pages.length > s.freePages.size
    · refine .inl ⟨.capacity "KV growth", ?_, fun held h => ?_⟩
      swap
      · obtain rfl := Option.some.inj (hheld.active.symm.trans h.active)
        exact hroom
      simp only [ensure, Method.bind_run, Method.read_run, hcheck, hheld.active, Outcome.okOr_some,
        Method.get_run, Method.lift_run, Outcome.divCeil_pos hpage, if_pos hroom, Method.fail_run]
    · obtain ⟨pages, havailable, hlength, hrun⟩ := growPages_run hheld.active (Nat.le_of_not_gt hroom)
      refine .inr ⟨current, pages, hheld, havailable, hlength, ?_⟩
      simp only [ensure, Method.bind_run, Method.read_run, hcheck, hheld.active, Outcome.okOr_some,
        Method.get_run, Method.lift_run, Outcome.divCeil_pos hpage, if_neg hroom, hrun, grown,
        ExtTreeMap.getElem?_insert_self]
  · refine .inl ⟨.stale, by simp only [ensure, Method.bind_run, Method.read_run, hcheck], fun held h => ?_⟩
    rw [check_eq_ok.mpr ⟨held, h⟩] at hcheck
    cases hcheck

theorem retire_cases (s : ResourcePool) (lease : Lease) :
    retire lease s = (.err .stale, s) ∨
    ∃ current, s.Held lease current ∧ retire lease s = (.ok (), { s with
      active := s.active.erase lease.request
      retired := s.retired ++ [current] }) := by
  rcases s.check_cases lease with ⟨current, hheld, hcheck⟩ | hcheck
  · refine .inr ⟨current, hheld, ?_⟩
    simp only [retire, Method.bind_run, Method.read_run, hcheck, hheld.active, Outcome.okOr_some,
      Method.modify_run]
  · refine .inl ?_
    simp only [retire, Method.bind_run, Method.read_run, hcheck]

/-- A call is refused, panics at the end of the generations, or is accepted. -/
theorem step_cases (op : Op) (hpage : 0 < s.pageTokens) :
    (∃ error, step op s = (.err error, s)) ∨
    (u64Max ≤ s.generation ∧ (step op s).1 = .panic) ∨
    ∃ reply t, step op s = (.ok reply, t) ∧ Accepted s op reply t := by
  cases op with
  | reserve request epoch tokens =>
    rcases reserve_cases s request epoch tokens hpage with ⟨error, hrun⟩ | ⟨hlast, hrun⟩ | ⟨lease, hrun, haccepted⟩
    · exact .inl ⟨error, Method.bind_err hrun⟩
    · exact .inr (.inl ⟨hlast, Method.bind_eq_panic.mpr (.inl hrun)⟩)
    · exact .inr (.inr ⟨_, _, Method.bind_ok hrun, haccepted⟩)
  | ensure lease tokens =>
    rcases ensure_cases s lease tokens hpage with ⟨error, hrun, -⟩ | ⟨current, pages, hheld, havailable, hcount, hrun⟩
    · exact .inl ⟨error, Method.bind_err hrun⟩
    · exact .inr (.inr ⟨_, _, Method.bind_ok hrun, .ensure hheld havailable hcount⟩)
  | retire lease =>
    rcases retire_cases s lease with hrun | ⟨current, hheld, hrun⟩
    · exact .inl ⟨_, Method.bind_err hrun⟩
    · exact .inr (.inr ⟨_, _, Method.bind_ok hrun, .retire hheld⟩)
  | completionFence => exact .inr (.inr ⟨_, _, rfl, .completionFence⟩)

/-! ## Conservation -/

/-- Active leases, then retired ones. -/
def leases (s : ResourcePool) : List Lease := s.active.toList.map Prod.snd ++ s.retired

theorem mem_leases_of_active (h : s.active[request]? = some lease) : lease ∈ s.leases :=
  List.mem_append_left _ (List.mem_map.mpr
    ⟨(request, lease), ExtTreeMap.mem_toList_iff_getElem?_eq_some.mpr h, rfl⟩)

theorem mem_leases : lease ∈ s.leases ↔ (∃ request : Nat, s.active[request]? = some lease) ∨ lease ∈ s.retired := by
  simp [leases, ExtTreeMap.mem_toList_iff_getElem?_eq_some]

theorem leases_erase (h : s.active[request]? = some current) :
    s.leases.Perm (current :: ((s.active.erase request).toList.map Prod.snd ++ s.retired)) :=
  ((ExtTreeMap.toList_erase_perm h).map Prod.snd).append_right s.retired

theorem leases_reserved (h : s.active[lease.request]? = none) :
    (s.reserved lease).leases.Perm (lease :: s.leases) :=
  ((ExtTreeMap.toList_insert_perm h).map Prod.snd).append_right s.retired

theorem leases_grown (pages : List Nat) :
    (s.grown request current pages).leases.Perm ({ current with pages := current.pages ++ pages } ::
      ((s.active.erase request).toList.map Prod.snd ++ s.retired)) :=
  (ExtTreeMap.toList_replace_perm.map Prod.snd).append_right s.retired

theorem leases_retired (h : s.active[request]? = some current) :
    ({ s with active := s.active.erase request, retired := s.retired ++ [current] } : ResourcePool).leases.Perm
      s.leases := by
  refine List.Perm.trans ?_ (leases_erase h).symm
  rw [leases, ← List.append_assoc]
  exact List.perm_append_singleton _ _

/-- The pages given out, and every lease in its slot. -/
structure Conserved (pages slots : Nat) (s : ResourcePool) : Prop where
  pages : (s.freePages.toList ++ s.leases.flatMap Lease.pages).Perm (List.range pages)
  slots : (s.freeSlots.toList ++ s.leases.map Lease.slot).Perm (List.range slots)

/-- What is taken from the free ones goes to the leases. -/
theorem taken_perm {free held taken free' held' : List Nat} (hfree : free.Perm (taken ++ free'))
    (hheld : held'.Perm (taken ++ held)) : (free' ++ held').Perm (free ++ held) :=
  calc (free' ++ held').Perm (free' ++ (taken ++ held)) := hheld.append_left free'
    _ = (free' ++ taken) ++ held := (List.append_assoc _ _ _).symm
    _ |>.Perm ((taken ++ free') ++ held) := List.perm_append_comm.append_right held
    _ |>.Perm (free ++ held) := hfree.symm.append_right held

theorem Available.perm {pages : List Nat} (h : s.Available pages) :
    s.freePages.toList.Perm (pages ++ (s.freePages.eraseAll pages).toList) :=
  ExtTreeSet.toList_eraseAll_perm h.distinct h.free

/-- A fence gives back what is not free already. -/
theorem fencedPages_perm {retired : List Lease} {free : ExtTreeSet Nat}
    (h : (free.toList ++ retired.flatMap Lease.pages).Nodup) :
    (retired.foldl (fun free lease => free.insertMany lease.pages) free).toList.Perm
      (free.toList ++ retired.flatMap Lease.pages) := by
  induction retired generalizing free with
  | nil => simp
  | cons lease retired ih =>
    rw [List.flatMap_cons, ← List.append_assoc] at h
    obtain ⟨hboth, -, -⟩ := List.nodup_append.mp h
    obtain ⟨-, hpages, hdisjoint⟩ := List.nodup_append.mp hboth
    have hinsert : (free.insertMany lease.pages).toList.Perm (free.toList ++ lease.pages) :=
      (ExtTreeSet.toList_insertMany_perm hpages fun p hp hfree =>
        hdisjoint p (ExtTreeSet.mem_toList.mpr hfree) p hp rfl).trans List.perm_append_comm
    have hrest := hinsert.append_right (retired.flatMap Lease.pages)
    rw [List.foldl_cons, List.flatMap_cons, ← List.append_assoc]
    exact (ih (hrest.nodup_iff.mpr h)).trans hrest

theorem fencedSlots_perm {retired : List Lease} {free : ExtTreeSet Nat}
    (h : (free.toList ++ retired.map Lease.slot).Nodup) :
    (retired.foldl (fun free lease => free.insert lease.slot) free).toList.Perm
      (free.toList ++ retired.map Lease.slot) := by
  induction retired generalizing free with
  | nil => simp
  | cons lease retired ih =>
    rw [List.map_cons] at h
    have hnew : lease.slot ∉ free := fun hfree =>
      (List.nodup_append.mp h).2.2 lease.slot (ExtTreeSet.mem_toList.mpr hfree) lease.slot
        List.mem_cons_self rfl
    have hinsert := (ExtTreeSet.toList_insert_perm hnew).append_right (retired.map Lease.slot)
    have hmiddle := hinsert.trans List.perm_middle.symm
    rw [List.foldl_cons, List.map_cons]
    exact (ih (hmiddle.nodup_iff.mpr h)).trans hmiddle

theorem fenced_conserved {pages slots : Nat} (h : Conserved pages slots s) : Conserved pages slots s.fenced := by
  obtain ⟨hpages, hslots⟩ := h
  rw [leases, List.flatMap_append] at hpages
  rw [leases, List.map_append] at hslots
  have hpages' : ((s.freePages.toList ++ s.retired.flatMap Lease.pages) ++
      (s.active.toList.map Prod.snd).flatMap Lease.pages).Perm (List.range pages) := by
    rw [List.append_assoc]
    exact (List.perm_append_comm.append_left _).trans hpages
  have hslots' : ((s.freeSlots.toList ++ s.retired.map Lease.slot) ++
      (s.active.toList.map Prod.snd).map Lease.slot).Perm (List.range slots) := by
    rw [List.append_assoc]
    exact (List.perm_append_comm.append_left _).trans hslots
  have hleases : s.fenced.leases = s.active.toList.map Prod.snd := List.append_nil _
  constructor
  · rw [hleases]
    have hdistinct := (List.nodup_append.mp (hpages'.nodup_iff.mpr List.nodup_range)).1
    exact ((fencedPages_perm hdistinct).append_right _).trans hpages'
  · rw [hleases]
    have hdistinct := (List.nodup_append.mp (hslots'.nodup_iff.mpr List.nodup_range)).1
    exact ((fencedSlots_perm hdistinct).append_right _).trans hslots'

variable {op : Op} {reply : Reply}

theorem Accepted.conserved {pages slots : Nat} (hs : Conserved pages slots s) (h : Accepted s op reply t) :
    Conserved pages slots t := by
  cases h with
  | @reserve lease tokens hpages hcount hslot hgeneration hinactive =>
    have hleases := leases_reserved hinactive
    have hslots : s.freeSlots.toList.Perm ([lease.slot] ++ (s.freeSlots.erase lease.slot).toList) :=
      ExtTreeSet.toList_erase_perm hslot
    exact ⟨(taken_perm hpages.perm (hleases.flatMap_right Lease.pages)).trans hs.pages,
      (taken_perm hslots (hleases.map Lease.slot)).trans hs.slots⟩
  | @ensure lease current tokens pages hheld hpages hcount =>
    have hbefore := leases_erase hheld.active
    have hafter : (s.grown lease.request current pages).leases.Perm _ := leases_grown pages
    constructor
    · refine (taken_perm hpages.perm ((hafter.flatMap_right Lease.pages).trans ?_)).trans hs.pages
      refine List.Perm.trans ?_ ((hbefore.flatMap_right Lease.pages).append_left pages).symm
      simp only [List.flatMap_cons, ← List.append_assoc]
      exact List.perm_append_comm.append_right _
    · exact ((hafter.map Lease.slot).trans (hbefore.map Lease.slot).symm |>.append_left _).trans hs.slots
  | @retire lease current hheld =>
    have hleases := leases_retired hheld.active
    exact ⟨((hleases.flatMap_right Lease.pages).append_left _).trans hs.pages,
      ((hleases.map Lease.slot).append_left _).trans hs.slots⟩
  | completionFence => exact fenced_conserved hs

end ResourcePool

end Inferfabric.Transfer
