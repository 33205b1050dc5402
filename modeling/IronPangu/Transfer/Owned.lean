-- SUMMARY: Calls of an owner: with nothing retired and the lease held, a call succeeds or is short of pages or slots.
import IronPangu.Transfer.Protocol

open Rust Method Std

/-!
# Calls of an owner

A caller that fences after every retirement, and holds the leases it names, sees two
outcomes: the call succeeds, or the pool is short of capacity. A hand-off it carries out
in one go always succeeds.
-/

namespace Inferfabric.Transfer

open Ir

namespace ResourcePool

variable {s : ResourcePool} {lease current : Lease} {request epoch tokens pages slots : Nat}

/-- A pool nobody has leased from. -/
structure Fresh (slots pageTokens : Nat) (s : ResourcePool) : Prop where
  slots : 0 < slots
  pageTokens : s.pageTokens = pageTokens
  active : s.active = ∅
  retired : s.retired = []
  generation : s.generation = 0

theorem new_fresh {pageTokens : Nat} (h : new pages slots pageTokens = .ok s) : Fresh slots pageTokens s := by
  unfold new at h
  split at h
  · exact absurd h invalid_ne_ok
  rename_i hsizes
  obtain rfl := Outcome.ok.inj h
  exact ⟨Nat.pos_of_ne_zero fun hzero => hsizes (.inr (.inl hzero)), rfl, rfl, rfl, rfl⟩

/-- An active lease is held by whoever has it. -/
theorem Sound.held (hs : Sound pages slots s) (h : s.active[request]? = some lease) : s.Held lease lease where
  active := (hs.keyed request lease h).symm ▸ h
  epoch := rfl
  generation := rfl
  slot := rfl

/-- No page is twice in a lease. -/
theorem Sound.pages_nodup (hs : Sound pages slots s) (h : lease ∈ s.leases) : lease.pages.Nodup :=
  (List.nodup_flatMap.mp (List.nodup_append.mp (hs.pages.nodup_iff.mpr List.nodup_range)).2.1).1 lease h

theorem Held.check (h : s.Held lease current) : s.check lease = .ok () := check_eq_ok.mpr ⟨current, h⟩

theorem retire_run (h : s.Held lease current) : retire lease s = (.ok (), { s with
    active := s.active.erase lease.request
    retired := s.retired ++ [current] }) := by
  rcases s.retire_cases lease with hrun | ⟨held, hheld, hrun⟩
  · simp [retire, Method.bind_run, h.check, h.active] at hrun
  · obtain rfl := Option.some.inj (h.active.symm.trans hheld.active)
    exact hrun

theorem Accepted.given {t : ResourcePool} (h : Accepted s (.reserve request epoch tokens) (.lease lease) t) :
    lease.request = request ∧ lease.epoch = epoch ∧ lease.pages.length = pageCount s.pageTokens tokens := by
  cases h with
  | reserve _ hcount => exact ⟨rfl, rfl, hcount⟩

/-- More pages than are free, or no slot. -/
def Short (s : ResourcePool) (tokens : Nat) : Prop := s.freePages.size < pageCount s.pageTokens tokens ∨ s.freeSlots.isEmpty

theorem reserve_run (epoch tokens : Nat) (hpage : 0 < s.pageTokens) (hinactive : s.active[request]? = none) (hretired : s.retired = [])
    (hlast : s.generation < u64Max) :
    (s.Short tokens ∧ reserve request epoch tokens s = (.err (.capacity "pages/slots"), s)) ∨
    ∃ lease, reserve request epoch tokens s = (.ok lease, s.reserved lease) ∧
      Accepted s (.reserve request epoch tokens) (.lease lease) (s.reserved lease) := by
  have howned : ¬(request ∈ s.active ∨ ∃ l ∈ s.retired, l.request = request) := by
    simp [hretired, ← ExtTreeMap.isSome_getElem?_iff_mem, hinactive]
  by_cases hroom : (tokens + s.pageTokens - 1) / s.pageTokens > s.freePages.size ∨ s.freeSlots.isEmpty
  · refine .inl ⟨hroom, ?_⟩
    simp only [reserve, Method.bind_run, Method.get_run, if_neg howned, Method.lift_run, Outcome.divCeil_pos hpage,
      if_pos hroom, Method.fail_run]
  · rcases s.reserve_cases request epoch tokens hpage with ⟨error, hrun⟩ | ⟨hgeneration, -⟩ | haccepted
    · -- The pool has a page list and a slot to give, so the run goes through to its end.
      obtain ⟨-, hslots⟩ := not_or.mp hroom
      obtain ⟨slot, -, hhead⟩ := ExtTreeSet.exists_head (s := s.freeSlots) (Nat.pos_of_ne_zero fun hzero =>
        hslots (by rw [ExtTreeSet.isEmpty_iff, ExtTreeSet.eq_empty_iff_size_eq_zero]; exact hzero))
      generalize htake : s.freePages.toList.take ((tokens + s.pageTokens - 1) / s.pageTokens) = taken at hrun
      have hpop := popSlot_run (s := { s with freePages := s.freePages.eraseAll taken }) hhead
      have hnext := nextGeneration_run (s := { s with
        freePages := s.freePages.eraseAll taken, freeSlots := s.freeSlots.erase slot }) hlast
      rw [reserve, Method.bind_run, Method.get_run] at hrun
      simp only [if_neg howned, Method.bind_run, Method.lift_run, Outcome.divCeil_pos hpage, if_neg hroom,
        Method.modify_run, htake, hpop, hnext, Method.pure_run] at hrun
      cases hrun
    · exact absurd hgeneration (Nat.not_le.mpr hlast)
    · exact .inr haccepted

theorem ensure_run (tokens : Nat) (hpage : 0 < s.pageTokens) (h : s.Held lease current) :
    ensure lease tokens s = (.err (.capacity "KV growth"), s) ∨
    ∃ pages, s.Available pages ∧ pages.length = pageCount s.pageTokens tokens - current.pages.length ∧
      ensure lease tokens s = (.ok { current with pages := current.pages ++ pages }, s.grown lease.request current pages) := by
  rcases s.ensure_cases lease tokens hpage with ⟨error, -, hfew⟩ | ⟨held, pages, hheld, havailable, hlength, hrun⟩
  · refine .inl ?_
    simp only [ensure, Method.bind_run, Method.read_run, h.check, h.active, Outcome.okOr_some, Method.get_run,
      Method.lift_run, Outcome.divCeil_pos hpage, if_pos (hfew current h), Method.fail_run]
  · obtain rfl := Option.some.inj (h.active.symm.trans hheld.active)
    exact .inr ⟨pages, havailable, hlength, hrun⟩

/-- A pool without leases is short of nothing it ever had. -/
theorem Sound.not_short (hs : Sound pages slots s) (hactive : s.active = ∅) (hretired : s.retired = [])
    (hslots : 0 < slots) (h : pageCount s.pageTokens tokens ≤ pages) : ¬s.Short tokens := by
  have hleases : s.leases = [] := by simp [leases, hactive, hretired]
  have hpages := hs.pages.length_eq
  have hslots' := hs.slots.length_eq
  rw [hleases, List.flatMap_nil, List.append_nil, ExtTreeSet.length_toList, List.length_range] at hpages
  rw [hleases, List.map_nil, List.append_nil, ExtTreeSet.length_toList, List.length_range] at hslots'
  rintro (hfew | hempty)
  · exact absurd h (Nat.not_le.mpr (hpages ▸ hfew))
  · rw [ExtTreeSet.isEmpty_iff, ExtTreeSet.eq_empty_iff_size_eq_zero] at hempty
    exact absurd hempty (hslots' ▸ hslots.ne')

end ResourcePool

namespace InMemoryTransport

variable {t : InMemoryTransport} {lease current : Lease} {e : Entry} {manifest : Manifest} {pages slots : Nat}

theorem Current.run (h : t.Current lease e) : t.entry lease = .ok e := by
  rcases t.entry_cases lease with hrun | ⟨e', hcurrent, hrun⟩
  · simp [InMemoryTransport.entry, h.check, h.entry, Option.filter, h.epoch, h.generation] at hrun
  · obtain rfl := Option.some.inj (h.entry.symm.trans hcurrent.entry)
    exact hrun

theorem Current.withEntry (h : t.Current lease e) (e' : Entry) (hlease : e'.lease = e.lease) :
    (t.withEntry lease.request e').Current lease e' where
  check := h.check
  entry := ExtTreeMap.getElem?_insert_self
  epoch := hlease ▸ h.epoch
  generation := hlease ▸ h.generation

theorem withEntry_withEntry {request : Nat} {e e' : Entry} :
    (t.withEntry request e).withEntry request e' = t.withEntry request e' := by
  simp only [InMemoryTransport.withEntry, ExtTreeMap.insert_insert]

theorem transfer_run (hcheck : t.checkManifest manifest = .ok ()) (h : t.Current manifest.lease e)
    (hstatus : e.status = .reserved) (hlease : manifest.lease = e.lease) :
    transfer manifest t = (.ok (), t.withEntry manifest.lease.request { e with manifest := some manifest, status := .inFlight }) := by
  simp only [transfer, Method.bind_run, Method.read_run, hcheck, h.run, ne_eq, not_not.mpr hstatus, not_not.mpr hlease,
    if_false, setEntry, Method.modify_run]
  rfl

theorem complete_run (h : t.Current lease e) (hstatus : e.status = .inFlight) :
    complete lease t = (.ok (), t.withEntry lease.request { e with status := .complete }) := by
  simp only [complete, Method.bind_run, Method.read_run, h.run, hstatus, setEntry, Method.modify_run]
  rfl

theorem commit_run (h : t.Current lease e) (hstatus : e.status = .complete) (hmanifest : e.manifest = some manifest) :
    commit lease t = (.ok manifest, t.withEntry lease.request { e with status := .committed }) := by
  simp [commit, Method.bind_run, h.run, hstatus, setEntry, hmanifest, InMemoryTransport.withEntry]

theorem acknowledge_run (h : t.Current lease e) (hstatus : e.status = .committed) :
    acknowledge lease t = (.ok (), t.withEntry lease.request { e with status := .acknowledged }) := by
  simp [acknowledge, Method.bind_run, h.run, hstatus, setEntry, InMemoryTransport.withEntry]

theorem finish_run (h : t.pool.Held lease current) : finish lease t = (.ok (), { t with
    pool := { t.pool with
      active := t.pool.active.erase lease.request
      retired := t.pool.retired ++ [current] }
    entries := t.entries.erase lease.request }) := by
  rcases t.finish_cases lease with hrun | ⟨held, hheld, hrun⟩
  · simp [finish, Method.bind_run, h.check, onPool, ResourcePool.retire_run h] at hrun
  · obtain rfl := Option.some.inj (h.active.symm.trans hheld.active)
    exact hrun

theorem new_fresh {spec : Spec} {key : String} (h : new spec key pages slots = .ok t) :
    t.pool.Fresh slots spec.pageTokens ∧ t.spec = spec ∧ t.key = key := by
  obtain ⟨pool, hpool, h⟩ := Outcome.bind_eq_ok.mp h
  obtain rfl := Outcome.ok.inj h
  exact ⟨ResourcePool.new_fresh hpool, rfl, rfl⟩

/-- The transport after its lease of a new hand-off. -/
def withReserved (t : InMemoryTransport) (lease : Lease) : InMemoryTransport :=
  { t with
    pool := t.pool.reserved lease
    entries := t.entries.insert lease.request ⟨lease, .reserved, none⟩ }

/-- The transport after a hand-off in one go. -/
def handedOver (t : InMemoryTransport) (manifest : Manifest) : InMemoryTransport :=
  (t.withReserved manifest.lease).withEntry manifest.lease.request ⟨manifest.lease, .acknowledged, some manifest⟩

theorem withReserved_current : (t.withReserved lease).Current lease ⟨lease, .reserved, none⟩ where
  check := ResourcePool.Held.check (⟨ExtTreeMap.getElem?_insert_self, rfl, rfl, rfl⟩ : ResourcePool.Held _ lease lease)
  entry := ExtTreeMap.getElem?_insert_self
  epoch := rfl
  generation := rfl

theorem reserve_run {id : Nat} (epoch tokens : Nat) (ht : Linked pages slots t) (hinactive : t.pool.active[id]? = none)
    (hretired : t.pool.retired = []) (hlast : t.pool.generation < u64Max) :
    (t.pool.Short tokens ∧ reserve id epoch tokens t = (.err (.capacity "pages/slots"), t)) ∨
    ∃ lease, lease.request = id ∧ lease.pages.length = ResourcePool.pageCount t.pool.pageTokens tokens ∧
      lease.generation = t.pool.generation + 1 ∧
      reserve id epoch tokens t = (.ok lease, t.withReserved lease) ∧ Linked pages slots (t.withReserved lease) := by
  rcases ResourcePool.reserve_run epoch tokens ht.pool.pageTokens hinactive hretired hlast with
    ⟨hshort, hrun⟩ | ⟨lease, hrun, haccepted⟩
  · refine .inl ⟨hshort, ?_⟩
    simp only [reserve, Method.bind_run, onPool, hrun]
  · obtain ⟨rfl, rfl, hcount⟩ := haccepted.given
    refine .inr ⟨lease, rfl, hcount, haccepted.issued, ?_, ht.reserved haccepted⟩
    simp only [reserve, Method.bind_run, onPool, hrun, setEntry, Method.modify_run, Method.pure_run]
    rfl

/-- The four calls of a hand-off, one after another. -/
theorem handOver_run (hcheck : (t.withReserved manifest.lease).checkManifest manifest = .ok ()) :
    ∃ t₁ t₂ t₃, transfer manifest (t.withReserved manifest.lease) = (.ok (), t₁) ∧
      complete manifest.lease t₁ = (.ok (), t₂) ∧ commit manifest.lease t₂ = (.ok manifest, t₃) ∧
      acknowledge manifest.lease t₃ = (.ok (), t.handedOver manifest) := by
  have h := @withReserved_current t manifest.lease
  have h₁ := h.withEntry ⟨manifest.lease, .inFlight, some manifest⟩ rfl
  have h₂ := h₁.withEntry ⟨manifest.lease, .complete, some manifest⟩ rfl
  have h₃ := h₂.withEntry ⟨manifest.lease, .committed, some manifest⟩ rfl
  refine ⟨_, _, _, transfer_run hcheck h rfl rfl, complete_run h₁ rfl, commit_run h₂ rfl rfl, ?_⟩
  rw [handedOver, acknowledge_run h₃ rfl, withEntry_withEntry, withEntry_withEntry, withEntry_withEntry]

theorem Linked.handedOver (ht : Linked pages slots (t.withReserved manifest.lease)) : Linked pages slots (t.handedOver manifest) :=
  ht.withEntry withReserved_current.entry rfl (by simp)

end InMemoryTransport

end Inferfabric.Transfer
