-- SUMMARY: What one message does to the transport, and the invariant that ties its entries to the pool's leases.
import IronPangu.Transfer.Reuse

open Rust Method Std

/-!
# Messages of a hand-off

A message is refused and changes nothing, or it is one of the cases of `Accepted`.
Every active lease of the pool has one entry; the entry keeps the lease as it was
reserved, while the pool's may have grown since.
-/

namespace Inferfabric.Transfer

open Ir

namespace ResourcePool

variable {s t : ResourcePool} {op : Op} {reply : Reply} {pages slots generation : Nat}

/-- A generation that is used up and not active. -/
structure Gone (generation : Nat) (s : ResourcePool) : Prop where
  issued : generation ≤ s.generation
  inactive : ∀ (request : Nat) current, s.active[request]? = some current → current.generation ≠ generation

theorem Gone.accepted (h : Gone generation s) (haccepted : Accepted s op reply t) : Gone generation t := by
  obtain ⟨hissued, hinactive⟩ := h
  cases haccepted with
  | @reserve lease tokens hpages hcount hslot hgeneration =>
    refine ⟨?_, fun request current hactive => ?_⟩
    · exact hissued.trans (hgeneration.symm ▸ Nat.le_succ s.generation : s.generation ≤ lease.generation)
    · rcases ExtTreeMap.getElem?_insert_eq_some.mp hactive with ⟨rfl, rfl⟩ | ⟨-, hactive⟩
      · omega
      · exact hinactive request current hactive
  | @ensure lease held tokens pages hheld =>
    refine ⟨hissued, fun request current hactive => ?_⟩
    rcases ExtTreeMap.getElem?_insert_eq_some.mp hactive with ⟨rfl, rfl⟩ | ⟨-, hactive⟩
    · have hsame := hinactive _ _ hheld.active
      exact hsame
    · exact hinactive request current hactive
  | retire =>
    exact ⟨hissued, fun request current hactive =>
      hinactive request current (ExtTreeMap.getElem?_erase_eq_some.mp hactive).2⟩
  | completionFence => exact ⟨hissued, hinactive⟩

/-- The generation of a retired lease is gone. -/
theorem gone_retire {lease current : Lease} (hs : Sound pages slots s) (hheld : s.Held lease current) :
    Gone lease.generation
      { s with active := s.active.erase lease.request, retired := s.retired ++ [current] } := by
  have hmem := mem_leases_of_active hheld.active
  refine ⟨hheld.generation ▸ hs.issued current hmem, fun request other hactive hsame => ?_⟩
  obtain ⟨hne, hother⟩ := ExtTreeMap.getElem?_erase_eq_some.mp hactive
  obtain rfl := hs.same_lease (mem_leases_of_active hother) hmem (hsame.trans hheld.generation.symm)
  exact hne ((hs.keyed _ _ hheld.active).symm.trans (hs.keyed _ _ hother))

theorem Gone.stale {lease : Lease} (h : Gone lease.generation s) : s.check lease = .err .stale :=
  check_stale fun current hactive => h.inactive _ current hactive

end ResourcePool

namespace InMemoryTransport

variable {t t' : InMemoryTransport} {lease : Lease} {e : Entry} {pages slots : Nat}

inductive Message where
  | reserve (id epoch tokens : Nat)
  | transfer (manifest : Manifest)
  | complete (lease : Lease)
  | commit (lease : Lease)
  | acknowledge (lease : Lease)
  | finish (lease : Lease)
  | abort (lease : Lease)
  | completionFence
  /-- `ResourcePool::ensure` on the transport's pool. -/
  | ensure (lease : Lease) (tokens : Nat)
  deriving DecidableEq, Repr

inductive Reply where
  | lease (lease : Lease)
  | manifest (manifest : Manifest)
  | done
  deriving DecidableEq, Repr

/-- A call that returns nothing. -/
def done (c : Method InMemoryTransport Error Unit) : Method InMemoryTransport Error Reply := do
  c
  return .done

def step : Message → Method InMemoryTransport Error Reply
  | .reserve id epoch tokens => do return .lease (← reserve id epoch tokens)
  | .transfer manifest => done (transfer manifest)
  | .complete lease => done (complete lease)
  | .commit lease => do return .manifest (← commit lease)
  | .acknowledge lease => done (acknowledge lease)
  | .finish lease => done (finish lease)
  | .abort lease => done (abort lease)
  | .completionFence => done completionFence
  | .ensure lease tokens => do return .lease (← onPool (ResourcePool.ensure lease tokens))

/-! ## Entries -/

/-- An entry is up to date with the lease value of a message. -/
structure Current (t : InMemoryTransport) (lease : Lease) (e : Entry) : Prop where
  check : t.pool.check lease = .ok ()
  entry : t.entries[lease.request]? = some e
  epoch : e.lease.epoch = lease.epoch
  generation : e.lease.generation = lease.generation

theorem entry_cases (t : InMemoryTransport) (lease : Lease) :
    t.entry lease = .err .stale ∨ ∃ e, t.Current lease e ∧ t.entry lease = .ok e := by
  unfold entry
  rcases t.pool.check_cases lease with ⟨current, -, hcheck⟩ | hcheck
  · rw [hcheck, Outcome.ok_bind]
    cases hentry : t.entries[lease.request]? with
    | none => exact .inl rfl
    | some e =>
      by_cases hsame : e.lease.epoch = lease.epoch ∧ e.lease.generation = lease.generation
      · exact .inr ⟨e, ⟨hcheck, hentry, hsame.1, hsame.2⟩, by simp [Option.filter, hsame]⟩
      · exact .inl (by simp [Option.filter, hsame])
  · exact .inl (by rw [hcheck, Outcome.err_bind])

def withEntry (t : InMemoryTransport) (request : Nat) (e : Entry) : InMemoryTransport :=
  { t with entries := t.entries.insert request e }

/-- Everything an accepted message can do. -/
inductive Accepted (t : InMemoryTransport) : Message → Reply → InMemoryTransport → Prop where
  | reserve {lease : Lease} {tokens : Nat}
      (hpool : ResourcePool.Accepted t.pool (.reserve lease.request lease.epoch tokens) (.lease lease)
        (t.pool.reserved lease)) :
      Accepted t (.reserve lease.request lease.epoch tokens) (.lease lease)
        { t with pool := t.pool.reserved lease
                 entries := t.entries.insert lease.request ⟨lease, .reserved, none⟩ }
  | ensure {lease lease' : Lease} {tokens : Nat} {pool : ResourcePool}
      (hpool : ResourcePool.Accepted t.pool (.ensure lease tokens) (.lease lease') pool) :
      Accepted t (.ensure lease tokens) (.lease lease') { t with pool := pool }
  | transfer {manifest : Manifest} {e : Entry} (hcurrent : t.Current manifest.lease e)
      (hstatus : e.status = .reserved) (hlease : manifest.lease = e.lease) :
      Accepted t (.transfer manifest) .done
        (t.withEntry manifest.lease.request { e with manifest := some manifest, status := .inFlight })
  | duplicate {manifest : Manifest} {e : Entry} (hcurrent : t.Current manifest.lease e)
      (hstatus : e.status ≠ .reserved) (hmanifest : e.manifest = some manifest) :
      Accepted t (.transfer manifest) .done t
  | complete {lease : Lease} {e : Entry} (hcurrent : t.Current lease e) (hstatus : e.status = .inFlight) :
      Accepted t (.complete lease) .done (t.withEntry lease.request { e with status := .complete })
  | completed {lease : Lease} {e : Entry} (hcurrent : t.Current lease e)
      (hstatus : e.status ∈ [Status.complete, .committed, .acknowledged]) :
      Accepted t (.complete lease) .done t
  | commit {lease : Lease} {e : Entry} {manifest : Manifest} (hcurrent : t.Current lease e)
      (hstatus : e.status ∈ [Status.complete, .committed, .acknowledged])
      (hmanifest : e.manifest = some manifest) :
      Accepted t (.commit lease) (.manifest manifest)
        (t.withEntry lease.request (if e.status ≠ .acknowledged then { e with status := .committed } else e))
  | acknowledge {lease : Lease} {e : Entry} (hcurrent : t.Current lease e)
      (hstatus : e.status ∈ [Status.committed, .acknowledged]) :
      Accepted t (.acknowledge lease) .done (t.withEntry lease.request { e with status := .acknowledged })
  | finish {lease current : Lease} {message : Message} (hheld : t.pool.Held lease current)
      (hmessage : message = .finish lease ∨ message = .abort lease) :
      Accepted t message .done { t with
        pool := { t.pool with
          active := t.pool.active.erase lease.request
          retired := t.pool.retired ++ [current] }
        entries := t.entries.erase lease.request }
  | completionFence : Accepted t .completionFence .done { t with pool := t.pool.fenced }

/-- The entries are those of the active leases. -/
structure Linked (pages slots : Nat) (t : InMemoryTransport) : Prop where
  pool : t.pool.Sound pages slots
  ids : ∀ id : Nat, id ∈ t.entries ↔ id ∈ t.pool.active
  leases : ∀ (id : Nat) e current, t.entries[id]? = some e → t.pool.active[id]? = some current →
    ResourcePool.Grown e.lease current
  payload : ∀ (id : Nat) e, t.entries[id]? = some e → (e.manifest = none ↔ e.status = .reserved)

/-! ## What a message does -/

theorem checkManifest_ne_panic (manifest : Manifest) : t.checkManifest manifest ≠ .panic := by
  unfold checkManifest
  split
  · simp [invalid]
  · simp only [ne_eq, Outcome.check_bind_eq_panic, not_or, not_and]
    refine ⟨?_, fun _ => ?_⟩
    · unfold HybridState.validate
      dsimp only
      split <;> simp [invalid]
    · split
      · simp [invalid]
      · simp only [Outcome.bind_eq_panic, Outcome.okOr_ne_panic, false_or, not_exists, not_and]
        intro capacity _
        split <;> simp [invalid]

/-- How a message fares: refused without a trace, or accepted. -/
def Answered (t : InMemoryTransport) (message : Message) : Prop :=
  (∃ error, step message t = (.err error, t)) ∨ ∃ reply t', step message t = (.ok reply, t') ∧
    Accepted t message reply t'

theorem done_err {c : Method InMemoryTransport Error Unit} {error : Error} (h : c t = (.err error, t)) :
    done c t = (.err error, t) :=
  Method.bind_err h

theorem done_ok {c : Method InMemoryTransport Error Unit} (h : c t = (.ok (), t')) :
    done c t = (.ok .done, t') :=
  Method.bind_ok h

theorem transfer_answered (t : InMemoryTransport) (manifest : Manifest) : t.Answered (.transfer manifest) := by
  cases hcheck : t.checkManifest manifest with
  | panic => exact absurd hcheck (checkManifest_ne_panic manifest)
  | err error =>
    exact .inl ⟨error, done_err (by simp only [transfer, Method.bind_run, Method.read_run, hcheck])⟩
  | ok =>
    rcases t.entry_cases manifest.lease with hentry | ⟨e, hcurrent, hentry⟩
    · exact .inl ⟨.stale, done_err (by simp only [transfer, Method.bind_run, Method.read_run, hcheck, hentry])⟩
    by_cases hstatus : e.status = .reserved
    · by_cases hlease : manifest.lease = e.lease
      · refine .inr ⟨.done, _, done_ok ?_, .transfer hcurrent hstatus hlease⟩
        simp only [transfer, Method.bind_run, Method.read_run, hcheck, hentry, ne_eq, not_not.mpr hstatus,
          not_not.mpr hlease, if_false, setEntry, Method.modify_run]
        rfl
      · refine .inl ⟨.invalid "lease mapping mismatch", done_err ?_⟩
        simp [transfer, Method.bind_run, hcheck, hentry, hstatus, hlease]
    · by_cases hmanifest : e.manifest = some manifest
      · refine .inr ⟨.done, t, done_ok ?_, .duplicate hcurrent hstatus hmanifest⟩
        simp [transfer, Method.bind_run, hcheck, hentry, hstatus, hmanifest]
      · refine .inl ⟨.invalid "conflicting/late transfer", done_err ?_⟩
        simp [transfer, Method.bind_run, hcheck, hentry, hstatus, hmanifest]

theorem complete_answered (t : InMemoryTransport) (lease : Lease) : t.Answered (.complete lease) := by
  rcases t.entry_cases lease with hentry | ⟨e, hcurrent, hentry⟩
  · exact .inl ⟨.stale, done_err (by simp only [complete, Method.bind_run, Method.read_run, hentry])⟩
  cases hstatus : e.status with
  | reserved =>
    refine .inl ⟨.invalid "transfer not started", done_err ?_⟩
    simp only [complete, Method.bind_run, Method.read_run, hentry, hstatus, Method.fail_run]
  | inFlight =>
    refine .inr ⟨.done, _, done_ok ?_, .complete hcurrent hstatus⟩
    simp only [complete, Method.bind_run, Method.read_run, hentry, hstatus, setEntry, Method.modify_run]
    rfl
  | complete | committed | acknowledged =>
    refine .inr ⟨.done, t, done_ok ?_, .completed hcurrent (by simp [hstatus])⟩
    simp only [complete, Method.bind_run, Method.read_run, hentry, hstatus, Method.pure_run]

theorem commit_answered (ht : Linked pages slots t) (lease : Lease) : t.Answered (.commit lease) := by
  rcases t.entry_cases lease with hentry | ⟨e, hcurrent, hentry⟩
  · exact .inl ⟨.stale, Method.bind_err (by simp only [commit, Method.bind_run, Method.read_run, hentry])⟩
  by_cases hstatus : e.status ∈ [Status.complete, .committed, .acknowledged]
  · have hmanifest : e.manifest ≠ none := by
      rw [ne_eq, ht.payload _ e hcurrent.entry]
      rintro h
      simp [h] at hstatus
    obtain ⟨manifest, hmanifest⟩ := Option.ne_none_iff_exists'.mp hmanifest
    refine .inr ⟨.manifest manifest, _, Method.bind_ok ?_, .commit hcurrent hstatus hmanifest⟩
    simp only [commit, Method.bind_run, Method.read_run, hentry, not_not.mpr hstatus, if_false, setEntry,
      Method.modify_run, Method.lift_run, hmanifest, Outcome.okOr_some]
    rfl
  · refine .inl ⟨.invalid "transfer not ready for commit", Method.bind_err ?_⟩
    simp only [commit, Method.bind_run, Method.read_run, hentry, if_pos hstatus, Method.fail_run]

theorem acknowledge_answered (t : InMemoryTransport) (lease : Lease) : t.Answered (.acknowledge lease) := by
  rcases t.entry_cases lease with hentry | ⟨e, hcurrent, hentry⟩
  · exact .inl ⟨.stale, done_err (by simp only [acknowledge, Method.bind_run, Method.read_run, hentry])⟩
  by_cases hstatus : e.status ∈ [Status.committed, .acknowledged]
  · refine .inr ⟨.done, _, done_ok ?_, .acknowledge hcurrent hstatus⟩
    simp only [acknowledge, Method.bind_run, Method.read_run, hentry, not_not.mpr hstatus, if_false, setEntry,
      Method.modify_run]
    rfl
  · refine .inl ⟨.invalid "not committed", done_err ?_⟩
    simp only [acknowledge, Method.bind_run, Method.read_run, hentry, if_pos hstatus, Method.fail_run]

/-- `finish`, once its lease was found current, cannot fail to retire it. -/
theorem finish_cases (t : InMemoryTransport) (lease : Lease) :
    finish lease t = (.err .stale, t) ∨
    ∃ current, t.pool.Held lease current ∧ finish lease t = (.ok (), { t with
      pool := { t.pool with
        active := t.pool.active.erase lease.request
        retired := t.pool.retired ++ [current] }
      entries := t.entries.erase lease.request }) := by
  rcases t.pool.check_cases lease with ⟨current, hheld, hcheck⟩ | hcheck
  · refine .inr ⟨current, hheld, ?_⟩
    rcases t.pool.retire_cases lease with hrun | ⟨current', hheld', hrun⟩
    · simp [ResourcePool.retire, Method.bind_run, hcheck, hheld.active] at hrun
    · obtain rfl := Option.some.inj (hheld.active.symm.trans hheld'.active)
      simp only [finish, Method.bind_run, Method.read_run, hcheck, Method.modify_run, onPool, hrun]
  · exact .inl (by simp only [finish, Method.bind_run, Method.read_run, hcheck])

theorem finish_answered (t : InMemoryTransport) (lease : Lease) {message : Message}
    (hmessage : message = .finish lease ∨ message = .abort lease) : t.Answered message := by
  have hstep : step message t = done (finish lease) t := by rcases hmessage with rfl | rfl <;> rfl
  rcases finish_cases t lease with hrun | ⟨current, hheld, hrun⟩
  · exact .inl ⟨.stale, hstep.trans (done_err hrun)⟩
  · exact .inr ⟨.done, _, hstep.trans (done_ok hrun), .finish hheld hmessage⟩

/-- A message is answered, unless the generations are used up. -/
theorem step_cases (ht : Linked pages slots t) (message : Message) :
    t.Answered message ∨ u64Max ≤ t.pool.generation ∧ (step message t).1 = .panic := by
  cases message with
  | reserve id epoch tokens =>
    rcases ResourcePool.reserve_cases t.pool id epoch tokens ht.pool.pageTokens with
      ⟨error, hrun⟩ | ⟨hlast, hrun⟩ | ⟨lease, hrun, haccepted⟩
    · refine .inl (.inl ⟨error, Method.bind_err ?_⟩)
      simp only [reserve, Method.bind_run, onPool, hrun]
    · refine .inr ⟨hlast, Method.bind_eq_panic.mpr (.inl ?_)⟩
      exact Method.bind_eq_panic.mpr (.inl hrun)
    · have hstep : step (.reserve id epoch tokens) t = (.ok (.lease lease), { t with
          pool := t.pool.reserved lease
          entries := t.entries.insert id ⟨lease, .reserved, none⟩ }) := by
        simp only [step, reserve, Method.bind_run, onPool, hrun, setEntry, Method.modify_run, Method.pure_run]
      have hrequest : id = lease.request ∧ epoch = lease.epoch := by cases haccepted; exact ⟨rfl, rfl⟩
      obtain ⟨rfl, rfl⟩ := hrequest
      exact .inl (.inr ⟨_, _, hstep, .reserve haccepted⟩)
  | transfer manifest => exact .inl (transfer_answered t manifest)
  | complete lease => exact .inl (complete_answered t lease)
  | commit lease => exact .inl (commit_answered ht lease)
  | acknowledge lease => exact .inl (acknowledge_answered t lease)
  | finish lease => exact .inl (finish_answered t lease (.inl rfl))
  | abort lease => exact .inl (finish_answered t lease (.inr rfl))
  | completionFence => exact .inl (.inr ⟨.done, _, rfl, .completionFence⟩)
  | ensure lease tokens =>
    rcases ResourcePool.ensure_cases t.pool lease tokens ht.pool.pageTokens with
      ⟨error, hrun, -⟩ | ⟨current, added, hheld, havailable, hcount, hrun⟩
    · refine .inl (.inl ⟨error, Method.bind_err ?_⟩)
      simp only [onPool, hrun]
    · refine .inl (.inr ⟨.lease _, _, Method.bind_ok ?_, .ensure (.ensure hheld havailable hcount)⟩)
      simp only [onPool, hrun]

end InMemoryTransport

end Inferfabric.Transfer
