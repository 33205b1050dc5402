-- SUMMARY: Over every order of messages a commit returns the first accepted manifest, and a finished generation stays stale.
import IronPangu.Transfer.Messages

open Rust Method Std

/-!
# The hand-off protocol

Messages may be repeated, come late, or carry leases of earlier generations. The
entry of a lease remembers the first manifest that was accepted for it, and only
moves forward; when its lease is retired its generation is gone for good.
-/

namespace Inferfabric.Transfer

open Ir
open ResourcePool (Grown Gone)

/-- The place of a status in the life of an entry. -/
def Status.index : Status → Nat
  | .reserved => 0
  | .inFlight => 1
  | .complete => 2
  | .committed => 3
  | .acknowledged => 4

namespace InMemoryTransport

variable {t t' : InMemoryTransport} {lease : Lease} {e e' : Entry} {pages slots generation : Nat}
  {message : Message} {reply : Reply}

/-! ## The invariant is kept -/

theorem Accepted.pool (h : Accepted t message reply t') :
    t'.pool = t.pool ∨ ∃ op reply, ResourcePool.Accepted t.pool op reply t'.pool := by
  cases h with
  | reserve hpool => exact .inr ⟨_, _, hpool⟩
  | ensure hpool => exact .inr ⟨_, _, hpool⟩
  | finish hheld => exact .inr ⟨_, _, .retire hheld⟩
  | completionFence => exact .inr ⟨_, _, .completionFence⟩
  | transfer | duplicate | complete | completed | commit | acknowledge => exact .inl rfl

theorem Accepted.sound (hs : t.pool.Sound pages slots) (h : Accepted t message reply t') :
    t'.pool.Sound pages slots := by
  rcases h.pool with hpool | ⟨op, reply, hpool⟩
  · exact hpool ▸ hs
  · exact hpool.sound hs

theorem Accepted.gone (hgone : Gone generation t.pool) (h : Accepted t message reply t') :
    Gone generation t'.pool := by
  rcases h.pool with hpool | ⟨op, reply, hpool⟩
  · exact hpool ▸ hgone
  · exact hgone.accepted hpool

theorem mem_insert_of_mem {β : Type} {m : ExtTreeMap Nat β} {k id : Nat} {v : β} (h : k ∈ m) :
    id ∈ m.insert k v ↔ id ∈ m := by
  rw [ExtTreeMap.mem_insert, LawfulEqCmp.compare_eq_iff_eq]
  exact ⟨fun h' => h'.elim (fun heq => heq ▸ h) fun h' => h', .inr⟩

theorem mem_of_getElem? {β : Type} {m : ExtTreeMap Nat β} {id : Nat} {v : β} (h : m[id]? = some v) : id ∈ m := by
  rw [ExtTreeMap.mem_iff_isSome_getElem?, h]
  rfl

/-- Replacing an entry by one of the same lease. -/
theorem Linked.withEntry {request : Nat} (ht : Linked pages slots t) (hentry : t.entries[request]? = some e)
    (hlease : e'.lease = e.lease) (hpayload : e'.manifest = none ↔ e'.status = .reserved) :
    Linked pages slots (t.withEntry request e') where
  pool := ht.pool
  ids id := (mem_insert_of_mem (mem_of_getElem? hentry)).trans (ht.ids id)
  leases := by
    intro id e₁ current hentry₁ hactive
    rcases ExtTreeMap.getElem?_insert_eq_some.mp hentry₁ with ⟨rfl, rfl⟩ | ⟨-, hentry₁⟩
    · exact hlease ▸ ht.leases _ e current hentry hactive
    · exact ht.leases id e₁ current hentry₁ hactive
  payload := by
    intro id e₁ hentry₁
    rcases ExtTreeMap.getElem?_insert_eq_some.mp hentry₁ with ⟨rfl, rfl⟩ | ⟨-, hentry₁⟩
    · exact hpayload
    · exact ht.payload id e₁ hentry₁

theorem Linked.reserved {tokens : Nat} (ht : Linked pages slots t)
    (hpool : ResourcePool.Accepted t.pool (.reserve lease.request lease.epoch tokens) (.lease lease)
      (t.pool.reserved lease)) :
    Linked pages slots { t with
      pool := t.pool.reserved lease
      entries := t.entries.insert lease.request ⟨lease, .reserved, none⟩ } where
  pool := hpool.sound ht.pool
  ids := by
    intro id
    simp only [ResourcePool.reserved, ExtTreeMap.mem_insert, ht.ids id]
  leases := by
    intro id e current hentry hactive
    rcases ExtTreeMap.getElem?_insert_eq_some.mp hentry with ⟨rfl, rfl⟩ | ⟨hne, hentry⟩
    · obtain rfl := Option.some.inj (ExtTreeMap.getElem?_insert_self.symm.trans hactive)
      exact .refl lease
    · rw [ResourcePool.reserved, ExtTreeMap.getElem?_insert_ne hne] at hactive
      exact ht.leases id e current hentry hactive
  payload := by
    intro id e hentry
    rcases ExtTreeMap.getElem?_insert_eq_some.mp hentry with ⟨rfl, rfl⟩ | ⟨-, hentry⟩
    · exact iff_of_true rfl rfl
    · exact ht.payload id e hentry

/-- The pool's lease grows; the entry keeps the pages it was reserved with. -/
theorem Linked.ensured {lease' : Lease} {tokens : Nat} {pool : ResourcePool} (ht : Linked pages slots t)
    (hpool : ResourcePool.Accepted t.pool (.ensure lease tokens) (.lease lease') pool) :
    Linked pages slots { t with pool := pool } := by
  have hsound := hpool.sound ht.pool
  cases hpool with
  | @ensure lease current tokens added hheld =>
    refine ⟨hsound, fun id => ?_, fun id e active hentry hactive => ?_, ht.payload⟩
    · exact (ht.ids id).trans (mem_insert_of_mem (mem_of_getElem? hheld.active)).symm
    · rcases ExtTreeMap.getElem?_insert_eq_some.mp hactive with ⟨rfl, rfl⟩ | ⟨-, hactive⟩
      · exact (ht.leases _ e current hentry hheld.active).more added
      · exact ht.leases id e active hentry hactive

theorem Linked.finished {current : Lease} (ht : Linked pages slots t) (hheld : t.pool.Held lease current) :
    Linked pages slots { t with
      pool := { t.pool with
        active := t.pool.active.erase lease.request
        retired := t.pool.retired ++ [current] }
      entries := t.entries.erase lease.request } where
  pool := (ResourcePool.Accepted.retire hheld).sound ht.pool
  ids := by
    intro id
    simp only [ExtTreeMap.mem_erase, ht.ids id]
  leases id e active hentry hactive :=
    ht.leases id e active (ExtTreeMap.getElem?_erase_eq_some.mp hentry).2
      (ExtTreeMap.getElem?_erase_eq_some.mp hactive).2
  payload id e hentry := ht.payload id e (ExtTreeMap.getElem?_erase_eq_some.mp hentry).2

theorem Accepted.linked (ht : Linked pages slots t) (h : Accepted t message reply t') :
    Linked pages slots t' := by
  cases h with
  | reserve hpool => exact ht.reserved hpool
  | ensure hpool => exact ht.ensured hpool
  | transfer hcurrent => exact ht.withEntry hcurrent.entry rfl (by simp)
  | duplicate | completed => exact ht
  | complete hcurrent hstatus =>
    refine ht.withEntry hcurrent.entry rfl ?_
    simp [ht.payload _ _ hcurrent.entry, hstatus]
  | @commit _ e _ hcurrent hstatus hmanifest =>
    have hsent : e.status ≠ .reserved := fun h => by simp [h] at hstatus
    refine ht.withEntry hcurrent.entry (by split <;> rfl) ?_
    split <;> simp [hmanifest, hsent]
  | @acknowledge _ e hcurrent hstatus =>
    refine ht.withEntry hcurrent.entry rfl ?_
    have hsent : e.status ≠ .reserved := fun h => by simp [h] at hstatus
    simp [ht.payload _ _ hcurrent.entry, hsent]
  | finish hheld => exact ht.finished hheld
  | completionFence => exact ⟨ResourcePool.Accepted.completionFence.sound ht.pool, ht.ids, ht.leases, ht.payload⟩

/-! ## Entries move forward -/

/-- A later state of an entry. -/
structure Later (e e' : Entry) : Prop where
  lease : e'.lease = e.lease
  forward : e.status.index ≤ e'.status.index
  manifest : ∀ manifest, e.manifest = some manifest → e'.manifest = some manifest

theorem Later.refl (e : Entry) : Later e e := ⟨rfl, le_rfl, fun _ h => h⟩

theorem Later.trans {e'' : Entry} (h : Later e e') (h' : Later e' e'') : Later e e'' :=
  ⟨h'.lease.trans h.lease, h.forward.trans h'.forward, fun m hm => h'.manifest m (h.manifest m hm)⟩

/-- An entry after an accepted message: a later state, at most one step on. -/
def Moved (e e' : Entry) : Prop := Later e e' ∧ e'.status.index ≤ e.status.index + 1

theorem Moved.refl (e : Entry) : Moved e e := ⟨.refl e, Nat.le_succ _⟩

theorem withEntry_moved {request id : Nat} (hentry : t.entries[request]? = some e) (hmoved : Moved e e')
    {e₁ : Entry} (h : t.entries[id]? = some e₁) :
    ∃ e₂, (t.withEntry request e').entries[id]? = some e₂ ∧ Moved e₁ e₂ := by
  by_cases hid : request = id
  · subst hid
    obtain rfl := Option.some.inj (hentry.symm.trans h)
    exact ⟨e', ExtTreeMap.getElem?_insert_self, hmoved⟩
  · exact ⟨e₁, (ExtTreeMap.getElem?_insert_ne hid).trans h, .refl e₁⟩

/-- After an accepted message an entry has moved on, or its generation is gone. -/
theorem Accepted.entry (ht : Linked pages slots t) (h : Accepted t message reply t') {id : Nat}
    (hentry : t.entries[id]? = some e) :
    (∃ e', t'.entries[id]? = some e' ∧ Moved e e') ∨ t'.entries[id]? = none ∧ Gone e.lease.generation t'.pool := by
  cases h with
  | @reserve lease tokens hpool =>
    refine .inl ⟨e, ?_, .refl e⟩
    have hne : lease.request ≠ id := by
      rintro rfl
      have hactive := (ht.ids lease.request).mp (mem_of_getElem? hentry)
      rw [ExtTreeMap.mem_iff_isSome_getElem?, hpool.inactive] at hactive
      cases hactive
    exact (ExtTreeMap.getElem?_insert_ne hne).trans hentry
  | ensure | duplicate | completed | completionFence => exact .inl ⟨e, hentry, .refl e⟩
  | @transfer manifest e₁ hcurrent hstatus =>
    refine .inl (withEntry_moved hcurrent.entry ?_ hentry)
    refine ⟨⟨rfl, ?_, fun m hm => ?_⟩, ?_⟩
    · simp [hstatus, Status.index]
    · rw [(ht.payload _ _ hcurrent.entry).mpr hstatus] at hm
      cases hm
    · simp [hstatus, Status.index]
  | complete hcurrent hstatus =>
    refine .inl (withEntry_moved hcurrent.entry ?_ hentry)
    refine ⟨⟨rfl, ?_, fun m hm => hm⟩, ?_⟩ <;> simp [hstatus, Status.index]
  | @commit _ e₁ _ hcurrent hstatus hmanifest =>
    refine .inl (withEntry_moved hcurrent.entry ?_ hentry)
    split
    · rename_i hne
      refine ⟨⟨rfl, ?_, fun m hm => hm⟩, ?_⟩ <;> cases hsent : e₁.status <;> simp_all [Status.index]
    · exact .refl e₁
  | @acknowledge _ e₁ hcurrent hstatus =>
    refine .inl (withEntry_moved hcurrent.entry ?_ hentry)
    refine ⟨⟨rfl, ?_, fun m hm => hm⟩, ?_⟩ <;> cases hsent : e₁.status <;> simp_all [Status.index]
  | @finish lease current _ hheld =>
    by_cases hid : lease.request = id
    · subst hid
      refine .inr ⟨ExtTreeMap.getElem?_erase_self, ?_⟩
      rw [← (ht.leases _ e current hentry hheld.active).generation, hheld.generation]
      exact ResourcePool.gone_retire ht.pool hheld
    · exact .inl ⟨e, (ExtTreeMap.getElem?_erase_ne hid).trans hentry, .refl e⟩

/-! ## The first accepted manifest -/

abbrev Called := Event InMemoryTransport Error Message Reply

/-- Two lease values of the same request, epoch and generation. -/
def SameLease (lease lease' : Lease) : Prop :=
  lease'.request = lease.request ∧ lease'.epoch = lease.epoch ∧ lease'.generation = lease.generation

instance (lease lease' : Lease) : Decidable (SameLease lease lease') :=
  inferInstanceAs (Decidable (_ ∧ _))

/-- The manifest a call has transferred for a lease. -/
def accepted (lease : Lease) (ev : Called) : Option Manifest :=
  match ev.call, ev.reply with
  | .transfer manifest, .ok _ => if SameLease lease manifest.lease then some manifest else none
  | _, _ => none

def firstAccepted (lease : Lease) (events : List Called) : Option Manifest := events.findSome? (accepted lease)

theorem firstAccepted_concat (events : List Called) (ev : Called) :
    firstAccepted lease (events ++ [ev]) = (firstAccepted lease events).or (accepted lease ev) := by
  simp [firstAccepted, List.findSome?_append]

theorem firstAccepted_append {events : List Called} {manifest : Manifest}
    (h : firstAccepted lease events = some manifest) (more : List Called) :
    firstAccepted lease (events ++ more) = some manifest := by
  rw [firstAccepted, List.findSome?_append]
  exact congrArg (Option.or · _) h

theorem firstAccepted_congr {lease' : Lease} (h : SameLease lease lease') (events : List Called) :
    firstAccepted lease events = firstAccepted lease' events := by
  obtain ⟨hrequest, hepoch, hgeneration⟩ := h
  have hiff : ∀ l, SameLease lease l ↔ SameLease lease' l := fun l => by
    simp only [SameLease, hrequest, hepoch, hgeneration]
  have hsame : accepted lease = accepted lease' := by
    funext ev
    simp only [accepted, hiff]
  rw [firstAccepted, firstAccepted, hsame]

theorem accepted_err {ev : Called} {error : Error} (h : ev.reply = .err error) : accepted lease ev = none := by
  simp only [accepted, h]
  split <;> simp_all

theorem accepted_other {ev : Called} (h : ∀ manifest, ev.call ≠ .transfer manifest) :
    accepted lease ev = none := by
  unfold accepted
  split
  · exact absurd ‹_› (h _)
  · rfl

theorem accepted_transfer {ev : Called} {manifest : Manifest} (hcall : ev.call = .transfer manifest)
    (hreply : ev.reply = .ok reply) :
    accepted lease ev = if SameLease lease manifest.lease then some manifest else none := by
  simp only [accepted, hcall, hreply]

/-- Every entry holds the first manifest accepted for its lease; for a lease that was
    never reserved none was accepted. -/
structure Remembers (events : List Called) (t : InMemoryTransport) : Prop where
  entry : ∀ (id : Nat) e, t.entries[id]? = some e → firstAccepted e.lease events = e.manifest
  unissued : ∀ lease : Lease, t.pool.generation < lease.generation → firstAccepted lease events = none

theorem Current.issued (ht : Linked pages slots t) (h : t.Current lease e) :
    lease.generation ≤ t.pool.generation := by
  obtain ⟨current, hheld⟩ := ResourcePool.check_eq_ok.mp h.check
  exact hheld.generation ▸ ht.pool.issued current (ResourcePool.mem_leases_of_active hheld.active)

theorem Linked.request (ht : Linked pages slots t) {id : Nat} (hentry : t.entries[id]? = some e) :
    e.lease.request = id := by
  have hactive := (ht.ids id).mp (mem_of_getElem? hentry)
  rw [ExtTreeMap.mem_iff_isSome_getElem?] at hactive
  obtain ⟨current, hcurrent⟩ := Option.isSome_iff_exists.mp hactive
  exact (ht.leases id e current hentry hcurrent).request.symm.trans (ht.pool.keyed id current hcurrent)

/-- A message that transfers nothing leaves what is remembered. -/
theorem Remembers.other {events : List Called} {ev : Called} (h : Remembers events t)
    (hnone : ∀ lease, accepted lease ev = none)
    (hentries : ∀ (id : Nat) e, t'.entries[id]? = some e →
      firstAccepted e.lease events = e.manifest)
    (hpool : t.pool.generation ≤ t'.pool.generation) : Remembers (events ++ [ev]) t' where
  entry id e hentry := by
    rw [firstAccepted_concat, hnone, Option.or_none]
    exact hentries id e hentry
  unissued lease hlease := by
    rw [firstAccepted_concat, hnone, Option.or_none]
    exact h.unissued lease (Nat.lt_of_le_of_lt hpool hlease)

theorem Remembers.withEntry {events : List Called} {request : Nat} (h : Remembers events t)
    (hentry : t.entries[request]? = some e) (hlease : e'.lease = e.lease) (hmanifest : e'.manifest = e.manifest) :
    ∀ (id : Nat) e₁, (t.withEntry request e').entries[id]? = some e₁ →
      firstAccepted e₁.lease events = e₁.manifest := by
  intro id e₁ hentry₁
  rcases ExtTreeMap.getElem?_insert_eq_some.mp hentry₁ with ⟨rfl, rfl⟩ | ⟨-, hentry₁⟩
  · rw [hlease, hmanifest]
    exact h.entry _ e hentry
  · exact h.entry id e₁ hentry₁

theorem Remembers.accepted {events : List Called} {ev : Called} (ht : Linked pages slots t)
    (h : Remembers events t) (hcall : ev.call = message) (hreply : ev.reply = .ok reply)
    (haccepted : Accepted t message reply t') : Remembers (events ++ [ev]) t' := by
  have hother : (∀ manifest, message ≠ .transfer manifest) →
      ∀ lease, InMemoryTransport.accepted lease ev = none :=
    fun hmessage lease => accepted_other fun manifest => hcall ▸ hmessage manifest
  cases haccepted with
  | @reserve lease tokens hpool =>
    have hgeneration := hpool.issued
    refine h.other (hother fun _ => nofun) (fun id e hentry => ?_) (hgeneration.symm ▸ Nat.le_succ t.pool.generation :
      t.pool.generation ≤ lease.generation)
    rcases ExtTreeMap.getElem?_insert_eq_some.mp hentry with ⟨rfl, rfl⟩ | ⟨-, hentry⟩
    · exact h.unissued lease (hgeneration ▸ Nat.lt_succ_self _)
    · exact h.entry id e hentry
  | ensure hpool =>
    refine h.other (hother fun _ => nofun) h.entry ?_
    cases hpool
    exact le_rfl
  | complete hcurrent hstatus =>
    exact h.other (hother fun _ => nofun) (h.withEntry hcurrent.entry rfl rfl) le_rfl
  | completed => exact h.other (hother fun _ => nofun) h.entry le_rfl
  | commit hcurrent =>
    refine h.other (hother fun _ => nofun) (h.withEntry hcurrent.entry ?_ ?_) le_rfl <;> split <;> rfl
  | acknowledge hcurrent => exact h.other (hother fun _ => nofun) (h.withEntry hcurrent.entry rfl rfl) le_rfl
  | finish hheld hmessage =>
    refine h.other (hother fun _ => ?_) (fun id e hentry => ?_) le_rfl
    · rcases hmessage with rfl | rfl <;> nofun
    · exact h.entry id e (ExtTreeMap.getElem?_erase_eq_some.mp hentry).2
  | completionFence => exact h.other (hother fun _ => nofun) h.entry le_rfl
  | @transfer manifest e hcurrent hstatus hlease =>
    have hnone : e.manifest = none := (ht.payload _ e hcurrent.entry).mpr hstatus
    refine ⟨fun id e₁ hentry₁ => ?_, fun lease hlease' => ?_⟩
    · rw [firstAccepted_concat, accepted_transfer hcall hreply]
      rcases ExtTreeMap.getElem?_insert_eq_some.mp hentry₁ with ⟨rfl, rfl⟩ | ⟨hne, hentry₁⟩
      · rw [h.entry _ e hcurrent.entry, hnone, Option.none_or, if_pos ⟨by rw [hlease], by rw [hlease], by rw [hlease]⟩]
      · have hother : ¬SameLease e₁.lease manifest.lease := fun hsame =>
          hne (hsame.1.trans (ht.request hentry₁))
        rw [if_neg hother, Option.or_none]
        exact h.entry id e₁ hentry₁
    · have hother : ¬SameLease lease manifest.lease := fun hsame =>
        absurd (hcurrent.issued ht) (Nat.not_le_of_lt (hsame.2.2 ▸ hlease'))
      rw [firstAccepted_concat, accepted_transfer hcall hreply, if_neg hother, Option.or_none]
      exact h.unissued lease hlease'
  | @duplicate manifest e hcurrent hstatus hmanifest =>
    refine ⟨fun id e₁ hentry₁ => ?_, fun lease hlease' => ?_⟩
    · rw [firstAccepted_concat, accepted_transfer hcall hreply, h.entry id e₁ hentry₁]
      split
      · rename_i hsame
        obtain rfl : id = manifest.lease.request := (ht.request hentry₁).symm.trans hsame.1.symm
        obtain rfl := Option.some.inj (hcurrent.entry.symm.trans hentry₁)
        rw [hmanifest]
        rfl
      · exact Option.or_none
    · have hother : ¬SameLease lease manifest.lease := fun hsame =>
        absurd (hcurrent.issued ht) (Nat.not_le_of_lt (hsame.2.2 ▸ hlease'))
      rw [firstAccepted_concat, accepted_transfer hcall hreply, if_neg hother, Option.or_none]
      exact h.unissued lease hlease'

/-! ## Stale messages -/

/-- The lease value a message carries. -/
def Message.lease? : Message → Option Lease
  | .transfer manifest => some manifest.lease
  | .complete lease | .commit lease | .acknowledge lease | .finish lease | .abort lease
  | .ensure lease _ => some lease
  | .reserve .. | .completionFence => none

/-- Refused as stale, or as a transfer whose contents are refused before its lease
    is looked at. -/
def Rejected (t : InMemoryTransport) (message : Message) : Prop :=
  step message t = (.err .stale, t) ∨ ∃ manifest error, message = .transfer manifest ∧
    t.checkManifest manifest = .err error ∧ step message t = (.err error, t)

theorem rejected_of_stale (hlease : message.lease? = some lease) (h : t.pool.check lease = .err .stale) :
    Rejected t message := by
  have hentry : t.entry lease = .err .stale := by rw [entry, h, Outcome.err_bind]
  have hfinish : finish lease t = (.err .stale, t) := by
    simp only [finish, Method.bind_run, Method.read_run, h]
  cases message with
  | reserve | completionFence => cases hlease
  | transfer manifest =>
    obtain rfl := Option.some.inj hlease
    cases hcheck : t.checkManifest manifest with
    | panic => exact absurd hcheck (checkManifest_ne_panic manifest)
    | err error =>
      refine .inr ⟨manifest, error, rfl, hcheck, done_err ?_⟩
      simp only [transfer, Method.bind_run, Method.read_run, hcheck]
    | ok =>
      refine .inl (done_err ?_)
      simp only [transfer, Method.bind_run, Method.read_run, hcheck, hentry]
  | complete _ =>
    obtain rfl := Option.some.inj hlease
    exact .inl (done_err (by simp only [complete, Method.bind_run, Method.read_run, hentry]))
  | commit _ =>
    obtain rfl := Option.some.inj hlease
    exact .inl (Method.bind_err (by simp only [commit, Method.bind_run, Method.read_run, hentry]))
  | acknowledge _ =>
    obtain rfl := Option.some.inj hlease
    exact .inl (done_err (by simp only [acknowledge, Method.bind_run, Method.read_run, hentry]))
  | finish _ | abort _ =>
    obtain rfl := Option.some.inj hlease
    exact .inl (done_err hfinish)
  | ensure _ tokens =>
    obtain rfl := Option.some.inj hlease
    refine .inl (Method.bind_err ?_)
    simp only [onPool, ResourcePool.ensure, Method.bind_run, Method.read_run, h]

/-! ## Runs -/

theorem ran_cases (ht : Linked pages slots t) (h : Ran step [message] t) : t.Answered message := by
  rcases step_cases ht message with hanswered | ⟨-, hpanic⟩
  · exact hanswered
  · exact absurd hpanic (ran_singleton.mp h)

theorem ran_reply (ht : Linked pages slots t) (hran : Ran step [message] t)
    (h : (step message t).1 = .ok reply) : Accepted t message reply (step message t).2 := by
  rcases ran_cases ht hran with ⟨error, hrun⟩ | ⟨reply', t', hrun, haccepted⟩
  · rw [hrun] at h
    cases h
  · rw [hrun] at h ⊢
    obtain rfl := Outcome.ok.inj h
    exact haccepted

theorem linked_final (ht : Linked pages slots t) (messages : List Message) (hran : Ran step messages t) :
    Linked pages slots (final step messages t) := by
  induction messages using List.reverseRecOn with
  | nil => exact ht
  | append_singleton messages message ih =>
    obtain ⟨hran, hlast⟩ := ran_append.mp hran
    have ht' := ih hran
    rw [final_concat]
    rcases ran_cases ht' hlast with ⟨error, hrun⟩ | ⟨reply, t', hrun, haccepted⟩
    · rwa [hrun]
    · rw [hrun]
      exact haccepted.linked ht'

theorem remembers_final (ht : Linked pages slots t) (h : Remembers [] t) (messages : List Message)
    (hran : Ran step messages t) : Remembers (history step messages t) (final step messages t) := by
  induction messages using List.reverseRecOn with
  | nil => exact h
  | append_singleton messages message ih =>
    obtain ⟨hran, hlast⟩ := ran_append.mp hran
    have ht' := linked_final ht messages hran
    rw [history_concat, final_concat]
    rcases ran_cases ht' hlast with ⟨error, hrun⟩ | ⟨reply, t', hrun, haccepted⟩
    · have hreply : (event step (final step messages t) message).reply = .err error := congrArg Prod.fst hrun
      rw [hrun]
      exact (ih hran).other (fun _ => accepted_err hreply) (ih hran).entry le_rfl
    · have hreply : (event step (final step messages t) message).reply = .ok reply := congrArg Prod.fst hrun
      rw [hrun]
      exact (ih hran).accepted ht' rfl hreply haccepted

theorem gone_final (ht : Linked pages slots t) (h : Gone generation t.pool) (messages : List Message)
    (hran : Ran step messages t) : Gone generation (final step messages t).pool := by
  induction messages using List.reverseRecOn with
  | nil => exact h
  | append_singleton messages message ih =>
    obtain ⟨hran, hlast⟩ := ran_append.mp hran
    rw [final_concat]
    rcases ran_cases (linked_final ht messages hran) hlast with ⟨error, hrun⟩ | ⟨reply, t', hrun, haccepted⟩
    · rw [hrun]
      exact ih hran
    · rw [hrun]
      exact haccepted.gone (ih hran)

/-- Over a run an entry moves on, or its generation is gone. -/
theorem entry_final (ht : Linked pages slots t) {id : Nat} (hentry : t.entries[id]? = some e)
    (messages : List Message) (hran : Ran step messages t) :
    (∃ e', (final step messages t).entries[id]? = some e' ∧ Later e e') ∨
      Gone e.lease.generation (final step messages t).pool := by
  induction messages using List.reverseRecOn with
  | nil => exact .inl ⟨e, hentry, .refl e⟩
  | append_singleton messages message ih =>
    obtain ⟨hran, hlast⟩ := ran_append.mp hran
    have ht' := linked_final ht messages hran
    rcases ih hran with ⟨e', hentry', hlater⟩ | hgone
    · rw [final_concat]
      rcases ran_cases ht' hlast with ⟨error, hrun⟩ | ⟨reply, t', hrun, haccepted⟩
      · rw [hrun]
        exact .inl ⟨e', hentry', hlater⟩
      · rw [hrun]
        rcases haccepted.entry ht' hentry' with ⟨e'', hentry'', hmoved, -⟩ | ⟨-, hgone⟩
        · exact .inl ⟨e'', hentry'', hlater.trans hmoved⟩
        · exact .inr (hlater.lease ▸ hgone)
    · rw [final_append]
      exact .inr (gone_final ht' hgone [message] hlast)

/-- An entry belongs to an active lease of its generation. -/
theorem Linked.not_gone (ht : Linked pages slots t) {id : Nat} (hentry : t.entries[id]? = some e) :
    ¬Gone e.lease.generation t.pool := by
  intro hgone
  have hactive := (ht.ids id).mp (mem_of_getElem? hentry)
  rw [ExtTreeMap.mem_iff_isSome_getElem?] at hactive
  obtain ⟨current, hcurrent⟩ := Option.isSome_iff_exists.mp hactive
  exact hgone.inactive id current hcurrent (ht.leases id e current hentry hcurrent).generation

theorem finish_gone (ht : Linked pages slots t) (hmessage : message = .finish lease ∨ message = .abort lease)
    (h : (step message t).1 = .ok reply) : Gone lease.generation (step message t).2.pool := by
  have hstep : step message t = done (finish lease) t := by rcases hmessage with rfl | rfl <;> rfl
  rw [hstep] at h ⊢
  rcases finish_cases t lease with hrun | ⟨current, hheld, hrun⟩
  · rw [done_err hrun] at h
    cases h
  · rw [done_ok hrun]
    exact ResourcePool.gone_retire ht.pool hheld

/-- What a commit hands out is what was first accepted for its lease. -/
theorem Remembers.committed {events : List Called} {manifest : Manifest} (h : Remembers events t)
    (ht : Linked pages slots t) (haccepted : Accepted t (.commit lease) (.manifest manifest) t') :
    firstAccepted lease events = some manifest := by
  cases haccepted with
  | commit hcurrent hstatus hmanifest =>
    rename_i e
    have hsame : SameLease lease e.lease :=
      ⟨ht.request hcurrent.entry, hcurrent.epoch, hcurrent.generation⟩
    rw [firstAccepted_congr hsame, h.entry _ e hcurrent.entry, hmanifest]

/-- What holds at the end of a run of messages. -/
structure HandOff (messages : List Message) (t₀ t : InMemoryTransport) : Prop where
  ids : ∀ id : Nat, id ∈ t.entries ↔ id ∈ t.pool.active
  refused : ∀ message error, (step message t).1 = .err error → (step message t).2 = t
  forward : ∀ earlier later, messages = earlier ++ later → ∀ (id : Nat) e e',
    (final step earlier t₀).entries[id]? = some e → t.entries[id]? = some e' →
    e'.lease.generation = e.lease.generation → Later e e'
  moved : ∀ message reply (id : Nat) e e', (step message t).1 = .ok reply → t.entries[id]? = some e →
    (step message t).2.entries[id]? = some e' → e'.lease.generation = e.lease.generation → Moved e e'
  committed : ∀ before ev after lease manifest, history step messages t₀ = before ++ ev :: after →
    ev.call = .commit lease → ev.reply = .ok (.manifest manifest) → firstAccepted lease before = some manifest
  finished : ∀ ev ∈ history step messages t₀, ∀ lease, ev.call = .finish lease ∨ ev.call = .abort lease →
    ev.reply = .ok .done → ∀ message lease', message.lease? = some lease' →
    lease'.generation = lease.generation → Rejected t message

theorem new_linked {spec : Spec} {key : String} (h : new spec key pages slots = .ok t) :
    Linked pages slots t ∧ Remembers [] t := by
  obtain ⟨pool, hpool, h⟩ := Outcome.bind_eq_ok.mp h
  obtain rfl := Outcome.ok.inj h
  have hsound := ResourcePool.sound_new hpool
  have hactive : pool.active = ∅ := by
    unfold ResourcePool.new at hpool
    split at hpool
    · exact absurd hpool invalid_ne_ok
    · rw [← Outcome.ok.inj hpool]
  refine ⟨⟨hsound, fun id => by simp [hactive], fun id e current hentry => by simp at hentry,
    fun id e hentry => by simp at hentry⟩, fun id e hentry => by simp at hentry, fun _ _ => rfl⟩

/-- The hand-off protocol, over every order of messages. -/
theorem hand_off {spec : Spec} {key : String} {t₀ : InMemoryTransport} (hnew : new spec key pages slots = .ok t₀)
    (messages : List Message) (hran : Ran step messages t₀) : HandOff messages t₀ (final step messages t₀) := by
  obtain ⟨ht₀, hnothing⟩ := new_linked hnew
  have ht := linked_final ht₀ messages hran
  exact {
    ids := ht.ids
    refused := by
      intro message error hrefused
      rcases step_cases ht message with (⟨error, hrun⟩ | ⟨reply, t', hrun, -⟩) | ⟨-, hpanic⟩
      · rw [hrun]
      · rw [hrun] at hrefused
        cases hrefused
      · rw [hpanic] at hrefused
        cases hrefused
    forward := by
      rintro earlier later rfl id e e' hentry hentry' hgeneration
      obtain ⟨hran₁, hran₂⟩ := ran_append.mp hran
      rw [final_append] at hentry' ht
      rcases entry_final (linked_final ht₀ earlier hran₁) hentry later hran₂ with ⟨e₁, hentry₁, hlater⟩ | hgone
      · obtain rfl := Option.some.inj (hentry'.symm.trans hentry₁)
        exact hlater
      · exact absurd (hgeneration.symm ▸ hgone) (ht.not_gone hentry')
    moved := by
      intro message reply id e e' hreply hentry hentry' hgeneration
      rcases step_cases ht message with (⟨error, hrun⟩ | ⟨reply, t', hrun, haccepted⟩) | ⟨-, hpanic⟩
      · rw [hrun] at hreply
        cases hreply
      · rw [hrun] at hentry'
        rcases haccepted.entry ht hentry with ⟨e₁, hentry₁, hmoved⟩ | ⟨hnone, -⟩
        · obtain rfl := Option.some.inj (hentry'.symm.trans hentry₁)
          exact hmoved
        · rw [hnone] at hentry'
          cases hentry'
      · rw [hpanic] at hreply
        cases hreply
    committed := by
      intro before ev after lease manifest hevents hcall hreply
      obtain ⟨messages₁, rest₁, rfl, hbefore, hrest₁⟩ := history_eq_append hevents
      obtain ⟨message, messages₂, rfl, rfl, -⟩ := history_eq_cons hrest₁
      obtain ⟨hran₁, hran₂⟩ := ran_append.mp hran
      obtain ⟨hran₂, -⟩ := ran_cons.mp hran₂
      obtain rfl : message = .commit lease := hcall
      have ht₁ := linked_final ht₀ messages₁ hran₁
      rw [← hbefore]
      exact (remembers_final ht₀ hnothing messages₁ hran₁).committed ht₁ (ran_reply ht₁ hran₂ hreply)
    finished := by
      intro ev hev lease hcall hreply message lease' hlease' hgeneration
      obtain ⟨messages₁, ending, messages₂, rfl, rfl⟩ := mem_history hev
      obtain ⟨hran₁, hran₂⟩ := ran_append.mp hran
      obtain ⟨hran₂, hran₃⟩ := ran_cons.mp hran₂
      have ht₁ := linked_final ht₀ messages₁ hran₁
      have haccepted := ran_reply ht₁ hran₂ hreply
      have hlast := gone_final (haccepted.linked ht₁) (finish_gone ht₁ hcall hreply) messages₂ hran₃
      rw [final_append, final_cons]
      exact rejected_of_stale hlease' (hgeneration ▸ hlast : Gone lease'.generation _).stale }

/-! ## A small transport -/

def sampleSpec : Spec := ⟨⟨4, 2, [.full, .delta]⟩, 2, [8]⟩

def sampleTransport : InMemoryTransport where
  pool := {
    pageTokens := 2
    freePages := ExtTreeSet.ofList (List.range 4)
    freeSlots := ExtTreeSet.ofList (List.range 1)
    active := ∅
    retired := []
    generation := 0 }
  entries := ∅
  spec := sampleSpec
  key := "artifact"

def sampleManifest (lease : Lease) (key : String) : Manifest := ⟨lease, key, .empty sampleSpec, 1⟩

/-- A hand-off with repeated messages, and the next epoch of the same request. -/
def sampleMessages : List Message :=
  let lease : Lease := ⟨1, 1, 0, 1, [0]⟩
  [.reserve 1 1 1, .transfer (sampleManifest lease "artifact"), .transfer (sampleManifest lease "artifact"),
    .complete lease, .commit lease, .acknowledge lease, .commit lease, .finish lease, .completionFence,
    .reserve 1 2 1, .complete lease]

theorem hand_off_sample :
    HandOff sampleMessages sampleTransport (final step sampleMessages sampleTransport) :=
  hand_off (rfl : new sampleSpec "artifact" 4 1 = .ok sampleTransport) sampleMessages
    (by unfold Ran; decide +kernel)

/-- A transfer for a finished generation whose artifact is not the transport's is
    refused for that, not as stale. -/
theorem late_transfer_not_stale :
    new sampleSpec "artifact" 4 1 = .ok sampleTransport ∧
    (replies step sampleMessages sampleTransport)[7]? = some (.ok .done) ∧
    sampleMessages[7]? = some (.finish ⟨1, 1, 0, 1, [0]⟩) ∧
    (step (.transfer (sampleManifest ⟨1, 1, 0, 1, [0]⟩ "another"))
      (final step sampleMessages sampleTransport)).1 = .err (.invalid "PD artifact mismatch") := by
  refine ⟨rfl, ?_, rfl, ?_⟩ <;> decide +kernel

end InMemoryTransport

end Inferfabric.Transfer
