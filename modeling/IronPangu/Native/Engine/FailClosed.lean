-- SUMMARY: Engines with shared pages fail closed: over every run, what histories may become, what a failed call leaves, and who may use a sealed resident.
import IronPangu.Native.Engine.Copies

open Rust Std

/-!
# Failing closed

The invariant of `Safe` is kept by every call, so it holds in every run from an
opened engine. A run is summed up by what each of its calls has left and found.
-/

namespace Inferfabric.Native

open Inferfabric.Ir Inferfabric.Runtime

/-- Every rank holds some state. -/
def CoversRanks (m : Manifest) : Prop :=
  ∀ rank < m.identity.devices.length, ∃ state ∈ m.states, rank ∈ state.ranks

namespace SharedState

/-- What building the shared state has checked, and what it makes. -/
theorem new_eq_ok {m : Manifest} {nextPool counter : Nat} {s : SharedState}
    (h : new m nextPool = .ok (s, counter)) :
    ∃ budgets, Outcome.collect (stateBudget m.residentSequences) m.states = .ok budgets ∧
      StatePool.Fresh m (ExtTreeMap.ofList (budgets.flatMap StateBudget.capacities)) s.pool ∧
      s.leases = List.replicate m.residentSequences none ∧
      s.tokenLimits = List.replicate m.residentSequences 0 ∧
      s.ranks = m.identity.devices.length ∧ s.nextRequest = 0 := by
  simp only [new, Outcome.bind_eq_ok] at h
  obtain ⟨budgets, hbudgets, ⟨pool, nextPool'⟩, hpool, h⟩ := h
  obtain ⟨rfl, -⟩ := Prod.mk.inj (Outcome.ok.inj h)
  exact ⟨budgets, hbudgets, StatePool.fresh_of_new hpool, rfl, rfl, rfl, rfl⟩

end SharedState

namespace Engine

open Method StatePool

variable {e e' : Engine} {s : SharedState} {slot : Nat} {m : Manifest}

/-! ## Opened engines -/

theorem covered_of_fresh {capacities : ExtTreeMap Key Nat} (hfresh : Fresh m capacities s.pool)
    (hranks : s.ranks = m.identity.devices.length) (hcovers : CoversRanks m) : s.Covered := by
  intro rank
  have hkeys : s.pool.BoundOn rank ↔ ∃ state ∈ m.states, rank ∈ state.ranks := by
    have hmem : ∀ key, key ∈ s.pool.pools.map Pool.key ↔
        ∃ state ∈ m.states, ∃ r ∈ state.ranks, (⟨state.id, r⟩ : Key) = key := by
      simp [hfresh.keys, List.mem_flatMap]
    constructor
    · rintro ⟨p, hp, rfl⟩
      obtain ⟨state, hstate, r, hr, hkey⟩ := (hmem p.key).mp (List.mem_map_of_mem hp)
      exact ⟨state, hstate, hkey ▸ hr⟩
    · rintro ⟨state, hstate, hrank⟩
      obtain ⟨p, hp, hkey⟩ := List.mem_map.mp ((hmem ⟨state.id, rank⟩).mpr ⟨state, hstate, rank, hrank, rfl⟩)
      exact ⟨p, hp, by rw [hkey]⟩
  rw [hkeys, hranks]
  refine ⟨?_, hcovers rank⟩
  rintro ⟨state, hstate, hrank⟩
  obtain ⟨context, query, -, -, hvalid, -⟩ := Manifest.validate_eq_ok hfresh.valid
  obtain ⟨seen, hown⟩ := (hvalid state hstate).ownership
  exact (Manifest.checkOwnership_eq_ok.mp hown).2.2.2.2.2.1 rank hrank

/-- An engine opened for a manifest with shared pages satisfies the invariant. -/
theorem Opened.closed (h : Opened m e) (hpages : m.sharedPages = true) : Closed e := by
  obtain ⟨s, nextPool, counter, hshared, hnew, hsymbols⟩ := h.shared hpages
  obtain ⟨budgets, -, hfresh, hleases, hlimits, -, -⟩ := SharedState.new_eq_ok hnew
  have hstart := h.start
  have hhistories : e.histories.length = m.residentSequences := by
    rw [hstart]
    exact List.length_replicate
  have hseals : e.sealedLeases = List.replicate m.residentSequences none := by rw [hstart]; rfl
  have hnone : ∀ {slot : Nat} {l : Lease}, s.leases[slot]? ≠ some (some l) := by
    intro slot l hlease
    rw [hleases, List.getElem?_replicate] at hlease
    split at hlease <;> cases hlease
  refine ⟨s, ?_, fun covered _ hfailed => ?_⟩
  · exact {
      shared := hshared
      linked := hfresh.linked
      symbols := hsymbols
      leases := by rw [hleases, hhistories, List.length_replicate]
      limits := by rw [hlimits, hhistories, List.length_replicate]
      imported := by
        rw [hhistories, hstart]
        exact List.length_replicate
      seals := by rw [hseals, hhistories, List.length_replicate]
      held := fun hlease => absurd hlease hnone
      distinct := fun hlease => absurd hlease hnone
      fits := fun hlease => absurd hlease hnone
      sealedIn := fun {slot l} hsealed => by
        rw [hseals, List.getElem?_replicate] at hsealed
        split at hsealed <;> cases hsealed }
  · have hcalls : e.calls = [] := by rw [hstart]; rfl
    rw [hcalls] at hfailed
    cases hfailed

/-! ## One call -/

/-- The calls that reserve, submit, copy, seal or retire. -/
def Op.guarded : Op → Bool
  | .token .. | .prefill .. | .batch .. | .prepareResident .. | .copyResident .. | .sealResident ..
  | .restoreSnapshot .. | .retireSnapshot .. => true
  | .selectResident .. | .reset | .resetResident .. | .releaseResident .. | .bindPages .. => false

/-- The residents a call writes or resets without taking their snapshot. -/
def Op.writes (e : Engine) : Op → Nat → Prop
  | .retireSnapshot _ => fun _ => False
  | op => op.targets e

/-- The snapshot a call presents. -/
def Op.presents : Op → Option Snapshot
  | .restoreSnapshot snapshot _ => some snapshot
  | .retireSnapshot snapshot => some snapshot
  | _ => none

/-- The seals after an answered call: sealing puts one in its slot, retiring a
    snapshot takes it out. -/
def resealed (op : Op) (reply : Outcome Error Reply) (seals : List (Option SealedLease)) :
    List (Option SealedLease) :=
  match op, reply with
  | .sealResident slot, .ok (.snapshot snapshot) => seals.set slot (some snapshot.lease)
  | .retireSnapshot snapshot, .ok _ => seals.set snapshot.slot none
  | _, _ => seals

/-- What an accepted call has found and done. -/
structure Accepts (op : Op) (reply : Reply) (e e' : Engine) : Prop where
  healthy : op.guarded = true → ¬Poisoned e
  unsealed : ∀ slot, op.writes e slot → Unsealed e slot
  presented : ∀ snapshot, op.presents = some snapshot →
    e.sealedLeases[snapshot.slot]? = some (some snapshot.lease)
  seals : e'.sealedLeases = resealed op (.ok reply) e.sealedLeases
  retired : ∀ snapshot, op = .retireSnapshot snapshot → Dropped snapshot.lease.lease e'

structure Stepped (op : Op) (e : Engine) (outcome : Outcome Error Reply) (e' : Engine) : Prop where
  closed : Closed e'
  written : Written e e'
  accepted : ∀ reply, outcome = .ok reply → Accepts op reply e e'
  refused : (∀ reply, outcome ≠ .ok reply) → e'.sealedLeases = e.sealedLeases

/-- A call from the invariant, by its triple. -/
theorem stepped {α : Type} {m : Call α} {op : Op} {wrap : α → Reply} {Q : α → Engine → Prop}
    (hstep : step op = do return wrap (← m)) (h : Triple (· = e) m Q (Left e))
    (hQ : ∀ a e', Q a e' → Closed e' ∧ Written e e' ∧ Accepts op (wrap a) e e') :
    Stepped op e (step op e).1 (step op e).2 := by
  have hpost := h e rfl
  rw [hstep, bind_run]
  rcases hrun : m e with ⟨a | error | _, e'⟩ <;> rw [hrun] at hpost
  · obtain ⟨hclosed, hwritten, haccepts⟩ := hQ a e' hpost
    refine ⟨hclosed, hwritten, ?_, fun hno => absurd rfl (hno (wrap a))⟩
    rintro _ ⟨⟩
    exact haccepts
  · exact ⟨hpost.closed, hpost.written, fun _ h => (by cases h), fun _ => hpost.seals⟩
  · exact ⟨hpost.closed, hpost.written, fun _ h => (by cases h), fun _ => hpost.seals⟩

theorem Accepts.of_left {op : Op} {reply : Reply} (hleft : Left e e')
    (hhealthy : op.guarded = true → ¬Poisoned e) (hunsealed : ∀ slot, op.writes e slot → Unsealed e slot)
    (hpresents : op.presents = none) (hseals : resealed op (.ok reply) e.sealedLeases = e.sealedLeases)
    (hretire : ∀ snapshot, op ≠ .retireSnapshot snapshot) :
    Closed e' ∧ Written e e' ∧ Accepts op reply e e' :=
  ⟨hleft.closed, hleft.written, hhealthy, hunsealed, fun _ h => by simp [hpresents] at h,
    hleft.seals.trans hseals.symm, fun snapshot h => absurd h (hretire snapshot)⟩

/-- What clears histories at most. -/
theorem triple_left {α : Type} {m : Call α} (he : Closed e) (hwiped : Keeps Wiped m)
    {Q : α → Engine → Prop} (hclosed : Triple Closed m (fun a e' => Closed e' ∧ Q a e') Closed) :
    Triple (· = e) m (fun a e' => Left e e' ∧ Q a e') (Left e) := by
  refine (hclosed.and (hwiped.triple e)).mono ?_ (fun _ _ h => ⟨h.2.left h.1.1, h.1.2⟩)
    fun _ h => h.2.left h.1
  rintro _ rfl
  exact ⟨he, Steps.refl _⟩

theorem closed_bindPages (rank : Nat) (component : String) (pages : List Nat) :
    Triple Closed (bindPages rank component pages) (fun _ => Closed) Closed := by
  have hsame : ∀ e, Closed e → Closed e := fun _ h => h
  unfold bindPages
  refine triple_require_bind hsame ?_
  refine triple_require_bind hsame ?_
  refine triple_lift_bind hsame fun pages _ => ?_
  refine triple_lift_bind hsame fun _ _ => ?_
  refine (closed_foreign fun _ _ => rfl).bind fun answer => ?_
  exact (triple_lift _ hsame).post fun _ _ h => h.1

/-- Every call keeps the invariant, and an accepted one was allowed to be. -/
theorem stepped_step (he : Closed e) (op : Op) : Stepped op e (step op e).1 (step op e).2 := by
  have hunguarded : ∀ {p : Prop}, false = true → p := fun h => by cases h
  cases op with
  | token value position sample =>
    refine stepped rfl (token_spec he value position sample) fun output e' h => ?_
    exact Accepts.of_left h.toLeft (fun _ => h.healthy)
      (fun slot hslot => by obtain rfl : e.selected = slot := hslot; exact h.unsealed) rfl rfl (fun _ h => by cases h)
  | prefill tokens position sample =>
    refine stepped rfl (prefill_spec he tokens position sample) fun output e' h => ?_
    exact Accepts.of_left h.toLeft (fun _ => h.healthy)
      (fun slot hslot => by obtain rfl : e.selected = slot := hslot; exact h.unsealed) rfl rfl (fun _ h => by cases h)
  | batch inputs =>
    refine stepped rfl (batch_spec he inputs) fun outputs e' h => ?_
    refine Accepts.of_left h.1 (fun _ => h.2.1) ?_ rfl rfl (fun _ h => by cases h)
    rintro _ ⟨input, hinput, rfl⟩
    exact h.2.2 input hinput
  | selectResident slot =>
    have hclosed := (closed_selectResident slot).post fun _ e' h => (⟨h, trivial⟩ : Closed e' ∧ True)
    refine stepped rfl (triple_left he (wiped_selectResident slot) hclosed) fun _ e' h => ?_
    exact Accepts.of_left h.1 hunguarded (fun _ h => h.elim) rfl rfl (fun _ h => by cases h)
  | reset =>
    have hclosed := closed_reset.post fun _ e' h => (⟨h, trivial⟩ : Closed e' ∧ True)
    have hspec := (triple_left he wiped_reset hclosed).found fun _ e' hrun => reset_unsealed hrun
    refine stepped rfl hspec fun _ e' h => ?_
    exact Accepts.of_left h.1.1 hunguarded (fun slot _ => h.2 slot) rfl rfl (fun _ h => by cases h)
  | resetResident slot =>
    have hspec := (triple_left he (wiped_resetResident slot) (closed_resetResident slot)).found
      fun _ e' hrun => resetResident_unsealed hrun
    refine stepped rfl hspec fun _ e' h => ?_
    exact Accepts.of_left h.1.1 hunguarded
      (fun slot' hslot => by obtain rfl : slot = slot' := hslot; exact h.2) rfl rfl (fun _ h => by cases h)
  | releaseResident slot =>
    have hrelease : releaseResident slot e = resetResident slot e := by
      rw [releaseResident, bind_ok (get_run e), if_pos he.isSome]
    have hclosed := (closed_releaseResident slot).post fun _ e' h => (⟨h, trivial⟩ : Closed e' ∧ True)
    have hspec := (triple_left he (wiped_releaseResident slot) hclosed).found
      fun _ e' hrun => resetResident_unsealed (hrelease.symm.trans hrun)
    refine stepped rfl hspec fun _ e' h => ?_
    exact Accepts.of_left h.1.1 hunguarded
      (fun slot' hslot => by obtain rfl : slot = slot' := hslot; exact h.2) rfl rfl (fun _ h => by cases h)
  | prepareResident slot tokens =>
    refine stepped rfl (prepare_spec he slot tokens) fun _ e' h => ?_
    exact Accepts.of_left h.1 (fun _ => h.2.1)
      (fun slot' hslot => by obtain rfl : slot = slot' := hslot; exact h.2.2) rfl rfl (fun _ h => by cases h)
  | copyResident source destination boundary =>
    refine stepped rfl (copy_spec he source destination boundary) fun _ e' h => ?_
    exact Accepts.of_left h.1 (fun _ => h.2.1)
      (fun slot hslot => by obtain rfl : destination = slot := hslot; exact h.2.2) rfl rfl (fun _ h => by cases h)
  | sealResident slot =>
    refine stepped rfl (seal_spec he slot) fun snapshot e' h => ?_
    obtain ⟨hclosed, hwritten, hhealthy, hslot, hseals, -⟩ := h
    exact ⟨hclosed, hwritten, fun _ => hhealthy, fun _ h => h.elim, fun _ h => (by cases h), hseals,
      fun _ h => by cases h⟩
  | restoreSnapshot snapshot destination =>
    refine stepped rfl (restore_spec he snapshot destination) fun _ e' h => ?_
    obtain ⟨hleft, hhealthy, hunsealed, hsealed⟩ := h
    refine ⟨hleft.closed, hleft.written, fun _ => hhealthy, ?_, ?_, hleft.seals, fun _ h => by cases h⟩
    · rintro _ rfl
      exact hunsealed
    · rintro _ ⟨⟩
      exact hsealed
  | retireSnapshot snapshot =>
    refine stepped rfl ((retire_spec he snapshot).error fun _ h => h.1) fun _ e' h => ?_
    obtain ⟨hclosed, hwritten, hhealthy, hsealed, hseals, hdropped⟩ := h
    refine ⟨hclosed, hwritten, fun _ => hhealthy, fun _ h => h.elim, ?_, hseals, ?_⟩
    · rintro _ ⟨⟩
      exact hsealed
    · rintro _ ⟨⟩
      exact hdropped
  | bindPages rank component pages =>
    have hclosed := (closed_bindPages rank component pages).post
      fun _ e' h => (⟨h, trivial⟩ : Closed e' ∧ True)
    refine stepped rfl (triple_left he (wiped_bindPages rank component pages) hclosed) fun _ e' h => ?_
    exact Accepts.of_left h.1 hunguarded (fun _ h => h.elim) rfl rfl (fun _ h => by cases h)

/-! ## Runs -/

abbrev EngineEvent : Type := Event Engine Error Op Reply

theorem closed_final (he : Closed e) (ops : List Op) : Closed (final step ops e) :=
  final_induction he (fun _ op ht => (stepped_step ht op).closed) ops

theorem kept_final (ops : List Op) (e : Engine) :
    Kept (fun _ => True) (fun _ => True) e (final step ops e) :=
  final_induction (P := Kept (fun _ => True) (fun _ => True) e) (.refl e)
    (fun t op ht => ht.trans (kept_step op t).weaken) ops

/-- The seals a history leaves. -/
def sealsOf (events : List EngineEvent) (seals : List (Option SealedLease)) : List (Option SealedLease) :=
  events.foldl (fun seals ev => resealed ev.call ev.reply seals) seals

theorem sealsOf_final (he : Closed e) (ops : List Op) :
    (final step ops e).sealedLeases = sealsOf (history step ops e) e.sealedLeases := by
  have hboth : Closed (final step ops e) ∧
      (final step ops e).sealedLeases = sealsOf (history step ops e) e.sealedLeases := by
    refine history_induction (P := fun events t => Closed t ∧
      t.sealedLeases = sealsOf events e.sealedLeases) ⟨he, rfl⟩ ?_ ops
    rintro events t op ⟨ht, hseals⟩
    have hstepped := stepped_step ht op
    refine ⟨hstepped.closed, ?_⟩
    have hconcat : sealsOf (events ++ [event step t op]) e.sealedLeases =
        resealed op (step op t).1 t.sealedLeases := by
      rw [hseals]
      exact List.foldl_append
    rw [hconcat]
    cases hreply : (step op t).1 with
    | ok reply => exact (hstepped.accepted reply hreply).seals
    | err error =>
      rw [hstepped.refused fun _ h => by cases hreply.symm.trans h]
      cases op <;> rfl
    | panic =>
      rw [hstepped.refused fun _ h => by cases hreply.symm.trans h]
      cases op <;> rfl
  exact hboth.2

/-- Coverage is a matter of the manifest alone. -/
theorem Opened.covered (h : Opened m e) (hpages : m.sharedPages = true) (hcovers : CoversRanks m)
    {ops : List Op} (hshared : (final step ops e).shared = some s) : s.Covered := by
  obtain ⟨s₀, nextPool, counter, hshared₀, hnew, -⟩ := h.shared hpages
  obtain ⟨budgets, -, hfresh, -, -, hranks, -⟩ := SharedState.new_eq_ok hnew
  obtain ⟨s', hs', hkept⟩ := (kept_final ops e).shared s₀ hshared₀
  obtain rfl := Option.some.inj (hshared.symm.trans hs')
  obtain ⟨poolOps, hpool⟩ := hkept.pool
  have hcovered := covered_of_fresh hfresh hranks hcovers
  intro rank
  rw [hkept.ranks, ← hcovered rank, hpool]
  exact (frame_final hfresh.linked poolOps).boundOn

theorem Opened.poisoned (h : Opened m e) (hpages : m.sharedPages = true) {covered : Bool}
    (hcovers : covered = true → CoversRanks m) {ops : List Op}
    (hfailed : failed covered (final step ops e).world (final step ops e).calls = true) :
    Poisoned (final step ops e) := by
  obtain ⟨s, hsafe, hclosed⟩ := closed_final (h.closed hpages) ops
  refine ⟨s, hsafe.shared, hclosed covered (fun hc => ?_) hfailed⟩
  exact h.covered hpages (hcovers hc) hsafe.shared

/-- A poisoned pool stays, and accepts nothing that is guarded. -/
theorem poisoned_final (he : Closed e) (hpoisoned : Poisoned e) (later : List Op) :
    Poisoned (final step later e) ∧
      (final step later e).shared.map SharedState.pool = e.shared.map SharedState.pool ∧
      ∀ op reply, op.guarded = true → (step op (final step later e)).1 ≠ .ok reply := by
  have hkept := kept_final later e
  have hlater : Poisoned (final step later e) := hkept.poisoned he hpoisoned
  refine ⟨hlater, ?_, fun op reply hguarded hok => ?_⟩
  · obtain ⟨s, hsafe, -⟩ := he
    obtain ⟨s', hs', hp⟩ := hpoisoned
    obtain rfl := Option.some.inj (hsafe.shared.symm.trans hs')
    obtain ⟨t, ht, hpool⟩ := hkept.shared s hsafe.shared
    obtain ⟨ops, hops⟩ := hpool.pool
    rw [ht, hsafe.shared, Option.map_some, Option.map_some, hops, final_poisoned hsafe.linked hp]
  · exact ((stepped_step (closed_final he later) op).accepted reply hok).healthy hguarded hlater

/-- A dropped lease stays dropped while the pool is only driven. -/
theorem Dropped.kept {l : Lease} (h : Dropped l e) (he : Closed e)
    (hkept : Kept (fun _ => True) (fun _ => True) e e') : Dropped l e' := by
  obtain ⟨s, hshared, hissued, hgone⟩ := h
  obtain ⟨s', hsafe, -⟩ := he
  obtain rfl := Option.some.inj (hshared.symm.trans hsafe.shared)
  obtain ⟨t, ht, hpool⟩ := hkept.shared s hshared
  obtain ⟨ops, hops⟩ := hpool.pool
  have hlost : ¬s.pool.Refers (.lease l) := by
    rintro ⟨a, ha⟩
    rw [hgone] at ha
    cases ha
  have hnever := gone_final hsafe.linked (h := .lease l) hissued hlost ops
  refine ⟨t, ht, ?_, ?_⟩
  · rw [hops]
    exact hissued.trans (frame_final hsafe.linked ops).next
  · rw [hops, Option.eq_none_iff_forall_ne_some]
    exact fun a ha => hnever ⟨a, ha⟩

/-- A lease that was handed back stays so. -/
theorem dropped_final {l : Lease} (he : Closed e) (hdropped : Dropped l e) (later : List Op) :
    Dropped l (final step later e) :=
  hdropped.kept he (kept_final later e)

/-- A snapshot that is accepted still has its lease. -/
theorem not_dropped {op : Op} {reply : Reply} {snapshot : Snapshot} (he : Closed e)
    (hreply : (step op e).1 = .ok reply) (hguarded : op.guarded = true)
    (hpresents : op.presents = some snapshot) : ¬Dropped snapshot.lease.lease e := by
  have haccepted := (stepped_step he op).accepted reply hreply
  obtain ⟨s, hsafe, -⟩ := he
  rintro ⟨s', hs', -, hgone⟩
  obtain rfl := Option.some.inj (hsafe.shared.symm.trans hs')
  rcases hsafe.sealedIn (haccepted.presented snapshot hpresents) with hpoisoned | ⟨-, a, halloc, -⟩
  · exact haccepted.healthy hguarded ⟨s, hsafe.shared, hpoisoned⟩
  · rw [hgone] at halloc
    cases halloc

/-! ## The theorem -/

/-- What a run from an opened engine with shared pages satisfies. -/
structure FailsClosed (m : Manifest) (e₀ : Engine) (ops : List Op) : Prop where
  /-- A history changes by being cleared, or by one call that came back with status 0. -/
  written : ∀ ev ∈ history step ops e₀, Written ev.before ev.after
  bounded : ∀ {s : SharedState} {slot : Nat} {l : Lease}, (final step ops e₀).shared = some s →
    s.leases[slot]? = some (some l) → ∃ history limit context,
      (final step ops e₀).histories[slot]? = some history ∧ s.tokenLimits[slot]? = some limit ∧
      m.maxContext? = some context ∧ history.value.tokens ≤ limit ∧ limit ≤ context
  /-- A failed call has poisoned the pool for good; so has a wrong number of outputs
      where every rank holds state. -/
  poisoned : ∀ covered, (covered = true → CoversRanks m) →
    failed covered (final step ops e₀).world (final step ops e₀).calls = true → ∀ later,
      Poisoned (final step later (final step ops e₀)) ∧
      (final step later (final step ops e₀)).shared.map SharedState.pool =
        (final step ops e₀).shared.map SharedState.pool ∧
      ∀ op reply, op.guarded = true →
        (step op (final step later (final step ops e₀))).1 ≠ .ok reply
  /-- Only sealing puts a seal in a slot, and only retiring its snapshot takes it out. -/
  seals : (final step ops e₀).sealedLeases =
    sealsOf (history step ops e₀) (List.replicate m.residentSequences none)
  unsealed : ∀ ev ∈ history step ops e₀, ∀ reply, ev.reply = .ok reply →
    ∀ slot, ev.call.writes ev.before slot → Unsealed ev.before slot
  presented : ∀ ev ∈ history step ops e₀, ∀ reply, ev.reply = .ok reply →
    ∀ snapshot, ev.call.presents = some snapshot →
      ev.before.sealedLeases[snapshot.slot]? = some (some snapshot.lease)
  /-- A retired snapshot is never accepted again. -/
  retired : ∀ snapshot reply, (step (.retireSnapshot snapshot) (final step ops e₀)).1 = .ok reply →
    ∀ later op reply', op.presents = some snapshot →
      (step op (final step later (step (.retireSnapshot snapshot) (final step ops e₀)).2)).1 ≠ .ok reply'

theorem Op.guarded_of_presents {op : Op} {snapshot : Snapshot} (h : op.presents = some snapshot) :
    op.guarded = true := by
  cases op <;> first | rfl | cases h

theorem Closed.bounded (he : Closed e) {l : Lease} (hshared : e.shared = some s)
    (hlease : s.leases[slot]? = some (some l)) : ∃ history limit,
      e.histories[slot]? = some history ∧ s.tokenLimits[slot]? = some limit ∧
      history.value.tokens ≤ limit ∧ limit ≤ s.pool.maxContext := by
  obtain ⟨s', hsafe, -⟩ := he
  obtain rfl := Option.some.inj (hshared.symm.trans hsafe.shared)
  obtain ⟨limit, hlimit, hcontext, -⟩ := hsafe.held hlease
  have hslot : slot < e.histories.length := by
    rw [← hsafe.leases]
    exact (List.getElem?_eq_some_iff.mp hlease).1
  have hhistory : e.histories[slot]? = some e.histories[slot] := List.getElem?_eq_getElem hslot
  exact ⟨_, limit, hhistory, hlimit, hsafe.fits hlease hhistory hlimit, hcontext⟩

theorem fails_closed {program : String} {world : World} {report : Report} {nextPool counter : Nat}
    {e₀ : Engine} (hopen : open_ m program world report nextPool = .ok (e₀, counter))
    (hpages : m.sharedPages = true) (ops : List Op) : FailsClosed m e₀ ops := by
  have hopened := opened_of_open hopen
  have he₀ := hopened.closed hpages
  have he := closed_final he₀ ops
  have hevent : ∀ ev ∈ history step ops e₀, Stepped ev.call ev.before ev.reply ev.after := by
    intro ev hev
    obtain ⟨before, op, after, -, rfl⟩ := mem_history hev
    exact stepped_step (closed_final he₀ before) op
  exact {
    written := fun ev hev => (hevent ev hev).written
    bounded := fun hshared hlease => by
      obtain ⟨history, limit, hhistory, hlimit, hfits, hcontext⟩ := he.bounded hshared hlease
      obtain ⟨s₀, _, _, hshared₀, hnew, -⟩ := hopened.shared hpages
      obtain ⟨budgets, -, hfresh, -⟩ := SharedState.new_eq_ok hnew
      obtain ⟨s', hs', hkept⟩ := (kept_final ops e₀).shared s₀ hshared₀
      obtain rfl := Option.some.inj (hshared.symm.trans hs')
      obtain ⟨poolOps, hpool⟩ := hkept.pool
      refine ⟨history, limit, s₀.pool.maxContext, hhistory, hlimit, hfresh.context, hfits, ?_⟩
      rw [hpool, (frame_final hfresh.linked poolOps).maxContext] at hcontext
      exact hcontext
    poisoned := fun covered hcovers hfailed =>
      poisoned_final he (hopened.poisoned hpages hcovers hfailed)
    seals := by
      rw [sealsOf_final he₀, hopened.start]
      rfl
    unsealed := fun ev hev reply hreply => ((hevent ev hev).accepted reply hreply).unsealed
    presented := fun ev hev reply hreply => ((hevent ev hev).accepted reply hreply).presented
    retired := fun snapshot reply hreply later op reply' hpresents hok => by
      have hstepped := stepped_step he (.retireSnapshot snapshot)
      have hdropped := (hstepped.accepted reply hreply).retired snapshot rfl
      exact not_dropped (closed_final hstepped.closed later) hok (Op.guarded_of_presents hpresents)
        hpresents (dropped_final hstepped.closed hdropped later) }

/-! ## A small engine -/

/-- Two residents and two ranks, the second without state. -/
def sampleManifest : Manifest where
  version := 1
  residentSequences := 2
  sharedPages := true
  identity := ⟨sampleDigest, sampleDigest, sampleDigest, [0, 1]⟩
  vocabSize := 8
  eos := 0
  variants := [
    ⟨"serial_token_v1", .decode, 1, 1, 1, 4096, "ascend_serial_token_v1", true, false⟩,
    ⟨"uncaptured_prefill_4096_v1", .prefill, 1, 4096, 4096, 4096, "uncaptured_prefill_4096_v1", false, true⟩]
  states := [⟨"latent", 3, [0], .pages 2 4 "bf16", 4, .full, none, true⟩]
  qualification := none
  limitations := []

/-- Everything comes back well but binding pages outside a reservation. -/
def sampleWorld : World where
  prefillFn := true
  batchFn := true
  bindPagesFn := true
  bindStateFn := true
  selectResidentFn := true
  resetResidentFn := true
  copyResidentFn := true
  answer calls := match calls with
    | .bindPages .. :: _ => ⟨7, "page table is fixed", []⟩
    | _ => ⟨0, "", []⟩
  auditing := false
  audit _ := none
  sha256 _ := sampleDigest

def sampleReport : Report where
  inventory := .ok sampleDigest
  abiVersion := 1
  opened := .ok ()
  null := false
  info := .ok (4096, 8, 0)
  residentCapacity := some (.ok 2)
  prefillCapacity := some (.ok 4096)
  prefillMode := some (.ok 1)
  prefillSizes := some (.ok [])
  prefillVariants := none
  sharedPages := some (.ok 1)

def sampleShared : SharedState where
  pool := {
    id := 0
    epoch := 1
    maxContext := 4096
    next := 0
    pools := [⟨⟨"latent", 0⟩, 8, 4, some 2, 4, .full, ExtTreeSet.ofList (List.range 4)⟩]
    allocations := ∅
    borrowers := ∅
    flights := ∅
    poisoned := false }
  leases := [none, none]
  cacheNodes := ExtTreeMap.ofList [("latent", 3)]
  ranks := 2
  nextRequest := 0
  cachePageLimits := ExtTreeMap.ofList [("latent", 2)]
  admissions := 0
  crossPartitionBindings := 0
  peakOccupiedBytes := 0
  tokenLimits := [0, 0]

def sampleEngine : Engine := unopened sampleManifest sampleWorld 4096 (some sampleShared)

theorem sample_open :
    open_ sampleManifest sampleDigest sampleWorld sampleReport 0 = .ok (sampleEngine, 1) := by
  rfl

theorem fails_closed_sample :
    FailsClosed sampleManifest sampleEngine [.prepareResident 0 2, .token 5 0 true, .sealResident 0] :=
  fails_closed sample_open rfl _

/-- A failed binding outside a reservation, and a wrong number of outputs while a
    rank holds no state, are both followed by a new reservation. -/
theorem failure_survived :
    open_ sampleManifest sampleDigest sampleWorld sampleReport 0 = .ok (sampleEngine, 1) ∧
    (let ops : List Op := [.bindPages 0 "latent" [0], .prepareResident 0 2, .batch [⟨0, 0, [5], true⟩],
      .prepareResident 1 2]
    (sampleWorld.answer [.bindPages 0 "latent" [0]]).status = 7 ∧
    (sampleWorld.answer (final step (ops.take 3) sampleEngine).calls).output.length = 0 ∧
    (final step (ops.take 3) sampleEngine).calls.head? = some (.batch [⟨0, 0, [5], true⟩]) ∧
    replies step ops sampleEngine = [.err (.invalid "program engine: page table is fixed"), .ok .done,
      .err .stale, .ok .done] ∧
    (final step ops sampleEngine).shared.map (·.pool.poisoned) = some false) := by
  refine ⟨sample_open, ?_⟩
  decide +kernel

end Engine

end Inferfabric.Native
