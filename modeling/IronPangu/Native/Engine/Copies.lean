-- SUMMARY: Copies, seals and retirements keep the invariant: which snapshots they accept, and what a failed one leaves sealed.
import IronPangu.Native.Engine.Resets

open Rust Std

namespace Inferfabric.Native

open Inferfabric.Ir Inferfabric.Runtime

namespace Engine

open Method StatePool

variable {e e' : Engine} {s : SharedState} {slot : Nat}

/-! ## Copies -/

theorem copyHistory_eq_ok {histories : List CompletedHistory} {source destination boundary : Nat}
    {pages : List Nat} {h : CompletedHistory}
    (hok : copyHistory histories source destination boundary pages = .ok h) :
    ∃ source_ destination_, histories[source]? = some source_ ∧ histories[destination]? = some destination_ ∧
      source ≠ destination ∧ boundary ≠ 0 ∧ source_.value.tokens = boundary ∧ destination_.value.tokens = 0 ∧
      source_.prefix_ boundary = .ok h := by
  simp only [copyHistory, Outcome.bind_eq_ok, Outcome.okOr_eq_ok] at hok
  obtain ⟨source_, hsource, destination_, hdestination, hok⟩ := hok
  split at hok
  · simp at hok
  · rename_i hgood
    push Not at hgood
    exact ⟨source_, destination_, hsource, hdestination, hgood.1, hgood.2.1, hgood.2.2.1,
      hgood.2.2.2.1, hok⟩

theorem copyLeases_eq_ok {source destination boundary : Nat} {leases : Lease × Lease}
    (hshared : e.shared = some s) (hok : copyLeases e source destination boundary = .ok leases) :
    s.leases[source]? = some (some leases.1) ∧ s.leases[destination]? = some (some leases.2) ∧
      ∃ limit, s.tokenLimits[destination]? = some limit ∧ boundary ≤ limit := by
  simp only [copyLeases, hshared, Outcome.okOr, Outcome.bind_eq_ok, leaseOf_eq_ok,
    Outcome.unwrap_eq_ok, Outcome.ok.injEq] at hok
  obtain ⟨_, rfl, source_, hsource, destination_, hdestination, limit, hlimit, hok⟩ := hok
  split at hok
  · simp at hok
  · obtain rfl := Outcome.ok.inj hok
    exact ⟨hsource, hdestination, limit, hlimit, Nat.not_lt.mp ‹_›⟩

theorem Quiet.unsealed (hq : Quiet e e') (h : Unsealed e' slot) : Unsealed e slot := by
  obtain ⟨f, rfl, -⟩ := hq
  exact h

theorem submitCopy_spec (he : Closed e) {destination : Lease} {read : Borrow} {boundary : Nat}
    (hshared : e.shared = some s) (hlease : s.leases[slot]? = some (some destination))
    (hallowed : ∃ limit, s.tokenLimits[slot]? = some limit ∧ boundary ≤ limit) :
    Triple (· = e) (submitCopy destination read) (fun _ e' => Quiet e e' ∧ Unsealed e slot) (Quiet e) := by
  obtain ⟨s', hsafe, -⟩ := id he
  obtain rfl := Option.some.inj (hshared.symm.trans hsafe.shared)
  obtain ⟨limit, hlimit, hbound⟩ := hallowed
  have hsubmit := triple_onPool (.submit 1 [destination] [read]) .ticket rfl
    hsafe.shared hsafe.linked
  have hunsealed : Triple (· = e) (submitCopy destination read) (fun _ _ => Unsealed e slot)
      (fun _ => True) := by
    unfold submitCopy
    refine (hsubmit.attempt.error fun _ _ => trivial).bind fun ticket => ?_
    cases ticket with
    | ok ticket =>
      refine triple_pure _ ?_
      rintro _ ⟨p, haccepted, -⟩
      exact (submit_granted hsafe.shared haccepted List.mem_cons_self hlease hlimit hbound).unsealed he
    | err error =>
      have hlift : Triple (fun _ => True) (Method.lift (.err error) : Call Ticket)
          (fun _ _ => Unsealed e slot) (fun _ => True) :=
        triple_lift_not_ok (fun _ h => by cases h) fun _ h => h
      refine Triple.bind (Q := fun _ _ => True) ?_ fun _ => hlift
      intro e₁ _
      rcases onPool (StatePool.release 1 read) e₁ with ⟨_ | _ | _, e₂⟩ <;> trivial
    | panic => exact fun e' h => h.elim
  refine (((quiet_submitCopy destination read).triple e).and hunsealed).mono ?_ (fun _ _ h => h)
    fun _ h => h.1
  rintro _ rfl
  exact ⟨.refl _, rfl⟩

theorem copy_spec (he : Closed e) (source destination boundary : Nat) :
    Triple (· = e) (copyResident source destination boundary)
      (fun _ e' => Left e e' ∧ ¬Poisoned e ∧ Unsealed e destination) (Left e) := by
  have hrefl : Left e e := (Quiet.refl e).left he
  obtain ⟨s, hsafe, -⟩ := id he
  unfold copyResident
  refine triple_require_at hrefl fun _ => ?_
  refine triple_read_at hrefl fun history hhistory => ?_
  refine triple_read_at hrefl fun leases hleases => ?_
  obtain ⟨source_, destination_, -, -, -, -, -, -, hprefix⟩ := copyHistory_eq_ok hhistory
  obtain ⟨hsource, hdestination, limit, hlimit, hbound⟩ := copyLeases_eq_ok hsafe.shared hleases
  have hallowed : Allowed e destination history.value.tokens :=
    ⟨s, limit, hsafe.shared, hlimit, (CompletedHistory.prefix_tokens_eq hprefix).le.trans hbound⟩
  have hborrow := triple_onPool (.borrow 1 leases.1) .borrow rfl hsafe.shared hsafe.linked
  refine (hborrow.error fun e' heq => heq ▸ hrefl).bind fun read => triple_at fun e₁ h₁ => ?_
  obtain ⟨p, haccepted, rfl⟩ := h₁
  have hhealthy : ¬Poisoned e := by
    rintro ⟨s', hs', hpoisoned⟩
    obtain rfl := Option.some.inj (hsafe.shared.symm.trans hs')
    rcases haccepted.healthy with hhealthy | hpoison
    · rw [hhealthy] at hpoisoned
      cases hpoisoned
    · cases hpoison
  have hq₁ : Quiet e (e.mapPool fun _ => p) := by
    refine ⟨fun _ => p, rfl, fun s' hs' hlinked => ?_⟩
    obtain rfl := Option.some.inj (hsafe.shared.symm.trans hs')
    exact haccepted.advanced hlinked fun _ _ h => by cases h
  have hshared₁ : (e.mapPool fun _ => p).shared = some { s with pool := p } := by
    rw [mapPool, hsafe.shared]
    rfl
  refine ((submitCopy_spec (he.quiet hq₁) hshared₁ hdestination ⟨limit, hlimit, hbound⟩).mono
    (fun _ h => h) (fun _ e₂ h => (⟨hq₁.trans h.1, hq₁.unsealed h.2⟩ : Quiet e e₂ ∧ Unsealed e destination))
    fun e₂ h => (hq₁.trans h).left he).bind fun ticket => triple_of_fact fun hunsealed => ?_
  refine (foreign_spec (.copyResident source destination boundary)).bind fun answer => triple_of_fact ?_
  rintro rfl
  refine ((finish_spec he (fun _ _ => rfl) (some ticket)).error fun _ h => h.left).bind fun _ =>
    triple_of_fact fun hstatus => ?_
  have hrelease : Triple (Recorded e (.copyResident source destination boundary))
      (onPool (StatePool.release 1 read))
      (fun _ => Recorded e (.copyResident source destination boundary)) (Left e) := by
    intro e₃ h₃
    have hquiet := h₃.quiet (quiet_release read e₃)
    rcases hrun : onPool (StatePool.release 1 read) e₃ with ⟨_ | _ | _, e₄⟩ <;> rw [hrun] at hquiet
    · exact hquiet
    · exact hquiet.left
    · exact hquiet.left
  refine hrelease.bind fun _ => ?_
  refine Triple.bind (Q := fun _ => Recorded e (.copyResident source destination boundary)) ?_ fun _ => ?_
  · unfold setHistory
    refine triple_read_bind (fun _ h => h.left) fun _ => triple_modify fun e₃ h₃ => ?_
    exact h₃.setHistory hallowed rfl hstatus le_rfl
  · unfold setImported
    refine triple_read_bind (fun _ h => h.left) fun _ => triple_modify fun e₃ h₃ => ?_
    refine ⟨⟨?_, h₃.written, h₃.seals⟩, hhealthy, hunsealed⟩
    exact h₃.closed.congr (fun s hs => ⟨s, hs, rfl, rfl, rfl, rfl⟩) rfl rfl rfl List.length_set rfl

theorem restore_spec (he : Closed e) (snapshot : Snapshot) (destination : Nat) :
    Triple (· = e) (restoreSnapshot snapshot destination)
      (fun _ e' => Left e e' ∧ ¬Poisoned e ∧ Unsealed e destination ∧
        e.sealedLeases[snapshot.slot]? = some (some snapshot.lease)) (Left e) := by
  have hrefl : Left e e := (Quiet.refl e).left he
  unfold restoreSnapshot
  refine triple_read_at hrefl fun _ hsnapshot => ?_
  refine triple_read_at hrefl fun history _ => ?_
  refine (copy_spec he _ _ _).post fun _ e' h => ⟨h.1, h.2.1, h.2.2, ?_⟩
  rw [checkSnapshot] at hsnapshot
  split at hsnapshot
  · simp at hsnapshot
  · exact not_not.mp ‹_›

/-! ## Seals -/

theorem SafeWith.setSeal {value : Option SealedLease} (h : SafeWith e s)
    (hvalue : ∀ l, value = some l → s.pool.poisoned = true ∨
      (s.leases[slot]? = some (some l.lease) ∧ SealedIn s.pool l.lease)) :
    SafeWith { e with sealedLeases := e.sealedLeases.set slot value } s :=
  { h with
    seals := (List.length_set).trans h.seals
    sealedIn := fun {slot' l'} hl' => by
      rw [List.getElem?_set] at hl'
      split at hl'
      · rename_i heq
        subst heq
        split at hl'
        · exact hvalue l' (Option.some.inj hl')
        · cases hl'
      · exact h.sealedIn hl' }

theorem seal_spec (he : Closed e) (slot : Nat) :
    Triple (· = e) (sealResident slot)
      (fun snapshot e' => Closed e' ∧ Written e e' ∧ ¬Poisoned e ∧ snapshot.slot = slot ∧
        e'.sealedLeases = e.sealedLeases.set slot (some snapshot.lease) ∧ slot < e.sealedLeases.length)
      (Left e) := by
  have hrefl : Left e e := (Quiet.refl e).left he
  obtain ⟨s, hsafe, hclosed⟩ := id he
  unfold sealResident
  refine triple_read_at hrefl fun history _ => ?_
  refine triple_read_at hrefl fun refused _ => ?_
  split
  · exact triple_fail_at hrefl
  refine triple_require_at hrefl fun _ => ?_
  refine triple_read_at hrefl fun s' hs' => ?_
  rw [Outcome.okOr_eq_ok] at hs'
  obtain rfl := Option.some.inj (hsafe.shared.symm.trans hs')
  refine triple_lift_at hrefl fun lease hlease => ?_
  rw [leaseOf_eq_ok] at hlease
  have hseal := triple_onPool (.sealLease 1 lease) .sealedLease rfl hsafe.shared hsafe.linked
  refine (hseal.error fun e' heq => heq ▸ hrefl).bind fun sealedLease => triple_at fun e₁ h₁ => ?_
  obtain ⟨p, haccepted, rfl⟩ := h₁
  have hadvanced := haccepted.advanced hsafe.linked fun _ _ h => by cases h
  have hpool : sealedLease = ⟨lease⟩ ∧ SealedIn p lease ∧ s.pool.poisoned = false := by
    cases haccepted with
    | sealLease hlive halloc hretired hpending =>
      refine ⟨rfl, ⟨_, ExtTreeMap.getElem?_modify_eq_some.mpr (.inl ⟨rfl, _, halloc, rfl⟩), hretired, rfl⟩,
        hlive.healthy⟩
  obtain ⟨rfl, hsealed, hhealthy⟩ := hpool
  have hsafe₁ := hsafe.mapPool (f := fun _ => p) hadvanced
  have hclosed₁ : ∀ covered, (covered = true → SharedState.Covered { s with pool := p }) →
      failed covered e.world e.calls = true → p.poisoned = true := by
    intro covered hcovered hfailed
    refine hadvanced.frame.poisoned (hclosed covered (fun h rank => ?_) hfailed)
    exact hadvanced.frame.boundOn.symm.trans (hcovered h rank)
  have hleft₁ : Left e (e.mapPool fun _ => p) := ⟨⟨_, hsafe₁, hclosed₁⟩, fun _ => .inl rfl, rfl⟩
  have hvalue : ∀ l, some (⟨lease⟩ : SealedLease) = some l → p.poisoned = true ∨
      (s.leases[slot]? = some (some l.lease) ∧ SealedIn p l.lease) := by
    rintro _ ⟨⟩
    exact .inr ⟨hlease, hsealed⟩
  unfold setSealed
  refine Triple.bind (Q := fun _ e' => (Closed e' ∧ Written e e' ∧ e'.sealedLeases =
      e.sealedLeases.set slot (some ⟨lease⟩)) ∧ slot < e.sealedLeases.length) ?_ fun _ => ?_
  · refine triple_read_at hleft₁ fun taken htaken => triple_modify ?_
    rintro _ rfl
    rw [Outcome.unwrap_eq_ok] at htaken
    exact ⟨⟨⟨_, hsafe₁.setSeal hvalue, hclosed₁⟩, fun _ => .inl rfl, rfl⟩,
      (List.getElem?_eq_some_iff.mp htaken).1⟩
  · refine triple_pure _ fun e' h => ⟨h.1.1, h.1.2.1, ?_, rfl, h.1.2.2, h.2⟩
    rintro ⟨s', hs', hpoisoned⟩
    obtain rfl := Option.some.inj (hsafe.shared.symm.trans hs')
    rw [hhealthy] at hpoisoned
    cases hpoisoned

/-! ## Retiring snapshots -/

/-- A failed teardown: the pool is poisoned and the seal put back. -/
theorem failedRetire_spec (e₁ : Engine) {l : SealedLease} (hsealed : e.sealedLeases[slot]? = some (some l))
    (hseals : e₁.sealedLeases = e.sealedLeases.set slot none) (hhistories : e₁.histories = e.histories)
    {status : Result Unit} (hstatus : ∀ u, status ≠ .ok u) {Q : Unit → Engine → Prop} :
    Triple (fun e' => Closed e' ∧ Wiped e₁ e') (do
        ifShared StatePool.poison
        setSealed slot (some l)
        Method.lift status : Call Unit) Q (fun e' => Left e e' ∧ Poisoned e') := by
  rintro e₂ ⟨hclosed, hwiped⟩
  obtain ⟨s, hsafe, hfailed⟩ := id hclosed
  have hbound : slot < e₂.sealedLeases.length := by
    rw [hwiped.seals, hseals, List.length_set]
    exact (List.getElem?_eq_some_iff.mp hsealed).1
  have hpoison := poison_run hsafe.shared
  have hquiet : Quiet e₂ (e₂.mapPool fun p => { p with poisoned := true }) := by
    have := quiet_ifShared_poison e₂
    rwa [hpoison] at this
  obtain ⟨s', hsafe', hfailed'⟩ := hclosed.quiet hquiet
  have hpoisoned : s'.pool.poisoned = true := by
    have hshared := hsafe'.shared
    rw [mapPool, hsafe.shared] at hshared
    obtain rfl := Option.some.inj hshared
    rfl
  have hset : setSealed slot (some l) (e₂.mapPool fun p => { p with poisoned := true }) =
      (.ok (), { e₂.mapPool (fun p => { p with poisoned := true }) with
        sealedLeases := e₂.sealedLeases.set slot (some l) }) := setSealed_run hbound
  rw [bind_ok hpoison, bind_ok hset, lift_run]
  have hrestored : e₂.sealedLeases.set slot (some l) = e.sealedLeases := by
    rw [hwiped.seals, hseals, List.set_set, set_same hsealed]
  have hleft : Left e { e₂.mapPool (fun p => { p with poisoned := true }) with
      sealedLeases := e₂.sealedLeases.set slot (some l) } := by
    refine ⟨⟨s', hsafe'.setSeal fun _ _ => .inl hpoisoned, hfailed'⟩, fun slot' => ?_, hrestored⟩
    rw [← hhistories]
    exact (hwiped.histories slot').imp_right .inl
  cases status with
  | ok u => exact absurd rfl (hstatus u)
  | err error => exact ⟨hleft, s', hsafe'.shared, hpoisoned⟩
  | panic => exact ⟨hleft, s', hsafe'.shared, hpoisoned⟩

/-- The lease has been handed back to the pool for good. -/
def Dropped (l : Lease) (e : Engine) : Prop :=
  ∃ s, e.shared = some s ∧ l.generation ≤ s.pool.next ∧ s.pool.allocations[l]? = none

/-- A completed reset drops the lease of its resident. -/
theorem Cleared.dropped {l : Lease} (h : Cleared e s slot e') (hsafe : SafeWith e s)
    (hlease : s.leases[slot]? = some (some l)) : Dropped l e' := by
  obtain ⟨calls, sequence, p, -, hback, rfl⟩ := h
  obtain ⟨limit, -, -, a, halloc, -⟩ := hsafe.held hlease
  rcases hback with ⟨hnone, -⟩ | ⟨l', hlease', haccepted, hgone⟩
  · cases hlease.symm.trans hnone
  · obtain rfl := Option.some.inj (Option.some.inj (hlease.symm.trans hlease'))
    have hissued : (Handle.lease l).serial ≤ s.pool.next := hsafe.linked.serial_le ⟨a, halloc⟩
    exact ⟨_, rfl, hissued.trans haccepted.frame.next, hgone⟩

theorem retire_spec (he : Closed e) (snapshot : Snapshot) :
    Triple (· = e) (retireSnapshot snapshot)
      (fun _ e' => Closed e' ∧ Written e e' ∧ ¬Poisoned e ∧
        e.sealedLeases[snapshot.slot]? = some (some snapshot.lease) ∧
        e'.sealedLeases = e.sealedLeases.set snapshot.slot none ∧ Dropped snapshot.lease.lease e')
      (fun e' => Left e e' ∧ (e' = e ∨ Poisoned e')) := by
  have hrefl : Left e e ∧ (e = e ∨ Poisoned e) := ⟨(Quiet.refl e).left he, .inl rfl⟩
  obtain ⟨s, hsafe, hclosed⟩ := id he
  unfold retireSnapshot
  refine triple_read_at hrefl fun _ hsnapshot => ?_
  have hsealed : e.sealedLeases[snapshot.slot]? = some (some snapshot.lease) := by
    rw [checkSnapshot] at hsnapshot
    split at hsnapshot
    · cases hsnapshot
    · exact not_not.mp ‹_›
  refine triple_read_at hrefl fun s' hs' => ?_
  rw [Outcome.okOr_eq_ok] at hs'
  obtain rfl := Option.some.inj (hsafe.shared.symm.trans hs')
  refine triple_lift_at hrefl fun lease hlease => ?_
  refine triple_lift_at hrefl fun _ hidle => ?_
  have hhealthy : s.pool.poisoned = false := by
    rw [checkIdle, Outcome.bind_eq_ok] at hidle
    obtain ⟨bindings, hbindings, -⟩ := hidle
    exact (bindings_eq_ok.mp hbindings).1.healthy
  have hunpoisoned : ¬Poisoned e := by
    rintro ⟨s', hs', hpoisoned⟩
    obtain rfl := Option.some.inj (hsafe.shared.symm.trans hs')
    rw [hhealthy] at hpoisoned
    cases hpoisoned
  have hbound : snapshot.slot < e.sealedLeases.length := (List.getElem?_eq_some_iff.mp hsealed).1
  let e₁ : Engine := { e with sealedLeases := e.sealedLeases.set snapshot.slot none }
  have hsafe₁ : SafeWith e₁ s := hsafe.setSeal fun l h => by cases h
  have he₁ : Closed e₁ := ⟨s, hsafe₁, hclosed⟩
  have hheld : s.leases[snapshot.slot]? = some (some snapshot.lease.lease) := by
    rcases hsafe.sealedIn hsealed with hpoisoned | ⟨hlease, -⟩
    · rw [hhealthy] at hpoisoned
      cases hpoisoned
    · exact hlease
  have hreset : Triple (· = e₁) (attempt (resetResident snapshot.slot))
      (fun o e' => ((Closed e' ∧ Wiped e₁ e') ∧ (o = .ok () → Dropped snapshot.lease.lease e')) ∧
        o ≠ .panic) (fun _ => False) := by
    have hboth := (closed_resetResident snapshot.slot).and ((wiped_resetResident snapshot.slot).triple e₁)
    rintro _ rfl
    have hpost := hboth e₁ ⟨he₁, Steps.refl _⟩
    have hvalue := resetResident_ne_panic he₁ snapshot.slot
    have hdropped : ∀ e₂, resetResident snapshot.slot e₁ = (.ok (), e₂) →
        Dropped snapshot.lease.lease e₂ := by
      intro e₂ hrun
      rcases resetResident_cases hsafe₁ snapshot.slot with ⟨-, error, hrun'⟩ | ⟨-, -, error, hrun'⟩ |
        ⟨-, -, reply, e₃, hrun', -, -, hcleared⟩
      · cases hrun.symm.trans hrun'
      · cases hrun.symm.trans hrun'
      · obtain ⟨-, rfl⟩ := Prod.mk.inj (hrun.symm.trans hrun')
        exact hcleared.dropped (hsafe₁.called _) hheld
    unfold attempt
    rcases hrun : resetResident snapshot.slot e₁ with ⟨_ | _ | _, e₂⟩ <;>
      rw [hrun] at hpost hvalue hdropped
    · exact ⟨⟨⟨hpost.1.1, hpost.2⟩, fun _ => hdropped e₂ rfl⟩, by simp⟩
    · exact ⟨⟨⟨hpost.1, hpost.2⟩, fun h => by cases h⟩, by simp⟩
    · exact absurd rfl hvalue
  refine Triple.bind (Q := fun _ => (· = e₁)) ?_ fun _ => ?_
  · rintro _ rfl
    rw [setSealed_run hbound]
  refine (hreset.error fun _ h => h.elim).bind fun status => triple_of_fact fun hvalue => ?_
  have hrefused : (∀ u, status ≠ .ok u) → Triple (fun e' => Closed e' ∧ Wiped e₁ e') (do
        ifShared StatePool.poison
        setSealed snapshot.slot (some snapshot.lease)
        Method.lift status : Call Unit) (fun _ e' => Closed e' ∧ Written e e' ∧ ¬Poisoned e ∧
        e.sealedLeases[snapshot.slot]? = some (some snapshot.lease) ∧
        e'.sealedLeases = e.sealedLeases.set snapshot.slot none ∧ Dropped snapshot.lease.lease e')
      (fun e' => Left e e' ∧ (e' = e ∨ Poisoned e')) :=
    fun hstatus => (failedRetire_spec e₁ hsealed rfl rfl hstatus).error fun _ h => ⟨h.1, .inr h.2⟩
  cases status with
  | ok u =>
    refine triple_pure () fun e' h => ⟨h.1.1, fun slot => (h.1.2.histories slot).imp_right .inl,
      hunpoisoned, hsealed, h.1.2.seals, h.2 rfl⟩
  | err error => exact (hrefused fun _ h => by cases h).pre fun _ h => h.1
  | panic => exact absurd rfl hvalue

end Engine

end Inferfabric.Native
