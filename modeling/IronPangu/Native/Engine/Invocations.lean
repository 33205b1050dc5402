-- SUMMARY: Tokens, prefills and batches keep the invariant: what they found when they come back, and what they leave when they do not.
import IronPangu.Native.Engine.Safe

open Rust Std

namespace Inferfabric.Native

open Inferfabric.Ir Inferfabric.Runtime

namespace Engine

open Method StatePool

variable {e e' : Engine} {s : SharedState} {slot : Nat}

/-- Every history is as it was, cleared, or written by one call that came back
    well. -/
def Written (e e' : Engine) : Prop :=
  ∀ slot : Nat, e'.histories[slot]? = e.histories[slot]? ∨
    e'.histories[slot]? = some CompletedHistory.default ∨
    ∃ call, e'.calls = call :: e.calls ∧ call.writes e.selected slot ∧
      (e.world.answer e'.calls).status = 0

def Unsealed (e : Engine) (slot : Nat) : Prop :=
  ∀ l : SealedLease, e.sealedLeases[slot]? ≠ some (some l)

/-- The resident has a reservation of at least `bound` tokens that may be written. -/
def Granted (e : Engine) (slot bound : Nat) : Prop :=
  ∃ s l limit, e.shared = some s ∧ s.leases[slot]? = some (some l) ∧
    s.tokenLimits[slot]? = some limit ∧ bound ≤ limit ∧ s.pool.poisoned = false ∧
    ∃ a : Allocation, s.pool.allocations[l]? = some a ∧ a.isSealed = false

/-- The resident's reservation allows `bound` tokens. -/
def Allowed (e : Engine) (slot bound : Nat) : Prop :=
  ∃ s limit, e.shared = some s ∧ s.tokenLimits[slot]? = some limit ∧ bound ≤ limit

theorem Granted.allowed {bound : Nat} (h : Granted e slot bound) : Allowed e slot bound := by
  obtain ⟨s, l, limit, hshared, -, hlimit, hbound, -⟩ := h
  exact ⟨s, limit, hshared, hlimit, hbound⟩

theorem Quiet.written (h : Quiet e e') : Written e e' := by
  obtain ⟨f, rfl, -⟩ := h
  exact fun slot => .inl rfl

theorem Granted.healthy {bound : Nat} (h : Granted e slot bound) : ¬Poisoned e := by
  obtain ⟨s, l, limit, hshared, -, -, -, hhealthy, -⟩ := h
  rintro ⟨s', hshared', hpoisoned⟩
  obtain rfl := Option.some.inj (hshared.symm.trans hshared')
  rw [hhealthy] at hpoisoned
  cases hpoisoned

/-- What is sealed cannot be granted. -/
theorem Granted.unsealed {bound : Nat} (h : Granted e slot bound) (he : Closed e) : Unsealed e slot := by
  obtain ⟨s, l, limit, hshared, hlease, -, -, hhealthy, a, halloc, hunsealed⟩ := h
  obtain ⟨s', hsafe, -⟩ := he
  obtain rfl := Option.some.inj (hshared.symm.trans hsafe.shared)
  intro sealedLease hsealed
  rcases hsafe.sealedIn hsealed with hpoisoned | ⟨hlease', b, halloc', -, hb⟩
  · rw [hhealthy] at hpoisoned
    cases hpoisoned
  · obtain rfl := Option.some.inj (Option.some.inj (hlease.symm.trans hlease'))
    obtain rfl := Option.some.inj (halloc.symm.trans halloc')
    rw [hunsealed] at hb
    cases hb

theorem set_same {α : Type} {xs : List α} {i : Nat} {x : α} (h : xs[i]? = some x) : xs.set i x = xs := by
  obtain ⟨hi, rfl⟩ := List.getElem?_eq_some_iff.mp h
  exact List.set_getElem_self hi

/-! ## Invocations -/

/-- A pool operation is refused without effect, or accepted. -/
theorem triple_onPool {α : Type} {m : Method StatePool Error α} (op : Runtime.Op)
    (wrap : α → Runtime.Reply) (h : IsCall m op wrap) (hshared : e.shared = some s)
    (hlinked : Linked s.pool) :
    Triple (· = e) (onPool m)
      (fun a e' => ∃ p, Accepted s.pool op (wrap a) p ∧ e' = e.mapPool fun _ => p) (· = e) := by
  rintro e₁ rfl
  have hstep := step_cases hlinked op
  rw [h, bind_run] at hstep
  simp only [onPool, hshared]
  rcases hm : m s.pool with ⟨a | error | _, p⟩ <;> rw [hm] at hstep
  · rcases hstep with ⟨_, hrun⟩ | ⟨reply, t, hrun, haccepted⟩
    · cases hrun
    · obtain ⟨hreply, rfl⟩ := Prod.mk.inj hrun
      obtain rfl := Outcome.ok.inj hreply
      refine ⟨p, haccepted, ?_⟩
      rw [mapPool, hshared]
      rfl
  · rcases hstep with ⟨_, hrun⟩ | ⟨reply, t, hrun, -⟩
    · obtain ⟨-, rfl⟩ := Prod.mk.inj hrun
      cases e₁
      cases hshared
      rfl
    · cases hrun
  · rcases hstep with ⟨_, hrun⟩ | ⟨reply, t, hrun, -⟩ <;> cases hrun

theorem leaseOf_eq_ok {message : String} {l : Lease} :
    leaseOf s slot message = .ok l ↔ s.leases[slot]? = some (some l) := by
  unfold leaseOf
  cases h : s.leases[slot]? with
  | none => simp [Outcome.unwrap]
  | some lease => cases lease <;> simp [Outcome.unwrap]

theorem submit_granted {leases : List Lease} {reads : List Borrow} {l : Lease} {limit bound : Nat}
    {reply : Runtime.Reply} {p : StatePool} (hshared : e.shared = some s)
    (h : Accepted s.pool (.submit 1 leases reads) reply p) (hl : l ∈ leases)
    (hlease : s.leases[slot]? = some (some l)) (hlimit : s.tokenLimits[slot]? = some limit)
    (hbound : bound ≤ limit) : Granted e slot bound := by
  cases h with
  | submit hlive hwrites =>
    obtain ⟨a, halloc, -, hunsealed⟩ := hwrites l hl
    exact ⟨s, l, limit, hshared, hlease, hlimit, hbound, hlive.healthy, a, halloc, hunsealed⟩

theorem beginInvocation_spec (he : Closed e) (position count : Nat) :
    Triple (· = e) (beginInvocation position count)
      (fun _ e' => Quiet e e' ∧ Granted e e.selected (position + count)) (Quiet e) := by
  have hgranted : Triple (· = e) (beginInvocation position count)
      (fun _ _ => Granted e e.selected (position + count)) (fun _ => True) := by
    obtain ⟨s, hsafe, -⟩ := he
    unfold beginInvocation
    refine triple_get_at ?_
    rw [hsafe.shared]
    refine triple_lift_at trivial fun lease hlease => ?_
    refine triple_lift_at trivial fun limit hlimit => ?_
    refine triple_require_at trivial fun hbound => ?_
    rw [leaseOf_eq_ok] at hlease
    rw [Outcome.unwrap_eq_ok] at hlimit
    have hfits : position + count ≤ limit := by
      rw [checkedAdd] at hbound
      split at hbound <;> simp_all
    refine ((triple_onPool (.submit 1 [lease] []) .ticket rfl hsafe.shared
      hsafe.linked).error fun _ _ => trivial).bind fun ticket => ?_
    refine triple_pure _ ?_
    rintro _ ⟨p, haccepted, -⟩
    exact submit_granted hsafe.shared haccepted List.mem_cons_self hlease hlimit hfits
  refine (((quiet_beginInvocation position count).triple e).and hgranted).mono ?_ (fun _ _ h => h)
    (fun _ h => h.1)
  rintro _ rfl
  exact ⟨.refl _, rfl⟩

theorem foreign_spec (call : Foreign) {E : Engine → Prop} :
    Triple (Quiet e) (foreign call)
      (fun answer e' => Quiet (e.called call) e' ∧ answer = e.world.answer (call :: e.calls)) E := by
  rintro _ ⟨f, rfl, hf⟩
  exact ⟨⟨f, rfl, hf⟩, rfl⟩

/-- An answered call leaves the invariant when the pool has been poisoned where it
    must not survive the answer. -/
theorem Closed.answered {call : Foreign} (he : Closed e) (hq : Quiet (e.called call) e')
    (hpoisoned : ∀ covered s, (covered = true → SharedState.Covered s) → e'.shared = some s →
      call.failed covered (e.world.answer (call :: e.calls)) = true → Poisoned e') : Closed e' := by
  obtain ⟨s, hsafe, hclosed⟩ := he
  obtain ⟨p, hsafe', hadvanced⟩ := (hsafe.called call).quiet hq
  obtain ⟨f, rfl, -⟩ := hq
  refine ⟨_, hsafe', fun covered hcovered hfailed => ?_⟩
  rcases Bool.or_eq_true_iff.mp hfailed with hnow | hbefore
  · obtain ⟨s', hs', hp⟩ := hpoisoned covered _ hcovered hsafe'.shared hnow
    obtain rfl := Option.some.inj (hsafe'.shared.symm.trans hs')
    exact hp
  · refine hadvanced.frame.poisoned (hclosed covered (fun h rank => ?_) hbefore)
    exact hadvanced.frame.boundOn.symm.trans (hcovered h rank)

/-- The engine after one call, with nothing done since but recording it. -/
structure Recorded (e : Engine) (call : Foreign) (e' : Engine) : Prop where
  closed : Closed e'
  world : e'.world = e.world
  calls : e'.calls = call :: e.calls
  selected : e'.selected = e.selected
  seals : e'.sealedLeases = e.sealedLeases
  shared : ∀ s, e.shared = some s → ∃ p, e'.shared = some { s with pool := p }
  written : Written e e'

theorem Closed.recorded {call : Foreign} (he : Closed e') (hq : Quiet (e.called call) e') :
    Recorded e call e' := by
  obtain ⟨f, rfl, -⟩ := hq
  refine ⟨he, rfl, rfl, rfl, rfl, fun s hs => ⟨f s.pool, ?_⟩, fun slot => .inl rfl⟩
  rw [mapPool, called, hs]
  rfl

theorem Recorded.quiet {call : Foreign} {e'' : Engine} (h : Recorded e call e') (hq : Quiet e' e'') :
    Recorded e call e'' := by
  have hclosed := h.closed.quiet hq
  obtain ⟨f, rfl, -⟩ := hq
  refine ⟨hclosed, h.world, h.calls, h.selected, h.seals, fun s hs => ?_, h.written⟩
  obtain ⟨p, hp⟩ := h.shared s hs
  refine ⟨f p, ?_⟩
  rw [mapPool, hp]
  rfl

/-- Setting a history that the call has written and its reservation allows. -/
theorem Recorded.setHistory {call : Foreign} {history : CompletedHistory} {bound : Nat}
    (h : Recorded e call e') (hallowed : Allowed e slot bound) (hwrites : call.writes e.selected slot)
    (hstatus : (e.world.answer (call :: e.calls)).status = 0) (hbound : history.value.tokens ≤ bound) :
    Recorded e call { e' with histories := e'.histories.set slot history } := by
  obtain ⟨s, limit, hshared, hlimit, hlimited⟩ := hallowed
  obtain ⟨p, hp⟩ := h.shared s hshared
  obtain ⟨s', hsafe, hclosed⟩ := h.closed
  obtain rfl := Option.some.inj (hp.symm.trans hsafe.shared)
  refine { h with closed := ⟨_, hsafe.setHistory ?_, hclosed⟩, written := fun slot' => ?_ }
  · intro l' limit' _ hlimit'
    obtain rfl := Option.some.inj (hlimit.symm.trans hlimit')
    exact hbound.trans hlimited
  · by_cases hslot : slot = slot'
    · subst hslot
      exact .inr (.inr ⟨call, h.calls, hwrites, by rw [h.calls]; exact hstatus⟩)
    · rw [List.getElem?_set_ne hslot]
      exact h.written slot'

/-- Recording a call that came back well. -/
theorem recorded_appendCompleted {call : Foreign} {variant : Variant} {position count : Nat}
    (hgranted : Granted e slot (position + count)) (hwrites : call.writes e.selected slot)
    (hstatus : (e.world.answer (call :: e.calls)).status = 0) :
    Triple (Recorded e call) (appendCompleted slot variant position count)
      (fun _ => Recorded e call) (Recorded e call) := by
  unfold appendCompleted
  refine (triple_read _ fun _ h => h).bind fun history => ?_
  by_cases hcheck : history.value.checkAppend variant position count = .ok ()
  · obtain ⟨history', hrun, -, htokens⟩ := CompletedHistory.appendCompleted_ok hcheck
    rw [hrun]
    refine Triple.bind (triple_modify fun e' he' => ?_) fun _ => triple_pure () fun _ h => h
    exact he'.1.setHistory hgranted.allowed hwrites hstatus htokens.le
  · obtain ⟨error, hrun⟩ := CompletedHistory.appendCompleted_err hcheck
    rw [hrun]
    refine Triple.bind (triple_modify fun e' he' => ?_) fun _ => triple_fail error fun _ h => h
    have hsame : e'.histories.set slot history = e'.histories :=
      set_same (Outcome.unwrap_eq_ok.mp he'.2)
    rw [hsame]
    exact he'.1

theorem Closed.isSome (he : Closed e) : e.shared.isSome = true := by
  obtain ⟨s, hsafe, -⟩ := he
  rw [hsafe.shared]
  rfl

theorem Quiet.isSome (hq : Quiet e e') (he : e.shared.isSome = true) : e'.shared.isSome = true := by
  obtain ⟨f, rfl, -⟩ := hq
  simpa [mapPool] using he

/-- Finishing a call whose failure is its status. -/
theorem finish_spec {call : Foreign} (he : Closed e)
    (hcall : ∀ covered answer, call.failed covered answer = (answer.status != 0)) (ticket : Option Ticket) :
    Triple (Quiet (e.called call)) (finishInvocation ticket (e.world.answer (call :: e.calls)))
      (fun _ e' => Recorded e call e' ∧ (e.world.answer (call :: e.calls)).status = 0)
      (Recorded e call) := by
  have hboth := ((quiet_finishInvocation ticket (e.world.answer (call :: e.calls))).triple
    (e.called call)).and (finishInvocation_spec ticket (e.world.answer (call :: e.calls)))
  refine hboth.mono (fun e' hq => ⟨hq, hq.isSome he.isSome⟩) ?_ ?_
  · rintro _ e' ⟨hq, hstatus⟩
    refine ⟨(he.answered hq fun covered s _ _ hfailed => ?_).recorded hq, hstatus⟩
    rw [hcall, hstatus] at hfailed
    cases hfailed
  · rintro e' ⟨hq, hpoisoned⟩
    refine (he.answered hq fun covered s _ _ hfailed => hpoisoned ?_).recorded hq
    rw [hcall] at hfailed
    simpa using hfailed

/-- What a call leaves that seals nothing. -/
structure Left (e e' : Engine) : Prop where
  closed : Closed e'
  written : Written e e'
  seals : e'.sealedLeases = e.sealedLeases

/-- What an accepted write of a resident leaves, and what it has found. -/
structure Ran (e : Engine) (slot : Nat) (e' : Engine) : Prop extends Left e e' where
  healthy : ¬Poisoned e
  unsealed : Unsealed e slot

theorem Quiet.left (hq : Quiet e e') (he : Closed e) : Left e e' := by
  refine ⟨he.quiet hq, hq.written, ?_⟩
  obtain ⟨f, rfl, -⟩ := hq
  rfl

theorem Recorded.left {call : Foreign} (h : Recorded e call e') : Left e e' :=
  ⟨h.closed, h.written, h.seals⟩

/-- An invocation on the selected resident, from its reservation on. -/
theorem selected_spec {α : Type} {call : Foreign} (he : Closed e)
    (hcall : ∀ covered answer, call.failed covered answer = (answer.status != 0))
    (hwrites : call.writes e.selected e.selected) (variant : Variant) (position count : Nat)
    (reply : Answer → α) :
    Triple (· = e) (do
        let ticket ← beginInvocation position count
        let answer ← foreign call
        finishInvocation ticket answer
        appendCompleted e.selected variant position count
        Pure.pure (reply answer) : Call α)
      (fun _ => Ran e e.selected) (Left e) := by
  refine ((beginInvocation_spec he position count).error fun e' hq => hq.left he).bind fun ticket => ?_
  refine triple_of_fact fun hgranted => ?_
  refine (foreign_spec call).bind fun answer => triple_of_fact ?_
  rintro rfl
  refine ((finish_spec he hcall ticket).error fun _ h => h.left).bind fun _ => triple_of_fact fun hstatus => ?_
  refine ((recorded_appendCompleted hgranted hwrites hstatus).error fun _ h => h.left).bind fun _ => ?_
  exact triple_pure _ fun e' h => ⟨h.left, hgranted.healthy, hgranted.unsealed he⟩

theorem token_spec (he : Closed e) (value position : Nat) (sample : Bool) :
    Triple (· = e) (token value position sample) (fun _ => Ran e e.selected) (Left e) := by
  have hrefl : Left e e := (Quiet.refl e).left he
  unfold token
  refine triple_get_at ?_
  refine triple_lift_at hrefl fun history _ => ?_
  refine triple_lift_at hrefl fun variant _ => ?_
  refine triple_lift_at hrefl fun _ _ => ?_
  have hwrites : (Foreign.token value position sample).writes e.selected e.selected := rfl
  exact selected_spec he (fun _ _ => rfl) hwrites variant position 1 _

theorem prefill_spec (he : Closed e) (tokens : List Nat) (position : Nat) (sample : Bool) :
    Triple (· = e) (prefill tokens position sample) (fun _ => Ran e e.selected) (Left e) := by
  have hrefl : Left e e := (Quiet.refl e).left he
  unfold prefill
  refine triple_lift_at hrefl fun count _ => ?_
  refine triple_get_at ?_
  split
  · exact triple_fail_at hrefl
  · refine triple_lift_at hrefl fun variant _ => ?_
    refine triple_lift_at hrefl fun history _ => ?_
    refine triple_lift_at hrefl fun _ _ => ?_
    refine triple_require_at hrefl fun _ => ?_
    have hwrites : (Foreign.prefill tokens position sample).writes e.selected e.selected := rfl
    exact selected_spec he (fun _ _ => rfl) hwrites variant position count _

/-- After poisoning the pool, any answer is survived. -/
theorem recorded_poison {call : Foreign} (he : Closed e) {E : Engine → Prop} :
    Triple (Quiet (e.called call)) (onPool StatePool.poison) (fun _ => Recorded e call) E := by
  intro e₁ hq
  have hquiet := quiet_poison e₁
  have hpoisoned := @triple_poison (fun _ => False) e₁ (hq.isSome he.isSome)
  rcases hrun : onPool StatePool.poison e₁ with ⟨_ | _ | _, e₂⟩ <;> rw [hrun] at hquiet hpoisoned
  · have hq' := hq.trans hquiet
    exact (he.answered hq' fun _ _ _ _ _ => hpoisoned).recorded hq'
  · exact hpoisoned.elim
  · exact hpoisoned.elim

theorem recorded_ifShared_poison {call : Foreign} (he : Closed e) {E : Engine → Prop} :
    Triple (Quiet (e.called call)) (ifShared StatePool.poison) (fun _ => Recorded e call) E := by
  intro e₁ hq
  rw [ifShared, bind_ok (get_run e₁), if_pos (hq.isSome he.isSome)]
  exact recorded_poison he e₁ hq

/-! ## Batches -/

/-- The ticket waits for every rank that has state. -/
def Submitted (ticket : Option Ticket) (e : Engine) : Prop :=
  ∃ t s, ticket = some t ∧ e.shared = some s ∧ Linked s.pool ∧ s.pool.Live 1 ∧
    ∀ rank, s.pool.Outstanding t rank ↔ s.pool.BoundOn rank

/-- A loop of calls on the pool is a call of the loop. -/
theorem forEach_onPool {α : Type} {body : α → Method StatePool Error Unit} {as : List α} {p : StatePool}
    (hshared : e.shared = some s) (h : Method.forEach as body s.pool = (.ok (), p)) :
    Method.forEach as (fun a => onPool (body a)) e = (.ok (), e.mapPool fun _ => p) := by
  induction as generalizing e s with
  | nil =>
    obtain ⟨-, rfl⟩ := Prod.mk.inj h
    rw [mapPool, hshared]
    cases e
    cases hshared
    rfl
  | cons a as ih =>
    rw [Method.forEach, Method.bind_eq_ok] at h
    obtain ⟨_, q, hbody, hrest⟩ := h
    have hfirst : onPool (body a) e = (.ok (), { e with shared := some { s with pool := q } }) := by
      simp only [onPool, hshared, hbody]
    rw [Method.forEach, bind_ok hfirst, ih rfl hrest, mapPool, mapPool, hshared]
    rfl

/-- On states that cover the ranks, a call that came back well is completed. -/
theorem finishInvocation_ok {ticket : Option Ticket} {answer : Answer} (h : Submitted ticket e)
    (hshared : e.shared = some s) (hcovered : s.Covered) (hstatus : answer.status = 0) :
    ∃ p, finishInvocation ticket answer e = (.ok (), e.mapPool fun _ => p) ∧ Advanced s.pool p ∧
      p.Live 1 ∧ p.next = s.pool.next ∧ p.borrowers = s.pool.borrowers ∧
      ∀ t rank, p.Outstanding t rank ↔ s.pool.Outstanding t rank ∧ ticket ≠ some t := by
  obtain ⟨t, s', rfl, hshared', hlinked, hlive, hout⟩ := h
  obtain rfl := Option.some.inj (hshared.symm.trans hshared')
  have hranks : ∀ rank ∈ List.range s.ranks, s.pool.Outstanding t rank := by
    intro rank hrank
    rw [hout, hcovered]
    exact List.mem_range.mp hrank
  obtain ⟨p, hrun, hadvanced, hlive', hnext, hborrowers, hleft⟩ :=
    complete_ranks hlinked hlive List.nodup_range hranks
  refine ⟨p, ?_, hadvanced, hlive', hnext, hborrowers, fun t' rank => ?_⟩
  · have hcheck : check answer = .ok () := check_eq_ok.mpr hstatus
    unfold finishInvocation
    rw [bind_ok (get_run e), hshared, hcheck]
    exact forEach_onPool hshared hrun
  · rw [hleft]
    refine and_congr_right fun houtstanding => not_congr ?_
    rw [Option.some.injEq, and_iff_left_iff_imp]
    rintro rfl
    rw [List.mem_range, ← hcovered, ← hout]
    exact houtstanding

theorem submit_submitted {leases : List Lease} {reads : List Borrow} {t : Ticket} {p : StatePool}
    (hlinked : Linked s.pool) (h : Accepted s.pool (.submit 1 leases reads) (.ticket t) p) :
    Linked p ∧ p.Live 1 ∧ ∀ rank, p.Outstanding t rank ↔ p.BoundOn rank := by
  obtain ⟨t', ht', hpool, hid, hnext, hout⟩ := h.outstanding_submit hlinked
  obtain rfl : t = t' := by cases ht'; rfl
  have hlive : s.pool.Live 1 := by
    cases h with
    | submit hlive => exact hlive
  refine ⟨h.linked hlinked, ?_, fun rank => ?_⟩
  · cases h
    exact ⟨hlive.healthy, hlive.current⟩
  · rw [hout, h.frame.boundOn]
    constructor
    · rintro (hold | ⟨-, hbound⟩)
      · obtain ⟨-, f, hflight, -⟩ := hold
        rw [hid, hlinked.fresh_ticket] at hflight
        cases hflight
      · exact hbound
    · exact fun hbound => .inr ⟨rfl, hbound⟩

theorem batchLease_eq_ok {input : BatchInput} {l : Lease} :
    batchLease s input = .ok l ↔ ∃ limit, s.tokenLimits[input.resident]? = some limit ∧
      input.position + input.tokens.length ≤ limit ∧ s.leases[input.resident]? = some (some l) := by
  simp only [batchLease, Outcome.bind_eq_ok, Outcome.unwrap_eq_ok]
  refine exists_congr fun limit => and_congr_right fun _ => ?_
  split
  · simp only [invalid_ne_ok, false_iff]
    omega
  · rw [leaseOf_eq_ok, and_iff_right (by omega)]

theorem submitBatch_spec (he : Closed e) (inputs : List BatchInput) :
    Triple (· = e) (submitBatch inputs)
      (fun ticket e' => (Quiet e e' ∧ Submitted ticket e') ∧
        ∀ input ∈ inputs, Granted e input.resident (input.position + input.tokens.length))
      (Quiet e) := by
  obtain ⟨s, hsafe, -⟩ := he
  have hgranted : Triple (· = e) (submitBatch inputs)
      (fun ticket e' => Submitted ticket e' ∧
        ∀ input ∈ inputs, Granted e input.resident (input.position + input.tokens.length))
      (fun _ => True) := by
    unfold submitBatch
    refine triple_get_at ?_
    rw [hsafe.shared]
    refine triple_lift_at trivial fun leases hleases => ?_
    refine ((triple_onPool (.submit 1 leases []) .ticket rfl hsafe.shared
      hsafe.linked).error fun _ _ => trivial).bind fun ticket => ?_
    refine triple_pure _ ?_
    rintro _ ⟨p, haccepted, rfl⟩
    obtain ⟨hlinked, hlive, hout⟩ := submit_submitted hsafe.linked haccepted
    refine ⟨⟨ticket, { s with pool := p }, rfl, ?_, hlinked, hlive, hout⟩, fun input hinput => ?_⟩
    · rw [mapPool, hsafe.shared]
      rfl
    · obtain ⟨l, hl, hlease⟩ := Outcome.collect_mem hleases hinput
      obtain ⟨limit, hlimit, hbound, hlease⟩ := batchLease_eq_ok.mp hlease
      exact submit_granted hsafe.shared haccepted hl hlease hlimit hbound
  refine (((quiet_submitBatch inputs).triple e).and hgranted).mono ?_
    (fun _ _ h => ⟨⟨h.1, h.2.1⟩, h.2.2⟩) (fun _ h => h.1)
  rintro _ rfl
  exact ⟨.refl _, rfl⟩

theorem Quiet.covered (hq : Quiet e e') {s' : SharedState} (hshared : e.shared = some s)
    (hlinked : Linked s.pool) (hshared' : e'.shared = some s') (hcovered : s'.Covered) : s.Covered := by
  obtain ⟨f, rfl, hf⟩ := hq
  rw [mapPool, hshared] at hshared'
  obtain rfl := Option.some.inj hshared'
  intro rank
  rw [← (hf s hshared hlinked).frame.boundOn]
  exact hcovered rank

/-- Finishing a batch: an error that is not the status needs a rank without state. -/
theorem finishBatch_spec (he : Closed e) (inputs : List BatchInput) (ticket : Option Ticket) :
    Triple (fun e' => Quiet (e.called (.batch inputs)) e' ∧ Submitted ticket e')
      (finishInvocation ticket (e.world.answer (.batch inputs :: e.calls)))
      (fun _ e' => Quiet (e.called (.batch inputs)) e' ∧
        (e.world.answer (.batch inputs :: e.calls)).status = 0)
      (Recorded e (.batch inputs)) := by
  rintro e₁ ⟨hq, hsubmitted⟩
  have hquiet := quiet_finishInvocation ticket (e.world.answer (.batch inputs :: e.calls)) e₁
  have hspec := finishInvocation_spec ticket (e.world.answer (.batch inputs :: e.calls)) e₁
    (hq.isSome he.isSome)
  obtain ⟨t, s, hticket, hshared, hlinked, hlive, hout⟩ := id hsubmitted
  have hfailed : ∀ e', Quiet e₁ e' →
      (finishInvocation ticket (e.world.answer (.batch inputs :: e.calls)) e₁).1 ≠ .ok () →
      ((e.world.answer (.batch inputs :: e.calls)).status ≠ 0 → Poisoned e') →
      Recorded e (.batch inputs) e' := by
    intro e' hq' hrun hpoisoned
    refine (he.answered (hq.trans hq') fun covered s' hcovered hshared' hfailed => ?_).recorded
      (hq.trans hq')
    rw [Foreign.failed, Bool.or_eq_true_iff] at hfailed
    rcases hfailed with hstatus | hcount
    · exact hpoisoned (by simpa using hstatus)
    · -- With every rank covered the completions succeed, so the status is to blame.
      by_contra hhealthy
      have hstatus : (e.world.answer (.batch inputs :: e.calls)).status = 0 :=
        not_not.mp (mt hpoisoned hhealthy)
      have hcovers := hq'.covered hshared hlinked hshared'
        (hcovered (Bool.and_eq_true_iff.mp hcount).1)
      obtain ⟨p, hok, -⟩ := finishInvocation_ok hsubmitted hshared hcovers hstatus
      rw [hok] at hrun
      exact hrun rfl
  rcases hrun : finishInvocation ticket (e.world.answer (.batch inputs :: e.calls)) e₁ with
    ⟨_ | error | _, e'⟩ <;> rw [hrun] at hquiet hspec hfailed
  · exact ⟨hq.trans hquiet, hspec⟩
  · exact hfailed e' hquiet (by simp) hspec
  · exact hfailed e' hquiet (by simp) hspec

theorem foreignBatch_spec (inputs : List BatchInput) (ticket : Option Ticket) {E : Engine → Prop} :
    Triple (fun e' => Quiet e e' ∧ Submitted ticket e') (foreign (.batch inputs))
      (fun answer e' => (Quiet (e.called (.batch inputs)) e' ∧ Submitted ticket e') ∧
        answer = e.world.answer (.batch inputs :: e.calls)) E := by
  rintro _ ⟨⟨f, rfl, hf⟩, hsubmitted⟩
  exact ⟨⟨⟨f, rfl, hf⟩, hsubmitted⟩, rfl⟩

theorem batch_spec (he : Closed e) (inputs : List BatchInput) :
    Triple (· = e) (batch inputs)
      (fun _ e' => Left e e' ∧ ¬Poisoned e ∧ ∀ input ∈ inputs, Unsealed e input.resident) (Left e) := by
  have hrefl : Left e e := (Quiet.refl e).left he
  unfold batch
  refine triple_require_at hrefl fun _ => ?_
  refine triple_get_at ?_
  refine triple_lift_at hrefl fun packed hpacked => ?_
  refine triple_lift_at hrefl fun base _ => ?_
  refine triple_lift_at hrefl fun members hmembers => ?_
  refine ((submitBatch_spec he inputs).error fun _ hq => hq.left he).bind fun ticket =>
    triple_of_fact fun hgranted => ?_
  refine (foreignBatch_spec inputs ticket).bind fun answer => triple_of_fact ?_
  rintro rfl
  refine ((finishBatch_spec he inputs ticket).error fun _ h => h.left).bind fun _ =>
    triple_of_fact fun hstatus => ?_
  extract_lets sampled
  split
  · exact (recorded_ifShared_poison he).bind fun _ => triple_fail _ fun _ h => h.left
  · rename_i hcount
    have hrecorded : ∀ e', Quiet (e.called (.batch inputs)) e' → Recorded e (.batch inputs) e' := by
      intro e' hq
      refine (he.answered hq fun covered _ _ _ hfailed => ?_).recorded hq
      have hlength : (e.world.answer (.batch inputs :: e.calls)).output.length =
          (inputs.filter BatchInput.sample).length := not_not.mp hcount
      rw [Foreign.failed, hstatus, hlength] at hfailed
      simp at hfailed
    have hloop : Triple (Recorded e (.batch inputs)) (Method.forEach members fun member =>
        appendCompleted member.1.resident member.2 member.1.position member.1.tokens.length)
        (fun _ => Recorded e (.batch inputs)) (Recorded e (.batch inputs)) := by
      refine triple_forEach fun member hmember => ?_
      have hinput : member.1 ∈ inputs := by
        rw [← batchMembers_fst hmembers]
        exact List.mem_map_of_mem hmember
      exact recorded_appendCompleted (hgranted _ hinput) ⟨_, hinput, rfl⟩ hstatus
    have hsome : inputs ≠ [] := by
      rintro rfl
      simp [packBatch] at hpacked
    obtain ⟨input, hinput⟩ := List.exists_mem_of_ne_nil inputs hsome
    refine (hloop.mono hrecorded (fun _ _ h => h) fun _ h => h.left).bind fun _ => ?_
    exact triple_pure _ fun e' h => ⟨h.left, (hgranted input hinput).healthy,
      fun input hinput => (hgranted input hinput).unsealed he⟩

end Engine

end Inferfabric.Native
