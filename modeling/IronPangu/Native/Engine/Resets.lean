-- SUMMARY: Resets and preparations keep the engine's invariant: what a reset clears, what it hands back, and what a new reservation takes.
import IronPangu.Native.Engine.Invocations

open Rust Std

namespace Inferfabric.Native

open Inferfabric.Ir Inferfabric.Runtime

namespace Engine

open Method StatePool

variable {e e' : Engine} {s : SharedState} {slot : Nat}

/-! ## Histories of a reset -/

/-- Histories are left or cleared, and nothing is sealed or unsealed. -/
structure Wiped (e e' : Engine) : Prop where
  histories : ∀ slot : Nat, e'.histories[slot]? = e.histories[slot]? ∨
    e'.histories[slot]? = some CompletedHistory.default
  seals : e'.sealedLeases = e.sealedLeases

theorem Wiped.of_eq (hhistories : e'.histories = e.histories) (hseals : e'.sealedLeases = e.sealedLeases) :
    Wiped e e' :=
  ⟨fun slot => .inl (by rw [hhistories]), hseals⟩

theorem Wiped.trans {e'' : Engine} (h : Wiped e e') (h' : Wiped e' e'') : Wiped e e'' := by
  refine ⟨fun slot => ?_, h'.seals.trans h.seals⟩
  rcases h'.histories slot with hsame | hcleared
  · rw [hsame]
    exact h.histories slot
  · exact .inr hcleared

instance : Steps Wiped := ⟨fun _ => .of_eq rfl rfl, Wiped.trans⟩

theorem Wiped.left (h : Wiped e e') (hclosed : Closed e') : Left e e' :=
  ⟨hclosed, fun slot => (h.histories slot).imp_right .inl, h.seals⟩

theorem wiped_foreign (call : Foreign) : Keeps Wiped (foreign call) := fun _ => .of_eq rfl rfl

theorem wiped_onPool {α : Type} (m : Method StatePool Error α) : Keeps Wiped (onPool m) := by
  intro e
  unfold onPool
  cases hshared : e.shared with
  | none => exact .of_eq rfl rfl
  | some s => exact .of_eq rfl rfl

theorem wiped_ifShared (m : Method StatePool Error Unit) : Keeps Wiped (ifShared m) := by
  unfold ifShared
  refine keeps_get.bind fun e => ?_
  split
  · exact wiped_onPool m
  · exact keeps_pure ()

theorem wiped_modifyShared (f : SharedState → SharedState) : Keeps Wiped (modifyShared f) :=
  keeps_modify fun _ => .of_eq rfl rfl

theorem wiped_auditHistory (slot : Nat) : Keeps Wiped (auditHistory slot) := by
  unfold auditHistory
  refine keeps_get.bind fun e => ?_
  split
  · refine (keeps_lift _).bind fun history => ?_
    split
    · exact keeps_pure ()
    · refine (keeps_lift _).bind fun sequence => ?_
      refine (keeps_lift _).bind fun _ => ?_
      refine (wiped_foreign _).bind fun _ => ?_
      refine (keeps_read _).bind fun _ => ?_
      exact keeps_modify fun _ => .of_eq rfl rfl
  · exact keeps_pure ()

theorem wiped_resetUnshared : Keeps Wiped resetUnshared := by
  unfold resetUnshared
  refine (wiped_foreign _).bind fun answer => ?_
  refine (keeps_lift _).bind fun _ => ?_
  refine keeps_get.bind fun e => ?_
  refine (Keeps.forEach wiped_auditHistory _).bind fun _ => ?_
  refine keeps_modify fun e => ⟨fun slot => ?_, rfl⟩
  rw [List.getElem?_map]
  cases e.histories[slot]? with
  | none => exact .inl rfl
  | some history => exact .inr rfl

theorem wiped_selectResident (slot : Nat) : Keeps Wiped (selectResident slot) := by
  unfold selectResident
  refine keeps_get.bind fun e => ?_
  split
  · exact keeps_pure ()
  · refine (keeps_require _ _).bind fun _ => ?_
    refine (wiped_foreign _).bind fun answer => ?_
    refine (keeps_lift _).bind fun _ => ?_
    exact keeps_modify fun _ => .of_eq rfl rfl

theorem wiped_returnPages (slot : Nat) : Keeps Wiped (returnPages slot) := by
  unfold returnPages
  refine keeps_get.bind fun e => ?_
  split
  · exact keeps_pure ()
  · refine (keeps_lift _).bind fun lease => ?_
    refine (wiped_modifyShared _).bind fun _ => ?_
    split
    · exact keeps_pure ()
    · exact wiped_onPool _

theorem wiped_finishReset (slot : Nat) : Keeps Wiped (finishReset slot) := by
  have hset : Keeps Wiped (setHistory slot CompletedHistory.default) := by
    unfold setHistory
    refine (keeps_read _).bind fun _ => ?_
    refine keeps_modify fun e => ⟨fun slot' => ?_, rfl⟩
    rw [List.getElem?_set]
    split
    · rename_i heq
      subst heq
      split
      · exact .inr rfl
      · rename_i hbound
        exact .inl (List.getElem?_eq_none (Nat.not_lt.mp hbound)).symm
    · exact .inl rfl
  unfold finishReset
  refine (wiped_auditHistory slot).attempt.bind fun audit => ?_
  refine (keeps_read _).bind fun _ => ?_
  refine hset.bind fun _ => ?_
  refine Keeps.bind ?_ fun _ => (wiped_returnPages slot).bind fun _ => keeps_lift audit
  unfold setImported
  refine (keeps_read _).bind fun _ => ?_
  exact keeps_modify fun _ => .of_eq rfl rfl

theorem wiped_resetResident (slot : Nat) : Keeps Wiped (resetResident slot) := by
  have hfallback : Keeps Wiped resetFallback := by
    unfold resetFallback
    refine (keeps_require _ _).bind fun _ => ?_
    refine keeps_get.bind fun e => ?_
    split
    · exact keeps_lift _
    · exact wiped_resetUnshared
  unfold resetResident
  refine (keeps_read _).bind fun taken => ?_
  split
  · exact keeps_fail _
  · refine Keeps.bind (keeps_read _) fun _ => ?_
    refine keeps_get.bind fun e => ?_
    split
    · exact hfallback
    · refine (keeps_require _ _).bind fun _ => ?_
      refine (wiped_foreign _).bind fun answer => ?_
      split
      · exact wiped_finishReset slot
      · exact (wiped_ifShared _).bind fun _ => keeps_lift _

theorem wiped_reset : Keeps Wiped reset := by
  unfold reset
  refine (keeps_require _ _).bind fun _ => ?_
  refine keeps_get.bind fun e => ?_
  split
  · exact wiped_resetUnshared
  · exact (Keeps.forEach wiped_resetResident _).bind fun _ => wiped_selectResident 0

theorem wiped_releaseResident (slot : Nat) : Keeps Wiped (releaseResident slot) := by
  unfold releaseResident
  refine keeps_get.bind fun e => ?_
  split
  · exact wiped_resetResident slot
  · exact keeps_pure ()

theorem wiped_prepareShared (slot tokens : Nat) (s : SharedState) :
    Keeps Wiped (prepareShared slot tokens s) := by
  have hcount : ∀ bindings, Keeps Wiped (countAdmission slot bindings) := by
    intro bindings
    unfold countAdmission
    refine (keeps_read _).bind fun s => ?_
    refine (keeps_lift _).bind fun crossing => ?_
    refine (keeps_lift _).bind fun usage => ?_
    exact wiped_modifyShared _
  have hbind : ∀ binding, Keeps Wiped (bindState binding) := by
    intro binding
    unfold bindState
    refine (keeps_lift _).bind fun _ => ?_
    refine (wiped_foreign _).bind fun answer => ?_
    split
    · exact keeps_pure ()
    · exact (wiped_onPool _).bind fun _ => keeps_lift _
  unfold prepareShared
  refine (keeps_lift _).bind fun request => ?_
  refine (wiped_modifyShared _).bind fun _ => ?_
  refine (keeps_lift _).bind fun _ => ?_
  refine (wiped_onPool _).bind fun lease => ?_
  refine (wiped_modifyShared _).bind fun _ => ?_
  refine (wiped_onPool _).bind fun bindings => ?_
  refine (hcount _).bind fun _ => ?_
  refine (keeps_require _ _).bind fun _ => ?_
  exact Keeps.forEach hbind _

theorem wiped_prepareResident (slot tokens : Nat) : Keeps Wiped (prepareResident slot tokens) := by
  unfold prepareResident
  refine (wiped_resetResident slot).bind fun _ => ?_
  refine (wiped_selectResident slot).bind fun _ => ?_
  refine keeps_get.bind fun e => ?_
  split
  · exact keeps_pure ()
  · exact wiped_prepareShared slot tokens _

theorem wiped_bindPages (rank : Nat) (component : String) (pages : List Nat) :
    Keeps Wiped (bindPages rank component pages) := by
  unfold bindPages
  refine (keeps_require _ _).bind fun _ => ?_
  refine (keeps_require _ _).bind fun _ => ?_
  refine (keeps_lift _).bind fun pages => ?_
  refine (keeps_lift _).bind fun _ => ?_
  exact (wiped_foreign _).bind fun answer => keeps_lift _

/-! ## Reservations of a reset -/

/-- Changes beside what the invariant speaks of. -/
theorem Closed.congr (h : Closed e) (hshared : ∀ s, e.shared = some s → ∃ s', e'.shared = some s' ∧
      s'.pool = s.pool ∧ s'.leases = s.leases ∧ s'.tokenLimits = s.tokenLimits ∧ s'.ranks = s.ranks)
    (hworld : e'.world = e.world) (hcalls : e'.calls = e.calls) (hhistories : e'.histories = e.histories)
    (himported : e'.importedTokens.length = e.importedTokens.length)
    (hseals : e'.sealedLeases = e.sealedLeases) : Closed e' := by
  obtain ⟨s, hsafe, hclosed⟩ := h
  obtain ⟨s', hs', hpool, hleases, hlimits, hranks⟩ := hshared s hsafe.shared
  refine ⟨s', hsafe.congr hs' hworld hhistories himported hseals hpool hleases hlimits, ?_⟩
  rw [hworld, hcalls, hpool]
  intro covered hcovered
  refine hclosed covered fun h rank => ?_
  rw [← hpool, ← hranks]
  exact hcovered h rank

/-- A call whose answer does not matter to the pool. -/
theorem closed_foreign {call : Foreign} (hcall : ∀ covered answer, call.failed covered answer = false)
    {E : Engine → Prop} : Triple Closed (foreign call) (fun _ => Closed) E := by
  intro e he
  refine he.answered (Quiet.refl _) fun covered s _ _ hfailed => ?_
  rw [hcall] at hfailed
  cases hfailed

theorem closed_auditHistory (slot : Nat) : Triple Closed (auditHistory slot) (fun _ => Closed) Closed := by
  have hsame : ∀ e, Closed e → Closed e := fun _ h => h
  unfold auditHistory
  refine triple_get_bind fun e => ?_
  split
  · refine triple_lift_bind hsame fun history _ => ?_
    split
    · exact triple_pure () hsame
    · refine triple_lift_bind hsame fun sequence _ => ?_
      refine triple_lift_bind hsame fun _ _ => ?_
      refine (closed_foreign fun _ _ => rfl).bind fun _ => ?_
      refine triple_read_bind hsame fun _ => ?_
      exact triple_modify fun e he =>
        he.congr (fun s hs => ⟨s, hs, rfl, rfl, rfl, rfl⟩) rfl rfl rfl rfl rfl
  · exact triple_pure () hsame

theorem closed_selectResident (slot : Nat) :
    Triple Closed (selectResident slot) (fun _ => Closed) Closed := by
  have hsame : ∀ e, Closed e → Closed e := fun _ h => h
  unfold selectResident
  refine triple_get_bind fun e => ?_
  split
  · exact triple_pure () hsame
  · refine triple_require_bind hsame ?_
    refine (closed_foreign fun _ _ => rfl).bind fun answer => ?_
    refine triple_lift_bind hsame fun _ _ => ?_
    exact triple_modify fun e he =>
      he.congr (fun s hs => ⟨s, hs, rfl, rfl, rfl, rfl⟩) rfl rfl rfl rfl rfl

/-- A resident that is not sealed may lose its reservation. -/
theorem SafeWith.dropLease (h : SafeWith e s) (hslot : Unsealed e slot) :
    SafeWith { e with shared := some { s with leases := s.leases.set slot none } }
      { s with leases := s.leases.set slot none } := by
  have hkept : ∀ {slot' : Nat} {l : Lease}, (s.leases.set slot none)[slot']? = some (some l) →
      slot ≠ slot' ∧ s.leases[slot']? = some (some l) := by
    intro slot' l hlease
    rw [List.getElem?_set] at hlease
    split at hlease
    · split at hlease <;> cases hlease
    · exact ⟨‹_›, hlease⟩
  exact {
    shared := rfl
    linked := h.linked
    symbols := h.symbols
    leases := (List.length_set).trans h.leases
    limits := h.limits
    imported := h.imported
    seals := h.seals
    held := fun hlease => h.held (hkept hlease).2
    distinct := fun hlease hlease' => h.distinct (hkept hlease).2 (hkept hlease').2
    fits := fun hlease => h.fits (hkept hlease).2
    sealedIn := fun {slot' l} hsealed => by
      refine (h.sealedIn hsealed).imp_right fun hin => ⟨?_, hin.2⟩
      have hne : slot ≠ slot' := by
        rintro rfl
        exact hslot l hsealed
      rw [List.getElem?_set_ne hne]
      exact hin.1 }

/-- Retiring a lease no resident holds. -/
theorem SafeWith.retire {l : Lease} {reply : Runtime.Reply} {p : StatePool} (h : SafeWith e s)
    (haccepted : Accepted s.pool (.retire 1 l) reply p)
    (hfree : ∀ slot : Nat, s.leases[slot]? ≠ some (some l)) :
    SafeWith (e.mapPool fun _ => p) { s with pool := p } := by
  have hother : ∀ {slot : Nat} {l' : Lease}, s.leases[slot]? = some (some l') →
      ∀ epoch, Runtime.Op.retire 1 l ≠ .retire epoch l' := by
    rintro slot l' hlease epoch heq
    cases heq
    exact hfree slot hlease
  exact {
    shared := by
      rw [Engine.mapPool, h.shared]
      rfl
    linked := haccepted.linked h.linked
    symbols := h.symbols
    leases := h.leases
    limits := h.limits
    imported := h.imported
    seals := h.seals
    held := fun hlease => by
      obtain ⟨limit, hlimit, hcontext, hheld⟩ := h.held hlease
      exact ⟨limit, hlimit, haccepted.frame.maxContext ▸ hcontext,
        haccepted.held h.linked (hother hlease) hheld⟩
    distinct := h.distinct
    fits := h.fits
    sealedIn := fun hsealed => by
      rcases h.sealedIn hsealed with hpoisoned | ⟨hlease, hsealed⟩
      · exact .inl (haccepted.frame.poisoned hpoisoned)
      · exact .inr ⟨hlease, haccepted.sealedIn h.linked (hother hlease) hsealed⟩ }

/-- The resident has been reset: it has no history, no reservation and no seal. -/
structure Blank (slot : Nat) (e : Engine) : Prop where
  history : e.histories[slot]? = some CompletedHistory.default
  lease : ∀ s, e.shared = some s → s.leases[slot]? = some none
  unsealed : Unsealed e slot

theorem closed_returnPages (slot : Nat) :
    Triple (fun e => Closed e ∧ Unsealed e slot ∧ e.histories[slot]? = some CompletedHistory.default)
      (returnPages slot) (fun _ e => Closed e ∧ Blank slot e) Closed := by
  refine triple_at fun e he => ?_
  obtain ⟨⟨s, hsafe, hclosed⟩, hunsealed, hhistory⟩ := he
  have hclosed₀ : Closed e := ⟨s, hsafe, hclosed⟩
  unfold returnPages
  refine triple_get_at ?_
  rw [hsafe.shared]
  refine triple_lift_at hclosed₀ fun lease hlease => ?_
  rw [Outcome.okOr_eq_ok] at hlease
  refine triple_modify_at ?_
  rw [hsafe.shared]
  have hdropped := hsafe.dropLease hunsealed
  have hblank : (s.leases.set slot none)[slot]? = some none :=
    List.getElem?_set_self (List.getElem?_eq_some_iff.mp hlease).1
  have hclosed₁ : Closed { e with shared := some { s with leases := s.leases.set slot none } } :=
    ⟨_, hdropped, hclosed⟩
  cases lease with
  | none =>
    refine triple_pure_at ⟨hclosed₁, hhistory, ?_, hunsealed⟩
    rintro _ ⟨⟩
    exact hblank
  | some l =>
    refine (triple_onPool (.retire 1 l) (fun _ => .done) rfl hdropped.shared
      hdropped.linked).mono (fun _ h => h) ?_ ?_
    · rintro _ _ ⟨p, haccepted, rfl⟩
      have hfree : ∀ slot' : Nat, (s.leases.set slot none)[slot']? ≠ some (some l) := by
        intro slot' hlease'
        rw [List.getElem?_set] at hlease'
        split at hlease'
        · split at hlease' <;> cases hlease'
        · exact absurd (hsafe.distinct hlease hlease') ‹_›
      refine ⟨⟨_, hdropped.retire haccepted hfree, fun covered hcovered hfailed => ?_⟩, hhistory, ?_,
        hunsealed⟩
      · refine haccepted.frame.poisoned (hclosed covered (fun h rank => ?_) hfailed)
        exact haccepted.frame.boundOn.symm.trans (hcovered h rank)
      · rintro _ ⟨⟩
        exact hblank
    · rintro _ rfl
      exact hclosed₁

theorem Wiped.unsealed (h : Wiped e e') (he : Unsealed e slot) : Unsealed e' slot := by
  intro l
  rw [h.seals]
  exact he l

theorem default_tokens : CompletedHistory.default.value.tokens = 0 := rfl

theorem closed_clearHistory (slot : Nat) :
    Triple (fun e => Closed e ∧ Unsealed e slot) (setHistory slot CompletedHistory.default)
      (fun _ e => Closed e ∧ Unsealed e slot ∧ e.histories[slot]? = some CompletedHistory.default)
      Closed := by
  unfold setHistory
  refine (triple_read _ fun _ h => h.1).bind fun history => triple_modify ?_
  rintro e ⟨⟨⟨s, hsafe, hclosed⟩, hunsealed⟩, hhistory⟩
  rw [Outcome.unwrap_eq_ok] at hhistory
  refine ⟨⟨s, hsafe.setHistory fun _ limit _ _ => ?_, hclosed⟩, hunsealed, ?_⟩
  · rw [default_tokens]
    exact Nat.zero_le limit
  · exact List.getElem?_set_self (List.getElem?_eq_some_iff.mp hhistory).1

theorem unsealed_auditHistory (slot : Nat) :
    Triple (fun e => Closed e ∧ Unsealed e slot) (auditHistory slot)
      (fun _ e => Closed e ∧ Unsealed e slot) (fun e => Closed e ∧ Unsealed e slot) := by
  refine triple_at fun e he => ?_
  refine ((closed_auditHistory slot).and ((wiped_auditHistory slot).triple e)).mono ?_ ?_ ?_
  · rintro _ rfl
    exact ⟨he.1, Steps.refl _⟩
  · exact fun _ e' h => ⟨h.1, h.2.unsealed he.2⟩
  · exact fun e' h => ⟨h.1, h.2.unsealed he.2⟩

theorem cleared_setImported (slot tokens : Nat) :
    Triple (fun e => Closed e ∧ Unsealed e slot ∧ e.histories[slot]? = some CompletedHistory.default)
      (setImported slot tokens)
      (fun _ e => Closed e ∧ Unsealed e slot ∧ e.histories[slot]? = some CompletedHistory.default)
      Closed := by
  unfold setImported
  refine triple_read_bind (fun _ h => h.1) fun _ => triple_modify ?_
  exact fun e he => ⟨he.1.congr (fun s hs => ⟨s, hs, rfl, rfl, rfl, rfl⟩) rfl rfl rfl
    List.length_set rfl, he.2⟩

theorem closed_finishReset (slot : Nat) :
    Triple (fun e => Closed e ∧ Unsealed e slot) (finishReset slot)
      (fun _ e => Closed e ∧ Blank slot e) Closed := by
  have hrest : ∀ audit : Result Unit, Triple (fun e => Closed e ∧ Unsealed e slot) (do
        let _ ← Method.read fun e => e.arithmeticHistory slot
        setHistory slot CompletedHistory.default
        setImported slot 0
        returnPages slot
        Method.lift audit : Call Unit) (fun _ e => Closed e ∧ Blank slot e) Closed := by
    intro audit
    refine triple_read_bind (fun _ h => h.1) fun _ => ?_
    refine (closed_clearHistory slot).bind fun _ => ?_
    refine (cleared_setImported slot 0).bind fun _ => ?_
    refine (closed_returnPages slot).bind fun _ => ?_
    exact (triple_lift audit fun _ h => h.1).post fun _ _ h => h.1
  unfold finishReset
  refine ((unsealed_auditHistory slot).attempt.error fun _ h => h.1).bind fun audit => ?_
  refine (hrest audit).pre ?_
  cases audit with
  | ok _ => exact fun _ h => h
  | err _ => exact fun _ h => h
  | panic => exact fun _ h => h.elim

theorem closed_resetResident (slot : Nat) :
    Triple Closed (resetResident slot)
      (fun _ e => Closed e ∧ Blank slot e) Closed := by
  refine triple_at fun e he => ?_
  obtain ⟨s, hsafe, -⟩ := id he
  unfold resetResident
  refine triple_read_at he fun taken htaken => ?_
  rw [Outcome.okOr_eq_ok] at htaken
  split
  · exact triple_fail_at he
  rename_i hfree
  have hunsealed : Unsealed e slot := by
    intro l hl
    obtain rfl := Option.some.inj (htaken.symm.trans hl)
    exact hfree rfl
  refine triple_read_at he fun _ _ => ?_
  refine triple_get_at ?_
  rw [if_neg (by simp [hsafe.symbols])]
  refine triple_require_at he fun _ => ?_
  refine ((@foreign_spec e (.resetResident slot) Closed).pre ?_).bind fun answer => triple_of_fact ?_
  · rintro _ rfl
    exact Quiet.refl _
  rintro rfl
  have hrefused : ∀ status : Result Unit, (∀ u, status ≠ .ok u) →
      Triple (Quiet (e.called (.resetResident slot))) (do
        ifShared StatePool.poison
        Method.lift status : Call Unit) (fun _ e => Closed e ∧ Blank slot e) Closed := by
    intro status hstatus
    refine (recorded_ifShared_poison he).bind fun _ => ?_
    exact triple_lift_not_ok hstatus fun _ h => h.closed
  cases hcheck : check (e.world.answer (.resetResident slot :: e.calls)) with
  | ok u =>
    refine (closed_finishReset slot).pre fun e' hq => ⟨he.answered hq fun _ _ _ _ hfailed => ?_, ?_⟩
    · rw [Foreign.failed, check_eq_ok.mp hcheck] at hfailed
      cases hfailed
    · obtain ⟨f, rfl, -⟩ := hq
      exact hunsealed
  | err error => exact hrefused _ fun _ h => by cases h
  | panic => exact hrefused _ fun _ h => by cases h

theorem closed_releaseResident (slot : Nat) :
    Triple Closed (releaseResident slot) (fun _ => Closed) Closed := by
  unfold releaseResident
  refine triple_get_bind fun e => ?_
  split
  · exact (closed_resetResident slot).post fun _ _ h => h.1
  · exact triple_pure () fun _ h => h

theorem closed_reset : Triple Closed reset (fun _ => Closed) Closed := by
  refine triple_at fun e he => ?_
  obtain ⟨s, hsafe, -⟩ := id he
  unfold reset
  refine triple_require_at he fun _ => ?_
  refine triple_get_at ?_
  rw [hsafe.shared]
  refine Triple.pre ?_ fun e' heq => (heq ▸ he : Closed e')
  refine (triple_forEach fun slot _ => ?_).bind fun _ => closed_selectResident 0
  exact (closed_resetResident slot).post fun _ _ h => h.1

/-! ## What a reset does -/

/-- The audit file of the resident cannot be written. -/
def Unaudited (e : Engine) (slot : Nat) : Prop :=
  e.world.auditing = true ∧ ∃ history, e.histories[slot]? = some history ∧ history.value.tokens ≠ 0 ∧
    (u64Max ≤ e.historyAuditSequence ∨
      e.world.audit (.audit (e.historyAuditSequence + 1) slot :: e.calls) ≠ none)

/-- The calls after one that may have written an audit file. -/
def AuditedCalls (slot : Nat) (calls calls' : List Foreign) : Prop :=
  calls' = calls ∨ ∃ sequence, calls' = .audit sequence slot :: calls

theorem arithmeticHistory_ok (h : slot < e.histories.length) :
    e.arithmeticHistory slot = .ok e.histories[slot] := by
  rw [arithmeticHistory, List.getElem?_eq_getElem h, Outcome.okOr_some]

/-- The engine after an audit that could be written, or was not asked for. -/
def audited (e : Engine) (slot : Nat) : Engine :=
  if e.world.auditing = true ∧ (e.histories[slot]?.any fun h => h.value.tokens != 0) = true then
    { e with
      calls := .audit (e.historyAuditSequence + 1) slot :: e.calls
      historyAuditSequence := e.historyAuditSequence + 1 }
  else e

theorem auditHistory_run (hslot : slot < e.histories.length)
    (himported : e.importedTokens.length = e.histories.length) :
    ∃ reply calls sequence,
      auditHistory slot e = (reply, { e with calls := calls, historyAuditSequence := sequence }) ∧
      reply ≠ .panic ∧ (reply = .ok () ↔ ¬Unaudited e slot) ∧ AuditedCalls slot e.calls calls ∧
      (reply = .ok () → { e with calls := calls, historyAuditSequence := sequence } = e.audited slot) := by
  have himport : (Outcome.unwrap e.importedTokens[slot]? : Result Nat) = .ok e.importedTokens[slot] := by
    rw [List.getElem?_eq_getElem, Outcome.unwrap_some]
  have hhistory := arithmeticHistory_ok hslot
  have hunaudited : Unaudited e slot ↔ e.world.auditing = true ∧ e.histories[slot].value.tokens ≠ 0 ∧
      (u64Max ≤ e.historyAuditSequence ∨
        e.world.audit (.audit (e.historyAuditSequence + 1) slot :: e.calls) ≠ none) := by
    simp [Unaudited, List.getElem?_eq_getElem hslot]
  have haudited : e.audited slot =
      if e.world.auditing = true ∧ e.histories[slot].value.tokens ≠ 0 then
        { e with
          calls := .audit (e.historyAuditSequence + 1) slot :: e.calls
          historyAuditSequence := e.historyAuditSequence + 1 }
      else e := by
    simp [audited, List.getElem?_eq_getElem hslot]
  unfold auditHistory
  rw [hunaudited, haudited, bind_ok (get_run e)]
  by_cases hauditing : e.world.auditing = true
  · simp only [hauditing, if_true, true_and, bind_run, lift_run, hhistory]
    by_cases htokens : e.histories[slot].value.tokens = 0
    · refine ⟨.ok (), e.calls, e.historyAuditSequence, ?_, by simp, by simp [htokens], .inl rfl,
        by simp [htokens]⟩
      rw [if_pos htokens]
      rfl
    · rw [if_neg htokens]
      by_cases hsequence : u64Max ≤ e.historyAuditSequence
      · have hadd : checkedAdd u64Max e.historyAuditSequence 1 = none := by
          rw [checkedAdd_eq_none]
          omega
        refine ⟨.err (.invalid "arithmetic audit sequence overflow"), e.calls, e.historyAuditSequence,
          ?_, by simp, by simp [htokens, hsequence], .inl rfl, fun h => by cases h⟩
        rw [bind_run, lift_run, hadd]
        rfl
      · have hadd : checkedAdd u64Max e.historyAuditSequence 1 = some (e.historyAuditSequence + 1) := by
          rw [checkedAdd_eq_some]
          omega
        rw [bind_run, lift_run, hadd]
        simp only [Outcome.okOr_some, bind_run, lift_run, himport, foreign, read_run, modify_run]
        cases hwritten : e.world.audit (.audit (e.historyAuditSequence + 1) slot :: e.calls) with
        | none =>
          exact ⟨.ok (), _, _, rfl, by simp, by simp [hsequence], .inr ⟨_, rfl⟩, by simp [htokens]⟩
        | some error =>
          exact ⟨.err error, _, _, rfl, by simp, by simp [htokens], .inr ⟨_, rfl⟩, fun h => by cases h⟩
  · refine ⟨.ok (), e.calls, e.historyAuditSequence, ?_, by simp, by simp [hauditing], .inl rfl,
      by simp [hauditing]⟩
    rw [if_neg hauditing]
    rfl

/-- The pages of the resident have been handed back. -/
def HandedBack (s : SharedState) (slot : Nat) (p : StatePool) : Prop :=
  (s.leases[slot]? = some none ∧ p = s.pool) ∨
    ∃ l, s.leases[slot]? = some (some l) ∧ Accepted s.pool (.retire 1 l) .done p ∧ p.allocations[l]? = none

/-- The engine after the host side of a reset. -/
def Cleared (e : Engine) (s : SharedState) (slot : Nat) (e' : Engine) : Prop :=
  ∃ calls sequence p, AuditedCalls slot e.calls calls ∧ HandedBack s slot p ∧ e' = { e with
    calls := calls
    historyAuditSequence := sequence
    histories := e.histories.set slot CompletedHistory.default
    importedTokens := e.importedTokens.set slot 0
    shared := some { s with pool := p, leases := s.leases.set slot none } }

/-- No reader and no incomplete work is on the resident. -/
def Idle (s : SharedState) (slot : Nat) : Prop :=
  ∀ l, s.leases[slot]? = some (some l) → s.pool.checkIdle 1 l = .ok ()

/-- Setting an entry that is there. -/
theorem setHistory_run {history : CompletedHistory} (h : slot < e.histories.length) :
    setHistory slot history e = (.ok (), { e with histories := e.histories.set slot history }) := by
  rw [setHistory, bind_run, read_run, List.getElem?_eq_getElem h]
  rfl

theorem setImported_run {tokens : Nat} (h : slot < e.importedTokens.length) :
    setImported slot tokens e = (.ok (), { e with importedTokens := e.importedTokens.set slot tokens }) := by
  rw [setImported, bind_run, read_run, List.getElem?_eq_getElem h]
  rfl

theorem setSealed_run {value : Option SealedLease} (h : slot < e.sealedLeases.length) :
    setSealed slot value e = (.ok (), { e with sealedLeases := e.sealedLeases.set slot value }) := by
  rw [setSealed, bind_run, read_run, List.getElem?_eq_getElem h]
  rfl

theorem returnPages_run (hsafe : SafeWith e s) (hslot : slot < e.histories.length) (hidle : Idle s slot) :
    ∃ p, returnPages slot e =
      (.ok (), { e with shared := some { s with pool := p, leases := s.leases.set slot none } }) ∧
      HandedBack s slot p := by
  obtain ⟨lease, hlease⟩ : ∃ lease, s.leases[slot]? = some lease :=
    ⟨_, List.getElem?_eq_getElem (hsafe.leases ▸ hslot)⟩
  unfold returnPages
  rw [bind_ok (get_run e)]
  simp only [hsafe.shared, hlease, Outcome.okOr_some, bind_run, lift_run, modifyShared, modify_run,
    Option.map_some]
  cases lease with
  | none => exact ⟨s.pool, rfl, .inl ⟨hlease, rfl⟩⟩
  | some l =>
    obtain ⟨p, hrun, haccepted, hgone⟩ := retire_idle hsafe.linked (hidle l hlease)
    refine ⟨p, ?_, .inr ⟨l, hlease, haccepted, hgone⟩⟩
    simp only [onPool, hrun]

/-- The host side of a reset comes down to handing back the pages: the audit's
    outcome is kept for the end, and the history cleared whatever it is. -/
theorem finishReset_eq (hslot : slot < e.histories.length)
    (himported : e.importedTokens.length = e.histories.length) :
    ∃ reply calls sequence, reply ≠ .panic ∧ (reply = .ok () ↔ ¬Unaudited e slot) ∧
      AuditedCalls slot e.calls calls ∧
      finishReset slot e = (do
        returnPages slot
        Method.lift reply : Call Unit) { e with
          calls := calls
          historyAuditSequence := sequence
          histories := e.histories.set slot CompletedHistory.default
          importedTokens := e.importedTokens.set slot 0 } := by
  obtain ⟨reply, calls, sequence, hrun, hvalue, hok, hcalls, -⟩ := auditHistory_run hslot himported
  have hattempt : attempt (auditHistory slot) e =
      (.ok reply, { e with calls := calls, historyAuditSequence := sequence }) := by
    rw [attempt, hrun]
    cases reply with
    | ok _ => rfl
    | err _ => rfl
    | panic => exact absurd rfl hvalue
  have hread : ({ e with calls := calls, historyAuditSequence := sequence } : Engine).arithmeticHistory
      slot = .ok e.histories[slot] := arithmeticHistory_ok hslot
  have hset : setHistory slot CompletedHistory.default
      { e with calls := calls, historyAuditSequence := sequence } = (.ok (), { e with
        calls := calls
        historyAuditSequence := sequence
        histories := e.histories.set slot CompletedHistory.default }) := setHistory_run hslot
  have hclear : setImported slot 0 { e with
        calls := calls
        historyAuditSequence := sequence
        histories := e.histories.set slot CompletedHistory.default } = (.ok (), { e with
        calls := calls
        historyAuditSequence := sequence
        histories := e.histories.set slot CompletedHistory.default
        importedTokens := e.importedTokens.set slot 0 }) := setImported_run (himported.symm ▸ hslot)
  refine ⟨reply, calls, sequence, hvalue, hok, hcalls, ?_⟩
  unfold finishReset
  rw [bind_ok hattempt, bind_run, read_run, hread]
  exact (bind_ok hset).trans (bind_ok hclear)

theorem finishReset_run (hsafe : SafeWith e s) (hslot : slot < e.histories.length) (hidle : Idle s slot) :
    ∃ reply e', finishReset slot e = (reply, e') ∧ reply ≠ .panic ∧ (reply = .ok () ↔ ¬Unaudited e slot) ∧
      Cleared e s slot e' := by
  obtain ⟨reply, calls, sequence, hvalue, hok, hcalls, hrun⟩ := finishReset_eq hslot hsafe.imported
  have hsafe₁ : SafeWith { e with
      calls := calls
      historyAuditSequence := sequence
      histories := e.histories.set slot CompletedHistory.default
      importedTokens := e.importedTokens.set slot 0 } s := by
    have hset : SafeWith { e with histories := e.histories.set slot CompletedHistory.default } s :=
      hsafe.setHistory fun _ limit _ _ => Nat.zero_le limit
    exact hset.congr hsafe.shared rfl rfl List.length_set rfl rfl rfl rfl
  obtain ⟨p, hpages, hback⟩ := returnPages_run hsafe₁ (List.length_set.symm ▸ hslot) hidle
  exact ⟨reply, _, hrun.trans (bind_ok hpages), hvalue, hok, calls, sequence, p, hcalls, hback, rfl⟩

/-- The resident may be reset. -/
structure Resettable (e : Engine) (s : SharedState) (slot : Nat) : Prop where
  taken : e.sealedLeases[slot]? = some none
  idle : Idle s slot

theorem checkResidentIdle_cases (hsafe : SafeWith e s) (hslot : slot < e.histories.length) :
    (¬Idle s slot ∧ ∃ error, checkResidentIdle slot e = (.err error, e)) ∨
      (Idle s slot ∧ checkResidentIdle slot e = (.ok (), e)) := by
  obtain ⟨lease, hlease⟩ : ∃ lease, s.leases[slot]? = some lease :=
    ⟨_, List.getElem?_eq_getElem (hsafe.leases ▸ hslot)⟩
  unfold checkResidentIdle
  simp only [read_run, hsafe.shared, hlease, Outcome.unwrap_some, Outcome.ok_bind]
  cases lease with
  | none =>
    refine .inr ⟨fun l hl => ?_, rfl⟩
    cases hlease.symm.trans hl
  | some l =>
    have hsame : Idle s slot ↔ s.pool.checkIdle 1 l = .ok () :=
      ⟨fun h => h l hlease, fun h l' hl => by
        obtain rfl := Option.some.inj (Option.some.inj (hlease.symm.trans hl))
        exact h⟩
    simp only [hsame]
    cases hidle : s.pool.checkIdle 1 l with
    | ok u => exact .inr ⟨rfl, rfl⟩
    | err error => exact .inl ⟨by simp, error, rfl⟩
    | panic => exact absurd hidle checkIdle_ne_panic

/-- Poisoning the pool of an engine that has one. -/
theorem poison_run (hshared : e.shared = some s) :
    ifShared StatePool.poison e = (.ok (), e.mapPool fun p => { p with poisoned := true }) := by
  rw [ifShared, bind_run, get_run]
  simp [hshared, onPool, StatePool.poison, mapPool]

/-- A reset of one resident is refused without effect, ends with a failed native
    call and a poisoned pool, or is completed on both sides. -/
theorem resetResident_cases (hsafe : SafeWith e s) (slot : Nat) :
    (¬Resettable e s slot ∧ ∃ error, resetResident slot e = (.err error, e)) ∨
    (Resettable e s slot ∧ (e.world.answer (.resetResident slot :: e.calls)).status ≠ 0 ∧
      ∃ error, resetResident slot e =
        (.err error, (e.called (.resetResident slot)).mapPool fun p => { p with poisoned := true })) ∨
    (Resettable e s slot ∧ (e.world.answer (.resetResident slot :: e.calls)).status = 0 ∧
      ∃ reply e', resetResident slot e = (reply, e') ∧ reply ≠ .panic ∧
        (reply = .ok () ↔ ¬Unaudited (e.called (.resetResident slot)) slot) ∧
        Cleared (e.called (.resetResident slot)) s slot e') := by
  unfold resetResident
  rw [bind_run, read_run]
  cases htaken : e.sealedLeases[slot]? with
  | none =>
    exact .inl ⟨fun h => by simpa [htaken] using h.taken, _, rfl⟩
  | some taken =>
    cases taken with
    | some l =>
      exact .inl ⟨fun h => by simpa [htaken] using h.taken, _, rfl⟩
    | none =>
      have hslot : slot < e.histories.length := by
        rw [← hsafe.seals]
        exact (List.getElem?_eq_some_iff.mp htaken).1
      simp only [Outcome.okOr_some, Option.isSome_none, Bool.false_eq_true, if_false]
      rcases checkResidentIdle_cases hsafe hslot with ⟨hbusy, error, hrun⟩ | ⟨hidle, hrun⟩
      · exact .inl ⟨fun h => hbusy h.idle, error, bind_err hrun⟩
      have hresettable : Resettable e s slot := ⟨htaken, hidle⟩
      rw [bind_ok hrun, bind_ok (get_run e), if_neg (by simp [hsafe.symbols])]
      have hsymbol : Method.require (fun e : Engine => e.world.resetResidentFn)
          (Error.invalid "backend does not support resident reset") e = (.ok (), e) := by
        rw [Method.require, read_run, hsafe.symbols.2.2]
        rfl
      have hforeign : foreign (.resetResident slot) e =
          (.ok (e.world.answer (.resetResident slot :: e.calls)), e.called (.resetResident slot)) := rfl
      rw [bind_ok hsymbol, bind_ok hforeign]
      refine .inr ?_
      by_cases hstatus : (e.world.answer (.resetResident slot :: e.calls)).status = 0
      · refine .inr ⟨hresettable, hstatus, ?_⟩
        have hcheck : check (e.world.answer (.resetResident slot :: e.calls)) = .ok () :=
          check_eq_ok.mpr hstatus
        rw [hcheck]
        exact finishReset_run (hsafe.called _) hslot hidle
      · refine .inl ⟨hresettable, hstatus, ?_⟩
        have hpoison : ifShared StatePool.poison (e.called (.resetResident slot)) =
            (.ok (), (e.called (.resetResident slot)).mapPool fun p => { p with poisoned := true }) :=
          poison_run hsafe.shared
        rw [check, if_neg hstatus]
        exact ⟨_, bind_ok hpoison⟩

theorem resetResident_ne_panic (he : Closed e) (slot : Nat) : (resetResident slot e).1 ≠ .panic := by
  obtain ⟨s, hsafe, -⟩ := he
  rcases resetResident_cases hsafe slot with ⟨-, error, hrun⟩ | ⟨-, -, error, hrun⟩ |
    ⟨-, -, reply, e', hrun, hvalue, -⟩
  · simp [hrun]
  · simp [hrun]
  · rw [hrun]
    exact hvalue

/-- What a reset that comes back has found: nothing is sealed. -/
theorem reset_unsealed {e' : Engine} (h : reset e = (.ok (), e')) (slot : Nat) : Unsealed e slot := by
  rw [reset, bind_eq_ok] at h
  obtain ⟨_, _, hnone, -⟩ := h
  rw [require_not_sealedAny] at hnone
  cases hany : e.sealedAny with
  | true =>
    rw [hany] at hnone
    cases hnone
  | false => exact fun l => not_sealedAny hany

/-- What a reset of one resident that comes back has found. -/
theorem resetResident_unsealed {e' : Engine} (h : resetResident slot e = (.ok (), e')) :
    Unsealed e slot := by
  rw [resetResident, read_bind_eq_ok] at h
  obtain ⟨taken, htaken, h⟩ := h
  rw [Outcome.okOr_eq_ok] at htaken
  split at h
  · cases h
  · rename_i hfree
    intro l hl
    obtain rfl := Option.some.inj (htaken.symm.trans hl)
    exact hfree rfl

/-! ## Preparing -/

/-- A resident that has been reset may take a new reservation. -/
theorem SafeWith.addLease {l : Lease} {tokens : Nat} (h : SafeWith e s) (hblank : Blank slot e)
    (hheld : Held s.pool l tokens) (hcontext : tokens ≤ s.pool.maxContext)
    (hfree : ∀ slot : Nat, s.leases[slot]? ≠ some (some l)) :
    let s' := { s with leases := s.leases.set slot (some l), tokenLimits := s.tokenLimits.set slot tokens }
    SafeWith { e with shared := some s' } s' := by
  intro s'
  have hbound : slot < e.histories.length := (List.getElem?_eq_some_iff.mp hblank.history).1
  have hlimit : ∀ {slot' : Nat} {l' : Lease}, s'.leases[slot']? = some (some l') →
      (slot = slot' ∧ l' = l) ∨ (slot ≠ slot' ∧ s.leases[slot']? = some (some l')) := by
    intro slot' l' hlease
    rw [List.getElem?_set] at hlease
    split at hlease
    · split at hlease
      · exact .inl ⟨‹_›, (Option.some.inj (Option.some.inj hlease)).symm⟩
      · cases hlease
    · exact .inr ⟨‹_›, hlease⟩
  have hnew : s'.tokenLimits[slot]? = some tokens :=
    List.getElem?_set_self (by rw [h.limits]; exact hbound)
  have hold : ∀ {slot' : Nat}, slot ≠ slot' → s'.tokenLimits[slot']? = s.tokenLimits[slot']? :=
    fun hne => List.getElem?_set_ne hne
  exact {
    shared := rfl
    linked := h.linked
    symbols := h.symbols
    leases := (List.length_set).trans h.leases
    limits := (List.length_set).trans h.limits
    imported := h.imported
    seals := h.seals
    held := fun hlease => by
      rcases hlimit hlease with ⟨rfl, rfl⟩ | ⟨hne, hlease⟩
      · exact ⟨tokens, hnew, hcontext, hheld⟩
      · rw [hold hne]
        exact h.held hlease
    distinct := fun hlease hlease' => by
      rcases hlimit hlease with ⟨hslot, hl⟩ | ⟨-, hfirst⟩ <;>
        rcases hlimit hlease' with ⟨hslot', hl'⟩ | ⟨-, hsecond⟩
      · exact hslot.symm.trans hslot'
      · rw [hl] at hsecond
        exact absurd hsecond (hfree _)
      · rw [hl'] at hfirst
        exact absurd hfirst (hfree _)
      · exact h.distinct hfirst hsecond
    fits := fun {slot' limit l' h'} hlease hhistory hlimit' => by
      rcases hlimit hlease with ⟨rfl, rfl⟩ | ⟨hne, hlease⟩
      · obtain rfl := Option.some.inj (hblank.history.symm.trans hhistory)
        rw [default_tokens]
        exact Nat.zero_le limit
      · rw [hold hne] at hlimit'
        exact h.fits hlease hhistory hlimit'
    sealedIn := fun {slot' l'} hsealed => by
      refine (h.sealedIn hsealed).imp_right fun hin => ⟨?_, hin.2⟩
      have hne : slot ≠ slot' := by
        rintro rfl
        exact hblank.unsealed l' hsealed
      exact (List.getElem?_set_ne hne).trans hin.1 }

/-- The pool an engine is left with is the old one where that was poisoned. -/
theorem Kept.poisoned {touched resealed : Nat → Prop} (h : Kept touched resealed e e') (he : Closed e)
    (hpoisoned : Poisoned e) : Poisoned e' := by
  obtain ⟨s, hsafe, -⟩ := he
  obtain ⟨s₁, hs₁, hp⟩ := hpoisoned
  obtain rfl := Option.some.inj (hsafe.shared.symm.trans hs₁)
  obtain ⟨s', hs', hkept⟩ := h.shared s hsafe.shared
  obtain ⟨ops, hops⟩ := hkept.pool
  refine ⟨s', hs', ?_⟩
  rw [hops, final_poisoned hsafe.linked hp]
  exact hp

theorem closed_bindState (binding : Nat × Binding) :
    Triple Closed (bindState binding) (fun _ => Closed) Closed := by
  refine triple_at fun e he => ?_
  unfold bindState
  refine triple_lift_at he fun pages _ => ?_
  refine ((@foreign_spec e (.bindState binding.2.rank binding.1 pages) Closed).pre ?_).bind
    fun answer => triple_of_fact ?_
  · rintro _ rfl
    exact Quiet.refl _
  rintro rfl
  have hrefused : ∀ status : Result Unit, (∀ u, status ≠ .ok u) →
      Triple (Quiet (e.called (.bindState binding.2.rank binding.1 pages))) (do
        onPool StatePool.poison
        Method.lift status : Call Unit) (fun _ => Closed) Closed := by
    intro status hstatus
    refine (recorded_poison he).bind fun _ => ?_
    exact triple_lift_not_ok hstatus fun _ h => h.closed
  cases hcheck : check (e.world.answer (.bindState binding.2.rank binding.1 pages :: e.calls)) with
  | ok u =>
    refine triple_pure () fun e' hq => he.answered hq fun _ _ _ _ hfailed => ?_
    rw [Foreign.failed, check_eq_ok.mp hcheck] at hfailed
    cases hfailed
  | err error => exact hrefused _ fun _ h => by cases h
  | panic => exact hrefused _ fun _ h => by cases h

theorem closed_countAdmission (slot : Nat) (bindings : List (Nat × Binding)) :
    Triple Closed (countAdmission slot bindings) (fun _ => Closed) Closed := by
  have hsame : ∀ e, Closed e → Closed e := fun _ h => h
  unfold countAdmission
  refine triple_read_bind hsame fun s => ?_
  refine triple_lift_bind hsame fun crossing _ => ?_
  refine triple_lift_bind hsame fun usage _ => ?_
  refine triple_modify fun e he => he.congr (fun s hs => ?_) rfl rfl rfl rfl rfl
  rw [hs]
  exact ⟨_, rfl, rfl, rfl, rfl, rfl⟩

theorem closed_prepareShared (tokens : Nat) (he : Closed e) (hblank : Blank slot e)
    (hshared : e.shared = some s) :
    Triple (· = e) (prepareShared slot tokens s) (fun _ e' => Closed e' ∧ ¬Poisoned e) Closed := by
  obtain ⟨s', hsafe, hclosed⟩ := id he
  obtain rfl := Option.some.inj (hshared.symm.trans hsafe.shared)
  have hhealthy : s.pool.poisoned = false → ¬Poisoned e := by
    rintro hhealthy ⟨s', hs', hpoisoned⟩
    obtain rfl := Option.some.inj (hshared.symm.trans hs')
    rw [hhealthy] at hpoisoned
    cases hpoisoned
  unfold prepareShared
  refine triple_lift_at he fun request _ => ?_
  refine triple_modify_at ?_
  rw [hshared]
  have hcounted : SafeWith { e with shared := some { s with nextRequest := request } }
      { s with nextRequest := request } := hsafe.congr rfl rfl rfl rfl rfl rfl rfl rfl
  have hclosed₁ : Closed { e with shared := some { s with nextRequest := request } } :=
    ⟨_, hcounted, hclosed⟩
  refine triple_lift_at hclosed₁ fun _ _ => ?_
  refine Triple.bind ((triple_onPool (.reserve 1 request tokens (some slot)) .lease rfl
    hcounted.shared hcounted.linked).error ?_) fun lease => ?_
  · rintro _ rfl
    exact hclosed₁
  rintro _ ⟨p, haccepted, rfl⟩
  obtain ⟨hheld, hcontext, hnew, hhealthy'⟩ := haccepted.reserved_held hcounted.linked
  have hadvanced := haccepted.advanced hcounted.linked fun _ _ h => by cases h
  have hreserved := hcounted.mapPool (f := fun _ => p) hadvanced
  have hfree : ∀ slot' : Nat, s.leases[slot']? ≠ some (some lease) := by
    intro slot' hlease
    obtain ⟨limit, -, -, a, halloc, -⟩ := hsafe.held hlease
    rw [hnew] at halloc
    cases halloc
  have hblank' : Blank slot { e with shared := some { s with nextRequest := request, pool := p } } :=
    ⟨hblank.history, by rintro _ ⟨⟩; exact hblank.lease s hshared, hblank.unsealed⟩
  have hadded := hreserved.addLease hblank' hheld hcontext hfree
  have hclosed₂ : Closed _ := ⟨_, hadded, fun covered hcovered hfailed =>
    hadvanced.frame.poisoned (hclosed covered (fun h rank =>
      hadvanced.frame.boundOn.symm.trans (hcovered h rank)) hfailed)⟩
  refine Triple.bind (Q := fun _ => Closed) (triple_modify ?_) (fun _ => ?_) _ rfl
  · rintro _ rfl
    exact hclosed₂
  have hsame : ∀ e, Closed e → Closed e := fun _ h => h
  refine Triple.bind (Q := fun _ => Closed) ?_ fun bindings => ?_
  · refine fun e₁ h₁ => ?_
    have hquiet := h₁.quiet (quiet_onPool_read (fun pool => pool.bindings 1 lease) e₁)
    rcases hrun : onPool (Method.read fun pool => pool.bindings 1 lease) e₁ with ⟨_ | _ | _, e₂⟩ <;>
      rw [hrun] at hquiet <;> exact hquiet
  refine (closed_countAdmission slot _).bind fun _ => ?_
  refine triple_require_bind hsame ?_
  refine (triple_forEach fun binding _ => closed_bindState binding).post fun _ _ h => ?_
  exact ⟨h, hhealthy hhealthy'⟩

/-- Selecting a resident leaves the residents as they are. -/
structure SameResidents (e e' : Engine) : Prop where
  histories : e'.histories = e.histories
  seals : e'.sealedLeases = e.sealedLeases
  shared : e'.shared = e.shared

instance : Steps SameResidents :=
  ⟨fun _ => ⟨rfl, rfl, rfl⟩, fun h h' =>
    ⟨h'.histories.trans h.histories, h'.seals.trans h.seals, h'.shared.trans h.shared⟩⟩

theorem same_selectResident (slot : Nat) : Keeps SameResidents (selectResident slot) := by
  unfold selectResident
  refine keeps_get.bind fun e => ?_
  split
  · exact keeps_pure ()
  · refine (keeps_require _ _).bind fun _ => ?_
    refine Keeps.bind (fun e => ⟨rfl, rfl, rfl⟩) fun answer => ?_
    refine (keeps_lift _).bind fun _ => ?_
    exact keeps_modify fun e => ⟨rfl, rfl, rfl⟩

theorem Blank.same (h : Blank slot e) (hsame : SameResidents e e') : Blank slot e' where
  history := hsame.histories ▸ h.history
  lease := hsame.shared ▸ h.lease
  unsealed := by
    unfold Unsealed
    rw [hsame.seals]
    exact h.unsealed

theorem prepare_spec (he : Closed e) (slot tokens : Nat) :
    Triple (· = e) (prepareResident slot tokens)
      (fun _ e' => Left e e' ∧ ¬Poisoned e ∧ Unsealed e slot) (Left e) := by
  have hreset : Triple (· = e) (resetResident slot)
      (fun _ e₁ => (Closed e₁ ∧ Blank slot e₁) ∧ Wiped e e₁ ∧ Kept (slot = ·) (fun _ => False) e e₁)
      Closed := by
    refine ((closed_resetResident slot).and (((wiped_resetResident slot).triple e).and
      ((keeps_resetResident rfl).triple e))).mono ?_ (fun _ _ h => h) fun _ h => h.1
    rintro _ rfl
    exact ⟨he, Steps.refl _, Steps.refl _⟩
  have hselect : Triple
      (fun e₁ => (Closed e₁ ∧ Blank slot e₁) ∧ Wiped e e₁ ∧ Kept (slot = ·) (fun _ => False) e e₁)
      (selectResident slot)
      (fun _ e₂ => (Closed e₂ ∧ Blank slot e₂) ∧ Wiped e e₂ ∧ Kept (slot = ·) (fun _ => False) e e₂)
      Closed := by
    have hkept : Keeps (Kept (slot = ·) fun _ => False) (selectResident slot) :=
      keeps_selectResident slot
    refine triple_at fun e₁ h₁ => ?_
    refine ((closed_selectResident slot).and (((same_selectResident slot).triple e₁).and
      (((wiped_selectResident slot).triple e).and (hkept.triple e)))).mono ?_ ?_ fun _ h => h.1
    · rintro _ rfl
      exact ⟨h₁.1.1, Steps.refl _, h₁.2⟩
    · exact fun _ e₂ h => ⟨⟨h.1, h₁.1.2.same h.2.1⟩, h.2.2⟩
  have hclosed : Triple (· = e) (prepareResident slot tokens)
      (fun _ e' => Closed e' ∧ ¬Poisoned e ∧ Unsealed e slot) Closed := by
    unfold prepareResident
    refine hreset.bind fun _ => hselect.bind fun _ => triple_at fun e₂ h₂ => ?_
    obtain ⟨⟨hclosed, hblank⟩, hwiped, hkept⟩ := h₂
    obtain ⟨s, hsafe, -⟩ := id hclosed
    have hunsealed : Unsealed e slot := by
      unfold Unsealed
      rw [← hwiped.seals]
      exact hblank.unsealed
    refine triple_get_at ?_
    rw [hsafe.shared]
    refine (closed_prepareShared tokens hclosed hblank hsafe.shared).post fun _ e' h => ?_
    exact ⟨h.1, fun hpoisoned => h.2 (hkept.poisoned he hpoisoned), hunsealed⟩
  refine (hclosed.and ((wiped_prepareResident slot tokens).triple e)).mono ?_ ?_ ?_
  · rintro _ rfl
    exact ⟨rfl, Steps.refl _⟩
  · exact fun _ e' h => ⟨h.2.left h.1.1, h.1.2⟩
  · exact fun e' h => h.2.left h.1

end Engine

end Inferfabric.Native
