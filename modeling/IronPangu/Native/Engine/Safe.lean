-- SUMMARY: What the engine and its pool always agree on: reservations, their limits and seals, and that a failed native call has poisoned the pool.
import IronPangu.Native.Engine.Calls
import IronPangu.Runtime.StatePool.Advanced

open Rust Std

namespace Inferfabric.Native

open Inferfabric.Ir Inferfabric.Runtime

/-! ## Failed calls -/

/-- Whether an answer is one the pool must not survive. A wrong output count is
    only looked at once every rank has been completed, so it counts where that
    cannot fail. -/
def Foreign.failed (covered : Bool) (answer : Answer) : Foreign → Bool
  | .reset | .token .. | .prefill .. | .resetResident _ | .copyResident .. | .bindState .. =>
    answer.status != 0
  | .batch inputs =>
    answer.status != 0 || covered && answer.output.length != (inputs.filter BatchInput.sample).length
  | .selectResident _ | .bindPages .. | .audit .. => false

/-- Whether some call so far has been answered so. -/
def failed (covered : Bool) (world : World) : List Foreign → Bool
  | [] => false
  | call :: calls =>
    call.failed covered (world.answer (call :: calls)) || failed covered world calls

/-- The states together lie on every rank. -/
def SharedState.Covered (s : SharedState) : Prop := ∀ rank, s.pool.BoundOn rank ↔ rank < s.ranks

/-- The residents a completed call has written on the device. -/
def Foreign.writes (selected : Nat) : Foreign → Nat → Prop
  | .token .. | .prefill .. => (selected = ·)
  | .batch inputs => fun slot => ∃ input ∈ inputs, input.resident = slot
  | .copyResident _ destination _ => (destination = ·)
  | _ => fun _ => False

namespace Engine

open Method StatePool

/-! ## The invariant -/

structure SafeWith (e : Engine) (s : SharedState) : Prop where
  shared : e.shared = some s
  linked : Linked s.pool
  symbols : e.world.bindStateFn = true ∧ e.world.selectResidentFn = true ∧ e.world.resetResidentFn = true
  leases : s.leases.length = e.histories.length
  limits : s.tokenLimits.length = e.histories.length
  imported : e.importedTokens.length = e.histories.length
  seals : e.sealedLeases.length = e.histories.length
  held : ∀ {slot : Nat} {l : Lease}, s.leases[slot]? = some (some l) →
    ∃ limit, s.tokenLimits[slot]? = some limit ∧ limit ≤ s.pool.maxContext ∧ Held s.pool l limit
  distinct : ∀ {slot slot' : Nat} {l : Lease}, s.leases[slot]? = some (some l) →
    s.leases[slot']? = some (some l) → slot = slot'
  fits : ∀ {slot limit : Nat} {l : Lease} {h : CompletedHistory}, s.leases[slot]? = some (some l) →
    e.histories[slot]? = some h → s.tokenLimits[slot]? = some limit → h.value.tokens ≤ limit
  sealedIn : ∀ {slot : Nat} {l : SealedLease}, e.sealedLeases[slot]? = some (some l) →
    s.pool.poisoned = true ∨ (s.leases[slot]? = some (some l.lease) ∧ SealedIn s.pool l.lease)

/-- The invariant of an engine with shared pages. -/
def Closed (e : Engine) : Prop :=
  ∃ s, SafeWith e s ∧ ∀ covered, (covered = true → s.Covered) →
    failed covered e.world e.calls = true → s.pool.poisoned = true

/-- The engine with its pool changed. -/
def mapPool (f : StatePool → StatePool) (e : Engine) : Engine :=
  { e with shared := e.shared.map fun s => { s with pool := f s.pool } }

/-- The engine after one more foreign call. -/
def called (e : Engine) (call : Foreign) : Engine := { e with calls := call :: e.calls }

variable {e e' : Engine} {s : SharedState} {slot : Nat}

theorem SafeWith.mapPool {f : StatePool → StatePool} (h : SafeWith e s)
    (hp : Advanced s.pool (f s.pool)) : SafeWith (e.mapPool f) { s with pool := f s.pool } where
  shared := by
    rw [Engine.mapPool, h.shared]
    rfl
  linked := hp.linked
  symbols := h.symbols
  leases := h.leases
  limits := h.limits
  imported := h.imported
  seals := h.seals
  held hlease := by
    obtain ⟨limit, hlimit, hcontext, hheld⟩ := h.held hlease
    exact ⟨limit, hlimit, hp.frame.maxContext ▸ hcontext, hp.held hheld⟩
  distinct := h.distinct
  fits := h.fits
  sealedIn hsealed := by
    rcases h.sealedIn hsealed with hpoisoned | ⟨hlease, hsealed⟩
    · exact .inl (hp.frame.poisoned hpoisoned)
    · exact .inr ⟨hlease, hp.sealedIn hsealed⟩

/-- Changes beside what the invariant speaks of. -/
theorem SafeWith.congr (h : SafeWith e s) {s' : SharedState} (hshared : e'.shared = some s')
    (hworld : e'.world = e.world) (hhistories : e'.histories = e.histories)
    (himported : e'.importedTokens.length = e.importedTokens.length)
    (hseals : e'.sealedLeases = e.sealedLeases) (hpool : s'.pool = s.pool)
    (hleases : s'.leases = s.leases) (hlimits : s'.tokenLimits = s.tokenLimits) : SafeWith e' s' where
  shared := hshared
  linked := hpool ▸ h.linked
  symbols := hworld ▸ h.symbols
  leases := by rw [hleases, hhistories, h.leases]
  limits := by rw [hlimits, hhistories, h.limits]
  imported := by rw [himported, hhistories, h.imported]
  seals := by rw [hseals, hhistories, h.seals]
  held hlease := by
    rw [hpool, hlimits]
    rw [hleases] at hlease
    exact h.held hlease
  distinct hlease hlease' := by
    rw [hleases] at hlease hlease'
    exact h.distinct hlease hlease'
  fits hlease hhistory hlimit := by
    rw [hleases] at hlease
    rw [hhistories] at hhistory
    rw [hlimits] at hlimit
    exact h.fits hlease hhistory hlimit
  sealedIn hsealed := by
    rw [hpool, hleases]
    rw [hseals] at hsealed
    exact h.sealedIn hsealed

theorem SafeWith.called (h : SafeWith e s) (call : Foreign) : SafeWith (e.called call) s :=
  h.congr h.shared rfl rfl rfl rfl rfl rfl rfl

/-- A history that fits its reservation may be set. -/
theorem SafeWith.setHistory (h : SafeWith e s) {history : CompletedHistory}
    (hfits : ∀ l limit, s.leases[slot]? = some (some l) → s.tokenLimits[slot]? = some limit →
      history.value.tokens ≤ limit) :
    SafeWith { e with histories := e.histories.set slot history } s where
  shared := h.shared
  linked := h.linked
  symbols := h.symbols
  leases := by rw [h.leases, List.length_set]
  limits := by rw [h.limits, List.length_set]
  imported := by rw [h.imported, List.length_set]
  seals := by rw [h.seals, List.length_set]
  held := h.held
  distinct := h.distinct
  fits {slot' limit l h'} hlease hhistory hlimit := by
    rw [List.getElem?_set] at hhistory
    split at hhistory
    · rename_i heq
      subst heq
      split at hhistory
      · obtain rfl := Option.some.inj hhistory
        exact hfits l limit hlease hlimit
      · cases hhistory
    · exact h.fits hlease hhistory hlimit
  sealedIn := h.sealedIn

/-! ## Calls that only drive the pool -/

/-- Only the pool has moved, and nothing was retired. -/
def Quiet (e e' : Engine) : Prop :=
  ∃ f, e' = e.mapPool f ∧ ∀ s, e.shared = some s → Linked s.pool → Advanced s.pool (f s.pool)

theorem Quiet.refl (e : Engine) : Quiet e e := by
  refine ⟨id, ?_, fun s _ hs => .refl hs⟩
  cases e with
  | mk => simp [mapPool]

theorem Quiet.trans {e'' : Engine} (h : Quiet e e') (h' : Quiet e' e'') : Quiet e e'' := by
  obtain ⟨f, rfl, hf⟩ := h
  obtain ⟨g, rfl, hg⟩ := h'
  refine ⟨g ∘ f, ?_, fun s hs hlinked => ?_⟩
  · simp [mapPool, Option.map_map, Function.comp_def]
  · have hfirst := hf s hs hlinked
    refine hfirst.trans (hg { s with pool := f s.pool } ?_ hfirst.linked)
    rw [mapPool, hs]
    rfl

instance : Steps Quiet := ⟨Quiet.refl, Quiet.trans⟩

theorem SafeWith.quiet (h : SafeWith e s) (hq : Quiet e e') :
    ∃ p, SafeWith e' { s with pool := p } ∧ Advanced s.pool p := by
  obtain ⟨f, rfl, hf⟩ := hq
  have hadvanced := hf s h.shared h.linked
  exact ⟨f s.pool, h.mapPool hadvanced, hadvanced⟩

theorem Closed.quiet (h : Closed e) (hq : Quiet e e') : Closed e' := by
  obtain ⟨s, hsafe, hclosed⟩ := h
  obtain ⟨p, hsafe', hadvanced⟩ := hsafe.quiet hq
  obtain ⟨f, rfl, -⟩ := hq
  refine ⟨_, hsafe', fun covered hcovered hfailed => ?_⟩
  refine hadvanced.frame.poisoned (hclosed covered (fun h rank => ?_) hfailed)
  exact hadvanced.frame.boundOn.symm.trans (hcovered h rank)

theorem quiet_onPool {α : Type} {m : Method StatePool Error α} (op : Runtime.Op)
    (wrap : α → Runtime.Reply) (h : IsCall m op wrap) (hop : ∀ epoch l, op ≠ .retire epoch l) :
    Keeps Quiet (onPool m) := by
  intro e
  unfold onPool
  cases hshared : e.shared with
  | none => exact .refl e
  | some s =>
    refine ⟨fun p => (m p).2, ?_, fun s' hs' hlinked => ?_⟩
    · rw [mapPool, hshared]
      rfl
    · have hafter : (m s'.pool).2 = (StatePool.step op s'.pool).2 := h.after s'.pool
      change Advanced s'.pool (m s'.pool).2
      rw [hafter]
      rcases step_cases hlinked op with ⟨error, hrun⟩ | ⟨reply, t, hrun, haccepted⟩
      · rw [hrun]
        exact .refl hlinked
      · rw [hrun]
        exact haccepted.advanced hlinked hop

theorem quiet_onPool_read {α : Type} (f : StatePool → Result α) :
    Keeps Quiet (onPool (Method.read f)) := by
  intro e
  unfold onPool
  cases hshared : e.shared with
  | none => exact .refl e
  | some s =>
    refine ⟨id, ?_, fun _ _ hs => .refl hs⟩
    rw [mapPool, hshared]
    rfl

theorem quiet_poison : Keeps Quiet (onPool StatePool.poison) :=
  quiet_onPool .poison (fun _ => .done) rfl fun _ _ h => by cases h

theorem quiet_ifShared_poison : Keeps Quiet (ifShared StatePool.poison) := by
  unfold ifShared
  refine keeps_get.bind fun e => ?_
  split
  · exact quiet_poison
  · exact keeps_pure ()

theorem quiet_submit (leases : List Lease) (reads : List Borrow) :
    Keeps Quiet (onPool (StatePool.submit 1 leases reads)) :=
  quiet_onPool (.submit 1 leases reads) .ticket rfl fun _ _ h => by cases h

theorem quiet_release (read : Borrow) : Keeps Quiet (onPool (StatePool.release 1 read)) :=
  quiet_onPool (.release 1 read) (fun _ => .done) rfl fun _ _ h => by cases h

theorem quiet_beginInvocation (position count : Nat) : Keeps Quiet (beginInvocation position count) := by
  unfold beginInvocation
  refine keeps_get.bind fun e => ?_
  split
  · exact keeps_pure none
  · refine (keeps_lift _).bind fun lease => ?_
    refine (keeps_lift _).bind fun limit => ?_
    refine (keeps_require _ _).bind fun _ => ?_
    exact (quiet_submit _ _).bind fun ticket => keeps_pure _

theorem quiet_submitBatch (inputs : List BatchInput) : Keeps Quiet (submitBatch inputs) := by
  unfold submitBatch
  refine keeps_get.bind fun e => ?_
  split
  · exact keeps_pure none
  · refine (keeps_lift _).bind fun leases => ?_
    exact (quiet_submit _ _).bind fun ticket => keeps_pure _

theorem quiet_submitCopy (destination : Lease) (read : Borrow) :
    Keeps Quiet (submitCopy destination read) := by
  unfold submitCopy
  refine (quiet_submit _ _).attempt.bind fun ticket => ?_
  split
  · exact keeps_pure _
  · exact (quiet_release _).bind fun _ => keeps_lift _

theorem quiet_finishInvocation (ticket : Option Ticket) (answer : Answer) :
    Keeps Quiet (finishInvocation ticket answer) := by
  unfold finishInvocation
  refine keeps_get.bind fun e => ?_
  split
  · exact keeps_lift _
  · cases ticket with
    | none => exact keeps_pure ()
    | some ticket =>
      refine Keeps.forEach (fun rank => ?_) _
      exact quiet_onPool (.complete 1 ticket rank) (fun _ => .done) rfl
        fun _ _ h => by cases h
  · exact quiet_poison.bind fun _ => keeps_lift _

/-! ## Failed invocations -/

/-- The pool is poisoned. -/
def Poisoned (e : Engine) : Prop := ∃ s, e.shared = some s ∧ s.pool.poisoned = true

theorem check_eq_ok {answer : Answer} {u : Unit} : check answer = .ok u ↔ answer.status = 0 := by
  unfold check
  split <;> simp_all

/-- Poisoning a shared pool. -/
theorem triple_poison {E : Engine → Prop} :
    Triple (fun e => e.shared.isSome = true) (onPool StatePool.poison) (fun _ => Poisoned) E := by
  intro e he
  obtain ⟨s, hs⟩ := Option.isSome_iff_exists.mp he
  simp only [onPool, hs]
  exact ⟨_, rfl, rfl⟩

/-- An invocation only finishes well with status 0; any other status poisons. -/
theorem finishInvocation_spec (ticket : Option Ticket) (answer : Answer) :
    Triple (fun e => e.shared.isSome = true) (finishInvocation ticket answer)
      (fun _ _ => answer.status = 0) (fun e => answer.status ≠ 0 → Poisoned e) := by
  unfold finishInvocation
  refine triple_get.bind fun e => ?_
  rintro e' ⟨he, rfl⟩
  obtain ⟨s, hs⟩ := Option.isSome_iff_exists.mp he
  rw [hs]
  cases hcheck : check answer with
  | ok u =>
    have hstatus : answer.status = 0 := check_eq_ok.mp hcheck
    have hrest : Triple (fun _ => True) (completeRanks ticket s.ranks)
        (fun _ (_ : Engine) => answer.status = 0) (fun e => answer.status ≠ 0 → Poisoned e) := by
      intro e₁ _
      rcases completeRanks ticket s.ranks e₁ with ⟨_ | _ | _, e₂⟩
      · exact hstatus
      · exact fun hne => absurd hstatus hne
      · exact fun hne => absurd hstatus hne
    exact hrest e trivial
  | err error =>
    refine Triple.bind triple_poison (fun _ => ?_) e he
    exact fun e₁ h₁ _ => h₁
  | panic =>
    refine Triple.bind triple_poison (fun _ => ?_) e he
    exact fun e₁ h₁ _ => h₁

end Engine

end Inferfabric.Native
