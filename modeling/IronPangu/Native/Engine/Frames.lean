-- SUMMARY: What every engine call leaves alone: sealed residents it is not called on keep their seal and their history, whatever comes back.
import IronPangu.Lib.Triple
import IronPangu.Native.Engine.Open

open Rust Std

namespace Inferfabric.Native

open Inferfabric.Ir Inferfabric.Runtime

namespace Engine

open Method

/-- Shared state after calls: the pool has only been driven by its own operations. -/
structure SharedKept (s s' : SharedState) : Prop where
  pool : ∃ ops : List Runtime.Op, s'.pool = final StatePool.step ops s.pool
  leases : s'.leases.length = s.leases.length
  tokenLimits : s'.tokenLimits.length = s.tokenLimits.length
  cacheNodes : s'.cacheNodes = s.cacheNodes
  cachePageLimits : s'.cachePageLimits = s.cachePageLimits
  ranks : s'.ranks = s.ranks

/-- The engine after calls that may touch some residents and reseal some. A
    resident that is sealed keeps its history unless it is one of them. -/
structure Kept (touched resealed : Nat → Prop) (e e' : Engine) : Prop where
  world : e'.world = e.world
  identity : e'.identity = e.identity
  pages : e'.copyPageTokens = e.copyPageTokens
  histories : e'.histories.length = e.histories.length
  imported : e'.importedTokens.length = e.importedTokens.length
  seals : e'.sealedLeases.length = e.sealedLeases.length
  unshared : e.shared = none → e'.shared = none
  shared : ∀ s, e.shared = some s → ∃ s', e'.shared = some s' ∧ SharedKept s s'
  sealsKept : ∀ slot, ¬resealed slot → e'.sealedLeases[slot]? = e.sealedLeases[slot]?
  sealedKept : ∀ slot, ¬touched slot → ¬resealed slot → ∀ lease,
    e.sealedLeases[slot]? = some (some lease) → e'.histories[slot]? = e.histories[slot]?

variable {touched resealed : Nat → Prop} {slot : Nat} {e e' : Engine} {s s' : SharedState}

theorem SharedKept.refl (s : SharedState) : SharedKept s s := ⟨⟨[], rfl⟩, rfl, rfl, rfl, rfl, rfl⟩

theorem SharedKept.trans {s'' : SharedState} (h : SharedKept s s') (h' : SharedKept s' s'') :
    SharedKept s s'' where
  pool := by
    obtain ⟨ops, hops⟩ := h.pool
    obtain ⟨ops', hops'⟩ := h'.pool
    exact ⟨ops ++ ops', by rw [hops', hops, final_append]⟩
  leases := h'.leases.trans h.leases
  tokenLimits := h'.tokenLimits.trans h.tokenLimits
  cacheNodes := h'.cacheNodes.trans h.cacheNodes
  cachePageLimits := h'.cachePageLimits.trans h.cachePageLimits
  ranks := h'.ranks.trans h.ranks

theorem Kept.refl (e : Engine) : Kept touched resealed e e :=
  ⟨rfl, rfl, rfl, rfl, rfl, rfl, fun h => h, fun s h => ⟨s, h, .refl s⟩,
    fun _ _ => rfl, fun _ _ _ _ _ => rfl⟩

theorem Kept.trans {e'' : Engine} (h : Kept touched resealed e e') (h' : Kept touched resealed e' e'') :
    Kept touched resealed e e'' where
  world := h'.world.trans h.world
  identity := h'.identity.trans h.identity
  pages := h'.pages.trans h.pages
  histories := h'.histories.trans h.histories
  imported := h'.imported.trans h.imported
  seals := h'.seals.trans h.seals
  unshared hnone := h'.unshared (h.unshared hnone)
  shared := by
    intro s hs
    obtain ⟨s', hs', hkept⟩ := h.shared s hs
    obtain ⟨s'', hs'', hkept'⟩ := h'.shared s' hs'
    exact ⟨s'', hs'', hkept.trans hkept'⟩
  sealsKept slot hslot := (h'.sealsKept slot hslot).trans (h.sealsKept slot hslot)
  sealedKept := by
    intro slot hslot hseal lease hlease
    have hlease' := (h.sealsKept slot hseal).trans hlease
    exact (h'.sealedKept slot hslot hseal lease hlease').trans (h.sealedKept slot hslot hseal lease hlease)

instance : Steps (Kept touched resealed) := ⟨Kept.refl, Kept.trans⟩

/-- Touching fewer residents keeps more. -/
theorem Kept.mono {touched' : Nat → Prop} (h : Kept touched resealed e e')
    (hle : ∀ slot, touched slot → touched' slot) : Kept touched' resealed e e' :=
  { h with sealedKept := fun slot hslot => h.sealedKept slot (mt (hle slot) hslot) }

theorem Kept.weaken (h : Kept touched resealed e e') : Kept (fun _ => True) (fun _ => True) e e' :=
  { h with
    sealsKept := fun slot hslot => absurd trivial hslot
    sealedKept := fun slot hslot => absurd trivial hslot }

/-- Nothing sealed is nothing to keep. -/
theorem Kept.of_unsealed (h : Kept (fun _ => True) resealed e e')
    (hunsealed : ∀ (slot : Nat) (lease : SealedLease), e.sealedLeases[slot]? ≠ some (some lease)) : Kept touched resealed e e' :=
  { h with sealedKept := fun slot _ _ lease hlease => absurd hlease (hunsealed slot lease) }

/-- Changes that leave the residents and the shared state alone. -/
theorem Kept.of_eq (hworld : e'.world = e.world) (hidentity : e'.identity = e.identity)
    (hpages : e'.copyPageTokens = e.copyPageTokens) (hhistories : e'.histories = e.histories)
    (himported : e'.importedTokens.length = e.importedTokens.length)
    (hseals : e'.sealedLeases = e.sealedLeases) (hshared : e'.shared = e.shared) :
    Kept touched resealed e e' where
  world := hworld
  identity := hidentity
  pages := hpages
  histories := by rw [hhistories]
  imported := himported
  seals := by rw [hseals]
  unshared h := hshared.trans h
  shared s h := ⟨s, hshared.trans h, .refl s⟩
  sealsKept slot _ := by rw [hseals]
  sealedKept slot _ _ _ _ := by rw [hhistories]

/-! ## Parts of the engine -/

theorem keeps_foreign (call : Foreign) : Keeps (Kept touched resealed) (foreign call) :=
  fun _ => .of_eq rfl rfl rfl rfl rfl rfl rfl

/-- An operation of the pool, as a step of the pool's own machine. -/
def IsCall {α : Type} (m : Method StatePool Error α) (op : Runtime.Op) (wrap : α → Runtime.Reply) :
    Prop :=
  StatePool.step op = m >>= fun a => Pure.pure (wrap a)

theorem IsCall.after {α : Type} {m : Method StatePool Error α} {op : Runtime.Op}
    {wrap : α → Runtime.Reply} (h : IsCall m op wrap) (p : StatePool) :
    (m p).2 = final StatePool.step [op] p := by
  rw [final_cons, final_nil, h, bind_run]
  rcases m p with ⟨_ | _ | _, q⟩ <;> rfl

theorem keeps_shared {e e' : Engine} {s s' : SharedState} (hshared : e.shared = some s)
    (he' : e' = { e with shared := some s' }) (hkept : SharedKept s s') : Kept touched resealed e e' := by
  subst he'
  refine ⟨rfl, rfl, rfl, rfl, rfl, rfl, ?_, ?_, fun _ _ => rfl, fun _ _ _ _ _ => rfl⟩
  · rw [hshared]
    simp
  · intro s₀ hs₀
    obtain rfl := Option.some.inj (hshared.symm.trans hs₀)
    exact ⟨s', rfl, hkept⟩

theorem keeps_onPool {α : Type} {m : Method StatePool Error α} (op : Runtime.Op)
    (wrap : α → Runtime.Reply) (h : IsCall m op wrap) : Keeps (Kept touched resealed) (onPool m) := by
  intro e
  unfold onPool
  cases hshared : e.shared with
  | none => exact .refl e
  | some s => exact keeps_shared hshared rfl ⟨⟨[op], h.after s.pool⟩, rfl, rfl, rfl, rfl, rfl⟩

theorem keeps_onPool_read {α : Type} (f : StatePool → Result α) :
    Keeps (Kept touched resealed) (onPool (Method.read f)) := by
  intro e
  unfold onPool
  cases hshared : e.shared with
  | none => exact .refl e
  | some s => exact keeps_shared hshared rfl (.refl s)

theorem keeps_poison : Keeps (Kept touched resealed) (onPool StatePool.poison) :=
  keeps_onPool .poison (fun _ => .done) rfl

theorem keeps_ifShared_poison : Keeps (Kept touched resealed) (ifShared StatePool.poison) := by
  unfold ifShared
  refine keeps_get.bind fun e => ?_
  split
  · exact keeps_poison
  · exact keeps_pure ()

theorem keeps_modifyShared {f : SharedState → SharedState} (hf : ∀ s, SharedKept s (f s)) :
    Keeps (Kept touched resealed) (modifyShared f) := by
  refine keeps_modify fun e => ?_
  cases hshared : e.shared with
  | none => exact .of_eq rfl rfl rfl rfl rfl rfl hshared.symm
  | some s => exact keeps_shared hshared rfl (hf s)

theorem keeps_setHistory (hslot : touched slot) (history : CompletedHistory) :
    Keeps (Kept touched resealed) (setHistory slot history) := by
  unfold setHistory
  refine (keeps_read _).bind fun _ => ?_
  refine keeps_modify fun e => ?_
  refine ⟨rfl, rfl, rfl, List.length_set, rfl, rfl, fun h => h, fun s h => ⟨s, h, .refl s⟩,
    fun _ _ => rfl, fun slot' hslot' _ _ _ => ?_⟩
  have hne : slot ≠ slot' := fun heq => hslot' (heq ▸ hslot)
  exact List.getElem?_set_ne hne

theorem keeps_setImported (slot tokens : Nat) : Keeps (Kept touched resealed) (setImported slot tokens) := by
  unfold setImported
  refine (keeps_read _).bind fun _ => ?_
  exact keeps_modify fun _ => .of_eq rfl rfl rfl rfl List.length_set rfl rfl

theorem keeps_setSealed (hslot : resealed slot) (value : Option SealedLease) :
    Keeps (Kept touched resealed) (setSealed slot value) := by
  unfold setSealed
  refine (keeps_read _).bind fun _ => ?_
  refine keeps_modify fun e => ?_
  refine ⟨rfl, rfl, rfl, rfl, rfl, List.length_set, fun h => h, fun s h => ⟨s, h, .refl s⟩,
    fun slot' hslot' => ?_, fun _ _ _ _ _ => rfl⟩
  have hne : slot ≠ slot' := fun heq => hslot' (heq ▸ hslot)
  exact List.getElem?_set_ne hne

theorem keeps_appendCompleted (hslot : touched slot) (variant : Variant) (position count : Nat) :
    Keeps (Kept touched resealed) (appendCompleted slot variant position count) := by
  unfold appendCompleted
  refine (keeps_read _).bind fun history => ?_
  refine Keeps.bind (keeps_modify fun e => ?_) fun _ => keeps_lift _
  refine ⟨rfl, rfl, rfl, List.length_set, rfl, rfl, fun h => h, fun s h => ⟨s, h, .refl s⟩,
    fun _ _ => rfl, fun slot' hslot' _ _ _ => ?_⟩
  have hne : slot ≠ slot' := fun heq => hslot' (heq ▸ hslot)
  exact List.getElem?_set_ne hne

/-! ## Invocations -/

theorem keeps_submit (leases : List Lease) (reads : List Borrow) :
    Keeps (Kept touched resealed) (onPool (StatePool.submit 1 leases reads)) :=
  keeps_onPool (.submit 1 leases reads) .ticket rfl

theorem keeps_release (read : Borrow) : Keeps (Kept touched resealed) (onPool (StatePool.release 1 read)) :=
  keeps_onPool (.release 1 read) (fun _ => .done) rfl

theorem keeps_beginInvocation (position count : Nat) :
    Keeps (Kept touched resealed) (beginInvocation position count) := by
  unfold beginInvocation
  refine keeps_get.bind fun e => ?_
  split
  · exact keeps_pure none
  · refine (keeps_lift _).bind fun lease => ?_
    refine (keeps_lift _).bind fun limit => ?_
    refine (keeps_require _ _).bind fun _ => ?_
    exact (keeps_submit _ _).bind fun ticket => keeps_pure _

theorem keeps_completeRanks (ticket : Option Ticket) (ranks : Nat) :
    Keeps (Kept touched resealed) (completeRanks ticket ranks) := by
  cases ticket with
  | none => exact keeps_pure ()
  | some ticket =>
    refine Keeps.forEach (fun rank => ?_) _
    exact keeps_onPool (.complete 1 ticket rank) (fun _ => .done) rfl

theorem keeps_finishInvocation (ticket : Option Ticket) (answer : Answer) :
    Keeps (Kept touched resealed) (finishInvocation ticket answer) := by
  unfold finishInvocation
  refine keeps_get.bind fun e => ?_
  split
  · exact keeps_lift _
  · exact keeps_completeRanks _ _
  · exact keeps_poison.bind fun _ => keeps_lift _

/-! ## Resetting -/

theorem keeps_auditHistory (slot : Nat) : Keeps (Kept touched resealed) (auditHistory slot) := by
  unfold auditHistory
  refine keeps_get.bind fun e => ?_
  split
  · refine (keeps_lift _).bind fun history => ?_
    split
    · exact keeps_pure ()
    · refine (keeps_lift _).bind fun sequence => ?_
      refine (keeps_lift _).bind fun _ => ?_
      refine (keeps_foreign _).bind fun _ => ?_
      refine (keeps_read _).bind fun _ => ?_
      exact keeps_modify fun _ => .of_eq rfl rfl rfl rfl rfl rfl rfl
  · exact keeps_pure ()

/-- An unshared reset touches every resident. -/
theorem keeps_resetUnshared : Keeps (Kept (fun _ => True) resealed) resetUnshared := by
  unfold resetUnshared
  refine (keeps_foreign _).bind fun answer => ?_
  refine (keeps_lift _).bind fun _ => ?_
  refine keeps_get.bind fun e => ?_
  refine (Keeps.forEach keeps_auditHistory _).bind fun _ => ?_
  exact keeps_modify fun e => ⟨rfl, rfl, rfl, by simp, by simp, rfl, fun h => h,
    fun s h => ⟨s, h, .refl s⟩, fun _ _ => rfl, fun slot hslot => absurd trivial hslot⟩

theorem keeps_selectResident (slot : Nat) : Keeps (Kept touched resealed) (selectResident slot) := by
  unfold selectResident
  refine keeps_get.bind fun e => ?_
  split
  · exact keeps_pure ()
  · refine (keeps_require _ _).bind fun _ => ?_
    refine (keeps_foreign _).bind fun answer => ?_
    refine (keeps_lift _).bind fun _ => ?_
    exact keeps_modify fun _ => .of_eq rfl rfl rfl rfl rfl rfl rfl

theorem keeps_returnPages (slot : Nat) : Keeps (Kept touched resealed) (returnPages slot) := by
  unfold returnPages
  refine keeps_get.bind fun e => ?_
  split
  · exact keeps_pure ()
  · refine (keeps_lift _).bind fun lease => ?_
    refine Keeps.bind (keeps_modifyShared fun s => ?_) fun _ => ?_
    · exact ⟨⟨[], rfl⟩, List.length_set, rfl, rfl, rfl, rfl⟩
    split
    · exact keeps_pure ()
    · rename_i lease
      exact keeps_onPool (.retire 1 lease) (fun _ => .done) rfl

theorem keeps_finishReset (hslot : touched slot) : Keeps (Kept touched resealed) (finishReset slot) := by
  unfold finishReset
  refine (keeps_auditHistory slot).attempt.bind fun audit => ?_
  refine (keeps_read _).bind fun _ => ?_
  refine (keeps_setHistory hslot _).bind fun _ => ?_
  refine (keeps_setImported slot 0).bind fun _ => ?_
  exact (keeps_returnPages slot).bind fun _ => keeps_lift audit

theorem not_sealedAny (h : e.sealedAny = false) {lease : SealedLease} :
    e.sealedLeases[slot]? ≠ some (some lease) := by
  intro hlease
  have hmem := List.mem_of_getElem? hlease
  rw [sealedAny, List.any_eq_false] at h
  exact h _ hmem rfl

/-- The check that nothing is sealed. -/
theorem require_not_sealedAny :
    (require (fun e => !e.sealedAny) (.invalid "explicitly retire snapshots before engine reset") :
      Call Unit) e =
      (if e.sealedAny then .err (.invalid "explicitly retire snapshots before engine reset")
        else .ok (), e) := by
  cases hany : e.sealedAny <;> simp [require, hany]

/-- What is done after that check may touch every resident. -/
theorem keeps_not_sealedAny {m : Call Unit} (hm : Keeps (Kept (fun _ => True) resealed) m) :
    Keeps (Kept touched resealed) (do
      require (fun e => !e.sealedAny) (.invalid "explicitly retire snapshots before engine reset")
      m) := by
  intro e
  cases hany : e.sealedAny with
  | true =>
    have hrefused := @require_not_sealedAny e
    rw [hany, if_pos rfl] at hrefused
    rw [bind_err hrefused]
    exact .refl e
  | false =>
    have hpassed := @require_not_sealedAny e
    rw [hany, if_neg Bool.false_ne_true] at hpassed
    rw [bind_ok hpassed]
    exact (hm e).of_unsealed fun _ _ => not_sealedAny hany

theorem keeps_resetFallback : Keeps (Kept touched resealed) resetFallback := by
  refine keeps_not_sealedAny ?_
  refine keeps_get.bind fun e => ?_
  split
  · exact keeps_lift _
  · exact keeps_resetUnshared

theorem keeps_resetResident (hslot : touched slot) : Keeps (Kept touched resealed) (resetResident slot) := by
  unfold resetResident
  refine (keeps_read _).bind fun taken => ?_
  split
  · exact keeps_fail _
  · refine Keeps.bind (keeps_read _) fun _ => ?_
    refine keeps_get.bind fun e => ?_
    split
    · exact keeps_resetFallback
    · refine (keeps_require _ _).bind fun _ => ?_
      refine (keeps_foreign _).bind fun answer => ?_
      split
      · exact keeps_finishReset hslot
      · exact keeps_ifShared_poison.bind fun _ => keeps_lift _

theorem keeps_releaseResident (hslot : touched slot) : Keeps (Kept touched resealed) (releaseResident slot) := by
  unfold releaseResident
  refine keeps_get.bind fun e => ?_
  split
  · exact keeps_resetResident hslot
  · exact keeps_pure ()

/-- A reset of the engine is refused while anything is sealed. -/
theorem keeps_reset : Keeps (Kept touched resealed) reset := by
  refine keeps_not_sealedAny ?_
  refine keeps_get.bind fun e => ?_
  split
  · exact keeps_resetUnshared
  · exact (Keeps.forEach (fun slot => keeps_resetResident trivial) _).bind fun _ => keeps_selectResident 0

/-! ## Preparing -/

theorem keeps_bindState (binding : Nat × Binding) : Keeps (Kept touched resealed) (bindState binding) := by
  unfold bindState
  refine (keeps_lift _).bind fun _ => ?_
  refine (keeps_foreign _).bind fun answer => ?_
  split
  · exact keeps_pure ()
  · exact keeps_poison.bind fun _ => keeps_lift _

theorem keeps_countAdmission (slot : Nat) (bindings : List (Nat × Binding)) :
    Keeps (Kept touched resealed) (countAdmission slot bindings) := by
  unfold countAdmission
  refine (keeps_read _).bind fun shared => ?_
  refine (keeps_lift _).bind fun crossing => ?_
  refine (keeps_lift _).bind fun usage => ?_
  exact keeps_modifyShared fun s => ⟨⟨[], rfl⟩, rfl, rfl, rfl, rfl, rfl⟩

theorem keeps_prepareShared (slot tokens : Nat) (shared : SharedState) :
    Keeps (Kept touched resealed) (prepareShared slot tokens shared) := by
  unfold prepareShared
  refine (keeps_lift _).bind fun request => ?_
  refine Keeps.bind (keeps_modifyShared fun s => ?_) fun _ => ?_
  · exact ⟨⟨[], rfl⟩, rfl, rfl, rfl, rfl, rfl⟩
  refine (keeps_lift _).bind fun _ => ?_
  refine Keeps.bind (keeps_onPool (.reserve 1 request tokens (some slot)) .lease rfl)
    fun lease => ?_
  refine Keeps.bind (keeps_modifyShared fun s => ?_) fun _ => ?_
  · exact ⟨⟨[], rfl⟩, List.length_set, List.length_set, rfl, rfl, rfl⟩
  refine (keeps_onPool_read _).bind fun bindings => ?_
  refine (keeps_countAdmission slot _).bind fun _ => ?_
  refine (keeps_require _ _).bind fun _ => ?_
  exact Keeps.forEach keeps_bindState _

theorem keeps_prepareResident (hslot : touched slot) (tokens : Nat) :
    Keeps (Kept touched resealed) (prepareResident slot tokens) := by
  unfold prepareResident
  refine (keeps_resetResident hslot).bind fun _ => ?_
  refine (keeps_selectResident slot).bind fun _ => ?_
  refine keeps_get.bind fun e => ?_
  split
  · exact keeps_pure ()
  · exact keeps_prepareShared slot tokens _

/-! ## Copies and snapshots -/

theorem keeps_submitCopy (destination : Lease) (read : Borrow) :
    Keeps (Kept touched resealed) (submitCopy destination read) := by
  unfold submitCopy
  refine (keeps_submit _ _).attempt.bind fun ticket => ?_
  split
  · exact keeps_pure _
  · exact (keeps_release _).bind fun _ => keeps_lift _

theorem keeps_copyResident (source : Nat) {destination : Nat} (hdestination : touched destination)
    (boundary : Nat) : Keeps (Kept touched resealed) (copyResident source destination boundary) := by
  unfold copyResident
  refine (keeps_require _ _).bind fun _ => ?_
  refine (keeps_read _).bind fun history => ?_
  refine (keeps_read _).bind fun leases => ?_
  refine Keeps.bind (keeps_onPool (.borrow 1 leases.1) .borrow rfl) fun read => ?_
  refine (keeps_submitCopy _ _).bind fun ticket => ?_
  refine (keeps_foreign _).bind fun answer => ?_
  refine (keeps_finishInvocation _ _).bind fun _ => ?_
  refine (keeps_release _).bind fun _ => ?_
  refine (keeps_setHistory hdestination _).bind fun _ => ?_
  exact keeps_setImported destination boundary

theorem keeps_sealResident (hslot : resealed slot) : Keeps (Kept touched resealed) (sealResident slot) := by
  unfold sealResident
  refine (keeps_read _).bind fun history => ?_
  refine (keeps_read _).bind fun refused => ?_
  split
  · exact keeps_fail _
  · refine (keeps_require _ _).bind fun _ => ?_
    refine (keeps_read _).bind fun shared => ?_
    refine (keeps_lift _).bind fun lease => ?_
    refine Keeps.bind (keeps_onPool (.sealLease 1 lease) .sealedLease rfl)
      fun sealedLease => ?_
    exact (keeps_setSealed hslot _).bind fun _ => keeps_pure _

theorem keeps_restoreSnapshot (snapshot : Snapshot) {destination : Nat}
    (hdestination : touched destination) :
    Keeps (Kept touched resealed) (restoreSnapshot snapshot destination) := by
  unfold restoreSnapshot
  refine (keeps_read _).bind fun _ => ?_
  refine (keeps_read _).bind fun history => ?_
  exact keeps_copyResident _ hdestination _

theorem keeps_retireSnapshot {snapshot : Snapshot} (hslot : touched snapshot.slot)
    (hseal : resealed snapshot.slot) :
    Keeps (Kept touched resealed) (retireSnapshot snapshot) := by
  unfold retireSnapshot
  refine (keeps_read _).bind fun _ => ?_
  refine (keeps_read _).bind fun shared => ?_
  refine (keeps_lift _).bind fun lease => ?_
  refine (keeps_lift _).bind fun _ => ?_
  refine (keeps_setSealed hseal none).bind fun _ => ?_
  refine (keeps_resetResident hslot).attempt.bind fun status => ?_
  split
  · exact keeps_pure ()
  · refine keeps_ifShared_poison.bind fun _ => ?_
    exact (keeps_setSealed hseal _).bind fun _ => keeps_lift _

theorem keeps_bindPages (rank : Nat) (component : String) (pages : List Nat) :
    Keeps (Kept touched resealed) (bindPages rank component pages) := by
  unfold bindPages
  refine (keeps_require _ _).bind fun _ => ?_
  refine (keeps_require _ _).bind fun _ => ?_
  refine (keeps_lift _).bind fun pages => ?_
  refine (keeps_lift _).bind fun _ => ?_
  exact (keeps_foreign _).bind fun answer => keeps_lift _

/-! ## Running -/

/-- The selected resident is the only one a token or a prefill touches. -/
theorem kept_token (hselected : touched e.selected) (token position : Nat) (sample : Bool) :
    Kept touched resealed e (Engine.token token position sample e).2 := by
  have hrest : Keeps (Kept touched resealed) (do
      let history ← Method.lift (Outcome.unwrap e.histories[e.selected]?)
      let variant ← Method.lift (Outcome.unwrap e.variants[0]?)
      Method.lift (history.value.checkAppend variant position 1)
      let ticket ← beginInvocation position 1
      let answer ← foreign (.token token position sample)
      finishInvocation ticket answer
      appendCompleted e.selected variant position 1
      Pure.pure (if sample then some (answer.output.headD 0) else none) : Call (Option Nat)) := by
    refine (keeps_lift _).bind fun history => ?_
    refine (keeps_lift _).bind fun variant => ?_
    refine Keeps.bind (keeps_lift _) fun _ => ?_
    refine (keeps_beginInvocation _ _).bind fun ticket => ?_
    refine (keeps_foreign _).bind fun answer => ?_
    refine (keeps_finishInvocation _ _).bind fun _ => ?_
    exact (keeps_appendCompleted hselected _ _ _).bind fun _ => keeps_pure _
  exact hrest e

theorem kept_prefill (hselected : touched e.selected) (tokens : List Nat) (position : Nat)
    (sample : Bool) : Kept touched resealed e (prefill tokens position sample e).2 := by
  unfold prefill
  rcases hcount : (Outcome.okOr (tryFrom u32Max tokens.length)
      (Error.invalid "prefill count overflow")) with count | error | _
  · have hrun : (Method.lift (.ok count) : Call Nat) e = (.ok count, e) := rfl
    rw [bind_ok hrun, bind_ok (get_run e)]
    split
    · exact .refl e
    · refine Keeps.bind (keeps_lift _) (fun variant => ?_) e
      refine (keeps_lift _).bind fun history => ?_
      refine Keeps.bind (keeps_lift _) fun _ => ?_
      refine (keeps_require _ _).bind fun _ => ?_
      refine (keeps_beginInvocation _ _).bind fun ticket => ?_
      refine (keeps_foreign _).bind fun answer => ?_
      refine (keeps_finishInvocation _ _).bind fun _ => ?_
      exact (keeps_appendCompleted hselected _ _ _).bind fun _ => keeps_pure _
  · exact .refl e
  · exact .refl e

theorem keeps_submitBatch (inputs : List BatchInput) : Keeps (Kept touched resealed) (submitBatch inputs) := by
  unfold submitBatch
  refine keeps_get.bind fun e => ?_
  split
  · exact keeps_pure none
  · refine (keeps_lift _).bind fun leases => ?_
    exact (keeps_submit _ _).bind fun ticket => keeps_pure _

/-- The members of a batch are its inputs. -/
theorem batchMembers_fst {base : Variant} {digest : String} {inputs : List BatchInput}
    {members : List (BatchInput × Variant)}
    (h : Outcome.collect (batchMember e base digest) inputs.zipIdx = .ok members) :
    members.map Prod.fst = inputs := by
  have hmember : ∀ (input : BatchInput × Nat) (member : BatchInput × Variant),
      batchMember e base digest input = .ok member → member.1 = input.1 := by
    intro input member h
    simp only [batchMember, Outcome.bind_eq_ok] at h
    obtain ⟨history, -, -, -, taken, -, h⟩ := h
    split at h
    · simp at h
    · rw [← Outcome.ok.inj h]
  have hall : ∀ (indexed : List (BatchInput × Nat)) (members : List (BatchInput × Variant)),
      List.Forall₂ (fun a b => batchMember e base digest a = .ok b) indexed members →
      members.map Prod.fst = indexed.map Prod.fst := by
    intro indexed members h
    induction h with
    | nil => rfl
    | cons hhead _ ih => rw [List.map_cons, List.map_cons, ih, hmember _ _ hhead]
  rw [hall _ _ (Outcome.collect_eq_ok.mp h), List.zipIdx_map_fst]

theorem kept_batch {inputs : List BatchInput} (hinputs : ∀ input ∈ inputs, touched input.resident) :
    Kept touched resealed e (batch inputs e).2 := by
  have h : Triple (Kept touched resealed e) (batch inputs) (fun _ => Kept touched resealed e) (Kept touched resealed e) := by
    unfold batch
    refine ((keeps_require _ _).triple e).bind fun _ => ?_
    refine (keeps_get.triple e).bind fun e₁ => ?_
    refine ((keeps_lift _).triple e).bind fun packed => ?_
    refine ((keeps_lift _).triple e).bind fun base => ?_
    refine (triple_lift _ fun _ h => h).bind fun members => triple_of_fact fun hmembers => ?_
    refine ((keeps_submitBatch inputs).triple e).bind fun ticket => ?_
    refine ((keeps_foreign _).triple e).bind fun answer => ?_
    refine ((keeps_finishInvocation _ _).triple e).bind fun _ => ?_
    extract_lets sampled
    split
    · refine (keeps_ifShared_poison.triple e).bind fun _ => ?_
      exact (keeps_fail _).triple e
    · refine Triple.bind (triple_forEach fun member hmember => ?_) fun _ => triple_pure _ fun _ h => h
      have hinput : member.1 ∈ inputs := by
        rw [← batchMembers_fst hmembers]
        exact List.mem_map_of_mem hmember
      exact (keeps_appendCompleted (hinputs _ hinput) _ _ _).triple e
  exact h.final (.refl e)

end Engine

end Inferfabric.Native
