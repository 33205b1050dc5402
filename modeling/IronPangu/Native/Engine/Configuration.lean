-- SUMMARY: What an engine is opened with never changes: the library, its variants and widths, and the manifest's identity.
import IronPangu.Native.Engine.Frames

open Rust Rust.Method Std

/-!
# The configuration of an engine

Everything a request's chunks and arithmetic are chosen from is fixed when the engine is
opened. No call changes it, whatever comes back.
-/

namespace Inferfabric.Native.Engine

open Inferfabric.Ir Inferfabric.Runtime

structure Configuration where
  world : World
  identity : Identity
  prefillTokens : Nat
  uncapturedPrefill : Bool
  prefillVariants : List Nat
  variants : List Variant
  copyPageTokens : List Nat

def configuration (e : Engine) : Configuration :=
  ⟨e.world, e.identity, e.prefillTokens, e.uncapturedPrefill, e.prefillVariants, e.variants, e.copyPageTokens⟩

def SameConfiguration (e e' : Engine) : Prop := e'.configuration = e.configuration

instance : Steps SameConfiguration := ⟨fun _ => rfl, fun h h' => Eq.trans h' h⟩

variable {e e' : Engine} {slot : Nat}

theorem SameConfiguration.prefillTokens (h : SameConfiguration e e') : e'.prefillTokens = e.prefillTokens :=
  congrArg Configuration.prefillTokens h

theorem SameConfiguration.uncapturedPrefill (h : SameConfiguration e e') :
    e'.uncapturedPrefill = e.uncapturedPrefill := congrArg Configuration.uncapturedPrefill h

theorem SameConfiguration.prefillVariants (h : SameConfiguration e e') : e'.prefillVariants = e.prefillVariants :=
  congrArg Configuration.prefillVariants h

theorem SameConfiguration.variants (h : SameConfiguration e e') : e'.variants = e.variants :=
  congrArg Configuration.variants h

theorem SameConfiguration.world (h : SameConfiguration e e') : e'.world = e.world :=
  congrArg Configuration.world h

/-! ## Parts of the engine -/

theorem configured_foreign (call : Foreign) : Keeps SameConfiguration (foreign call) := fun _ => rfl

theorem configured_onPool {α : Type} (m : Method StatePool Error α) : Keeps SameConfiguration (onPool m) := by
  intro e
  unfold onPool
  split <;> rfl

theorem configured_ifShared (m : Method StatePool Error Unit) : Keeps SameConfiguration (ifShared m) := by
  unfold ifShared
  refine keeps_get.bind fun e => ?_
  split
  · exact configured_onPool m
  · exact keeps_pure ()

theorem configured_modifyShared (f : SharedState → SharedState) : Keeps SameConfiguration (modifyShared f) :=
  fun _ => rfl

theorem configured_setHistory (slot : Nat) (history : CompletedHistory) :
    Keeps SameConfiguration (setHistory slot history) :=
  (keeps_read _).bind fun _ => keeps_modify fun _ => rfl

theorem configured_setImported (slot tokens : Nat) : Keeps SameConfiguration (setImported slot tokens) :=
  (keeps_read _).bind fun _ => keeps_modify fun _ => rfl

theorem configured_setSealed (slot : Nat) (value : Option SealedLease) :
    Keeps SameConfiguration (setSealed slot value) :=
  (keeps_read _).bind fun _ => keeps_modify fun _ => rfl

theorem configured_appendCompleted (slot : Nat) (variant : Variant) (position count : Nat) :
    Keeps SameConfiguration (appendCompleted slot variant position count) := by
  unfold appendCompleted
  refine (keeps_read _).bind fun history => ?_
  exact Keeps.bind (keeps_modify fun _ => rfl) fun _ => keeps_lift _

/-! ## Invocations -/

theorem configured_beginInvocation (position count : Nat) :
    Keeps SameConfiguration (beginInvocation position count) := by
  unfold beginInvocation
  refine keeps_get.bind fun e => ?_
  split
  · exact keeps_pure none
  · refine (keeps_lift _).bind fun lease => ?_
    refine (keeps_lift _).bind fun limit => ?_
    refine (keeps_require _ _).bind fun _ => ?_
    exact (configured_onPool _).bind fun ticket => keeps_pure _

theorem configured_finishInvocation (ticket : Option Ticket) (answer : Answer) :
    Keeps SameConfiguration (finishInvocation ticket answer) := by
  unfold finishInvocation
  refine keeps_get.bind fun e => ?_
  split
  · exact keeps_lift _
  · cases ticket with
    | none => exact keeps_pure ()
    | some ticket => exact Keeps.forEach (fun rank => configured_onPool _) _
  · exact (configured_onPool _).bind fun _ => keeps_lift _

theorem configured_token (token position : Nat) (sample : Bool) :
    Keeps SameConfiguration (Engine.token token position sample) := by
  unfold Engine.token
  refine keeps_get.bind fun e => ?_
  refine (keeps_lift _).bind fun history => ?_
  refine (keeps_lift _).bind fun variant => ?_
  refine Keeps.bind (keeps_lift _) fun _ => ?_
  refine (configured_beginInvocation _ _).bind fun ticket => ?_
  refine (configured_foreign _).bind fun answer => ?_
  refine (configured_finishInvocation _ _).bind fun _ => ?_
  exact (configured_appendCompleted _ _ _ _).bind fun _ => keeps_pure _

theorem configured_prefill (tokens : List Nat) (position : Nat) (sample : Bool) :
    Keeps SameConfiguration (prefill tokens position sample) := by
  unfold prefill
  refine (keeps_lift _).bind fun count => ?_
  refine keeps_get.bind fun e => ?_
  split
  · exact keeps_fail _
  · refine (keeps_lift _).bind fun variant => ?_
    refine (keeps_lift _).bind fun history => ?_
    refine Keeps.bind (keeps_lift _) fun _ => ?_
    refine (keeps_require _ _).bind fun _ => ?_
    refine (configured_beginInvocation _ _).bind fun ticket => ?_
    refine (configured_foreign _).bind fun answer => ?_
    refine (configured_finishInvocation _ _).bind fun _ => ?_
    exact (configured_appendCompleted _ _ _ _).bind fun _ => keeps_pure _

theorem configured_submitBatch (inputs : List BatchInput) : Keeps SameConfiguration (submitBatch inputs) := by
  unfold submitBatch
  refine keeps_get.bind fun e => ?_
  split
  · exact keeps_pure none
  · refine (keeps_lift _).bind fun leases => ?_
    exact (configured_onPool _).bind fun ticket => keeps_pure _

theorem configured_batch (inputs : List BatchInput) : Keeps SameConfiguration (batch inputs) := by
  unfold batch
  refine (keeps_require _ _).bind fun _ => ?_
  refine keeps_get.bind fun e => ?_
  refine (keeps_lift _).bind fun packed => ?_
  refine (keeps_lift _).bind fun base => ?_
  refine (keeps_lift _).bind fun members => ?_
  refine (configured_submitBatch _).bind fun ticket => ?_
  refine (configured_foreign _).bind fun answer => ?_
  refine (configured_finishInvocation _ _).bind fun _ => ?_
  dsimp only
  split
  · exact (configured_ifShared _).bind fun _ => keeps_fail _
  · refine Keeps.bind (Keeps.forEach (fun member => ?_) _) fun _ => keeps_pure _
    exact configured_appendCompleted _ _ _ _

/-! ## Residents -/

theorem configured_auditHistory (slot : Nat) : Keeps SameConfiguration (auditHistory slot) := by
  unfold auditHistory
  refine keeps_get.bind fun e => ?_
  split
  · refine (keeps_lift _).bind fun history => ?_
    split
    · exact keeps_pure ()
    · refine (keeps_lift _).bind fun sequence => ?_
      refine (keeps_lift _).bind fun _ => ?_
      refine (configured_foreign _).bind fun _ => ?_
      exact (keeps_read _).bind fun _ => keeps_modify fun _ => rfl
  · exact keeps_pure ()

theorem configured_resetUnshared : Keeps SameConfiguration resetUnshared := by
  unfold resetUnshared
  refine (configured_foreign _).bind fun answer => ?_
  refine (keeps_lift _).bind fun _ => ?_
  refine keeps_get.bind fun e => ?_
  exact (Keeps.forEach configured_auditHistory _).bind fun _ => keeps_modify fun _ => rfl

theorem configured_selectResident (slot : Nat) : Keeps SameConfiguration (selectResident slot) := by
  unfold selectResident
  refine keeps_get.bind fun e => ?_
  split
  · exact keeps_pure ()
  · refine (keeps_require _ _).bind fun _ => ?_
    refine (configured_foreign _).bind fun answer => ?_
    exact (keeps_lift _).bind fun _ => keeps_modify fun _ => rfl

theorem configured_returnPages (slot : Nat) : Keeps SameConfiguration (returnPages slot) := by
  unfold returnPages
  refine keeps_get.bind fun e => ?_
  split
  · exact keeps_pure ()
  · refine (keeps_lift _).bind fun lease => ?_
    refine (configured_modifyShared _).bind fun _ => ?_
    split
    · exact keeps_pure ()
    · exact configured_onPool _

theorem configured_resetResident (slot : Nat) : Keeps SameConfiguration (resetResident slot) := by
  unfold resetResident resetFallback finishReset
  refine (keeps_read _).bind fun taken => ?_
  split
  · exact keeps_fail _
  refine Keeps.bind (keeps_read _) fun _ => ?_
  refine keeps_get.bind fun e => ?_
  split
  · refine (keeps_require _ _).bind fun _ => ?_
    refine keeps_get.bind fun e => ?_
    split
    · exact keeps_lift _
    · exact configured_resetUnshared
  refine (keeps_require _ _).bind fun _ => ?_
  refine (configured_foreign _).bind fun answer => ?_
  split
  · refine (configured_auditHistory slot).attempt.bind fun audit => ?_
    refine (keeps_read _).bind fun _ => ?_
    refine (configured_setHistory _ _).bind fun _ => ?_
    refine (configured_setImported slot 0).bind fun _ => ?_
    exact (configured_returnPages slot).bind fun _ => keeps_lift audit
  · exact (configured_ifShared _).bind fun _ => keeps_lift _

theorem configured_releaseResident (slot : Nat) : Keeps SameConfiguration (releaseResident slot) := by
  unfold releaseResident
  refine keeps_get.bind fun e => ?_
  split
  · exact configured_resetResident slot
  · exact keeps_pure ()

theorem configured_prepareResident (slot tokens : Nat) : Keeps SameConfiguration (prepareResident slot tokens) := by
  unfold prepareResident prepareShared countAdmission
  refine (configured_resetResident slot).bind fun _ => ?_
  refine (configured_selectResident slot).bind fun _ => ?_
  refine keeps_get.bind fun e => ?_
  split
  · exact keeps_pure ()
  refine (keeps_lift _).bind fun request => ?_
  refine (configured_modifyShared _).bind fun _ => ?_
  refine (keeps_lift _).bind fun _ => ?_
  refine (configured_onPool _).bind fun lease => ?_
  refine (configured_modifyShared _).bind fun _ => ?_
  refine (configured_onPool _).bind fun bindings => ?_
  refine Keeps.bind ?_ fun _ => ?_
  · refine (keeps_read _).bind fun shared => ?_
    refine (keeps_lift _).bind fun crossing => ?_
    exact (keeps_lift _).bind fun usage => configured_modifyShared _
  refine (keeps_require _ _).bind fun _ => ?_
  refine Keeps.forEach (fun binding => ?_) _
  unfold bindState
  refine (keeps_lift _).bind fun _ => ?_
  refine (configured_foreign _).bind fun answer => ?_
  split
  · exact keeps_pure ()
  · exact (configured_onPool _).bind fun _ => keeps_lift _

/-! ## Copies and snapshots -/

theorem configured_copyResident (source destination boundary : Nat) :
    Keeps SameConfiguration (copyResident source destination boundary) := by
  unfold copyResident submitCopy
  refine (keeps_require _ _).bind fun _ => ?_
  refine (keeps_read _).bind fun history => ?_
  refine (keeps_read _).bind fun leases => ?_
  refine (configured_onPool _).bind fun read => ?_
  refine Keeps.bind ?_ fun ticket => ?_
  · refine (configured_onPool _).attempt.bind fun ticket => ?_
    split
    · exact keeps_pure _
    · exact (configured_onPool _).bind fun _ => keeps_lift _
  refine (configured_foreign _).bind fun answer => ?_
  refine (configured_finishInvocation _ _).bind fun _ => ?_
  refine (configured_onPool _).bind fun _ => ?_
  exact (configured_setHistory _ _).bind fun _ => configured_setImported _ _

theorem configured_sealResident (slot : Nat) : Keeps SameConfiguration (sealResident slot) := by
  unfold sealResident
  refine (keeps_read _).bind fun history => ?_
  refine (keeps_read _).bind fun refused => ?_
  split
  · exact keeps_fail _
  · refine (keeps_require _ _).bind fun _ => ?_
    refine (keeps_read _).bind fun shared => ?_
    refine (keeps_lift _).bind fun lease => ?_
    refine (configured_onPool _).bind fun sealedLease => ?_
    exact (configured_setSealed _ _).bind fun _ => keeps_pure _

theorem configured_restoreSnapshot (snapshot : Snapshot) (destination : Nat) :
    Keeps SameConfiguration (restoreSnapshot snapshot destination) := by
  unfold restoreSnapshot
  refine (keeps_read _).bind fun _ => ?_
  exact (keeps_read _).bind fun history => configured_copyResident _ _ _

theorem configured_retireSnapshot (snapshot : Snapshot) : Keeps SameConfiguration (retireSnapshot snapshot) := by
  unfold retireSnapshot
  refine (keeps_read _).bind fun _ => ?_
  refine (keeps_read _).bind fun shared => ?_
  refine (keeps_lift _).bind fun lease => ?_
  refine (keeps_lift _).bind fun _ => ?_
  refine (configured_setSealed _ none).bind fun _ => ?_
  refine (configured_resetResident _).attempt.bind fun status => ?_
  split
  · exact keeps_pure ()
  · refine (configured_ifShared _).bind fun _ => ?_
    exact (configured_setSealed _ _).bind fun _ => keeps_lift _

end Inferfabric.Native.Engine
