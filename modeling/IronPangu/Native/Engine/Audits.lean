-- SUMMARY: What resets, releases and retirements leave when an audit file cannot be written: host histories and reservations against what the device has reset.
import IronPangu.Native.Engine.FailClosed

open Rust Std

namespace Inferfabric.Native

open Inferfabric.Ir Inferfabric.Runtime

/-- Whether a call is one into the library. -/
def Foreign.isNative : Foreign → Bool
  | .audit .. => false
  | _ => true

/-- The residents a call resets on the device. -/
def Foreign.resets : Foreign → Nat → Prop
  | .reset => fun _ => True
  | .resetResident slot => (slot = ·)
  | _ => fun _ => False

namespace Engine

open Method StatePool

variable {e e' : Engine} {s : SharedState} {slot : Nat}

/-- A call made between two engines, and the calls before it. -/
def Since (e e' : Engine) (call : Foreign) (older : List Foreign) : Prop :=
  (call :: older) <:+ e'.calls ∧ e.calls <:+ older

/-- The resident was reset on the device. -/
def ResetSince (e e' : Engine) (slot : Nat) : Prop :=
  ∃ call older, Since e e' call older ∧ call.resets slot

theorem Since.trans {e'' : Engine} {call : Foreign} {older : List Foreign} (h : Since e e'' call older)
    (hcalls' : e'.calls <:+ e''.calls) : Since e e' call older ∨ Since e' e'' call older := by
  rcases List.suffix_or_suffix_of_suffix h.1 hcalls' with hearly | hlate
  · exact .inl ⟨hearly, h.2⟩
  · rcases List.suffix_cons_iff.mp hlate with heq | hlate
    · exact .inl ⟨heq ▸ List.suffix_rfl, h.2⟩
    · exact .inr ⟨h.1, hlate⟩

theorem not_since_refl {call : Foreign} {older : List Foreign} : ¬Since e e call older := by
  rintro ⟨hnew, hold⟩
  have hlength := hnew.length_le
  have hlength' := hold.length_le
  rw [List.length_cons] at hlength
  omega

/-! ## Resets of single residents -/

/-- The resident has no reservation. -/
def Vacant (slot : Nat) (e : Engine) : Prop := ∀ s, e.shared = some s → s.leases[slot]? = some none

/-- Completed resets: what was reset on the device is cleared, and every reservation
    is left or dropped. -/
structure Swept (e e' : Engine) : Prop where
  calls : e.calls <:+ e'.calls
  wiped : Wiped e e'
  cleared : ∀ slot, ResetSince e e' slot →
    e'.histories[slot]? = some CompletedHistory.default ∧ Vacant slot e' ∧ Unsealed e slot
  vacant : ∀ slot, Vacant slot e → Vacant slot e'
  leases : ∀ {s : SharedState} {slot : Nat} {l : Lease}, e.shared = some s →
    s.leases[slot]? = some (some l) →
      (∃ s', e'.shared = some s' ∧ s'.leases[slot]? = some (some l)) ∨ Dropped l e'

theorem Swept.refl (e : Engine) : Swept e e where
  calls := List.suffix_rfl
  wiped := Steps.refl e
  cleared := by
    rintro slot ⟨call, older, hsince, -⟩
    exact absurd hsince not_since_refl
  vacant _ h := h
  leases hs hlease := .inl ⟨_, hs, hlease⟩

theorem Wiped.default {history : Option CompletedHistory} (h : Wiped e e')
    (hdefault : e.histories[slot]? = history) (hhistory : history = some CompletedHistory.default) :
    e'.histories[slot]? = some CompletedHistory.default := by
  rcases h.histories slot with hsame | hcleared
  · rw [hsame, hdefault, hhistory]
  · exact hcleared

theorem Swept.trans {e'' : Engine} (h : Swept e e') (h' : Swept e' e'') (he' : Closed e')
    (hkept : Kept (fun _ => True) (fun _ => True) e' e'') : Swept e e'' where
  calls := h.calls.trans h'.calls
  wiped := h.wiped.trans h'.wiped
  cleared := by
    rintro slot ⟨call, older, hsince, hresets⟩
    rcases hsince.trans h'.calls with hearly | hlate
    · obtain ⟨hhistory, hvacant, hunsealed⟩ := h.cleared slot ⟨call, older, hearly, hresets⟩
      exact ⟨h'.wiped.default hhistory rfl, h'.vacant slot hvacant, hunsealed⟩
    · obtain ⟨hhistory, hvacant, hunsealed⟩ := h'.cleared slot ⟨call, older, hlate, hresets⟩
      refine ⟨hhistory, hvacant, fun l => ?_⟩
      rw [← h.wiped.seals]
      exact hunsealed l
  vacant slot hvacant := h'.vacant slot (h.vacant slot hvacant)
  leases hs hlease := by
    rcases h.leases hs hlease with ⟨s', hs', hlease'⟩ | hdropped
    · exact h'.leases hs' hlease'
    · exact .inr (hdropped.kept he' hkept)

/-- After the call that resets one resident, only that resident has been reset. -/
theorem ResetSince.resident {slot' : Nat} (h : ResetSince e e' slot')
    (hcalls : AuditedCalls slot (.resetResident slot :: e.calls) e'.calls) : slot = slot' := by
  obtain ⟨call, older, ⟨hmade, hold⟩, hresets⟩ := h
  have hlast : call :: older <:+ .resetResident slot :: e.calls → slot = slot' := by
    intro hmade
    rcases List.suffix_cons_iff.mp hmade with heq | hearly
    · obtain ⟨rfl, -⟩ := List.cons.inj heq
      exact hresets
    · exact absurd ⟨hearly, hold⟩ (@not_since_refl e call older)
  rcases hcalls with hcalls | ⟨n, hcalls⟩
  · exact hlast (hcalls ▸ hmade)
  · rcases List.suffix_cons_iff.mp (hcalls ▸ hmade) with heq | hmade
    · obtain ⟨rfl, -⟩ := List.cons.inj heq
      exact hresets.elim
    · exact hlast hmade

/-- A completed reset of one resident. -/
theorem Cleared.swept (hsafe : SafeWith e s) (htaken : e.sealedLeases[slot]? = some none)
    (h : Cleared (e.called (.resetResident slot)) s slot e') : Swept e e' := by
  have hslot : slot < e.histories.length := by
    rw [← hsafe.seals]
    exact (List.getElem?_eq_some_iff.mp htaken).1
  have hdropped := fun l hlease => @Cleared.dropped _ _ _ _ l h (hsafe.called _) hlease
  obtain ⟨calls, sequence, p, hcalls, hback, rfl⟩ := h
  have hnew : (.resetResident slot :: e.calls) <:+ calls := by
    rcases hcalls with rfl | ⟨n, rfl⟩
    · exact List.suffix_rfl
    · exact List.suffix_cons _ _
  exact {
    calls := (List.suffix_cons _ _).trans hnew
    wiped := ⟨fun slot' => by
      by_cases hsame : slot = slot'
      · subst hsame
        exact .inr (List.getElem?_set_self hslot)
      · exact .inl (List.getElem?_set_ne hsame), rfl⟩
    cleared := fun slot' hsince => by
      obtain rfl := hsince.resident hcalls
      refine ⟨List.getElem?_set_self hslot, ?_, fun l hl => by cases htaken.symm.trans hl⟩
      rintro _ ⟨⟩
      exact List.getElem?_set_self (hsafe.leases ▸ hslot)
    vacant := fun slot' hvacant => by
      rintro _ ⟨⟩
      by_cases hsame : slot = slot'
      · subst hsame
        exact List.getElem?_set_self (hsafe.leases ▸ hslot)
      · exact (List.getElem?_set_ne hsame).trans (hvacant s hsafe.shared)
    leases := fun {s' slot' l} hs hlease => by
      obtain rfl := Option.some.inj (hsafe.shared.symm.trans hs)
      by_cases hsame : slot = slot'
      · subst hsame
        exact .inr (hdropped l hlease)
      · exact .inl ⟨_, rfl, (List.getElem?_set_ne hsame).trans hlease⟩ }

/-- Resets in a row: unless one has failed on the device and poisoned the pool, all
    of them are completed on both sides. -/
def Resets (e e' : Engine) : Prop :=
  Closed e → Closed e' ∧ Kept (fun _ => True) (fun _ => True) e e' ∧ (Poisoned e' ∨ Swept e e')

instance : Steps Resets where
  refl e he := ⟨he, .refl e, .inr (.refl e)⟩
  trans := by
    intro e e' e'' h h' he
    obtain ⟨he', hkept, hswept⟩ := h he
    obtain ⟨he'', hkept', hswept'⟩ := h' he'
    refine ⟨he'', hkept.trans hkept', ?_⟩
    rcases hswept with hpoisoned | hswept
    · exact .inl (hkept'.poisoned he' hpoisoned)
    · exact hswept'.imp_right fun hswept' => hswept.trans hswept' he' hkept'

theorem resets_resetResident (slot : Nat) : Keeps Resets (resetResident slot) := by
  intro e he
  have hclosed : Closed (resetResident slot e).2 :=
    ((closed_resetResident slot).post fun _ _ h => h.1).final he
  refine ⟨hclosed, keeps_resetResident trivial e, ?_⟩
  obtain ⟨s, hsafe, -⟩ := he
  rcases resetResident_cases hsafe slot with ⟨-, error, hrun⟩ | ⟨-, -, error, hrun⟩ |
    ⟨hresettable, -, reply, e', hrun, -, -, hcleared⟩ <;> rw [hrun]
  · exact .inr (.refl e)
  · refine .inl ⟨{ s with pool := { s.pool with poisoned := true } }, ?_, rfl⟩
    rw [mapPool, called, hsafe.shared]
    rfl
  · exact .inr (hcleared.swept hsafe hresettable.taken)

theorem resets_selectResident (slot : Nat) : Keeps Resets (selectResident slot) := by
  have hforeign : Keeps Resets (foreign (.selectResident slot)) := by
    intro e he
    have hclosed : Closed (e.called (.selectResident slot)) :=
      he.answered (Quiet.refl _) fun _ _ _ _ h => by cases h
    refine ⟨hclosed, keeps_foreign _ e, .inr ?_⟩
    refine ⟨List.suffix_cons _ _, .of_eq rfl rfl, ?_, fun _ h => h, fun hs hlease => .inl ⟨_, hs, hlease⟩⟩
    rintro slot' ⟨call, older, ⟨hmade, hold⟩, hresets⟩
    rcases List.suffix_cons_iff.mp hmade with heq | hearly
    · obtain ⟨rfl, -⟩ := List.cons.inj heq
      exact hresets.elim
    · exact absurd ⟨hearly, hold⟩ (@not_since_refl e call older)
  have hselect : Keeps Resets (Method.modify fun e => { e with selected := slot } : Call Unit) := by
    intro e he
    have hsame : Kept (fun _ => True) (fun _ => True) e { e with selected := slot } :=
      .of_eq rfl rfl rfl rfl rfl rfl rfl
    refine ⟨he.congr (fun s hs => ⟨s, hs, rfl, rfl, rfl, rfl⟩) rfl rfl rfl rfl rfl, hsame, .inr ?_⟩
    refine ⟨List.suffix_rfl, .of_eq rfl rfl, ?_, fun _ h => h, fun hs hlease => .inl ⟨_, hs, hlease⟩⟩
    rintro slot' ⟨call, older, hsince, -⟩
    exact absurd hsince (@not_since_refl e call older)
  unfold selectResident
  refine keeps_get.bind fun e => ?_
  split
  · exact keeps_pure ()
  · refine (keeps_require _ _).bind fun _ => ?_
    refine hforeign.bind fun answer => ?_
    exact (keeps_lift _).bind fun _ => hselect

theorem resets_reset (he : Closed e) : Resets e (reset e).2 := by
  obtain ⟨s, hsafe, -⟩ := id he
  have hloop : Keeps Resets (do
      Method.forEach (List.range s.leases.length) resetResident
      selectResident 0 : Call Unit) :=
    (Keeps.forEach resets_resetResident _).bind fun _ => resets_selectResident 0
  have hcheck := @require_not_sealedAny e
  unfold reset
  cases hany : e.sealedAny with
  | true =>
    rw [hany, if_pos rfl] at hcheck
    rw [bind_err hcheck]
    exact Steps.refl e
  | false =>
    rw [hany, if_neg Bool.false_ne_true] at hcheck
    rw [bind_ok hcheck, bind_ok (get_run e), hsafe.shared]
    exact hloop e

/-! ## Fixed pages -/

/-- An engine without shared pages has nothing sealed. -/
structure Unpaged (e : Engine) : Prop where
  shared : e.shared = none
  imported : e.importedTokens.length = e.histories.length
  seals : e.sealedLeases.length = e.histories.length
  unsealed : ∀ slot, Unsealed e slot

theorem Opened.unpaged {m : Manifest} (h : Opened m e) (hpages : m.sharedPages = false) : Unpaged e := by
  have hstart := h.start
  have hhistories : e.histories.length = m.residentSequences := by
    rw [hstart]
    exact List.length_replicate
  have hseals : e.sealedLeases = List.replicate m.residentSequences none := by rw [hstart]; rfl
  refine ⟨h.unshared hpages, ?_, ?_, fun slot l hl => ?_⟩
  · rw [hhistories, hstart]
    exact List.length_replicate
  · rw [hseals, hhistories, List.length_replicate]
  · rw [hseals, List.getElem?_replicate] at hl
    split at hl <;> cases hl

/-- Without shared pages nothing can be sealed. -/
theorem Unpaged.sealResident (h : Unpaged e) (slot : Nat) : (sealResident slot e).2 = e := by
  have hrefused : Triple (· = e) (Engine.sealResident slot) (fun _ _ => False) (· = e) := by
    unfold Engine.sealResident
    refine triple_read_at rfl fun history _ => ?_
    refine triple_read_at rfl fun refused _ => ?_
    split
    · exact triple_fail_at rfl
    refine triple_require_at rfl fun _ => ?_
    refine triple_read_at rfl fun s hs => ?_
    rw [h.shared] at hs
    cases hs
  exact hrefused.not_ok rfl fun a => hrefused.refused rfl a

theorem Unpaged.retireSnapshot (h : Unpaged e) (snapshot : Snapshot) :
    retireSnapshot snapshot e = (.err (.invalid "stale or foreign device snapshot"), e) := by
  have hstale : e.checkSnapshot snapshot = .err (.invalid "stale or foreign device snapshot") :=
    if_pos (h.unsealed _ _)
  rw [Engine.retireSnapshot, bind_run, read_run, hstale]

theorem Unpaged.step (h : Unpaged e) (op : Op) : Unpaged (step op e).2 := by
  have hkept := kept_step op e
  have hseals : (Engine.step op e).2.sealedLeases = e.sealedLeases := by
    cases op with
    | sealResident slot =>
      rw [Engine.step, after_return, h.sealResident]
    | retireSnapshot snapshot =>
      rw [Engine.step, after_return, h.retireSnapshot]
    | _ => exact List.ext_getElem? fun slot => hkept.sealsKept slot fun h => h
  refine ⟨hkept.unshared h.shared, ?_, ?_, fun slot l => ?_⟩
  · rw [hkept.imported, hkept.histories, h.imported]
  · rw [hkept.seals, hkept.histories, h.seals]
  · rw [hseals]
    exact h.unsealed slot l

theorem unpaged_final (h : Unpaged e) (ops : List Op) : Unpaged (final step ops e) :=
  final_induction h (fun _ op ht => ht.step op) ops

/-- Every resident in turn can be audited. -/
def AuditsPass : Engine → List Nat → Prop
  | _, [] => True
  | e, slot :: slots => ¬Unaudited e slot ∧ AuditsPass (e.audited slot) slots

@[simp] theorem audited_histories (e : Engine) (slot : Nat) : (e.audited slot).histories = e.histories := by
  unfold audited
  split <;> rfl

@[simp] theorem audited_importedTokens (e : Engine) (slot : Nat) :
    (e.audited slot).importedTokens = e.importedTokens := by
  unfold audited
  split <;> rfl

/-- Audits of residents one after another: only audit files are written, and where
    one cannot be, its resident has a history. -/
theorem audits_run {slots : List Nat} (hslots : ∀ slot ∈ slots, slot < e.histories.length)
    (himported : e.importedTokens.length = e.histories.length) :
    ∃ reply made sequence, Method.forEach slots auditHistory e =
        (reply, { e with calls := made ++ e.calls, historyAuditSequence := sequence }) ∧
      reply ≠ .panic ∧ (reply = .ok () ↔ AuditsPass e slots) ∧
      (∀ call ∈ made, call.isNative = false ∧ ∀ slot, ¬call.resets slot) ∧
      (reply ≠ .ok () → ∃ slot ∈ slots, e.histories[slot]? ≠ some CompletedHistory.default) := by
  induction slots generalizing e with
  | nil =>
    exact ⟨.ok (), [], e.historyAuditSequence, rfl, by simp, by simp [AuditsPass], by simp, by simp⟩
  | cons slot slots ih =>
    have hslot := hslots slot List.mem_cons_self
    obtain ⟨reply, calls, sequence, hrun, hvalue, hok, hcalls, hafter⟩ := auditHistory_run hslot himported
    have hmade : ∃ made, calls = made ++ e.calls ∧
        ∀ call ∈ made, call.isNative = false ∧ ∀ slot, ¬call.resets slot := by
      rcases hcalls with rfl | ⟨n, rfl⟩
      · exact ⟨[], rfl, by simp⟩
      · exact ⟨[.audit n slot], rfl, by simp [Foreign.isNative, Foreign.resets]⟩
    obtain ⟨made, rfl, hmade⟩ := hmade
    rw [Method.forEach, AuditsPass]
    cases reply with
    | panic => exact absurd rfl hvalue
    | err error =>
      have hunaudited : Unaudited e slot := not_not.mp fun h => by cases hok.mpr h
      refine ⟨.err error, made, sequence, bind_err hrun, by simp, by simp [hunaudited], hmade, fun _ => ?_⟩
      obtain ⟨-, history, hhistory, htokens, -⟩ := hunaudited
      refine ⟨slot, List.mem_cons_self, fun hdefault => htokens ?_⟩
      obtain rfl := Option.some.inj (hhistory.symm.trans hdefault)
      rfl
    | ok u =>
      have haudited : ¬Unaudited e slot := hok.mp rfl
      have hsame := hafter rfl
      obtain ⟨reply', made', sequence', hrun', hvalue', hok', hmade', hleft⟩ :=
        @ih { e with calls := made ++ e.calls, historyAuditSequence := sequence }
          (fun slot' h => hslots slot' (List.mem_cons_of_mem _ h)) himported
      refine ⟨reply', made' ++ made, sequence', ?_, hvalue', ?_, ?_, fun h => ?_⟩
      · rw [bind_ok hrun, hrun', List.append_assoc]
      · rw [hok', hsame, and_iff_right haudited]
      · exact fun call hcall => (List.mem_append.mp hcall).elim (hmade' call) (hmade call)
      · obtain ⟨slot', hslot', hhistory⟩ := hleft h
        exact ⟨slot', List.mem_cons_of_mem _ hslot', hhistory⟩

/-! ## The theorem -/

/-- The host side of a resident is as after a reset: its history is empty, its
    reservation handed back and nothing sealed. -/
structure Renewed (e : Engine) (slot : Nat) (e' : Engine) : Prop where
  history : e'.histories[slot]? = some CompletedHistory.default
  vacant : Vacant slot e'
  dropped : ∀ s l, e.shared = some s → s.leases[slot]? = some (some l) → Dropped l e'
  unsealed : Unsealed e' slot

/-- Every library call in between came back with status 0. -/
def NativeOk (e e' : Engine) : Prop :=
  ∀ call older, Since e e' call older → call.isNative = true →
    (e.world.answer (call :: older)).status = 0

/-- A failed call whose library calls all succeeded has poisoned the pool, or left
    every resident that it reset on the device reset on the host. -/
def Synced (op : Op) (e : Engine) : Prop :=
  ∀ error, (step op e).1 = .err error → NativeOk e (step op e).2 →
    Poisoned (step op e).2 ∨ ∀ slot < e.histories.length,
      ResetSince e (step op e).2 slot → Renewed e slot (step op e).2

def Op.resetting : Op → Bool
  | .reset | .resetResident _ | .releaseResident _ | .retireSnapshot _ => true
  | _ => false

/-- Whether a call resets all residents by one library call. -/
def Op.sweeps (e : Engine) : Op → Bool
  | .reset => true
  | .resetResident slot => slot == 0 && !e.world.resetResidentFn
  | _ => false

/-- With fixed pages, once the library has reset all residents, every audit of them
    is written. -/
def SweepAudited (op : Op) (e : Engine) : Prop :=
  e.shared = none → op.sweeps e = true → (e.world.answer (.reset :: e.calls)).status = 0 →
    AuditsPass (e.called .reset) (List.range e.histories.length)

theorem Swept.renewed (h : Swept e e') (hreset : ResetSince e e' slot) : Renewed e slot e' := by
  obtain ⟨hhistory, hvacant, hunsealed⟩ := h.cleared slot hreset
  refine ⟨hhistory, hvacant, fun s l hs hlease => ?_, h.wiped.unsealed hunsealed⟩
  rcases h.leases hs hlease with ⟨s', hs', hlease'⟩ | hdropped
  · cases (hvacant s' hs').symm.trans hlease'
  · exact hdropped

/-- With shared pages every reset is synchronised. -/
theorem Closed.synced (he : Closed e) {op : Op} (hop : op.resetting = true) : Synced op e := by
  have hresets : Resets e (step op e).2 → Synced op e := by
    intro h error _ _
    rcases (h he).2.2 with hpoisoned | hswept
    · exact .inl hpoisoned
    · exact .inr fun slot _ hreset => hswept.renewed hreset
  cases op with
  | reset =>
    refine hresets ?_
    rw [step, after_return]
    exact resets_reset he
  | resetResident slot =>
    refine hresets ?_
    rw [step, after_return]
    exact resets_resetResident slot e
  | releaseResident slot =>
    refine hresets ?_
    rw [step, after_return, releaseResident, bind_ok (get_run e), if_pos he.isSome]
    exact resets_resetResident slot e
  | retireSnapshot snapshot =>
    intro error herror _
    have hnot : ∀ u, (retireSnapshot snapshot e).1 ≠ .ok u := by
      rw [return_eq_err herror]
      exact fun _ h => by cases h
    rw [step, after_return]
    rcases ((retire_spec he snapshot).not_ok rfl hnot).2 with hsame | hpoisoned
    · rw [hsame]
      refine .inr fun slot _ hreset => ?_
      obtain ⟨call, older, hsince, -⟩ := hreset
      exact absurd hsince not_since_refl
    · exact .inl hpoisoned
  | _ => cases hop

/-- A reset of all residents with fixed pages: refused by the library, completed, or
    stopped at an audit with every history still there. -/
theorem Unpaged.resetUnshared_cases (h : Unpaged e) :
    ((e.world.answer (.reset :: e.calls)).status ≠ 0 ∧
      ∃ error, resetUnshared e = (.err error, e.called .reset)) ∨
    (AuditsPass (e.called .reset) (List.range e.histories.length) ∧
      (resetUnshared e).1 = .ok ()) ∨
    ((e.world.answer (.reset :: e.calls)).status = 0 ∧
      ¬AuditsPass (e.called .reset) (List.range e.histories.length) ∧
      ∃ error made sequence, resetUnshared e =
          (.err error, { e with calls := made ++ .reset :: e.calls, historyAuditSequence := sequence }) ∧
        (∀ call ∈ made, call.isNative = false ∧ ∀ slot, ¬call.resets slot) ∧
        ∃ slot < e.histories.length, e.histories[slot]? ≠ some CompletedHistory.default) := by
  have hforeign : foreign .reset e = (.ok (e.world.answer (.reset :: e.calls)), e.called .reset) := rfl
  have hslots : ∀ slot ∈ List.range e.histories.length, slot < (e.called .reset).histories.length :=
    fun slot hslot => List.mem_range.mp hslot
  obtain ⟨reply, made, sequence, hrun, hvalue, hok, hmade, hleft⟩ := audits_run hslots h.imported
  unfold resetUnshared
  rw [bind_ok hforeign, bind_run, lift_run]
  by_cases hstatus : (e.world.answer (.reset :: e.calls)).status = 0
  · refine .inr ?_
    have hcheck : check (e.world.answer (.reset :: e.calls)) = .ok () := check_eq_ok.mpr hstatus
    have hget : Method.get (e.called .reset) = ((.ok (e.called .reset), e.called .reset) : Result Engine × Engine) := rfl
    rw [hcheck]
    simp only [bind_ok hget]
    cases reply with
    | panic => exact absurd rfl hvalue
    | ok u =>
      exact .inl ⟨hok.mp rfl, congrArg Prod.fst (bind_ok hrun)⟩
    | err error =>
      obtain ⟨slot, hslot, hhistory⟩ := hleft (by simp)
      refine .inr ⟨hstatus, fun hpass => ?_, error, made, sequence, bind_err hrun, hmade, slot,
        List.mem_range.mp hslot, hhistory⟩
      cases hok.mpr hpass
  · refine .inl ⟨hstatus, ?_⟩
    rw [check, if_neg hstatus]
    exact ⟨_, rfl⟩

theorem suffix_append_cases {call : Foreign} {older made calls : List Foreign}
    (h : call :: older <:+ made ++ calls) : call ∈ made ∨ call :: older <:+ calls := by
  induction made with
  | nil => exact .inr h
  | cons c made ih =>
    rcases List.suffix_cons_iff.mp h with heq | hlater
    · obtain ⟨rfl, -⟩ := List.cons.inj heq
      exact .inl List.mem_cons_self
    · exact (ih hlater).imp_left (List.mem_cons_of_mem c)

/-- With fixed pages, resetting all residents is synchronised exactly when the audits pass. -/
theorem Unpaged.synced_sweep (h : Unpaged e) {op : Op}
    (hrun : Engine.step op e = (do
      resetUnshared
      return .done : Call Reply) e) :
    Synced op e ↔ ((e.world.answer (.reset :: e.calls)).status = 0 →
      AuditsPass (e.called .reset) (List.range e.histories.length)) := by
  rw [Synced, hrun]
  rcases h.resetUnshared_cases with ⟨hstatus, error, hreset⟩ | ⟨hpass, hreset⟩ |
    ⟨hstatus, hpass, error, made, sequence, hreset, hmade, slot, hslot, hhistory⟩
  · refine iff_of_true (fun _ _ hnative => ?_) fun h => absurd h hstatus
    rw [bind_err hreset] at hnative
    exact absurd (hnative .reset e.calls ⟨List.suffix_rfl, List.suffix_rfl⟩ rfl) hstatus
  · refine iff_of_true (fun error herror => ?_) fun _ => hpass
    rw [return_eq_err herror] at hreset
    cases hreset
  · refine iff_of_false (fun hsynced => ?_) fun h => hpass (h hstatus)
    rw [bind_err hreset] at hsynced
    -- The library has reset every resident, and no host history is gone.
    have hnative : NativeOk e { e with calls := made ++ .reset :: e.calls, historyAuditSequence := sequence } := by
      rintro call older ⟨hnew, hold⟩ hcall
      rcases suffix_append_cases hnew with hmem | hnew
      · rw [(hmade call hmem).1] at hcall
        cases hcall
      · rcases List.suffix_cons_iff.mp hnew with heq | hearly
        · obtain ⟨rfl, rfl⟩ := List.cons.inj heq
          exact hstatus
        · exact absurd ⟨hearly, hold⟩ (@not_since_refl e call older)
    rcases hsynced error rfl hnative with ⟨s, hs, -⟩ | hrenewed
    · cases h.shared.symm.trans hs
    · refine hhistory (hrenewed slot hslot ⟨.reset, e.calls, ⟨List.suffix_append _ _, List.suffix_rfl⟩, trivial⟩).history

/-- With fixed pages, the host side of a reset of one resident is always finished. -/
theorem Unpaged.finishReset (h : Unpaged e) (hslot : slot < e.histories.length) :
    ∃ reply calls sequence, AuditedCalls slot e.calls calls ∧
      finishReset slot e = (reply, { e with
        calls := calls
        historyAuditSequence := sequence
        histories := e.histories.set slot CompletedHistory.default
        importedTokens := e.importedTokens.set slot 0 }) := by
  obtain ⟨reply, calls, sequence, -, -, hcalls, hrun⟩ := finishReset_eq hslot h.imported
  refine ⟨reply, calls, sequence, hcalls, hrun.trans ?_⟩
  have hshared : e.shared = none := h.shared
  rw [returnPages, bind_run, bind_run, get_run]
  simp [hshared]

theorem Unpaged.not_sealedAny (h : Unpaged e) :
    (require (fun e => !e.sealedAny) (.invalid "explicitly retire snapshots before engine reset") :
      Call Unit) e = (.ok (), e) := by
  have hnone : e.sealedAny = false := by
    rw [sealedAny, List.any_eq_false]
    rintro (_ | l) hl
    · simp
    · obtain ⟨slot, hslot⟩ := List.mem_iff_getElem?.mp hl
      exact absurd hslot (h.unsealed slot l)
  rw [require_not_sealedAny, hnone, if_neg Bool.false_ne_true]

theorem Unpaged.checkResidentIdle (h : Unpaged e) (slot : Nat) : checkResidentIdle slot e = (.ok (), e) := by
  rw [Engine.checkResidentIdle, read_run, h.shared]

/-- What the reset of a resident does once it is allowed. -/
def resetDirect (slot : Nat) : Call Unit := do
  Method.require (fun e => e.world.resetResidentFn) (.invalid "backend does not support resident reset")
  let answer ← foreign (.resetResident slot)
  match check answer with
  | .ok () => Engine.finishReset slot
  | status => do
    ifShared StatePool.poison
    Method.lift status

/-- Resetting one resident by its own library call is synchronised. -/
theorem Unpaged.synced_resident (h : Unpaged e) {slot : Nat}
    (hsingle : (Op.resetResident slot).sweeps e = false) : Synced (.resetResident slot) e := by
  have hunchanged : (resetResident slot e).2 = e → Synced (.resetResident slot) e := by
    intro hrun _ _ _
    rw [Engine.step, after_return, hrun]
    refine .inr fun slot _ hreset => ?_
    obtain ⟨call, older, hsince, -⟩ := hreset
    exact absurd hsince not_since_refl
  cases htaken : e.sealedLeases[slot]? with
  | none =>
    refine hunchanged ?_
    rw [resetResident, bind_run, read_run, htaken]
    rfl
  | some taken =>
    have hslot : slot < e.histories.length := by
      rw [← h.seals]
      exact (List.getElem?_eq_some_iff.mp htaken).1
    obtain rfl : taken = none := by
      cases taken with
      | none => rfl
      | some l => exact absurd htaken (h.unsealed slot l)
    have hdirect : ¬(slot = 0 ∧ e.world.resetResidentFn = false) := by
      rintro ⟨rfl, hmissing⟩
      simp [Op.sweeps, hmissing] at hsingle
    have hstart : resetResident slot e = resetDirect slot e := by
      unfold resetResident
      rw [bind_run, read_run, htaken]
      simp only [Outcome.okOr_some, Option.isSome_none, Bool.false_eq_true, if_false]
      rw [bind_ok (h.checkResidentIdle slot), bind_ok (get_run e)]
      exact congrFun (if_neg hdirect) e
    cases hsymbol : e.world.resetResidentFn with
    | false =>
      refine hunchanged ?_
      rw [hstart, resetDirect, bind_run, Method.require, read_run, hsymbol]
      rfl
    | true =>
      have hrequire : Method.require (fun e : Engine => e.world.resetResidentFn)
          (Error.invalid "backend does not support resident reset") e = (.ok (), e) := by
        rw [Method.require, read_run, hsymbol]
        rfl
      have hforeign : foreign (.resetResident slot) e =
          (.ok (e.world.answer (.resetResident slot :: e.calls)), e.called (.resetResident slot)) := rfl
      rw [resetDirect, bind_ok hrequire, bind_ok hforeign] at hstart
      intro error herror hnative
      rw [Engine.step, after_return] at hnative ⊢
      refine .inr fun slot' _ hreset => ?_
      have hstatus : (e.world.answer (.resetResident slot :: e.calls)).status = 0 := by
        by_contra hfailed
        have hcalls : (resetResident slot e).2.calls = .resetResident slot :: e.calls := by
          rw [hstart, check, if_neg hfailed]
          simp [invalid, ifShared, called, h.shared, bind_run]
        have hsince : Since e (resetResident slot e).2 (.resetResident slot) e.calls :=
          ⟨hcalls ▸ List.suffix_rfl, List.suffix_rfl⟩
        exact hfailed (hnative _ _ hsince rfl)
      have hcheck : check (e.world.answer (.resetResident slot :: e.calls)) = .ok () := check_eq_ok.mpr hstatus
      have hcalled : Unpaged (e.called (.resetResident slot)) := ⟨h.shared, h.imported, h.seals, h.unsealed⟩
      obtain ⟨reply, calls, sequence, hcalls, hrun⟩ := hcalled.finishReset hslot
      rw [hcheck] at hstart
      rw [hstart.trans hrun] at hreset ⊢
      obtain rfl := hreset.resident hcalls
      refine ⟨List.getElem?_set_self hslot, fun s hs => ?_, fun s l hs => ?_, h.unsealed slot⟩
      · cases h.shared.symm.trans hs
      · cases h.shared.symm.trans hs

/-- With fixed pages, a reset is synchronised exactly when a sweep's audits pass. -/
theorem Unpaged.synced (h : Unpaged e) {op : Op} (hop : op.resetting = true) :
    Synced op e ↔ SweepAudited op e := by
  have hsweep : op.sweeps e = true → (Engine.step op e = (do
      resetUnshared
      return .done : Call Reply) e) → (Synced op e ↔ SweepAudited op e) := by
    intro hsweeps hrun
    rw [h.synced_sweep hrun, SweepAudited]
    simp [h.shared, hsweeps]
  have hother : op.sweeps e = false → Synced op e → (Synced op e ↔ SweepAudited op e) := by
    intro hsweeps hsynced
    exact iff_of_true hsynced fun _ hyes => by cases hsweeps.symm.trans hyes
  cases op with
  | reset =>
    have hreset : Engine.reset e = resetUnshared e := by
      unfold Engine.reset
      rw [bind_ok h.not_sealedAny, bind_ok (get_run e), h.shared]
    refine hsweep rfl ?_
    rw [Engine.step, bind_run, hreset, ← bind_run]
  | resetResident slot =>
    cases hsweeps : (Op.resetResident slot).sweeps e with
    | false => exact hother hsweeps (h.synced_resident hsweeps)
    | true =>
      simp only [Op.sweeps, Bool.and_eq_true, beq_iff_eq, Bool.not_eq_true'] at hsweeps
      obtain ⟨rfl, hmissing⟩ := hsweeps
      cases htaken : e.sealedLeases[0]? with
      | none =>
        -- Without residents there is nothing to reset and nothing to audit.
        have hnone : e.histories.length = 0 := by
          rw [← h.seals]
          exact Nat.le_zero.mp (List.getElem?_eq_none_iff.mp htaken)
        refine iff_of_true (fun _ _ _ => .inr fun slot hslot => by omega) fun _ _ _ => ?_
        rw [hnone]
        trivial
      | some taken =>
        obtain rfl : taken = none := by
          cases taken with
          | none => rfl
          | some l => exact absurd htaken (h.unsealed 0 l)
        have hreset : resetResident 0 e = Engine.resetUnshared e := by
          unfold resetResident
          rw [bind_run, read_run, htaken]
          simp only [Outcome.okOr_some, Option.isSome_none, Bool.false_eq_true, if_false]
          rw [bind_ok (h.checkResidentIdle 0), bind_ok (get_run e), if_pos ⟨trivial, hmissing⟩, resetFallback,
            bind_ok h.not_sealedAny, bind_ok (get_run e), h.shared]
          rfl
        refine hsweep (by simp [Op.sweeps, hmissing]) ?_
        rw [Engine.step, bind_run, hreset, ← bind_run]
  | releaseResident slot =>
    refine hother rfl fun error herror => ?_
    have hdone : (releaseResident slot e).1 = .ok () := by
      rw [releaseResident, bind_ok (get_run e), h.shared]
      rfl
    rw [return_eq_err herror] at hdone
    cases hdone
  | retireSnapshot snapshot =>
    refine hother rfl fun error _ _ => ?_
    rw [Engine.step, after_return, h.retireSnapshot]
    refine .inr fun slot _ hreset => ?_
    obtain ⟨call, older, hsince, -⟩ := hreset
    exact absurd hsince not_since_refl
  | _ => cases hop

/-- In every state a run reaches, and whatever the audit files do, a failed reset,
    release or retirement is synchronised exactly when it is no sweep of fixed
    pages or all audits of the sweep are written. -/
theorem audit_failure_synced {m : Manifest} {program : String} {world : World} {report : Report}
    {nextPool counter : Nat} {e₀ : Engine}
    (hopen : open_ m program world report nextPool = .ok (e₀, counter)) (ops : List Op) {op : Op}
    (hop : op.resetting = true) :
    Synced op (final step ops e₀) ↔ SweepAudited op (final step ops e₀) := by
  have hopened := opened_of_open hopen
  cases hpages : m.sharedPages with
  | false => exact (unpaged_final (hopened.unpaged hpages) ops).synced hop
  | true =>
    have he := closed_final (hopened.closed hpages) ops
    refine iff_of_true (he.synced hop) fun hunshared => ?_
    have hsome := he.isSome
    rw [hunshared] at hsome
    cases hsome

/-- The same program with fixed pages. -/
def fixedManifest : Manifest := { sampleManifest with sharedPages := false }

/-- Audits are asked for, and the disk is full. -/
def fullDisk : World :=
  { sampleWorld with auditing := true, audit := fun _ => some (.io "No space left on device") }

def fixedEngine : Engine := unopened fixedManifest fullDisk 4096 none

theorem fixed_open :
    open_ fixedManifest sampleDigest fullDisk { sampleReport with sharedPages := some (.ok 0) } 0 =
      .ok (fixedEngine, 0) := by
  rfl

theorem audit_failure_synced_sample :
    Synced (.resetResident 1) (final step [.token 5 0 true] fixedEngine) ↔
      SweepAudited (.resetResident 1) (final step [.token 5 0 true] fixedEngine) :=
  audit_failure_synced fixed_open [.token 5 0 true] rfl

/-- One token, then a reset the library completes and the audit does not: the host
    still has the token, and refuses to start again from position 0. -/
theorem sweep_desynchronised :
    open_ fixedManifest sampleDigest fullDisk { sampleReport with sharedPages := some (.ok 0) } 0 =
      .ok (fixedEngine, 0) ∧
    replies step [.token 5 0 true, .reset, .token 5 0 true] fixedEngine =
      [.ok (.sampled (some 0)), .err (.io "No space left on device"),
        .err (.invalid "noncontiguous or unsupported arithmetic history invocation")] ∧
    ¬Synced .reset (final step [.token 5 0 true] fixedEngine) := by
  refine ⟨fixed_open, by decide +kernel, fun hsynced => ?_⟩
  have hunpaged := unpaged_final ((opened_of_open fixed_open).unpaged rfl) [.token 5 0 true]
  have hpass := (hunpaged.synced rfl).mp hsynced hunpaged.shared rfl rfl
  have htokens : ((final step [.token 5 0 true] fixedEngine).histories[0]?.map fun h => h.value.tokens) =
      some 1 := by decide +kernel
  obtain ⟨history, hhistory, htokens⟩ := Option.map_eq_some_iff.mp htokens
  exact hpass.1 ⟨rfl, history, hhistory, by omega, .inr fun h => by cases h⟩

end Engine

end Inferfabric.Native
