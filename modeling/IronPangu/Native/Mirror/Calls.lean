-- SUMMARY: Every call of the host engine keeps its record with the native engine, and makes no legal call the native engine refuses.
import IronPangu.Native.Mirror

open Rust Method Std

/-!
# Calls in step

A call breaks the mirror when the native side has moved and the host has not
yet. What comes between must not fail: the completions of an invocation, the record
of it, and the return of pages.
-/

namespace Inferfabric.Native

open Inferfabric.Ir Inferfabric.Runtime
open Inferfabric.Runtime.StatePool (Linked Accepted)

namespace Engine

variable {m : Manifest} {l : Library} {legal : Prop} {n : Nat} {e e' : Engine} {call : Foreign} {slot : Nat}
  {s s' : SharedState}

/-! ## What a run gives -/

/-- The shared state goes back to one made for the manifest, with state on every rank. -/
structure Sound (m : Manifest) (e : Engine) : Prop where
  closed : e.shared = none ∨ Closed e
  grown : ∀ s, e.shared = some s → m.sharedPages = true ∧ s.Covered ∧
    ∃ s₀ nextPool counter, SharedState.new m nextPool = .ok (s₀, counter) ∧ SharedKept s₀ s

theorem SharedKept.covered (h : SharedKept s s') (hlinked : Linked s.pool) (hcovered : s.Covered) :
    s'.Covered := by
  obtain ⟨ops, hpool⟩ := h.pool
  intro rank
  rw [hpool, h.ranks, (StatePool.frame_final hlinked ops).boundOn]
  exact hcovered rank

theorem Sound.kept {touched resealed : Nat → Prop} (h : Sound m e) (hkept : Kept touched resealed e e')
    (hclosed : Closed e → Closed e') : Sound m e' := by
  rcases h.closed with hnone | he
  · have hnone' := hkept.unshared hnone
    exact ⟨.inl hnone', fun s hs => by rw [hnone'] at hs; cases hs⟩
  · refine ⟨.inr (hclosed he), fun s' hs' => ?_⟩
    obtain ⟨s, hsafe, -⟩ := he
    obtain ⟨s'', hs'', hshared⟩ := hkept.shared s hsafe.shared
    obtain rfl := Option.some.inj (hs''.symm.trans hs')
    obtain ⟨hpages, hcovered, s₀, nextPool, counter, hnew, hgrown⟩ := h.grown s hsafe.shared
    exact ⟨hpages, hshared.covered hsafe.linked hcovered, s₀, nextPool, counter, hnew, hgrown.trans hshared⟩

/-- A call that keeps closed engines closed keeps sound engines sound. -/
theorem sound_call {α : Type} {c : Call α} {touched resealed : Nat → Prop} (hkept : Keeps (Kept touched resealed) c)
    {Q : α → Engine → Prop} (hclosed : Triple Closed c (fun a e => Closed e ∧ Q a e) Closed) :
    Triple (Sound m) c (fun _ => Sound m) (Sound m) := by
  intro e he
  have hkept' := hkept e
  have hclosed' := hclosed e
  rcases hrun : c e with ⟨_ | _ | _, e'⟩ <;> rw [hrun] at hkept' hclosed'
  · exact he.kept hkept' fun h => (hclosed' h).1
  · exact he.kept hkept' hclosed'
  · exact he.kept hkept' hclosed'

/-! ## Invocations -/

/-- A ticket whose ranks all have to complete, or none where nothing is shared. -/
def Pending (ticket : Option Ticket) (e : Engine) : Prop :=
  e.shared = none ∨ Submitted ticket e ∧ ∀ s, e.shared = some s → s.Covered

theorem pending_submit {leases : List Lease} {ticket : Ticket} {p : StatePool} (h : Sound m e)
    (hshared : e.shared = some s) (hlinked : Linked s.pool)
    (haccepted : Accepted s.pool (.submit 1 leases []) (.ticket ticket) p) :
    Pending (some ticket) (e.mapPool fun _ => p) := by
  obtain ⟨hlinked', hlive, hout⟩ := submit_submitted hlinked haccepted
  have hshared' : (e.mapPool fun _ => p).shared = some { s with pool := p } := by
    rw [mapPool, hshared]
    rfl
  refine .inr ⟨⟨ticket, _, rfl, hshared', hlinked', hlive, hout⟩, fun s' hs' => ?_⟩
  obtain rfl := Option.some.inj (hshared'.symm.trans hs')
  intro rank
  rw [haccepted.frame.boundOn]
  exact (h.grown s hshared).2.1 rank

theorem begin_pending (h : Sound m e) (position count : Nat) :
    Triple (· = e) (beginInvocation position count) (fun ticket e' => Quiet e e' ∧ Pending ticket e')
      (Quiet e) := by
  have hpending : Triple (· = e) (beginInvocation position count) (fun ticket => Pending ticket)
      (fun _ => True) := by
    unfold beginInvocation
    refine triple_get_at ?_
    rcases h.closed with hnone | ⟨s, hsafe, -⟩
    · rw [hnone]
      exact triple_pure_at (.inl hnone)
    · rw [hsafe.shared]
      refine triple_lift_at trivial fun lease _ => ?_
      refine triple_lift_at trivial fun limit _ => ?_
      refine triple_require_at trivial fun _ => ?_
      refine ((triple_onPool (.submit 1 [lease] []) .ticket rfl hsafe.shared
        hsafe.linked).error fun _ _ => trivial).bind fun ticket => triple_pure _ ?_
      rintro _ ⟨p, haccepted, rfl⟩
      exact pending_submit h hsafe.shared hsafe.linked haccepted
  refine (((quiet_beginInvocation position count).triple e).and hpending).mono ?_ (fun _ _ h => h)
    fun _ h => h.1
  rintro _ rfl
  exact ⟨.refl _, rfl⟩

theorem submitBatch_pending (h : Sound m e) (inputs : List BatchInput) :
    Triple (· = e) (submitBatch inputs) (fun ticket e' => Quiet e e' ∧ Pending ticket e') (Quiet e) := by
  have hpending : Triple (· = e) (submitBatch inputs) (fun ticket => Pending ticket) (fun _ => True) := by
    unfold submitBatch
    refine triple_get_at ?_
    rcases h.closed with hnone | ⟨s, hsafe, -⟩
    · rw [hnone]
      exact triple_pure_at (.inl hnone)
    · rw [hsafe.shared]
      refine triple_lift_at trivial fun leases _ => ?_
      refine ((triple_onPool (.submit 1 leases []) .ticket rfl hsafe.shared
        hsafe.linked).error fun _ _ => trivial).bind fun ticket => triple_pure _ ?_
      rintro _ ⟨p, haccepted, rfl⟩
      exact pending_submit h hsafe.shared hsafe.linked haccepted
  refine (((quiet_submitBatch inputs).triple e).and hpending).mono ?_ (fun _ _ h => h) fun _ h => h.1
  rintro _ rfl
  exact ⟨.refl _, rfl⟩

theorem foreign_pending (call : Foreign) (ticket : Option Ticket) {E : Engine → Prop} :
    Triple (fun e' => Quiet e e' ∧ Pending ticket e') (foreign call)
      (fun answer e' => (Quiet (e.called call) e' ∧ Pending ticket e') ∧
        answer = e.world.answer (call :: e.calls)) E := by
  rintro _ ⟨⟨f, rfl, hf⟩, hpending⟩
  exact ⟨⟨⟨f, rfl, hf⟩, hpending⟩, rfl⟩

/-- Finishing an invocation fails only with the call itself. -/
theorem finish_pending (ticket : Option Ticket) (answer : Answer) :
    Triple (fun e' => Quiet e e' ∧ Pending ticket e') (finishInvocation ticket answer)
      (fun _ e' => Quiet e e' ∧ answer.status = 0) (fun e' => Quiet e e' ∧ answer.status ≠ 0) := by
  rintro e₁ ⟨hq, hpending⟩
  have hquiet := hq.trans (quiet_finishInvocation ticket answer e₁)
  by_cases hstatus : answer.status = 0
  · have hok : (finishInvocation ticket answer e₁).1 = .ok () := by
      rcases hpending with hnone | ⟨hsubmitted, hcovered⟩
      · simp [finishInvocation, Method.bind_run, check, hnone, hstatus]
      · obtain ⟨t, s, -, hshared, -⟩ := id hsubmitted
        obtain ⟨p, hrun, -⟩ := finishInvocation_ok hsubmitted hshared (hcovered s hshared) hstatus
        rw [hrun]
    rcases hrun : finishInvocation ticket answer e₁ with ⟨reply, e'⟩
    rw [hrun] at hquiet hok
    obtain rfl : reply = .ok () := hok
    exact ⟨hquiet, hstatus⟩
  · have herror : ∀ u, (finishInvocation ticket answer e₁).1 ≠ .ok u := by
      intro u hok
      cases hshared : e₁.shared with
      | none => simp [finishInvocation, Method.bind_run, check, hshared, hstatus, invalid] at hok
      | some s =>
        have hspec := finishInvocation_spec ticket answer e₁ (Option.isSome_iff_exists.mpr ⟨s, hshared⟩)
        rcases hrun : finishInvocation ticket answer e₁ with ⟨reply, e'⟩
        rw [hrun] at hspec hok
        obtain rfl : reply = .ok u := hok
        exact hstatus hspec
    rcases hrun : finishInvocation ticket answer e₁ with ⟨_ | _ | _, e'⟩ <;> rw [hrun] at hquiet herror
    · exact absurd rfl (herror _)
    · exact ⟨hquiet, hstatus⟩
    · exact ⟨hquiet, hstatus⟩

theorem Mirrors.status (h : Mirrors l e) (call : Foreign) :
    (e.world.answer (call :: e.calls)).status = 0 ↔ l.Accepts e.calls call := by
  rw [h.behind.answer]
  rfl

theorem setTokens_map {histories : List CompletedHistory} {slot : Nat} (history : CompletedHistory) :
    (histories.set slot history).map (fun h => h.value.tokens) =
      (histories.map fun h => h.value.tokens).set slot history.value.tokens := by
  rw [List.map_set]

theorem modify_eq_set {positions : List Nat} {slot : Nat} (f : Nat → Nat) (tokens : Nat)
    (h : positions[slot]? = some tokens) : positions.modify slot f = positions.set slot (f tokens) := by
  rw [List.modify_eq_set_getElem?, h]
  rfl

theorem Mirrors.context_set (h : Mirrors l e) {history : CompletedHistory}
    (hcontext : history.value.tokens ≤ l.program.context) :
    ∀ h ∈ e.histories.set slot history, h.value.tokens ≤ l.program.context := by
  intro h' hmem
  rcases List.mem_or_eq_of_mem_set hmem with hmem | rfl
  · exact h.context h' hmem
  · exact hcontext

/-- Recording what has been checked does not fail. -/
theorem appendCompleted_run {variant : Variant} {position count : Nat} {history : CompletedHistory}
    (hhistory : e.histories[slot]? = some history)
    (hcheck : history.value.checkAppend variant position count = .ok ()) :
    ∃ history', appendCompleted slot variant position count e =
      (.ok (), { e with histories := e.histories.set slot history' }) ∧
      history'.value.tokens = position + count := by
  obtain ⟨history', hrun, -, htokens⟩ := CompletedHistory.appendCompleted_ok hcheck
  refine ⟨history', ?_, htokens⟩
  simp [appendCompleted, Method.bind_run, hhistory, hrun]

/-- An invocation on the selected resident, from its reservation on. -/
theorem steady_selected {α : Type} {variant : Variant} {position count : Nat} {history : CompletedHistory}
    (hsound : Sound m e) (he : Steady l legal n e) (hhistory : e.histories[e.selected]? = some history)
    (hcheck : history.value.checkAppend variant position count = .ok ())
    (hcontext : variant.maxContext = l.program.context)
    (hmoves : call.moves e.recordOf = (e.recordOf.1.modify e.selected (· + count), e.selected))
    (haccepts : legal → l.Accepts e.calls call) (reply : Answer → α) :
    Triple (· = e) (do
        let ticket ← beginInvocation position count
        let answer ← foreign call
        finishInvocation ticket answer
        appendCompleted e.selected variant position count
        Pure.pure (reply answer) : Call α)
      (fun _ => Steady l legal n) (Steady l legal n) := by
  refine ((begin_pending hsound position count).error fun _ hq => he.beside hq.beside).bind fun ticket => ?_
  refine (foreign_pending call ticket).bind fun answer => triple_of_fact ?_
  rintro rfl
  refine ((finish_pending ticket _).error ?_).bind fun _ => triple_of_fact fun hstatus => ?_
  · rintro e' ⟨hq, hstatus⟩
    exact he.refused hq.beside (by rwa [← he.status]) haccepts
  · rintro e' hq
    obtain ⟨hposition, -, -, -, -, hend⟩ := ArithmeticHistory.checkAppend_eq_ok.mp hcheck
    have hhistory' : e'.histories[e.selected]? = some history := by
      rw [hq.beside.histories]
      exact hhistory
    obtain ⟨history', hrun, htokens⟩ := appendCompleted_run hhistory' hcheck
    rw [Method.bind_ok hrun]
    have hhistories : e'.histories = e.histories := hq.beside.histories
    have hselected : e'.selected = e.selected := hq.beside.selected
    have hmoved := he.moved (e'.histories.set e.selected history') e'.selected hq.beside
      ((he.status call).mp hstatus)
    refine hmoved (by rw [List.length_set, hhistories]) ?_ ?_ ?_
    · rw [hhistories]
      exact he.context_set (by omega)
    · rw [List.length_set, hhistories, hselected]
      exact he.selected
    · rw [hmoves, hselected, hhistories, setTokens_map, htokens, recordOf,
        modify_eq_set _ history.value.tokens (by simp [hhistory]), hposition]

theorem steady_token (hsound : Sound m e) (he : Steady l legal n e) {value position : Nat} (sample : Bool)
    (hlegal : legal → value < l.vocabulary) :
    Triple (· = e) (token value position sample) (fun _ => Steady l legal n) (Steady l legal n) := by
  unfold token
  refine triple_get_at ?_
  refine triple_lift_at he fun history hhistory => ?_
  refine triple_lift_at he fun variant hvariant => ?_
  refine triple_lift_at he fun _ hcheck => ?_
  have hcontext := he.variants variant (List.mem_of_getElem? (Outcome.unwrap_eq_ok.mp hvariant))
  obtain ⟨hposition, -, -, -, -, hend⟩ := ArithmeticHistory.checkAppend_eq_ok.mp hcheck
  exact steady_selected hsound he (Outcome.unwrap_eq_ok.mp hhistory) hcheck hcontext rfl
    (fun h => he.accepts_token (Outcome.unwrap_eq_ok.mp hhistory) hposition (by omega) (hlegal h)) _

theorem steady_prefill (hsound : Sound m e) (he : Steady l legal n e) {tokens : List Nat} (position : Nat)
    (sample : Bool) (hlegal : legal → ∀ t ∈ tokens, t < l.vocabulary) :
    Triple (· = e) (prefill tokens position sample) (fun _ => Steady l legal n) (Steady l legal n) := by
  unfold prefill
  refine triple_lift_at he fun count hcount => ?_
  refine triple_get_at ?_
  split
  · exact triple_fail_at he
  · rename_i hshape
    refine triple_lift_at he fun variant hvariant => ?_
    refine triple_lift_at he fun history hhistory => ?_
    refine triple_lift_at he fun _ hcheck => ?_
    refine triple_require_at he fun _ => ?_
    have hcontext := he.variants variant (List.mem_of_find?_eq_some (Outcome.okOr_eq_ok.mp hvariant))
    obtain ⟨hposition, -, -, -, -, hend⟩ := ArithmeticHistory.checkAppend_eq_ok.mp hcheck
    obtain rfl : count = tokens.length := by
      rw [Outcome.okOr_eq_ok] at hcount
      exact (tryFrom_eq_some.mp hcount).2.symm
    have hsupports : l.program.supportsPrefill tokens.length = true := by
      rw [he.uncaptured, he.prefillVariants, he.prefillTokens] at hshape
      cases hmode : l.program.uncapturedPrefill <;>
        simp_all [Execution.Plan.supportsPrefill]
    refine steady_selected hsound he (Outcome.unwrap_eq_ok.mp hhistory) hcheck hcontext rfl ?_ _
    exact fun h => he.accepts_prefill (Outcome.unwrap_eq_ok.mp hhistory) hposition (by omega) (by omega)
      hsupports (hlegal h)

/-! ## Batches -/

/-- What packing a batch has checked. -/
theorem packFrom_eq_ok {residents budget total tokens : Nat} {seen bytes digested : List Nat}
    {inputs : List BatchInput} (hok : packFrom residents budget seen total bytes inputs = .ok (tokens, digested))
    (htotal : total ≤ budget) :
    tokens = total + (inputs.flatMap BatchInput.tokens).length ∧ tokens ≤ budget ∧
      (∀ input ∈ inputs, input.resident ∉ seen ∧ input.tokens ≠ []) ∧
      (inputs.map BatchInput.resident).Nodup := by
  induction inputs generalizing seen total bytes with
  | nil =>
    obtain ⟨rfl, -⟩ := Prod.mk.inj (Outcome.ok.inj hok)
    simp [htotal]
  | cons input inputs ih =>
    simp only [packFrom, Outcome.bind_eq_ok, Outcome.okOr_eq_ok, tryFrom_eq_some] at hok
    obtain ⟨count, ⟨-, rfl⟩, hok⟩ := hok
    split at hok
    · exact absurd hok invalid_ne_ok
    · rename_i hmember
      simp only [not_or] at hmember
      obtain ⟨-, hseen, hcount, -, hbudget⟩ := hmember
      obtain ⟨rfl, hle, hmembers, hdistinct⟩ := ih hok (by omega)
      refine ⟨by simp [Nat.add_assoc], hle, ?_, ?_⟩
      · rintro other (_ | ⟨_, hother⟩)
        · exact ⟨hseen, fun hnil => hcount (by rw [hnil]; rfl)⟩
        · exact ⟨fun hmem => (hmembers other hother).1 (List.mem_cons_of_mem _ hmem),
            (hmembers other hother).2⟩
      · rw [List.map_cons, List.nodup_cons]
        refine ⟨fun hmem => ?_, hdistinct⟩
        obtain ⟨other, hother, heq⟩ := List.mem_map.mp hmem
        exact (hmembers other hother).1 (heq ▸ List.mem_cons_self)

theorem packBatch_eq_ok {sha256 : List Nat → String} {inputs : List BatchInput} {residents budget tokens : Nat}
    {digest : String} (hok : packBatch sha256 inputs residents budget = .ok (tokens, digest)) :
    inputs ≠ [] ∧ inputs.length ≤ residents ∧ tokens = (inputs.flatMap BatchInput.tokens).length ∧
      tokens ≤ budget ∧ (∀ input ∈ inputs, input.tokens ≠ []) ∧ (inputs.map BatchInput.resident).Nodup := by
  rw [packBatch] at hok
  split at hok
  · exact absurd hok invalid_ne_ok
  · rename_i hcount
    obtain ⟨⟨packed, bytes⟩, hpacked, heq⟩ := Outcome.bind_eq_ok.mp hok
    obtain ⟨rfl, -⟩ := Prod.mk.inj (Outcome.ok.inj heq)
    obtain ⟨htokens, hbudget, hmembers, hdistinct⟩ := packFrom_eq_ok hpacked (Nat.zero_le _)
    exact ⟨fun h => hcount (.inl h), by omega, by omega, hbudget, fun input h => (hmembers input h).2, hdistinct⟩

/-- A member of a batch whose invocation has been checked against its history. -/
def Checked (e : Engine) (context : Nat) (member : BatchInput × Variant) : Prop :=
  member.2.maxContext = context ∧ ∃ history, e.histories[member.1.resident]? = some history ∧
    history.value.checkAppend member.2 member.1.position member.1.tokens.length = .ok ()

theorem batchMembers_eq_ok {base : Variant} {digest : String} {inputs : List BatchInput}
    {members : List (BatchInput × Variant)}
    (hok : Outcome.collect (batchMember e base digest) inputs.zipIdx = .ok members) :
    members.map Prod.fst = inputs ∧ ∀ member ∈ members, Checked e base.maxContext member := by
  refine ⟨batchMembers_fst hok, fun member hmember => ?_⟩
  obtain ⟨indexed, -, hrun⟩ := Outcome.collect_mem_right hok hmember
  simp only [batchMember, Outcome.bind_eq_ok, Outcome.unwrap_eq_ok] at hrun
  obtain ⟨history, hhistory, _, hcheck, taken, -, hok⟩ := hrun
  split at hok
  · exact absurd hok invalid_ne_ok
  · obtain rfl := Outcome.ok.inj hok
    exact ⟨rfl, history, hhistory, hcheck⟩

/-- The slice of a batch member that the native engine advances by. -/
def slice (member : BatchInput × Variant) : Execution.SequenceSlice := member.1.sequence.slice

/-- Recording a checked batch does not fail, and advances the residents as the native
    engine does. -/
theorem appendMembers_run {context : Nat} (members : List (BatchInput × Variant))
    (hchecked : ∀ member ∈ members, Checked e context member)
    (hdistinct : (members.map fun member => member.1.resident).Nodup)
    (hcontext : ∀ h ∈ e.histories, h.value.tokens ≤ context) :
    ∃ histories, (Method.forEach members fun (input, variant) =>
        appendCompleted input.resident variant input.position input.tokens.length) e =
        (.ok (), { e with histories := histories }) ∧
      histories.length = e.histories.length ∧ (∀ h ∈ histories, h.value.tokens ≤ context) ∧
      histories.map (fun h => h.value.tokens) =
        ProgramEngine.advance (e.histories.map fun h => h.value.tokens) (members.map slice) := by
  induction members generalizing e with
  | nil => exact ⟨e.histories, rfl, rfl, hcontext, rfl⟩
  | cons member members ih =>
    rw [List.map_cons, List.nodup_cons] at hdistinct
    obtain ⟨hwidth, history, hhistory, hcheck⟩ := hchecked member List.mem_cons_self
    obtain ⟨hposition, -, -, -, -, hend⟩ := ArithmeticHistory.checkAppend_eq_ok.mp hcheck
    obtain ⟨history', hrun, htokens⟩ := appendCompleted_run hhistory hcheck
    have hnext := ih (e := { e with histories := e.histories.set member.1.resident history' }) ?_ hdistinct.2 ?_
    · obtain ⟨histories, hloop, hlength, hle, hadvance⟩ := hnext
      refine ⟨histories, ?_, by rw [hlength, List.length_set], hle, ?_⟩
      · rw [Method.forEach, Method.bind_ok hrun]
        exact hloop
      · rw [hadvance, setTokens_map, htokens, List.map_cons, ProgramEngine.advance, ProgramEngine.advance,
          List.foldl_cons, modify_eq_set _ history.value.tokens (by simp [slice,
            ProgramEngine.Sequence.slice, BatchInput.sequence, hhistory]), hposition]
        rfl
    · intro other hother
      obtain ⟨hwidth', history'', hhistory'', hcheck''⟩ := hchecked other (List.mem_cons_of_mem _ hother)
      refine ⟨hwidth', history'', ?_, hcheck''⟩
      rw [List.getElem?_set_ne, hhistory'']
      exact fun heq => hdistinct.1 (heq ▸ List.mem_map_of_mem hother)
    · intro h hmem
      rcases List.mem_or_eq_of_mem_set hmem with hmem | rfl
      · exact hcontext h hmem
      · omega

theorem steady_batch (hsound : Sound m e) (he : Steady l legal n e) {inputs : List BatchInput}
    (hlegal : legal → l.Works ∧ ∀ input ∈ inputs, ∀ t ∈ input.tokens, t < l.vocabulary) :
    Triple (· = e) (batch inputs) (fun _ => Steady l legal n) (Steady l legal n) := by
  unfold batch
  refine triple_require_at he fun _ => ?_
  refine triple_get_at ?_
  refine triple_lift_at he fun packed hpacked => ?_
  refine triple_lift_at he fun base hbase => ?_
  refine triple_lift_at he fun members hmembers => ?_
  obtain ⟨hsome, hlength, htotal, hbudget, htokens, hdistinct⟩ := packBatch_eq_ok hpacked
  obtain ⟨hinputs, hchecked⟩ := batchMembers_eq_ok hmembers
  have hfound := Outcome.okOr_eq_ok.mp hbase
  have hmem := List.mem_of_find?_eq_some hfound
  have hmode := List.find?_some hfound
  simp only [decide_eq_true_eq] at hmode
  have hcontext := he.variants base hmem
  have haccepts : legal → l.Accepts e.calls (.batch inputs) := by
    intro h
    refine he.accepts_batch (hlegal h).1 (he.modes base hmem hmode.1 hmode.2.1) hsome
      (he.capacity ▸ hlength) (htotal ▸ he.prefillTokens ▸ hbudget) hdistinct ?_ (hlegal h).2
    intro input hinput
    rw [← hinputs] at hinput
    obtain ⟨member, hmember, rfl⟩ := List.mem_map.mp hinput
    obtain ⟨hwidth, history, hhistory, hcheck⟩ := hchecked member hmember
    obtain ⟨hposition, -, -, -, -, hend⟩ := ArithmeticHistory.checkAppend_eq_ok.mp hcheck
    exact ⟨history, hhistory, hposition, htokens _ (hinputs ▸ hinput), by omega⟩
  refine ((submitBatch_pending hsound inputs).error fun _ hq => he.beside hq.beside).bind fun ticket => ?_
  refine (foreign_pending (.batch inputs) ticket).bind fun answer => triple_of_fact ?_
  rintro rfl
  refine ((finish_pending ticket _).error ?_).bind fun _ => triple_of_fact fun hstatus => ?_
  · rintro e' ⟨hq, hstatus⟩
    exact he.refused hq.beside (by rwa [← he.status]) haccepts
  · extract_lets sampled
    have haccepted := (he.status _).mp hstatus
    have hcount : sampled.length = (inputs.filter BatchInput.sample).length := by
      have houtput := Library.output_length haccepted
      rwa [← he.behind.answer] at houtput
    rw [if_neg (not_not.mpr hcount)]
    rintro e' hq
    have hhistories : e'.histories = e.histories := hq.beside.histories
    have hselected : e'.selected = e.selected := hq.beside.selected
    obtain ⟨histories, hloop, hsize, hle, hadvance⟩ := appendMembers_run (e := e') members
      (fun member hmember => by simpa only [Checked, hhistories] using hchecked member hmember)
      (by rw [← hinputs, List.map_map] at hdistinct; exact hdistinct)
      (by rw [hhistories, hcontext]; exact he.context)
    rw [Method.bind_ok hloop]
    have hmoved := he.moved histories e'.selected hq.beside haccepted
    refine hmoved (by rw [hsize, hhistories]) (hcontext ▸ hle) ?_ ?_
    · rw [hsize, hhistories, hselected]
      exact he.selected
    · rw [hadvance, hhistories, hselected, ← hinputs, Foreign.moves, recordOf, List.map_map]
      rfl

/-! ## Selecting and resetting -/

theorem selectResident_run (h : Mirrors l e) (slot : Nat) :
    selectResident slot e =
      if l.Accepts e.calls (.selectResident slot) then
        (.ok (), { e.called (.selectResident slot) with selected := slot })
      else (check (e.world.answer (.selectResident slot :: e.calls)), e.called (.selectResident slot)) := by
  have hstatus := h.status (.selectResident slot)
  unfold selectResident
  simp only [Method.bind_run, Method.get_run, h.behind.selectResidentFn, Bool.true_eq_false, and_false,
    if_false, Method.require, Method.read_run, if_true, foreign, Method.lift_run, Method.modify_run, check]
  by_cases haccepts : l.Accepts e.calls (.selectResident slot)
  · rw [if_pos haccepts, if_pos (hstatus.mpr haccepts)]
    rfl
  · rw [if_neg haccepts, if_neg (mt hstatus.mp haccepts)]
    rfl

theorem steady_selectResident (he : Steady l legal n e) (hlegal : legal → slot < e.histories.length) :
    Triple (· = e) (selectResident slot) (fun _ e' => Steady l legal n e' ∧ e'.selected = slot)
      (Steady l legal n) := by
  intro s hs
  obtain rfl := hs.symm
  rw [selectResident_run he.toMirrors]
  have hb : Beside (e.called (.selectResident slot)) (e.called (.selectResident slot)) := .refl _
  by_cases haccepts : l.Accepts e.calls (.selectResident slot)
  · rw [if_pos haccepts]
    exact ⟨he.moved e.histories slot hb haccepts rfl he.context
      (he.selected_of_accepts haccepts) rfl, rfl⟩
  · have herror : ∀ u, check (e.world.answer (.selectResident slot :: e.calls)) ≠ .ok u := by
      intro u hu
      exact haccepts ((he.status _).mp (check_eq_ok.mp hu))
    rw [if_neg haccepts]
    have hrefused := he.refused hb haccepts fun h => he.accepts_select (hlegal h)
    cases hcheck : check (e.world.answer (.selectResident slot :: e.calls)) with
    | ok u => exact absurd hcheck (herror u)
    | err error => exact hrefused
    | panic => exact hrefused

end Engine

end Inferfabric.Native
