-- SUMMARY: Resets, admissions and copies in step with the native engine, and why the native engine accepts their page lists.
import IronPangu.Native.Mirror.Calls
import IronPangu.Runtime.StatePool.Addressing

open Rust Method Std

namespace Inferfabric.Native

open Inferfabric.Ir Inferfabric.Runtime
open Inferfabric.Runtime.StatePool (Linked Accepted)

namespace Engine

variable {m : Manifest} {l : Library} {legal : Prop} {n : Nat} {e e' : Engine} {call : Foreign} {slot : Nat}
  {s s' : SharedState}

/-! ## Resets -/

/-- The record has been moved, and at most an audit has come after the call. -/
theorem Steady.then_audited {calls : List Foreign} (h : Steady l legal n e)
    (hcalls : AuditedCalls slot e.calls calls) (ha : Alike e e') (hcalls' : e'.calls = calls) :
    Steady l legal n e' := by
  have hcalled : Steady l legal n { e with calls := calls } := by
    rcases hcalls with rfl | ⟨sequence, rfl⟩
    · exact h
    · exact h.audited sequence
  apply hcalled.beside
  exact ⟨⟨ha.world, ha.histories, ha.selected, ha.imported, ha.seals, ha.prefillTokens, ha.uncaptured,
    ha.prefillVariants, ha.variants⟩, hcalls'⟩

/-- Finishing a reset clears the record whatever becomes of the audit. -/
theorem finishReset_any (hsafe : ∀ s, e.shared = some s → SafeWith e s ∧ Idle s slot)
    (hslot : slot < e.histories.length) (himported : e.importedTokens.length = e.histories.length) :
    ∃ reply calls sequence shared, AuditedCalls slot e.calls calls ∧
      finishReset slot e = (reply, { e with
        calls := calls
        historyAuditSequence := sequence
        histories := e.histories.set slot CompletedHistory.default
        importedTokens := e.importedTokens.set slot 0
        shared := shared }) := by
  cases hshared : e.shared with
  | none =>
    obtain ⟨reply, calls, sequence, -, -, hcalls, hrun⟩ := finishReset_eq hslot himported
    refine ⟨reply, calls, sequence, none, hcalls, hrun.trans ?_⟩
    rw [returnPages, bind_run, bind_run, get_run]
    simp [hshared]
  | some s =>
    obtain ⟨hsafe, hidle⟩ := hsafe s hshared
    obtain ⟨reply, e', hrun, -, -, calls, sequence, p, hcalls, -, rfl⟩ := finishReset_run hsafe hslot hidle
    exact ⟨reply, calls, sequence, _, hcalls, hrun⟩

theorem Steady.reset_finished {calls : List Foreign} (h : Steady l legal n e) (sequence : Nat)
    (shared : Option SharedState) (hslot : slot < e.histories.length)
    (hcalls : AuditedCalls slot (.resetResident slot :: e.calls) calls) :
    Steady l legal n { e with
      calls := calls
      historyAuditSequence := sequence
      histories := e.histories.set slot CompletedHistory.default
      importedTokens := e.importedTokens.set slot 0
      shared := shared } := by
  have hb : Beside (e.called (.resetResident slot)) (e.called (.resetResident slot)) := .refl _
  have hmoved := h.moved (e.histories.set slot CompletedHistory.default) e.selected hb (h.accepts_resetResident hslot) List.length_set (h.context_set (Nat.zero_le _))
    (by rw [List.length_set]; exact h.selected) (by rw [setTokens_map]; rfl)
  exact hmoved.then_audited hcalls ⟨rfl, rfl, rfl, List.length_set, rfl, rfl, rfl, rfl, rfl⟩ rfl

/-- A reset of one resident is always accepted, and always recorded. -/
theorem steady_resetResident (hsound : Sound m e) (he : Steady l legal n e) (slot : Nat) :
    Triple (· = e) (resetResident slot)
      (fun _ e' => Steady l legal n e' ∧ e'.histories[slot]? = some CompletedHistory.default)
      (Steady l legal n) := by
  unfold resetResident
  refine triple_read_at he fun taken htaken => ?_
  split
  · exact triple_fail_at he
  · have hslot : slot < e.histories.length := by
      rw [← he.seals]
      exact (List.getElem?_eq_some_iff.mp (Outcome.okOr_eq_ok.mp htaken)).1
    refine triple_read_at he fun _ hidle => ?_
    refine triple_get_at ?_
    rw [if_neg (by simp [he.behind.resetResidentFn])]
    refine triple_require_at he fun _ => ?_
    have hstatus : check (e.world.answer (.resetResident slot :: e.calls)) = .ok () :=
      check_eq_ok.mpr ((he.status _).mpr (he.accepts_resetResident hslot))
    have hsafe : ∀ s, (e.called (.resetResident slot)).shared = some s →
        SafeWith (e.called (.resetResident slot)) s ∧ Idle s slot := by
      intro s hshared
      rcases hsound.closed with hnone | ⟨s', hsafe, -⟩
      · exact absurd (hnone.symm.trans hshared) (by simp)
      · obtain rfl := Option.some.inj (hsafe.shared.symm.trans hshared)
        refine ⟨hsafe.called _, ?_⟩
        rcases checkResidentIdle_cases hsafe hslot with ⟨-, error, hrun⟩ | ⟨hidle', -⟩
        · rw [checkResidentIdle, Method.read_run, hidle] at hrun
          cases hrun
        · exact hidle'
    intro e₀ he₀
    obtain rfl := he₀.symm
    obtain ⟨reply, calls, sequence, shared, hcalls, hrun⟩ := finishReset_any hsafe hslot he.imported
    have hforeign : foreign (.resetResident slot) e =
        (.ok (e.world.answer (.resetResident slot :: e.calls)), e.called (.resetResident slot)) := rfl
    rw [Method.bind_ok hforeign, hstatus]
    dsimp only
    rw [hrun]
    have hsteady := he.reset_finished sequence shared hslot hcalls
    cases reply with
    | ok u => exact ⟨hsteady, List.getElem?_set_self hslot⟩
    | err error => exact hsteady
    | panic => exact hsteady

/-- Every audit is written where writing succeeds and the sequence does not run out. -/
theorem auditsPass {slots : List Nat} (haudit : ∀ calls, e.world.audit calls = none)
    (hsequence : e.historyAuditSequence + slots.length ≤ u64Max) : AuditsPass e slots := by
  induction slots generalizing e with
  | nil => trivial
  | cons slot slots ih =>
    rw [List.length_cons] at hsequence
    refine ⟨?_, ih ?_ ?_⟩
    · rintro ⟨-, history, -, -, hfull | hfailed⟩
      · omega
      · exact hfailed (haudit _)
    · rw [audited]
      split <;> exact haudit
    · rw [audited]
      split
      · show e.historyAuditSequence + 1 + slots.length ≤ u64Max
        omega
      · omega

/-- The reset of all residents, where every audit is written. -/
theorem steady_resetUnshared (he : Steady l legal n e)
    (hpass : AuditsPass (e.called .reset) (List.range e.histories.length)) :
    Triple (· = e) resetUnshared (fun _ => Steady l legal n) (Steady l legal n) := by
  intro e₀ he₀
  obtain rfl := he₀.symm
  have hforeign : foreign .reset e = (.ok (e.world.answer (.reset :: e.calls)), e.called .reset) := rfl
  have hstatus : check (e.world.answer (.reset :: e.calls)) = .ok () :=
    check_eq_ok.mpr ((he.status _).mpr (accepts_reset _))
  have hrange : ∀ slot ∈ List.range (e.called .reset).histories.length,
      slot < (e.called .reset).histories.length := fun _ => List.mem_range.mp
  obtain ⟨reply, made, sequence, hrun, -, hok, hmade, -⟩ := audits_run hrange
    he.imported
  obtain rfl := hok.mpr hpass
  have hb : Beside (e.called .reset) (e.called .reset) := .refl _
  have hpos : 0 < e.histories.length := Nat.lt_of_le_of_lt (Nat.zero_le _) he.selected
  have hmoved := he.moved (e.histories.map fun _ => CompletedHistory.default) 0 hb (accepts_reset _) (List.length_map _) (by simp [default_tokens]) (by rwa [List.length_map])
    (by simp [Foreign.moves, recordOf, default_tokens, Function.comp_def])
  have haudited : ∀ made : List Foreign, (∀ call ∈ made, call.isNative = false ∧ ∀ slot, ¬call.resets slot) →
      Steady l legal n { e with
        calls := made ++ .reset :: e.calls
        histories := e.histories.map fun _ => CompletedHistory.default
        selected := 0 } := by
    intro made hmade
    induction made with
    | nil => exact hmoved
    | cons call made ih =>
      have hrest := ih fun call hcall => hmade call (List.mem_cons_of_mem _ hcall)
      cases call with
      | audit sequence slot => exact hrest.audited sequence
      | _ => cases (hmade _ List.mem_cons_self).1
  unfold resetUnshared
  rw [Method.bind_ok hforeign, Method.bind_run, Method.lift_run, hstatus]
  dsimp only
  rw [Method.bind_ok (Method.get_run _), Method.bind_ok hrun]
  exact (haudited made hmade).beside
    ⟨⟨rfl, rfl, rfl, List.length_map _, rfl, rfl, rfl, rfl, rfl⟩, rfl⟩

/-! ## Page lists -/

/-- A page list with a node of the program that has room for it. -/
def Bindable (l : Library) (binding : Nat × Binding) : Prop :=
  binding.2.rank < l.ranks ∧ binding.2.units ≠ [] ∧ ∃ node contract,
    pagedNode l.program binding.1 = .ok (some node) ∧
    Execution.pagedStateContract l.program node = .ok contract ∧
    binding.2.units.length ≤ contract.tableEntries

theorem stateBudget_node {residents : Nat} {state : State} {budget : StateBudget} {node : Nat}
    (h : stateBudget residents state = .ok budget) (hnode : budget.node = some node) :
    budget.id = state.id ∧ node = state.logicalNode ∧
      ∃ pageTokens rowBytes encoding, state.storage = .pages pageTokens rowBytes encoding := by
  simp only [stateBudget, Outcome.bind_eq_ok] at h
  obtain ⟨⟨units, node'⟩, hunits, capacities, -, h⟩ := h
  obtain rfl := Outcome.ok.inj h
  obtain rfl : node' = some node := hnode
  rw [stateUnits] at hunits
  split at hunits
  · rename_i pageTokens rowBytes encoding hstorage
    simp only [Outcome.bind_eq_ok, Outcome.okOr_eq_ok, tryFrom_eq_some] at hunits
    obtain ⟨_, ⟨-, rfl⟩, _, -, heq⟩ := hunits
    obtain ⟨-, hsome⟩ := Prod.mk.inj (Outcome.ok.inj heq)
    exact ⟨rfl, (Option.some.inj hsome).symm, _, _, _, hstorage⟩
  · cases hunits

/-- A registered cache node is the node of the paged state of that name. -/
theorem cacheNode_state {nextPool counter node : Nat} {component : String}
    (hnew : SharedState.new m nextPool = .ok (s, counter)) (hnode : s.cacheNodes[component]? = some node) :
    ∃ state ∈ m.states, state.id = component ∧ node = state.logicalNode ∧
      ∃ pageTokens rowBytes encoding, state.storage = .pages pageTokens rowBytes encoding := by
  simp only [SharedState.new, Outcome.bind_eq_ok] at hnew
  obtain ⟨budgets, hbudgets, ⟨pool, nextPool'⟩, -, h⟩ := hnew
  obtain ⟨rfl, -⟩ := Prod.mk.inj (Outcome.ok.inj h)
  have hmem := ExtTreeMap.mem_of_getElem?_ofList hnode
  obtain ⟨budget, hbudget, hpair⟩ := List.mem_filterMap.mp hmem
  obtain ⟨node', hnode', heq⟩ := Option.map_eq_some_iff.mp hpair
  obtain ⟨hid, rfl⟩ := Prod.mk.inj heq
  obtain ⟨state, hstate, hrun⟩ := Outcome.collect_mem_right hbudgets hbudget
  obtain ⟨hid', hlogical, hstorage⟩ := stateBudget_node hrun hnode'
  exact ⟨state, hstate, hid'.symm.trans hid, hlogical, hstorage⟩

theorem state_unique (h : m.validate = .ok ()) {state state' : State} (hstate : state ∈ m.states)
    (hstate' : state' ∈ m.states) (hid : state.id = state'.id) : state = state' := by
  obtain ⟨_, _, -, -, -, hnodup⟩ := Manifest.validate_eq_ok h
  exact List.inj_on_of_nodup_map hnodup hstate hstate' hid

/-- The page lists of a reservation fit their nodes. -/
theorem bindable_reserved {nextPool counter tokens : Nat} {s₀ : SharedState} {slot : Option Nat}
    {bindings : List Binding} (hdescribes : Describes m l)
    (hnew : SharedState.new m nextPool = .ok (s₀, counter)) (hkept : SharedKept s₀ s) (htokens : 0 < tokens)
    (hbindings : List.Forall₂ (fun p b => StatePool.prepareBinding tokens slot p = .ok b) s.pool.pools bindings) :
    ∀ binding ∈ cacheBindings s bindings, Bindable l binding := by
  intro binding hbinding
  obtain ⟨budgets, -, hfresh, -⟩ := SharedState.new_eq_ok hnew
  obtain ⟨b, hb, hmapped⟩ := List.mem_filterMap.mp hbinding
  obtain ⟨node, hnode, rfl⟩ := Option.map_eq_some_iff.mp hmapped
  rw [hkept.cacheNodes] at hnode
  obtain ⟨state, hstate, hid, rfl, pageTokens, rowBytes, encoding, hstorage⟩ := cacheNode_state hnew hnode
  obtain ⟨ops, hpool⟩ := hkept.pool
  obtain ⟨p, hp, hprepared⟩ := Outcome.collect_mem_right (Outcome.collect_eq_ok.mpr hbindings) hb
  rw [hpool] at hp
  obtain ⟨state', hstate', rank, hrank, layout, capacity, hlayout, -, -, hfixed⟩ := hfresh.pool_final hp
  have hkey : p.key = ⟨state'.id, rank⟩ := congrArg Pool.key hfixed
  have hpage : p.pageTokens = layout.1 := congrArg Pool.pageTokens hfixed
  have hmax : p.maxTokens = state'.capacityTokens := congrArg Pool.maxTokens hfixed
  obtain ⟨-, _, -, -, -, hof⟩ := StatePool.prepareBinding_eq_ok hprepared
  have hsame : state' = state := by
    apply state_unique hfresh.valid hstate' hstate
    rw [hid, hof.component, hkey]
  subst hsame
  obtain ⟨context, query, -, -, hvalid, -⟩ := Manifest.validate_eq_ok hfresh.valid
  obtain ⟨hpos, -, hmod, -⟩ := Manifest.checkStorage_pages hstorage (hvalid _ hstate).storage
  obtain ⟨seen, hown⟩ := (hvalid _ hstate).ownership
  obtain ⟨-, -, hcapacity, -, -, hranks, -⟩ := Manifest.checkOwnership_eq_ok.mp hown
  have hpages : p.pageTokens = some pageTokens := by
    rw [hpage]
    rw [hstorage, unitLayout] at hlayout
    split at hlayout
    · exact congrArg Prod.fst (Outcome.ok.inj hlayout).symm
    · cases hlayout
  have hfits := StatePool.fits_of_prepared (p := p) (fun {n} h => by
    rw [hpages] at h
    obtain rfl := Option.some.inj h
    exact hpos) hprepared
  have hunits := hfits.units hpages
  have hretained : StatePool.retained tokens p ≤ state'.capacityTokens ∧ 0 < StatePool.retained tokens p := by
    unfold StatePool.retained
    split
    · have := hfits.full ‹_›
      omega
    · omega
  obtain ⟨node, contract, hnode', hcontract, hentries⟩ := hdescribes.nodes state' hstate _ _ _ hstorage
  refine ⟨?_, ?_, node, contract, hnode', hcontract, ?_⟩
  · rw [hof.rank, hkey]
    exact (hranks rank hrank).trans_le hdescribes.ranks
  · intro hnil
    have hlt := Paging.page_lt_pagesFor hpos hretained.2
    rw [← hunits, hnil] at hlt
    simp at hlt
  · rw [hunits]
    refine (Paging.pagesFor_mono hretained.1).trans ?_
    rwa [Paging.pagesFor_of_dvd hpos (Nat.dvd_of_mod_eq_zero hmod)]

/-! ## Admissions -/

/-- The selected resident has been reset. -/
structure Ready (l : Library) (legal : Prop) (n : Nat) (e : Engine) : Prop extends Steady l legal n e where
  cleared : e.histories[e.selected]? = some CompletedHistory.default

theorem Ready.beside (h : Ready l legal n e) (hb : Beside e e') : Ready l legal n e' :=
  ⟨h.toSteady.beside hb, by rw [hb.histories, hb.selected]; exact h.cleared⟩

theorem ready_keeps {α : Type} {c : Call α} (hc : Keeps Beside c) :
    Triple (Ready l legal n) c (fun _ => Ready l legal n) (Ready l legal n) := by
  intro e he
  have hb := hc e
  rcases hrun : c e with ⟨_ | _ | _, e'⟩ <;> rw [hrun] at hb <;> exact he.beside hb

theorem keeps_onPool_beside {α : Type} (c : Method StatePool Error α) : Keeps Beside (onPool c) := by
  intro e
  rw [onPool]
  split
  · exact .refl e
  · exact ⟨⟨rfl, rfl, rfl, rfl, rfl, rfl, rfl, rfl, rfl⟩, rfl⟩

theorem keeps_modifyShared_beside (f : SharedState → SharedState) : Keeps Beside (modifyShared f) :=
  fun _ => ⟨⟨rfl, rfl, rfl, rfl, rfl, rfl, rfl, rfl, rfl⟩, rfl⟩

theorem keeps_countAdmission_beside (slot : Nat) (bindings : List (Nat × Binding)) :
    Keeps Beside (countAdmission slot bindings) := by
  unfold countAdmission
  refine (keeps_read _).bind fun s => ?_
  refine (keeps_lift _).bind fun crossing => ?_
  refine (keeps_lift _).bind fun usage => ?_
  exact keeps_modifyShared_beside _

/-- A call that moves nothing, whatever its answer. -/
theorem Steady.unmoved (h : Steady l legal n e) (hb : Beside (e.called call) e')
    (hmoves : ∀ residents, call.moves residents = residents) (haccepts : legal → l.Accepts e.calls call) :
    Steady l legal n e' := by
  by_cases haccepted : l.Accepts e.calls call
  · exact h.moved e'.histories e'.selected hb haccepted (congrArg List.length hb.histories)
      (by rw [hb.histories]; exact h.context) (by rw [hb.histories, hb.selected]; exact h.selected)
      (by rw [hmoves, hb.histories, hb.selected]; rfl)
  · exact h.refused hb haccepted haccepts

theorem ready_bindState {binding : Nat × Binding} (hlegal : legal → l.program.sharedPages = true ∧ Bindable l binding) :
    Triple (Ready l legal n) (bindState binding) (fun _ => Ready l legal n) (Ready l legal n) := by
  refine triple_at fun e he => ?_
  unfold bindState
  refine triple_lift_at he fun pages hpages => ?_
  have hcalled : Ready l legal n (e.called (.bindState binding.2.rank binding.1 pages)) := by
    refine ⟨he.toSteady.unmoved (.refl _) (fun _ => rfl) fun h => ?_, he.cleared⟩
    obtain ⟨hshared, hrank, hsome, node, contract, hnode, hcontract, hcount⟩ := hlegal h
    have hlength : pages.length = binding.2.units.length := by
      rw [(Outcome.collect_eq_ok.mp hpages).length_eq]
    refine he.accepts_bindState he.cleared rfl hshared hrank hnode hcontract ?_ (hlength ▸ hcount)
    rintro rfl
    exact hsome (List.eq_nil_of_length_eq_zero hlength.symm)
  have hforeign : Triple (· = e) (foreign (.bindState binding.2.rank binding.1 pages))
      (fun _ => Ready l legal n) (Ready l legal n) := by
    rintro _ rfl
    exact hcalled
  refine hforeign.bind fun answer => ?_
  split
  · exact triple_pure () fun _ h => h
  · exact (ready_keeps (keeps_onPool_beside _)).bind fun _ =>
      (triple_lift _ fun _ h => h).post fun _ _ h => h.1

theorem triple_onPool_read {α : Type} (f : StatePool → Result α) (hshared : e.shared = some s)
    {E : Engine → Prop} (hE : E e) :
    Triple (· = e) (onPool (Method.read f)) (fun a e' => e' = e ∧ f s.pool = .ok a) E := by
  intro e₀ he₀
  obtain rfl := he₀.symm
  have hrun : onPool (Method.read f) e = (f s.pool, e) := by
    rw [onPool, hshared]
    cases e
    cases hshared
    rfl
  rw [hrun]
  cases f s.pool with
  | ok a => exact ⟨rfl, rfl⟩
  | err error => exact hE
  | panic => exact hE

theorem steady_prepareShared (hsound : Sound m e) (he : Ready l legal n e) (hshared : e.shared = some s)
    (slot tokens : Nat) (hlegal : legal → m.sharedPages = l.program.sharedPages ∧ Describes m l) :
    Triple (· = e) (prepareShared slot tokens s) (fun _ => Steady l legal n) (Steady l legal n) := by
  obtain ⟨hpages, -, s₀, nextPool, counter, hnew, hkept⟩ := hsound.grown s hshared
  have hlinked : Linked s.pool := by
    rcases hsound.closed with hnone | ⟨s', hsafe, -⟩
    · exact absurd (hnone.symm.trans hshared) (by simp)
    · obtain rfl := Option.some.inj (hsafe.shared.symm.trans hshared)
      exact hsafe.linked
  suffices hready : Triple (· = e) (prepareShared slot tokens s) (fun _ => Ready l legal n) (Ready l legal n) from
    (hready.post fun _ _ h => h.toSteady).error fun _ h => h.toSteady
  unfold prepareShared
  refine triple_lift_at he fun request _ => ?_
  refine triple_modify_at ?_
  rw [hshared, Option.map_some]
  have he₁ : Ready l legal n { e with shared := some { s with nextRequest := request } } :=
    he.beside ⟨⟨rfl, rfl, rfl, rfl, rfl, rfl, rfl, rfl, rfl⟩, rfl⟩
  refine triple_lift_at he₁ fun _ _ => ?_
  refine ((triple_onPool (s := { s with nextRequest := request }) (.reserve 1 request tokens (some slot))
    .lease rfl rfl hlinked).error ?_).bind fun lease => ?_
  · rintro _ rfl
    exact he₁
  refine triple_at fun e₂ he₂ => ?_
  obtain ⟨p, haccepted, rfl⟩ := he₂
  refine triple_modify_at ?_
  -- The lists that are handed over are the ones the reservation has prepared.
  have hbindable : ∀ bindings, p.bindings 1 lease = .ok bindings → legal →
      ∀ binding ∈ cacheBindings s bindings, Bindable l binding := by
    intro bindings hfound h
    cases haccepted with
    | reserve hlive htokens hcontext hrequest hbindings hnext =>
      rename_i prepared
      obtain ⟨-, a, halloc, -, rfl⟩ := StatePool.bindings_eq_ok.mp hfound
      rw [StatePool.reserved, ExtTreeMap.getElem?_insert_self] at halloc
      obtain rfl := Option.some.inj halloc
      exact bindable_reserved (hlegal h).2 hnew hkept htokens hbindings
  refine ((triple_onPool_read (fun pool => pool.bindings 1 lease) rfl ?_).bind fun bindings => ?_)
  · exact he.beside ⟨⟨rfl, rfl, rfl, rfl, rfl, rfl, rfl, rfl, rfl⟩, rfl⟩
  refine triple_of_fact fun hfound => ?_
  have hbound : ∀ binding ∈ cacheBindings s bindings,
      legal → l.program.sharedPages = true ∧ Bindable l binding :=
    fun binding hmem h => ⟨(hlegal h).1 ▸ hpages, hbindable bindings hfound h binding hmem⟩
  have hrest : Triple (Ready l legal n) (do
      countAdmission slot (cacheBindings s bindings)
      Method.require (fun e => e.world.bindStateFn) (.invalid "missing shared page binding ABI")
      Method.forEach (cacheBindings s bindings) bindState : Call Unit)
      (fun _ => Ready l legal n) (Ready l legal n) := by
    refine (ready_keeps (keeps_countAdmission_beside _ _)).bind fun _ => ?_
    refine triple_require_bind (fun _ h => h) ?_
    exact triple_forEach fun binding hmem => ready_bindState (hbound binding hmem)
  refine hrest.pre ?_
  rintro _ rfl
  exact he.beside ⟨⟨rfl, rfl, rfl, rfl, rfl, rfl, rfl, rfl, rfl⟩, rfl⟩

/-- A call on a sound engine that keeps the record, with what it leaves where it returns. -/
theorem steady_sound {α : Type} {c : Call α} {Q : α → Engine → Prop}
    (hsteady : ∀ e, Sound m e → Steady l legal n e →
      Triple (· = e) c (fun a e' => Steady l legal n e' ∧ Q a e') (Steady l legal n))
    (hsound : Triple (Sound m) c (fun _ => Sound m) (Sound m)) :
    Triple (fun e => Sound m e ∧ Steady l legal n e) c
      (fun a e => (Sound m e ∧ Steady l legal n e) ∧ Q a e) (fun e => Sound m e ∧ Steady l legal n e) := by
  refine triple_at fun e he => ?_
  refine ((hsteady e he.1 he.2).and hsound).mono ?_ (fun _ _ h => ⟨⟨h.2, h.1.1⟩, h.1.2⟩)
    fun _ h => ⟨h.2, h.1⟩
  rintro _ rfl
  exact ⟨rfl, he.1⟩

theorem sound_resetResident (slot : Nat) :
    Triple (Sound m) (resetResident slot) (fun _ => Sound m) (Sound m) := by
  have hkept : Keeps (Kept (fun _ => True) (fun _ => True)) (resetResident slot) := keeps_resetResident trivial
  exact sound_call hkept (closed_resetResident slot)

theorem sound_selectResident (slot : Nat) :
    Triple (Sound m) (selectResident slot) (fun _ => Sound m) (Sound m) := by
  have hkept : Keeps (Kept (fun _ => True) (fun _ => True)) (selectResident slot) := keeps_selectResident slot
  exact sound_call hkept ((closed_selectResident slot).post fun _ _ h => ⟨h, trivial⟩)

/-- Whatever was selected, an admission leaves its own resident selected and reset. -/
theorem steady_prepareResident (hsound : Sound m e) (he : Steady l legal n e) (slot tokens : Nat)
    (hlegal : legal → m.sharedPages = l.program.sharedPages ∧ Describes m l) :
    Triple (· = e) (prepareResident slot tokens) (fun _ => Steady l legal n) (Steady l legal n) := by
  unfold prepareResident
  have hreset : Triple (fun e => Sound m e ∧ Steady l legal n e) (resetResident slot)
      (fun _ e => (Sound m e ∧ Steady l legal n e) ∧ e.histories[slot]? = some CompletedHistory.default)
      (fun e => Sound m e ∧ Steady l legal n e) :=
    steady_sound (fun _ hsound he => steady_resetResident hsound he slot) (sound_resetResident slot)
  have hfirst : Triple (· = e) (resetResident slot)
      (fun _ e => (Sound m e ∧ Steady l legal n e) ∧ e.histories[slot]? = some CompletedHistory.default)
      (Steady l legal n) :=
    hreset.mono (by rintro _ rfl; exact ⟨hsound, he⟩) (fun _ _ h => h) fun _ h => h.2
  refine hfirst.bind fun _ => triple_at fun e₁ h₁ => ?_
  obtain ⟨⟨hsound₁, he₁⟩, hcleared⟩ := h₁
  have hslot : slot < e₁.histories.length := (List.getElem?_eq_some_iff.mp hcleared).1
  have hsame : Triple (· = e₁) (selectResident slot) (fun _ e₂ => SameResidents e₁ e₂) (SameResidents e₁) :=
    ((same_selectResident slot).triple e₁).pre (by rintro _ rfl; exact Steps.refl _)
  have hselect : Triple (· = e₁) (selectResident slot)
      (fun _ e₂ => Sound m e₂ ∧ Ready l legal n e₂) (Steady l legal n) := by
    refine ((((steady_selectResident he₁ fun _ => hslot).and (sound_selectResident slot)).and hsame).mono
      (by rintro _ rfl; exact ⟨⟨rfl, hsound₁⟩, rfl⟩) ?_ fun _ h => h.1.1)
    rintro _ e₂ ⟨⟨⟨he₂, hselected⟩, hsound₂⟩, hsame⟩
    exact ⟨hsound₂, he₂, by rw [hsame.histories, hselected]; exact hcleared⟩
  refine hselect.bind fun _ => triple_at fun e₂ h₂ => ?_
  refine triple_get_at ?_
  split
  · exact triple_pure_at h₂.2.toSteady
  · rename_i s hshared
    exact steady_prepareShared h₂.1 h₂.2 hshared slot tokens hlegal

/-- The reset of every resident. -/
theorem steady_reset (hsound : Sound m e) (he : Steady l legal n e)
    (hpass : e.shared = none → AuditsPass (e.called .reset) (List.range e.histories.length)) :
    Triple (· = e) reset (fun _ => Steady l legal n) (Steady l legal n) := by
  unfold reset
  refine triple_require_at he fun _ => ?_
  refine triple_get_at ?_
  split
  · exact steady_resetUnshared he (hpass ‹_›)
  · rename_i s hshared
    have hloop : Triple (fun e => Sound m e ∧ Steady l legal n e)
        (Method.forEach (List.range s.leases.length) resetResident)
        (fun _ e => Sound m e ∧ Steady l legal n e) (fun e => Sound m e ∧ Steady l legal n e) := by
      refine triple_forEach fun slot _ => ?_
      exact (steady_sound (fun _ hsound he => steady_resetResident hsound he slot)
        (sound_resetResident slot)).post fun _ _ h => h.1
    have hfirst : Triple (· = e) (Method.forEach (List.range s.leases.length) resetResident)
        (fun _ e => Sound m e ∧ Steady l legal n e) (Steady l legal n) :=
      hloop.mono (by rintro _ rfl; exact ⟨hsound, he⟩) (fun _ _ h => h) fun _ h => h.2
    refine hfirst.bind fun _ => triple_at fun e₁ h₁ => ?_
    have hpos : 0 < e₁.histories.length := Nat.lt_of_le_of_lt (Nat.zero_le _) h₁.2.selected
    exact (steady_selectResident h₁.2 fun _ => hpos).post fun _ _ h => h.1

end Engine

end Inferfabric.Native
