-- SUMMARY: Over every run the host engine's record is the native engine's state, and no legal call is refused by the native checks.
import IronPangu.Native.Mirror.Admissions

open Rust Method Std

/-!
# Runs in step

Copies and seals complete the calls. The results hold from an opened engine on, for
a manifest with state on every rank: where a rank has none, a completed invocation
is not recorded, and the record falls behind for good.
-/

namespace Inferfabric.Native

open Inferfabric.Ir Inferfabric.Runtime
open Inferfabric.Runtime.StatePool (Linked Accepted sampleDigest)

namespace Engine

variable {m : Manifest} {l : Library} {legal : Prop} {n : Nat} {e e' : Engine} {call : Foreign} {slot : Nat}
  {s s' : SharedState}

/-! ## Copies -/

/-- A submitted copy whose source is still borrowed. -/
structure Copying (s : SharedState) (read : Borrow) (lease : Lease) (e e' : Engine) : Prop where
  beside : Beside e e'
  shared : ∃ p, e'.shared = some { s with pool := p } ∧ Linked p ∧ p.Live 1 ∧ read.pool = p.id ∧
    p.borrowers[read.id]? = some lease

theorem submitCopy_accepted {destination : Lease} {read : Borrow} (hshared : e.shared = some s)
    (hlinked : Linked s.pool) :
    Triple (· = e) (submitCopy destination read)
      (fun ticket e' => ∃ p, Accepted s.pool (.submit 1 [destination] [read]) (.ticket ticket) p ∧
        e' = e.mapPool fun _ => p) (Quiet e) := by
  have hsubmit := triple_onPool (.submit 1 [destination] [read]) .ticket rfl hshared hlinked
  have haccepted : Triple (· = e) (submitCopy destination read)
      (fun ticket e' => ∃ p, Accepted s.pool (.submit 1 [destination] [read]) (.ticket ticket) p ∧
        e' = e.mapPool fun _ => p) (fun _ => True) := by
    unfold submitCopy
    refine (hsubmit.attempt.error fun _ _ => trivial).bind fun ticket => ?_
    cases ticket with
    | ok ticket => exact triple_pure _ fun _ h => h
    | err error =>
      have hlift : Triple (fun _ => True) (Method.lift (.err error) : Call Ticket)
          (fun ticket e' => ∃ p, Accepted s.pool (.submit 1 [destination] [read]) (.ticket ticket) p ∧
            e' = e.mapPool fun _ => p) (fun _ => True) :=
        triple_lift_not_ok (fun _ h => by cases h) fun _ h => h
      refine Triple.bind (Q := fun _ _ => True) ?_ fun _ => hlift
      intro e₁ _
      rcases onPool (StatePool.release 1 read) e₁ with ⟨_ | _ | _, e₂⟩ <;> trivial
    | panic => exact fun e' h => h.elim
  refine (((quiet_submitCopy destination read).triple e).and haccepted).mono ?_ (fun _ _ h => h.2)
    fun _ h => h.1
  rintro _ rfl
  exact ⟨.refl _, rfl⟩

/-- Once the native copy has returned, the borrow is given back. -/
theorem release_copied {read : Borrow} {lease : Lease} {e₁ : Engine} (h : Copying s read lease e₁ e) :
    ∃ e', onPool (StatePool.release 1 read) e = (.ok (), e') ∧ Beside e₁ e' := by
  obtain ⟨p, hshared, hlinked, hlive, hpool, hborrower⟩ := h.shared
  obtain ⟨p', hrun⟩ := StatePool.release_live hlinked hlive hpool hborrower
  refine ⟨{ e with shared := some { s with pool := p' } }, ?_, h.beside.trans ?_⟩
  · rw [onPool, hshared]
    dsimp only
    rw [hrun]
  · exact ⟨⟨rfl, rfl, rfl, rfl, rfl, rfl, rfl, rfl, rfl⟩, rfl⟩

/-- Every rank of a submitted copy completes, and the source is still borrowed. -/
theorem finish_copied {read : Borrow} {lease : Lease} {ticket : Ticket} {answer : Answer} {e₁ : Engine}
    (h : Copying s read lease e₁ e) (hsubmitted : Submitted (some ticket) e)
    (hcovered : ∀ s', e.shared = some s' → s'.Covered) (hstatus : answer.status = 0) :
    ∃ e', finishInvocation (some ticket) answer e = (.ok (), e') ∧ Copying s read lease e₁ e' := by
  obtain ⟨p, hshared, hlinked, hlive, hpool, hborrower⟩ := h.shared
  obtain ⟨p', hrun, hadvanced, hlive', -, hborrowers, -⟩ :=
    finishInvocation_ok hsubmitted hshared (hcovered _ hshared) hstatus
  refine ⟨_, hrun, h.beside.trans ⟨⟨rfl, rfl, rfl, rfl, rfl, rfl, rfl, rfl, rfl⟩, rfl⟩, p', ?_,
    hadvanced.linked, hlive', ?_, ?_⟩
  · rw [mapPool, hshared]
    rfl
  · exact hpool.trans hadvanced.frame.id.symm
  · rw [hborrowers]
    exact hborrower

theorem steady_copyResident (hsound : Sound m e) (he : Steady l legal n e)
    (source destination boundary : Nat) :
    Triple (· = e) (copyResident source destination boundary) (fun _ => Steady l legal n)
      (Steady l legal n) := by
  unfold copyResident
  refine triple_require_at he fun _ => ?_
  refine triple_read_at he fun history hhistory => ?_
  refine triple_read_at he fun leases hleases => ?_
  obtain ⟨source_, destination_, hsource, hdestination, hne, hboundary, htokens, hempty, hprefix⟩ :=
    copyHistory_eq_ok hhistory
  have haccepts := he.accepts_copy hsource hdestination hne hboundary htokens hempty
  rcases hsound.closed with hnone | ⟨s, hsafe, -⟩
  · rw [copyLeases, hnone] at hleases
    cases hleases
  have hcovered : s.Covered := (hsound.grown s hsafe.shared).2.1
  have hborrow := triple_onPool (.borrow 1 leases.1) .borrow rfl hsafe.shared hsafe.linked
  refine (hborrow.error fun e' heq => heq ▸ he).bind fun read => triple_at fun e₁ h₁ => ?_
  obtain ⟨p, hborrowed, rfl⟩ := h₁
  have hread : read.pool = p.id ∧ p.borrowers[read.id]? = some leases.1 := by
    cases hborrowed with
    | borrow => exact ⟨rfl, ExtTreeMap.getElem?_insert_self⟩
  have hlinked : Linked p := hborrowed.linked hsafe.linked
  have hshared₁ : (e.mapPool fun _ => p).shared = some { s with pool := p } := by
    rw [mapPool, hsafe.shared]
    rfl
  have hbeside₁ : Beside e (e.mapPool fun _ => p) := ⟨⟨rfl, rfl, rfl, rfl, rfl, rfl, rfl, rfl, rfl⟩, rfl⟩
  refine ((submitCopy_accepted hshared₁ hlinked).mono (fun _ h => h) (fun ticket e₂ h =>
    (?_ : Copying s read leases.1 e e₂ ∧ Submitted (some ticket) e₂ ∧ ∀ s', e₂.shared = some s' → s'.Covered))
    fun e' hq => he.beside (hbeside₁.trans hq.beside)).bind fun ticket => triple_at fun e₂ h₂ => ?_
  · obtain ⟨p₂, hsubmitted, rfl⟩ := h
    obtain ⟨hlinked₂, hlive₂, hout₂⟩ := submit_submitted hlinked hsubmitted
    have hshared₂ : ((e.mapPool fun _ => p).mapPool fun _ => p₂).shared = some { s with pool := p₂ } := by
      rw [mapPool, hshared₁]
      rfl
    have hread₂ : read.pool = p₂.id ∧ p₂.borrowers[read.id]? = some leases.1 := by
      cases hsubmitted with
      | submit => exact hread
    refine ⟨⟨⟨⟨rfl, rfl, rfl, rfl, rfl, rfl, rfl, rfl, rfl⟩, rfl⟩, p₂, hshared₂, hlinked₂, hlive₂, hread₂⟩,
      ⟨ticket, _, rfl, hshared₂, hlinked₂, hlive₂, hout₂⟩, fun s' hs' rank => ?_⟩
    obtain rfl := Option.some.inj (hshared₂.symm.trans hs')
    rw [hsubmitted.frame.boundOn, hborrowed.frame.boundOn]
    exact hcovered rank
  obtain ⟨hcopying, hsubmitted, hcovered₂⟩ := h₂
  intro e₃ he₃
  obtain rfl := he₃.symm
  -- The native copy is accepted, so nothing is left to fail.
  have hcalls : e₂.calls = e.calls := hcopying.beside.calls
  have hforeign : foreign (.copyResident source destination boundary) e₂ =
      (.ok (e.world.answer (.copyResident source destination boundary :: e.calls)),
        e₂.called (.copyResident source destination boundary)) := by
    rw [← hcalls, ← hcopying.beside.world]
    rfl
  have hcopying' : Copying s read leases.1 (e.called (.copyResident source destination boundary))
      (e₂.called (.copyResident source destination boundary)) := by
    refine ⟨⟨?_, congrArg (Foreign.copyResident source destination boundary :: ·) hcalls⟩, hcopying.shared⟩
    exact (Alike.refl _).trans ⟨hcopying.beside.world, hcopying.beside.histories, hcopying.beside.selected,
      hcopying.beside.imported, hcopying.beside.seals, hcopying.beside.prefillTokens,
      hcopying.beside.uncaptured, hcopying.beside.prefillVariants, hcopying.beside.variants⟩
  obtain ⟨e₄, hfinish, hcopying₄⟩ := finish_copied hcopying' hsubmitted hcovered₂ ((he.status _).mpr haccepts)
  obtain ⟨e₅, hrelease, hbeside₅⟩ := release_copied hcopying₄
  have hlength : e₅.histories.length = e.histories.length := congrArg List.length hbeside₅.histories
  have hslot : destination < e₅.histories.length := hlength ▸ (List.getElem?_eq_some_iff.mp hdestination).1
  have himported : destination < e₅.importedTokens.length := by
    rw [hbeside₅.imported]
    exact he.imported ▸ hlength ▸ hslot
  have himport : setImported destination boundary
      { e₅ with histories := e₅.histories.set destination history } = (.ok (), { e₅ with
        histories := e₅.histories.set destination history
        importedTokens := e₅.importedTokens.set destination boundary }) := setImported_run himported
  rw [Method.bind_ok hforeign, Method.bind_ok hfinish, Method.bind_ok hrelease,
    Method.bind_ok (setHistory_run hslot), himport]
  have htokens' : history.value.tokens = boundary := CompletedHistory.prefix_tokens_eq hprefix
  have hcontext := he.context source_ (List.mem_of_getElem? hsource)
  have hmoved := he.moved (e₅.histories.set destination history) e₅.selected hbeside₅ haccepts
    (by rw [List.length_set, hlength]) (by
      rw [show e₅.histories = e.histories from hbeside₅.histories]
      exact he.context_set (by omega))
    (by rw [List.length_set, hlength, show e₅.selected = e.selected from hbeside₅.selected]; exact he.selected)
    (by rw [setTokens_map, htokens', show e₅.histories = e.histories from hbeside₅.histories,
          show e₅.selected = e.selected from hbeside₅.selected]; rfl)
  exact hmoved.beside ⟨⟨rfl, rfl, rfl, List.length_set, rfl, rfl, rfl, rfl, rfl⟩, rfl⟩

/-! ## Snapshots -/

theorem keeps_setSealed_beside (slot : Nat) (value : Option SealedLease) : Keeps Beside (setSealed slot value) := by
  unfold setSealed
  refine (keeps_read _).bind fun _ => ?_
  exact keeps_modify fun _ => ⟨⟨rfl, rfl, rfl, rfl, List.length_set, rfl, rfl, rfl, rfl⟩, rfl⟩

theorem keeps_sealResident_beside (slot : Nat) : Keeps Beside (sealResident slot) := by
  unfold sealResident
  refine (keeps_read _).bind fun history => ?_
  refine (keeps_read _).bind fun refused => ?_
  split
  · exact keeps_fail _
  · refine (keeps_require _ _).bind fun _ => ?_
    refine (keeps_read _).bind fun s => ?_
    refine (keeps_lift _).bind fun lease => ?_
    refine (keeps_onPool_beside _).bind fun sealedLease => ?_
    exact (keeps_setSealed_beside _ _).bind fun _ => keeps_pure _

theorem steady_keeps {α : Type} {c : Call α} (hc : Keeps Beside c) :
    Triple (Steady l legal n) c (fun _ => Steady l legal n) (Steady l legal n) := by
  intro e he
  have hb := hc e
  rcases hrun : c e with ⟨_ | _ | _, e'⟩ <;> rw [hrun] at hb <;> exact he.beside hb

theorem steady_restoreSnapshot (hsound : Sound m e) (he : Steady l legal n e) (snapshot : Snapshot)
    (destination : Nat) :
    Triple (· = e) (restoreSnapshot snapshot destination) (fun _ => Steady l legal n) (Steady l legal n) := by
  unfold restoreSnapshot
  refine triple_read_at he fun _ _ => ?_
  refine triple_read_at he fun history _ => ?_
  exact steady_copyResident hsound he _ _ _

/-- Taking a seal out leaves the engine sound. -/
theorem Sound.unsealed {value : Option SealedLease} (h : Sound m e) (hvalue : value = none) :
    Sound m { e with sealedLeases := e.sealedLeases.set slot value } := by
  refine ⟨h.closed.imp_right ?_, h.grown⟩
  rintro ⟨s, hsafe, hclosed⟩
  have hseal : ∀ sealedLease, value = some sealedLease → s.pool.poisoned = true ∨
      (s.leases[slot]? = some (some sealedLease.lease) ∧ StatePool.SealedIn s.pool sealedLease.lease) := by
    intro sealedLease hsome
    rw [hvalue] at hsome
    cases hsome
  exact ⟨s, hsafe.setSeal hseal, hclosed⟩

theorem steady_retireSnapshot (hsound : Sound m e) (he : Steady l legal n e) (snapshot : Snapshot) :
    Triple (· = e) (retireSnapshot snapshot) (fun _ => Steady l legal n) (Steady l legal n) := by
  unfold retireSnapshot
  refine triple_read_at he fun _ _ => ?_
  refine triple_read_at he fun s _ => ?_
  refine triple_lift_at he fun lease _ => ?_
  refine triple_lift_at he fun _ _ => ?_
  have hseal : Triple (· = e) (setSealed snapshot.slot none)
      (fun _ e' => Sound m e' ∧ Steady l legal n e') (Steady l legal n) := by
    unfold setSealed
    refine triple_read_at he fun _ _ => triple_modify ?_
    rintro _ rfl
    exact ⟨hsound.unsealed rfl, he.beside ⟨⟨rfl, rfl, rfl, rfl, List.length_set, rfl, rfl, rfl, rfl⟩, rfl⟩⟩
  refine hseal.bind fun _ => triple_at fun e₁ h₁ => ?_
  have hreset := ((steady_resetResident h₁.1 h₁.2 snapshot.slot).post fun _ _ h => h.1).attempt
  have hattempt : Triple (· = e₁) (attempt (resetResident snapshot.slot)) (fun _ => Steady l legal n)
      (Steady l legal n) := by
    refine hreset.mono (fun _ h => h) ?_ fun _ h => h
    intro reply e₂ h
    cases reply with
    | panic => exact h.elim
    | _ => exact h
  refine hattempt.bind fun status => ?_
  split
  · exact triple_pure () fun _ h => h
  · have hpoison : Keeps Beside (ifShared StatePool.poison) := by
      unfold ifShared
      refine keeps_get.bind fun e => ?_
      split
      · exact keeps_onPool_beside _
      · exact keeps_pure _
    refine (steady_keeps hpoison).bind fun _ => ?_
    refine (steady_keeps (keeps_setSealed_beside _ _)).bind fun _ => ?_
    exact (triple_lift _ fun _ h => h).post fun _ _ h => h.1

theorem steady_releaseResident (hsound : Sound m e) (he : Steady l legal n e) (slot : Nat) :
    Triple (· = e) (releaseResident slot) (fun _ => Steady l legal n) (Steady l legal n) := by
  unfold releaseResident
  refine triple_get_at ?_
  split
  · exact (steady_resetResident hsound he slot).post fun _ _ h => h.1
  · exact triple_pure_at he

/-- A binding outside any reservation moves nothing; it may be refused. -/
theorem steady_bindPages (he : Steady l legal n e) (hlegal : ¬legal) (rank : Nat) (component : String)
    (pages : List Nat) :
    Triple (· = e) (bindPages rank component pages) (fun _ => Steady l legal n) (Steady l legal n) := by
  unfold bindPages
  refine triple_require_at he fun _ => ?_
  refine triple_require_at he fun _ => ?_
  refine triple_lift_at he fun pages _ => ?_
  refine triple_lift_at he fun _ _ => ?_
  have hforeign : Triple (· = e) (foreign (.bindPages rank component pages)) (fun _ => Steady l legal n)
      (Steady l legal n) := by
    rintro _ rfl
    exact he.unmoved (.refl _) (fun _ => rfl) fun h => absurd h hlegal
  exact hforeign.bind fun answer => (triple_lift _ fun _ h => h).post fun _ _ h => h.1

/-! ## Steps -/

/-- A call the claim is about: its tokens are in the vocabulary, and a resident that is
    only selected exists. -/
def Op.Legal (l : Library) : Op → Prop
  | .token value _ _ => value < l.vocabulary
  | .prefill tokens _ _ => ∀ t ∈ tokens, t < l.vocabulary
  | .batch inputs => ∀ input ∈ inputs, ∀ t ∈ input.tokens, t < l.vocabulary
  | .selectResident slot => slot < l.program.residentSequences
  | .bindPages .. => False
  | _ => True

/-- The manifest and the device are the ones the library was built for. -/
structure Fitting (m : Manifest) (l : Library) : Prop where
  pages : m.sharedPages = l.program.sharedPages
  describes : Describes m l
  works : l.Works

theorem steady_return {α : Type} {c : Call α} (wrap : α → Reply)
    (h : Triple (· = e) c (fun _ => Steady l legal n) (Steady l legal n)) :
    Steady l legal n ((do return wrap (← c) : Call Reply) e).2 := by
  rw [after_return]
  exact h.final rfl

/-- One call, from an engine in step. -/
theorem steady_step (hsound : Sound m e) (he : Mirrors l e) (op : Op)
    (hpass : e.shared = none → AuditsPass (e.called .reset) (List.range e.histories.length)) :
    Steady l (op.Legal l ∧ Fitting m l) e.calls.length (step op e).2 := by
  have hstart : Steady l (op.Legal l ∧ Fitting m l) e.calls.length e := .start he
  cases op with
  | token value position sample =>
    exact steady_return _ (steady_token hsound hstart sample fun h => h.1)
  | prefill tokens position sample =>
    exact steady_return _ (steady_prefill hsound hstart position sample fun h => h.1)
  | batch inputs =>
    exact steady_return _ (steady_batch hsound hstart fun h => ⟨h.2.works, h.1⟩)
  | selectResident slot =>
    refine steady_return (fun _ => .done) ((steady_selectResident hstart fun h => ?_).post fun _ _ h => h.1)
    exact he.capacity ▸ h.1
  | reset => exact steady_return (fun _ => .done) (steady_reset hsound hstart hpass)
  | resetResident slot =>
    exact steady_return (fun _ => .done) ((steady_resetResident hsound hstart slot).post fun _ _ h => h.1)
  | releaseResident slot => exact steady_return (fun _ => .done) (steady_releaseResident hsound hstart slot)
  | prepareResident slot tokens =>
    exact steady_return (fun _ => .done)
      (steady_prepareResident hsound hstart slot tokens fun h => ⟨h.2.pages, h.2.describes⟩)
  | copyResident source destination boundary =>
    exact steady_return (fun _ => .done) (steady_copyResident hsound hstart source destination boundary)
  | sealResident slot =>
    exact steady_return _ ((steady_keeps (keeps_sealResident_beside slot)).pre (by rintro _ rfl; exact hstart))
  | restoreSnapshot snapshot destination =>
    exact steady_return (fun _ => .done) (steady_restoreSnapshot hsound hstart snapshot destination)
  | retireSnapshot snapshot =>
    exact steady_return (fun _ => .done) (steady_retireSnapshot hsound hstart snapshot)
  | bindPages rank component pages =>
    exact steady_return (fun _ => .done) (steady_bindPages hstart (fun h => h.1) rank component pages)

theorem Sound.step (h : Sound m e) (op : Op) : Sound m (step op e).2 :=
  h.kept (kept_step op e) fun he => (stepped_step he op).closed

/-! ## Opening -/

theorem checked_of_open {program : String} {world : World} {report : Report} {nextPool counter : Nat}
    (h : open_ m program world report nextPool = .ok (e, counter)) :
    e.checkReport m report = .ok () ∧ e.world = world := by
  simp only [open_, Outcome.bind_eq_ok] at h
  obtain ⟨contract, hmanifest, inventory, -, h⟩ := h
  split at h
  · simp at h
  split at h
  · simp at h
  obtain ⟨prefillTokens, -, h⟩ := Outcome.bind_eq_ok.mp h
  obtain ⟨⟨shared, counter'⟩, -, h⟩ := Outcome.bind_eq_ok.mp h
  obtain ⟨-, h⟩ := Outcome.check_bind_eq_ok.mp h
  split at h
  · simp at h
  obtain ⟨hreport, h⟩ := Outcome.check_bind_eq_ok.mp h
  obtain ⟨rfl, rfl⟩ := Prod.mk.inj (Outcome.ok.inj h)
  have hcontract : contract = m := by
    simp only [manifest, Outcome.check_bind_eq_ok] at hmanifest
    obtain ⟨-, hmanifest⟩ := hmanifest
    split at hmanifest
    · simp at hmanifest
    · obtain ⟨_, -, hsame⟩ := Outcome.bind_eq_ok.mp hmanifest
      exact (Outcome.ok.inj hsame).symm
  exact ⟨hcontract ▸ hreport, rfl⟩

theorem packedPrefills_context {variants : List Variant} {first : Variant} {rest : List Variant}
    {maximum capacity : Nat} (h : packedPrefills variants first maximum rest = .ok capacity) :
    ∀ v ∈ rest, v.maxContext = first.maxContext := by
  induction rest generalizing maximum with
  | nil => simp
  | cons v rest ih =>
    obtain ⟨count, hv, hrest⟩ := Outcome.bind_eq_ok.mp h
    have hcontext : v.maxContext = first.maxContext := by
      by_contra hne
      simp [packedPrefill, hne] at hv
    intro other hother
    rcases List.mem_cons.mp hother with rfl | hother
    · exact hcontext
    · exact ih hrest other hother

/-- A manifest's variants are all for the context of the first. -/
theorem prefillCapacity_context {capacity : Nat} (h : prefillCapacity m = .ok capacity) :
    ∃ first, m.variants[0]? = some first ∧ ∀ v ∈ m.variants, v.maxContext = first.maxContext := by
  simp only [prefillCapacity, Outcome.check_bind_eq_ok] at h
  obtain ⟨-, -, h⟩ := h
  split at h
  · exact absurd h invalid_ne_ok
  · rename_i first rest hvariants
    split at h
    · exact absurd h invalid_ne_ok
    · refine ⟨first, by rw [hvariants]; rfl, fun v hv => ?_⟩
      rw [hvariants] at hv
      rcases List.mem_cons.mp hv with rfl | hv
      · rfl
      · exact packedPrefills_context h v hv

theorem toNat_injective : Function.Injective Bool.toNat := by decide

/-- What the library reports is what the manifest says. -/
theorem checkReport_library {inventory : Result String} (h : e.checkReport m (l.report inventory) = .ok ()) :
    l.program.residentSequences = m.residentSequences ∧ l.program.prefillTokens = e.prefillTokens ∧
      l.program.uncapturedPrefill = e.uncapturedPrefill ∧ l.program.prefillVariants = e.prefillVariants ∧
      l.program.sharedPages = m.sharedPages ∧
      ∃ first, m.variants[0]? = some first ∧ l.program.context = first.maxContext := by
  simp only [checkReport, Library.report, reported, Option.getD_some, Outcome.bind_eq_ok] at h
  obtain ⟨info, hinfo, residents, hresidents, h⟩ := h
  obtain rfl := Outcome.ok.inj hinfo
  obtain rfl := Outcome.ok.inj hresidents
  split at h
  · simp at h
  rename_i hcapacity
  obtain ⟨chunk, hchunk, h⟩ := Outcome.bind_eq_ok.mp h
  obtain rfl := Outcome.ok.inj hchunk
  split at h
  · simp at h
  rename_i hprefill
  obtain ⟨mode, hmode, h⟩ := Outcome.bind_eq_ok.mp h
  obtain rfl := Outcome.ok.inj hmode
  split at h
  · simp at h
  rename_i huncaptured
  obtain ⟨hsizes, h⟩ := Outcome.check_bind_eq_ok.mp h
  obtain ⟨shared, hshared, h⟩ := Outcome.bind_eq_ok.mp h
  obtain rfl := Outcome.ok.inj hshared
  split at h
  · simp at h
  rename_i hpages
  obtain ⟨first, hfirst, h⟩ := Outcome.bind_eq_ok.mp h
  split at h
  · simp at h
  rename_i hcontext
  simp only [not_or, not_not] at hcapacity hprefill huncaptured hpages hcontext
  simp only [checkSizes, Outcome.bind_eq_ok] at hsizes
  obtain ⟨sizes, hsizes', hsizes⟩ := hsizes
  obtain rfl := Outcome.ok.inj hsizes'
  split at hsizes
  · simp at hsizes
  rename_i hvariants
  exact ⟨hcapacity.1, hprefill.1, toNat_injective huncaptured, not_not.mp hvariants,
    toNat_injective hpages.1, first, Outcome.unwrap_eq_ok.mp hfirst, (Prod.mk.inj hcontext).1⟩

theorem residents_of_valid (h : m.validate = .ok ()) : 0 < m.residentSequences := by
  simp only [Manifest.validate, Outcome.check_bind_eq_ok] at h
  obtain ⟨hidentity, -⟩ := h
  by_contra hzero
  simp [Manifest.checkIdentity, Nat.eq_zero_of_not_pos hzero] at hidentity

/-- An engine opened on the library is in step with it. -/
theorem opened_mirrors {program : String} {inventory : Result String} {nextPool counter : Nat}
    {world : World} (hopen : open_ m program world (l.report inventory) nextPool = .ok (e, counter))
    (hbehind : l.Behind world) : Mirrors l e := by
  obtain ⟨hreport, rfl⟩ := checked_of_open hopen
  have hopened := opened_of_open hopen
  obtain ⟨hresidents, hprefill, huncaptured, hvariants, -, first, hfirst, hcontext⟩ :=
    checkReport_library hreport
  obtain ⟨first', hfirst', hshort⟩ := prefillCapacity_context hopened.capacity
  obtain rfl := Option.some.inj (hfirst.symm.trans hfirst')
  have hstart := hopened.start
  have hhistories : e.histories = List.replicate m.residentSequences CompletedHistory.default := by
    rw [hstart]; rfl
  have hlength : e.histories.length = m.residentSequences := by rw [hhistories, List.length_replicate]
  have hcalls : e.calls = [] := by rw [hstart]; rfl
  have hselected : e.selected = 0 := by rw [hstart]; rfl
  have hmanifest : e.variants = m.variants := by rw [hstart]; rfl
  exact {
    behind := hbehind
    capacity := hlength.trans hresidents.symm
    imported := by rw [hstart]; simp [unopened]
    seals := by rw [hstart]; simp [unopened]
    prefillTokens := hprefill.symm
    uncaptured := huncaptured.symm
    prefillVariants := hvariants.symm
    variants := fun v hv => (hshort v (hmanifest ▸ hv)).trans hcontext.symm
    modes := by
      intro v hv hphase hcapable
      have hany : e.uncapturedPrefill = m.variants.any fun v => v.phase == .prefill && !v.graphCapable := by
        rw [hstart]; rfl
      rw [huncaptured, hany, List.any_eq_true]
      exact ⟨v, hmanifest ▸ hv, by simp [hphase, hcapable]⟩
    residents := by
      rw [hcalls, recordOf, hhistories, hselected]
      simp only [Library.residents, residentsOf, Library.after, ProgramEngine.Engine.new, hresidents,
        List.map_replicate]
      rfl
    selected := by
      rw [hselected, hlength]
      exact residents_of_valid hopened.valid
    context := by
      intro history hhistory
      rw [hhistories] at hhistory
      rw [List.eq_of_mem_replicate hhistory]
      exact Nat.zero_le _ }

theorem opened_sound (hopened : Opened m e) (hcovers : m.sharedPages = true → CoversRanks m) :
    Sound m e := by
  cases hpages : m.sharedPages with
  | false =>
    have hnone := hopened.unshared hpages
    exact ⟨.inl hnone, fun s hs => by rw [hnone] at hs; cases hs⟩
  | true =>
    refine ⟨.inr (hopened.closed hpages), fun s hs => ⟨hpages, ?_, ?_⟩⟩
    · exact (hopened.covered hpages (hcovers hpages) : (final Engine.step [] e).shared = some s → s.Covered) hs
    · obtain ⟨s₀, nextPool, counter, hshared, hnew, -⟩ := hopened.shared hpages
      obtain rfl := Option.some.inj (hshared.symm.trans hs)
      exact ⟨s₀, nextPool, counter, hnew, .refl s₀⟩

/-! ## Runs -/

/-- The audit counter has room for one more record of every resident. -/
def AuditRoom (m : Manifest) (e : Engine) : Prop := e.historyAuditSequence + m.residentSequences ≤ u64Max

/-- The host's record of every position, and its selection, are the native ones. -/
structure InStep (l : Library) (e : Engine) : Prop where
  positions : (l.after e.calls).nextPositions = e.histories.map fun h => h.value.tokens
  active : (l.after e.calls).activeResident = e.selected

/-- Every native call a legal call makes is accepted by the library. -/
def Admitted (l : Library) (ev : Event Engine Error Op Reply) : Prop :=
  ev.call.Legal l → ∀ call older, Since ev.before ev.after call older → call.isNative = true →
    l.Accepts older call

theorem Steady.admitted {op : Op} {fitting : Prop}
    (h : Steady l (op.Legal l ∧ fitting) e.calls.length (step op e).2) (hfitting : fitting) :
    Admitted l (event step e op) := fun hlegal _ _ hsince hnative =>
  (h.passed ⟨hlegal, hfitting⟩).accepts hsince.1 hsince.2.length_le hnative

/-- The next call passes its audits. -/
theorem AuditRoom.passes (h : AuditRoom m e) (hlength : e.histories.length = m.residentSequences)
    (haudit : ∀ calls, e.world.audit calls = none) :
    AuditsPass (e.called .reset) (List.range e.histories.length) := by
  refine auditsPass haudit ?_
  rw [List.length_range, hlength]
  exact h

theorem mirrors_final {e₀ : Engine} (hsound : Sound m e₀) (hmirrors : Mirrors l e₀)
    (hlength : e₀.histories.length = m.residentSequences) (haudit : ∀ calls, e₀.world.audit calls = none)
    (ops : List Op) (hroom : ∀ earlier later, ops = earlier ++ later → AuditRoom m (final step earlier e₀)) :
    Sound m (final step ops e₀) ∧ Mirrors l (final step ops e₀) ∧
      (Fitting m l → ∀ ev ∈ history step ops e₀, Admitted l ev) := by
  induction ops using List.reverseRecOn with
  | nil => exact ⟨hsound, hmirrors, fun _ ev hev => by simp at hev⟩
  | append_singleton ops op ih =>
    obtain ⟨hsound', hmirrors', hadmitted⟩ := ih fun earlier later h =>
      hroom earlier (later ++ [op]) (by rw [h, List.append_assoc])
    have hkept := kept_final ops e₀
    have hstep := steady_step hsound' hmirrors' op fun _ =>
      (hroom ops [op] rfl).passes (hkept.histories.trans hlength) (hkept.world ▸ haudit)
    rw [final_concat, history_concat]
    refine ⟨hsound'.step op, hstep.toMirrors, fun hfitting ev hev => ?_⟩
    rcases List.mem_append.mp hev with hev | hev
    · exact hadmitted hfitting ev hev
    · obtain rfl := List.mem_singleton.mp hev
      exact hstep.admitted hfitting

/-- The host engine simulates the native one. The record is right whatever is asked; a
    legal call is never refused by a library whose nodes the manifest describes. -/
theorem host_simulates_native {program : String} {inventory : Result String} {nextPool counter : Nat}
    {world : World} {e₀ : Engine}
    (hopen : open_ m program world (l.report inventory) nextPool = .ok (e₀, counter))
    (hbehind : l.Behind world) (haudit : ∀ calls, world.audit calls = none)
    (hcovers : m.sharedPages = true → CoversRanks m) (ops : List Op)
    (hroom : ∀ earlier later, ops = earlier ++ later → AuditRoom m (final step earlier e₀)) :
    InStep l (final step ops e₀) ∧ (Fitting m l → ∀ ev ∈ history step ops e₀, Admitted l ev) := by
  have hopened := opened_of_open hopen
  have hworld : e₀.world = world := (checked_of_open hopen).2
  have hlength : e₀.histories.length = m.residentSequences := by
    rw [hopened.start]
    exact List.length_replicate
  obtain ⟨-, hmirrors, hadmitted⟩ := mirrors_final (opened_sound hopened hcovers)
    (opened_mirrors hopen hbehind) hlength (hworld ▸ haudit) ops hroom
  exact ⟨⟨hmirrors.positions, hmirrors.active⟩, hadmitted⟩

/-! ## A small library -/

/-- One paged state, at logical node 3. -/
def pagedProgram : Execution.Plan where
  context := 4096
  eos := 0
  residentSequences := 2
  prefillTokens := 4096
  uncapturedPrefill := true
  prefillVariants := []
  sharedPages := true
  nodes := [⟨"bf16", "", 3, 0, 64, "latent", "index_cache_append", [], [("page_tokens", "64")]⟩]

def pagedLibrary : Library where
  program := pagedProgram
  bounded := ⟨by decide, by decide, by decide⟩
  ranks := 2
  vocabulary := 8
  device calls := match calls with
    | .batch inputs :: _ => ⟨0, (inputs.filter BatchInput.sample).map fun _ => 0⟩
    | _ => ⟨0, []⟩

def pagedWorld : World := { sampleWorld with answer := pagedLibrary.answer }

/-- State on both ranks. -/
def pagedManifest : Manifest :=
  { sampleManifest with states := [⟨"latent", 3, [0, 1], .pages 2 4 "bf16", 4, .full, none, true⟩] }

def pagedShared : SharedState :=
  { sampleShared with pool := { sampleShared.pool with pools := [
    ⟨⟨"latent", 0⟩, 8, 4, some 2, 4, .full, ExtTreeSet.ofList (List.range 4)⟩,
    ⟨⟨"latent", 1⟩, 8, 4, some 2, 4, .full, ExtTreeSet.ofList (List.range 4)⟩] } }

def pagedEngine : Engine := unopened pagedManifest pagedWorld 4096 (some pagedShared)

def pagedOps : List Op := [.prepareResident 0 2, .token 5 0 true, .batch [⟨0, 1, [5], true⟩], .sealResident 0]

theorem paged_open :
    open_ pagedManifest sampleDigest pagedWorld (pagedLibrary.report (.ok sampleDigest)) 0 =
      .ok (pagedEngine, 1) := by
  rfl

theorem paged_behind : pagedLibrary.Behind pagedWorld := ⟨rfl, rfl, rfl, rfl, rfl, rfl, rfl, rfl⟩

theorem paged_fitting : Fitting pagedManifest pagedLibrary where
  pages := rfl
  describes := {
    ranks := le_rfl
    nodes := by
      intro state hstate pageTokens rowBytes encoding hstorage
      obtain rfl := List.mem_singleton.mp hstate
      cases hstorage
      exact ⟨_, ⟨64, 4096, 0⟩, rfl, by decide +kernel, by decide⟩ }
  works := fun inputs calls => by simp [pagedLibrary]

theorem host_simulates_native_sample :
    InStep pagedLibrary (final step pagedOps pagedEngine) ∧
      ∀ ev ∈ history step pagedOps pagedEngine, Admitted pagedLibrary ev := by
  have hroom : ∀ earlier ∈ pagedOps.inits, AuditRoom pagedManifest (final step earlier pagedEngine) := by
    unfold AuditRoom
    decide +kernel
  obtain ⟨hstep, hadmitted⟩ := host_simulates_native paged_open paged_behind (fun _ => rfl)
    (fun _ rank hrank => ⟨_, List.mem_singleton_self _, by
      have : rank = 0 ∨ rank = 1 := by
        change rank < 2 at hrank
        omega
      rcases this with rfl | rfl <;> decide⟩) pagedOps
    fun earlier later h => hroom earlier ((List.mem_inits _ _).mpr ⟨later, h.symm⟩)
  exact ⟨hstep, hadmitted paged_fitting⟩

/-- A slot that does not exist reaches the library, which refuses it; and with a rank
    that holds no state, a decoded token is not recorded. -/
theorem host_out_of_step :
    open_ pagedManifest sampleDigest pagedWorld (pagedLibrary.report (.ok sampleDigest)) 0 =
      .ok (pagedEngine, 1) ∧
    (step (.selectResident 2) pagedEngine).2.calls = [.selectResident 2] ∧
    ¬pagedLibrary.Accepts [] (.selectResident 2) ∧
    open_ sampleManifest sampleDigest pagedWorld (pagedLibrary.report (.ok sampleDigest)) 0 =
      .ok (unopened sampleManifest pagedWorld 4096 (some sampleShared), 1) ∧
    (let e := final step [.prepareResident 0 2, .token 5 0 true]
      (unopened sampleManifest pagedWorld 4096 (some sampleShared))
    (pagedLibrary.after e.calls).nextPositions = [1, 0] ∧
    (e.histories.map fun h => h.value.tokens) = [0, 0]) := by
  refine ⟨paged_open, ?_, ?_, rfl, ?_⟩ <;> decide +kernel

end Engine

end Inferfabric.Native
