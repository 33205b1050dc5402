-- SUMMARY: Over every run of the engine, each page map takes the host's page lists and puts every position in the row the state pool names.
import IronPangu.Native.PageMap.Handover

open Rust Std

/-!
# The two sides of a page

Whatever is called and however the calls come back, a healthy pool and the page maps
of the ranks name the same rows.
-/

namespace Inferfabric.Native

open Inferfabric.Ir Inferfabric.Runtime
open State (ResidentPages)
open State.ResidentPages (Settled SameLayout Exclusive)

namespace Engine

open Method StatePool

variable {w : Watched} {m : Manifest} {state : State} {page : Nat} {e e' : Engine} {s : SharedState} {slot : Nat}

/-! ## Calls that take and give pages -/

/-- The engine and the map agree. -/
def InAgreement (w : Watched) (e : Engine) : Prop := ∃ s, Carried w none e s

theorem agrees_resetResident (hcovers : w.Covers) (he : Closed e) (h : InAgreement w e) (slot : Nat) :
    InAgreement w (resetResident slot e).2 := by
  obtain ⟨s, hsafe, -⟩ := he
  obtain ⟨s', hcarried⟩ := h
  obtain rfl := Option.some.inj (hcarried.shared.symm.trans hsafe.shared)
  exact carried_resetResident hcovers hsafe hcarried slot

/-- What a call keeps of a sound engine in agreement. -/
theorem triple_agrees {α : Type} {c : Call α} {Q : α → Engine → Prop} (hclosed : Triple Closed c Q Closed)
    (hagrees : ∀ e, Closed e → InAgreement w e → InAgreement w (c e).2) :
    Triple (fun e => Closed e ∧ InAgreement w e) c (fun a e => Q a e ∧ InAgreement w e)
      (fun e => Closed e ∧ InAgreement w e) := by
  rintro e ⟨he, h⟩
  have hpost := hclosed e he
  have hafter := hagrees e he h
  rcases hrun : c e with ⟨_ | _ | _, e'⟩ <;> rw [hrun] at hpost hafter <;> exact ⟨hpost, hafter⟩

theorem triple_carries {α : Type} {c : Call α} (hc : Keeps (Carries w) c) :
    Triple (InAgreement w) c (fun _ => InAgreement w) (InAgreement w) := by
  intro e h
  have hafter := hc e none h
  rcases hrun : c e with ⟨_ | _ | _, e'⟩ <;> rw [hrun] at hafter <;> exact hafter

theorem agrees_keeps {α : Type} {c : Call α} (hc : Keeps (Carries w) c) (e : Engine) (h : InAgreement w e) :
    InAgreement w (c e).2 :=
  hc e none h

/-- A selection that comes back has been followed by the map. -/
theorem agrees_select (hcovers : w.Covers) (hcarried : Carried w none e s) (hselectFn : e.world.selectResidentFn = true)
    (hslot : slot < s.leases.length) :
    Triple (· = e) (selectResident slot)
      (fun _ e' => InAgreement w e' ∧ (w.pages e'.calls).active = slot) (InAgreement w) := by
  have hcalled := hcarried.select slot
  unfold selectResident
  refine triple_get_at ?_
  rw [if_neg (by simp [hselectFn])]
  refine triple_require_at ⟨s, hcarried⟩ fun _ => ?_
  have hforeign : foreign (.selectResident slot) e =
      (.ok (e.world.answer (.selectResident slot :: e.calls)), e.called (.selectResident slot)) := rfl
  refine triple_run_at hforeign ?_
  refine triple_lift_at ⟨s, hcalled⟩ fun _ hstatus => ?_
  rw [check_eq_ok, hcarried.world] at hstatus
  have hrange : slot < (w.pages e.calls).slots.length := (hcarried.slots hcovers).symm ▸ hslot
  obtain ⟨hrun, -⟩ := ResidentPages.select_settled hcarried.settled hrange
  have hpages : w.pages (.selectResident slot :: e.calls) = _ := PageMap.after_answered hstatus hrun
  rintro _ rfl
  refine ⟨⟨s, hcalled.beside rfl rfl rfl⟩, ?_⟩
  show (w.pages (.selectResident slot :: e.calls)).active = slot
  rw [hpages]

theorem agrees_prepareResident (hw : Watches m state page w) (he : Closed e) (h : InAgreement w e) (slot tokens : Nat) :
    Triple (· = e) (prepareResident slot tokens) (fun _ => InAgreement w) (InAgreement w) := by
  obtain ⟨hcovers, -⟩ := hw.slots
  have hreset : Triple (· = e) (resetResident slot) (fun _ e₁ => (Closed e₁ ∧ Blank slot e₁) ∧ InAgreement w e₁)
      (InAgreement w) := by
    refine (triple_agrees (closed_resetResident slot) fun _ he h => agrees_resetResident hcovers he h slot).mono ?_
      (fun _ _ h => h) fun _ h => h.2
    rintro _ rfl
    exact ⟨he, h⟩
  unfold prepareResident
  refine hreset.bind fun _ => triple_at fun e₁ h₁ => ?_
  obtain ⟨⟨he₁, hblank⟩, s₁, hcarried⟩ := h₁
  obtain ⟨s₁', hsafe, -⟩ := id he₁
  obtain rfl := Option.some.inj (hcarried.shared.symm.trans hsafe.shared)
  have hnone := hblank.lease s₁ hcarried.shared
  have hkept : Keeps (Kept (fun _ => True) fun _ => True) (selectResident slot) := keeps_selectResident slot
  -- The map has followed the selection, and the resident is as the reset left it.
  have hselect : Triple (· = e₁) (selectResident slot) (fun _ e₂ => (InAgreement w e₂ ∧ (w.pages e₂.calls).active = slot) ∧
      SameResidents e₁ e₂ ∧ Kept (fun _ => True) (fun _ => True) e₁ e₂) (InAgreement w) := by
    refine ((agrees_select hcovers hcarried hsafe.symbols.2.1 (List.getElem?_eq_some_iff.mp hnone).1).and
      (((same_selectResident slot).triple e₁).and (hkept.triple e₁))).mono ?_ (fun _ _ h => h) fun _ h => h.1
    rintro _ rfl
    exact ⟨rfl, Steps.refl _, Steps.refl _⟩
  refine hselect.bind fun _ => triple_at fun e₂ h₂ => ?_
  obtain ⟨⟨⟨s₂, hcarried₂⟩, hactive⟩, hsame, hkept⟩ := h₂
  have hshared : e₂.shared = some s₁ := hsame.shared.trans hcarried.shared
  obtain rfl := Option.some.inj (hshared.symm.trans hcarried₂.shared)
  refine triple_get_at ?_
  rw [hshared]
  exact carried_prepareShared hw hcarried₂ (hkept.world ▸ hsafe.symbols.1) hactive hnone tokens

theorem agrees_releaseResident (hcovers : w.Covers) (he : Closed e) (h : InAgreement w e) (slot : Nat) :
    InAgreement w (releaseResident slot e).2 := by
  have hrelease : releaseResident slot e = resetResident slot e := by
    rw [releaseResident, bind_ok (get_run e), if_pos he.isSome]
  rw [hrelease]
  exact agrees_resetResident hcovers he h slot

theorem agrees_reset (hcovers : w.Covers) (he : Closed e) (h : InAgreement w e) : InAgreement w (reset e).2 := by
  have hshared : e.shared.isSome = true := he.isSome
  suffices htriple : Triple (· = e) reset (fun _ => InAgreement w) (InAgreement w) from htriple.final rfl
  unfold reset
  refine triple_require_at h fun _ => ?_
  refine triple_get_at ?_
  split
  · rename_i hnone
    rw [hnone] at hshared
    cases hshared
  · rename_i s hsome
    have hloop : Triple (fun e => Closed e ∧ InAgreement w e)
        (Method.forEach (List.range s.leases.length) resetResident)
        (fun _ e => Closed e ∧ InAgreement w e) (fun e => Closed e ∧ InAgreement w e) := by
      refine triple_forEach fun slot _ => ?_
      exact (triple_agrees (closed_resetResident slot) fun _ he h => agrees_resetResident hcovers he h slot).post
        fun _ _ h => ⟨h.1.1, h.2⟩
    have hfirst : Triple (· = e) (Method.forEach (List.range s.leases.length) resetResident)
        (fun _ e => InAgreement w e) (InAgreement w) := by
      refine hloop.mono ?_ (fun _ _ h => h.2) fun _ h => h.2
      rintro _ rfl
      exact ⟨he, h⟩
    exact hfirst.bind fun _ => triple_carries (carries_selectResident 0)

theorem agrees_retireSnapshot (hcovers : w.Covers) (he : Closed e) (h : InAgreement w e) (snapshot : Snapshot) :
    InAgreement w (retireSnapshot snapshot e).2 := by
  obtain ⟨s, hsafe, hclosed⟩ := id he
  suffices htriple : Triple (· = e) (retireSnapshot snapshot) (fun _ => InAgreement w) (InAgreement w) from
    htriple.final rfl
  unfold retireSnapshot
  refine triple_read_at h fun _ hsnapshot => ?_
  have hbound : snapshot.slot < e.sealedLeases.length := by
    rw [checkSnapshot] at hsnapshot
    split at hsnapshot
    · cases hsnapshot
    · exact (List.getElem?_eq_some_iff.mp (not_not.mp ‹_›)).1
  refine triple_read_at h fun _ _ => ?_
  refine triple_lift_at h fun _ _ => ?_
  refine triple_lift_at h fun _ _ => ?_
  refine triple_run_at (setSealed_run hbound) ?_
  -- The seal is taken out, and the resident reset like any other.
  let e₁ : Engine := { e with sealedLeases := e.sealedLeases.set snapshot.slot none }
  have he₁ : Closed e₁ := ⟨s, hsafe.setSeal (fun _ h => by cases h), hclosed⟩
  have h₁ : InAgreement w e₁ := by
    obtain ⟨s', hcarried⟩ := h
    exact ⟨s', hcarried.beside rfl rfl rfl⟩
  have hreset : Triple (· = e₁) (attempt (resetResident snapshot.slot)) (fun _ => InAgreement w) (InAgreement w) := by
    rintro _ rfl
    have hafter := agrees_resetResident hcovers he₁ h₁ snapshot.slot
    unfold attempt
    rcases hrun : resetResident snapshot.slot e₁ with ⟨_ | _ | _, e₂⟩ <;> rw [hrun] at hafter <;> exact hafter
  have hrefused : ∀ status : Result Unit, Keeps (Carries w) (do
      ifShared StatePool.poison
      setSealed snapshot.slot (some snapshot.lease)
      Method.lift status : Call Unit) := fun status =>
    carries_ifShared_poison.bind fun _ => (carries_setSealed _ _).bind fun _ => keeps_lift _
  refine hreset.bind fun status => ?_
  split
  · exact triple_pure () fun _ h => h
  · exact triple_carries (hrefused _)

/-! ## Runs -/

/-- Pages bound outside any reservation are not the host's to know. -/
def Op.bindsPages : Op → Bool
  | .bindPages .. => true
  | _ => false

theorem agrees_step (hw : Watches m state page w) (he : Closed e) (h : InAgreement w e) (op : Op)
    (hop : op.bindsPages = false) : InAgreement w (step op e).2 := by
  obtain ⟨hcovers, -⟩ := hw.slots
  cases op with
  | token value position sample =>
    rw [step, after_return]
    exact agrees_keeps (carries_token value position sample) e h
  | prefill tokens position sample =>
    rw [step, after_return]
    exact agrees_keeps (carries_prefill tokens position sample) e h
  | batch inputs =>
    rw [step, after_return]
    exact agrees_keeps (carries_batch inputs) e h
  | selectResident slot =>
    rw [step, after_return]
    exact agrees_keeps (carries_selectResident slot) e h
  | reset =>
    rw [step, after_return]
    exact agrees_reset hcovers he h
  | resetResident slot =>
    rw [step, after_return]
    exact agrees_resetResident hcovers he h slot
  | releaseResident slot =>
    rw [step, after_return]
    exact agrees_releaseResident hcovers he h slot
  | prepareResident slot tokens =>
    rw [step, after_return]
    exact (agrees_prepareResident hw he h slot tokens).final rfl
  | copyResident source destination boundary =>
    rw [step, after_return]
    exact agrees_keeps (carries_copyResident source destination boundary) e h
  | sealResident slot =>
    rw [step, after_return]
    exact agrees_keeps (carries_sealResident slot) e h
  | restoreSnapshot snapshot destination =>
    rw [step, after_return]
    exact agrees_keeps (carries_restoreSnapshot snapshot destination) e h
  | retireSnapshot snapshot =>
    rw [step, after_return]
    exact agrees_retireSnapshot hcovers he h snapshot
  | bindPages rank component pages => cases hop

theorem agrees_final (hw : Watches m state page w) (he : Closed e) (h : InAgreement w e) {ops : List Op}
    (hops : ∀ op ∈ ops, op.bindsPages = false) : InAgreement w (final step ops e) := by
  induction ops generalizing e with
  | nil => exact h
  | cons op ops ih =>
    obtain ⟨hop, hops⟩ := List.forall_mem_cons.mp hops
    rw [final_cons]
    exact ih (stepped_step he op).closed (agrees_step hw he h op hop) hops

/-! ## Rows -/

/-- The row a position of a paged state is appended at: rings take it around. -/
def appended (r : ResidentPages) (ring : Bool) (slot position : Nat) : Outcome String Nat :=
  r.append slot (if ring then position % r.logicalTokens else position)

/-- The state pool, the append and the block table put a position in one row. -/
def SameRow (state : State) (page rank : Nat) (s : SharedState) (r : ResidentPages) (slot : Nat) (l : Lease)
    (position : Nat) : Prop :=
  ∃ address, s.pool.pageAddress 1 l state.id rank position = .ok address ∧
    appended r (!state.retention.isFull) slot position = .ok (address.physicalPage * page + address.rowInPage) ∧
    ∀ entries row, r.table slot entries (!state.retention.isFull) = .ok row → position / page < entries →
      row[position / page]? = some (address.physicalPage : Int)

theorem epoch_of_new {nextPool counter : Nat} (h : SharedState.new m nextPool = .ok (s, counter)) : s.pool.epoch = 1 := by
  simp only [SharedState.new, Outcome.bind_eq_ok] at h
  obtain ⟨budgets, -, ⟨pool, nextPool'⟩, hpool, h⟩ := h
  obtain ⟨rfl, -⟩ := Prod.mk.inj (Outcome.ok.inj h)
  simp only [StatePool.new, Outcome.check_bind_eq_ok] at hpool
  obtain ⟨-, hpool⟩ := hpool
  split at hpool
  · cases hpool
  obtain ⟨pools, -, hpool⟩ := Outcome.bind_eq_ok.mp hpool
  split at hpool
  · cases hpool
  split at hpool
  · cases hpool
  obtain ⟨context, -, hpool⟩ := Outcome.bind_eq_ok.mp hpool
  obtain ⟨rfl, -⟩ := Prod.mk.inj (Outcome.ok.inj hpool)
  rfl

theorem live_of_kept {nextPool counter : Nat} {s₀ : SharedState} (hnew : SharedState.new m nextPool = .ok (s₀, counter))
    (hkept : SharedKept s₀ s) (hhealthy : s.pool.poisoned = false) : s.pool.Live 1 := by
  obtain ⟨budgets, -, hfresh, -⟩ := SharedState.new_eq_ok hnew
  obtain ⟨ops, hpool⟩ := hkept.pool
  refine ⟨hhealthy, ?_⟩
  rw [hpool, (frame_final hfresh.linked ops).epoch, epoch_of_new hnew]

/-- A resident's lease is located in the pool of the map. -/
theorem Watches.located {l : Lease} {limit : Nat} (hw : Watches m state page w) (h : Carried w none e s)
    (hsafe : SafeWith e s) (hhealthy : s.pool.poisoned = false) (hlease : s.leases[slot]? = some (some l))
    (hlimit : s.tokenLimits[slot]? = some limit) :
    ∃ a p b rowBytes, Located s.pool 1 l a w.index p b page rowBytes ∧ PagedPool m state page w.map.rank p ∧
      a.tokenLimit = limit ∧ (w.pages e.calls).sharedPages[slot]? = some (b.units.map Int.ofNat) := by
  obtain ⟨nextPool, counter, hnew⟩ := hw.start
  obtain ⟨a, b, halloc, hretired, hb, hpages⟩ := (h.holding hhealthy).held hlease
  have htokens : a.tokenLimit = limit := by
    obtain ⟨limit', hlimit', -, a', halloc', -, heq⟩ := hsafe.held hlease
    obtain rfl := Option.some.inj (hlimit.symm.trans hlimit')
    obtain rfl := Option.some.inj (halloc.symm.trans halloc')
    exact heq
  obtain ⟨p, b', hr⟩ := hw.reservation h.kept halloc
  obtain ⟨budgets, -, hfresh, -⟩ := SharedState.new_eq_ok hnew
  obtain ⟨ops, hpool⟩ := id h.kept.pool
  obtain ⟨rowBytes, encoding, hstorage⟩ := id hw.paged
  obtain ⟨b₁, hlocated⟩ : ∃ b₁, Located s.pool 1 l a w.index p b₁ page rowBytes := by
    have hlive := live_of_kept hnew h.kept hhealthy
    have hp := hr.pool
    rw [hpool] at hlive halloc hp ⊢
    exact hfresh.located ops hw.member hstorage hlive halloc hretired hp hr.paged.toPoolFor
  obtain rfl := Option.some.inj (hb.symm.trans hlocated.binding)
  exact ⟨a, p, b, rowBytes, hlocated, hr.paged, htokens, hpages fun h => by cases h⟩

theorem Watches.sameRow {l : Lease} {limit position : Nat} (hw : Watches m state page w) (h : Carried w none e s)
    (hsafe : SafeWith e s) (hhealthy : s.pool.poisoned = false) (hlease : s.leases[slot]? = some (some l))
    (hlimit : s.tokenLimits[slot]? = some limit) (hlt : position < limit) :
    SameRow state page w.map.rank s (w.pages e.calls) slot l position := by
  obtain ⟨-, -, hpagesPerSlot, hpageTokens, hlogical⟩ := hw.slots
  obtain ⟨a, p, b, rowBytes, hlocated, hpaged, htokens, hreserved⟩ := hw.located h hsafe hhealthy hlease hlimit
  have hposition : position < a.tokenLimit := htokens.symm ▸ hlt
  obtain ⟨physicalPage, hunit, haddress⟩ := hlocated.address_of_lt hposition
  rw [hpaged.key] at haddress
  have hmax := hpaged.maxTokens
  have hentry : (b.units.map Int.ofNat)[rowOf p position / page]? = some (physicalPage : Int) := by
    rw [List.getElem?_map, hunit]
    rfl
  have hrow : rowOf p position < state.capacityTokens := by
    rw [rowOf, hmax]
    split
    · rw [← hmax]
      exact hposition.trans_le (hlocated.fits.full ‹_›)
    · exact Nat.mod_lt _ hpaged.capacityPos
  have hpageTokens : (w.pages e.calls).pageTokens = page := h.layout.pageTokens.trans hpageTokens
  have hlogical : (w.pages e.calls).logicalTokens = state.capacityTokens := h.layout.logicalTokens.trans hlogical
  refine ⟨_, haddress, ?_, fun entries row htable hentries => ?_⟩
  · have hring : (if (!state.retention.isFull) = true then position % (w.pages e.calls).logicalTokens else position) =
        rowOf p position := by
      rw [hlogical, rowOf, hpaged.retention, hmax]
      cases state.retention.isFull <;> rfl
    rw [appended, hring, h.settled.append_eq hreserved (hlogical.symm ▸ hrow) (hpageTokens.symm ▸ hentry), hpageTokens,
      rowOf_mod hlocated.dvd, Int.toNat_natCast]
  · have hordinal : (w.pages e.calls).ordinal (!state.retention.isFull) (position / page) = rowOf p position / page := by
      rw [ResidentPages.ordinal, h.layout.pagesPerSlot, hpagesPerSlot, rowOf, hpaged.retention, hmax]
      cases state.retention.isFull
      · exact (Paging.page_of_wrapped hpaged.dvd position).symm
      · rfl
    exact h.settled.table_eq hreserved htable hentries (hordinal.symm ▸ hentry)

/-! ## Agreement -/

/-- What preparation leaves on every rank: a map for each paged state, on a node of its own. -/
structure Prepared (m : Manifest) : Prop where
  maps : ∀ state ∈ m.states, ∀ page, Paged state page →
    ∃ r, ResidentPages.new page state.capacityTokens m.residentSequences true = .ok r
  alone : ∀ state₁ ∈ m.states, ∀ state₂ ∈ m.states, ∀ page₁ page₂, Paged state₁ page₁ → Paged state₂ page₂ →
    state₁.logicalNode = state₂.logicalNode → state₁ = state₂

def mapOf (state : State) (rank : Nat) : PageMap := ⟨rank, state.logicalNode, state.id⟩

/-- The map of a paged state on one rank, beside the engine. -/
structure MapAgrees (state : State) (page rank : Nat) (r : ResidentPages) (e : Engine) : Prop where
  separated : ((mapOf state rank).after e.world r e.calls).Separated
  /-- Every release and every page list that reached the map was taken. -/
  unrefused : (mapOf state rank).Unrefused e.world r e.calls
  vacant : ∀ {s : SharedState} {slot : Nat}, e.shared = some s → s.pool.poisoned = false → s.leases[slot]? = some none →
    ((mapOf state rank).after e.world r e.calls).sharedPages[slot]? = some []
  rows : ∀ {s : SharedState} {slot limit : Nat} {l : Lease}, e.shared = some s → s.pool.poisoned = false →
    s.leases[slot]? = some (some l) → s.tokenLimits[slot]? = some limit → ∀ position < limit,
      SameRow state page rank s ((mapOf state rank).after e.world r e.calls) slot l position

/-- The map as preparation has left it, beside an engine that was opened just now. -/
theorem agrees_opened {rank : Nat} {r : ResidentPages} (hopened : Opened m e) (hpages : m.sharedPages = true) (hprepared : Prepared m)
    (hstate : state ∈ m.states) (hpaged : Paged state page) (hrank : rank ∈ state.ranks)
    (hr : ResidentPages.new page state.capacityTokens m.residentSequences true = .ok r) :
    ∃ w, Watches m state page w ∧ w.map = mapOf state rank ∧ w.world = e.world ∧ w.initial = r.releasePreparation ∧
      InAgreement w e := by
  obtain ⟨s, nextPool, counter, hshared, hnew, -⟩ := hopened.shared hpages
  obtain ⟨budgets, -, hfresh, hleases, -⟩ := SharedState.new_eq_ok hnew
  obtain ⟨i, p, hp, hfor⟩ := hfresh.pool_for [] hstate hrank
  rw [final_nil] at hp
  let w : Watched := ⟨mapOf state rank, e.world, s, r.releasePreparation, i⟩
  have hw : Watches m state page w := {
    start := ⟨nextPool, counter, hnew⟩
    member := hstate
    rank := hrank
    paged := hpaged
    node := rfl
    alone := hprepared.alone
    initial := ⟨r, hr, rfl⟩
    index := ⟨p, hp, hfor.key⟩
    tables := fun state' hstate' page' hpaged' => by
      obtain ⟨r', hr'⟩ := hprepared.maps state' hstate' page' hpaged'
      obtain ⟨-, -, -, -, hcount, hle⟩ := ResidentPages.new_settled hr'
      exact hcount ▸ hle }
  obtain ⟨hsettled, hslots, -⟩ := ResidentPages.new_settled hr
  obtain ⟨hreleased, hlayout, hempty⟩ := ResidentPages.releasePreparation_settled hsettled
  have hcalls : e.calls = [] := by
    rw [hopened.start]
    rfl
  have hnone : ∀ {slot : Nat} {l : Lease}, s.leases[slot]? ≠ some (some l) := by
    intro slot l hlease
    rw [hleases, List.getElem?_replicate] at hlease
    split at hlease <;> cases hlease
  refine ⟨w, hw, rfl, rfl, rfl, s, ?_⟩
  have hinitial : w.pages e.calls = r.releasePreparation := by
    rw [hcalls]
    rfl
  exact {
    shared := hshared
    world := rfl
    kept := .refl s
    linked := hfresh.linked
    settled := hinitial ▸ hreleased
    layout := hinitial ▸ .refl _
    unrefused := hcalls ▸ trivial
    holding := fun _ => {
      held := fun hlease => absurd hlease hnone
      free := fun {slot} hfree => by
        have hlease := hfree.resolve_right fun h => by cases h
        have hslot := (List.getElem?_eq_some_iff.mp hlease).1
        rw [hleases, List.length_replicate] at hslot
        rw [hinitial]
        exact hempty slot (hslots.symm ▸ hslot)
      distinct := fun hlease => absurd hlease hnone } }

/-- Whatever is called, and however the calls come back, no map refuses what the host
    gives it, and a healthy pool and the maps name the same rows. -/
theorem page_maps_agree {rank : Nat} {r : ResidentPages} (hopened : Opened m e) (hpages : m.sharedPages = true)
    (hprepared : Prepared m) (hstate : state ∈ m.states) (hpaged : Paged state page) (hrank : rank ∈ state.ranks)
    (hr : ResidentPages.new page state.capacityTokens m.residentSequences true = .ok r) {ops : List Op}
    (hops : ∀ op ∈ ops, op.bindsPages = false) : MapAgrees state page rank r.releasePreparation (final step ops e) := by
  obtain ⟨w, hw, hmap, hworld, hinitial, hagrees⟩ := agrees_opened hopened hpages hprepared hstate hpaged hrank hr
  obtain ⟨s, hcarried⟩ := agrees_final hw (hopened.closed hpages) hagrees hops
  obtain ⟨s', hsafe, -⟩ := closed_final (hopened.closed hpages) ops
  obtain rfl := Option.some.inj (hcarried.shared.symm.trans hsafe.shared)
  have hpagesAfter : (mapOf state rank).after (final step ops e).world r.releasePreparation (final step ops e).calls =
      w.pages (final step ops e).calls := by
    rw [Watched.pages, hmap, hinitial, hcarried.world]
  refine ⟨?_, ?_, ?_, ?_⟩
  · rw [hpagesAfter]
    exact hcarried.settled.toExclusive.separated
  · have hunrefused := hcarried.unrefused
    rwa [hmap, hinitial, ← hcarried.world] at hunrefused
  · intro s' slot hs' hhealthy hnone
    obtain rfl := Option.some.inj (hcarried.shared.symm.trans hs')
    rw [hpagesAfter]
    exact (hcarried.holding hhealthy).free (.inl hnone)
  · intro s' slot limit l hs' hhealthy hlease hlimit position hlt
    obtain rfl := Option.some.inj (hcarried.shared.symm.trans hs')
    rw [hpagesAfter]
    have hrow := hw.sameRow hcarried hsafe hhealthy hlease hlimit hlt
    rwa [hmap] at hrow

/-- The first resident gives its page back, and the second takes it along with its own. -/
def sampleOps : List Op :=
  [.prepareResident 0 2, .token 5 0 true, .prepareResident 1 2, .releaseResident 0, .prepareResident 1 4]

def sampleLatent : State := ⟨"latent", 3, [0], .pages 2 4 "bf16", 4, .full, none, true⟩

theorem sample_prepared : Prepared sampleManifest where
  maps := by
    intro state hstate page hpaged
    obtain rfl := List.mem_singleton.mp hstate
    obtain ⟨rowBytes, encoding, hstorage⟩ := hpaged
    obtain ⟨rfl, -⟩ := Storage.pages.inj hstorage
    exact ⟨_, rfl⟩
  alone := by
    intro state₁ hstate₁ state₂ hstate₂ _ _ _ _ _
    exact (List.mem_singleton.mp hstate₁).trans (List.mem_singleton.mp hstate₂).symm

theorem page_maps_agree_sample : ∃ r, ResidentPages.new 2 4 2 true = .ok r ∧
    ((mapOf sampleLatent 0).after sampleWorld r.releasePreparation (final step sampleOps sampleEngine).calls).sharedPages =
      [[], [0, 1]] ∧
    MapAgrees sampleLatent 2 0 r.releasePreparation (final step sampleOps sampleEngine) :=
  ⟨_, rfl, by decide +kernel, page_maps_agree (opened_of_open sample_open) rfl sample_prepared (List.mem_singleton.mpr rfl)
    ⟨4, "bf16", rfl⟩ (by decide) rfl (by decide)⟩

end Engine

end Inferfabric.Native
