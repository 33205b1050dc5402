-- SUMMARY: When a page map holds the reservations of the host's state pool, and the engine calls that leave it so without touching it.
import IronPangu.Native.Engine.FailClosed
import IronPangu.Native.PageMap

open Rust Std

/-!
# Reservations in step

The host's leases and the map's slots are two records of the same pages. They are in
step while the pool is healthy; a call that fails on the ranks poisons the pool, and
nothing runs on the maps again.
-/

namespace Inferfabric.Native

open Inferfabric.Ir Inferfabric.Runtime
open State (ResidentPages)
open State.ResidentPages (Settled SameLayout)

namespace Engine

open Method StatePool

/-- One map beside a run: what the two sides have started with, and the place of the
    map's state among the pools. -/
structure Watched where
  map : PageMap
  world : World
  start : SharedState
  initial : ResidentPages
  index : Nat

/-- The map of an engine. -/
def Watched.pages (w : Watched) (calls : List Foreign) : ResidentPages := w.map.after w.world w.initial calls

/-- Every resident's slot has the pages its lease is bound to; a pending one has its
    lease already, but none of the pages yet. -/
structure Holding (index : Nat) (pending : Option Nat) (s : SharedState) (r : ResidentPages) : Prop where
  held : ∀ {slot : Nat} {l : Lease}, s.leases[slot]? = some (some l) → ∃ (a : Allocation) (b : Binding),
    s.pool.allocations[l]? = some a ∧ a.retired = false ∧ a.bindings[index]? = some b ∧
      (pending ≠ some slot → r.sharedPages[slot]? = some (b.units.map Int.ofNat))
  free : ∀ {slot : Nat}, s.leases[slot]? = some none ∨ pending = some slot → r.sharedPages[slot]? = some []
  distinct : ∀ {slot slot' : Nat} {l : Lease}, s.leases[slot]? = some (some l) →
    s.leases[slot']? = some (some l) → slot = slot'

/-- The engine and the map, at any point of a run. -/
structure Carried (w : Watched) (pending : Option Nat) (e : Engine) (s : SharedState) : Prop where
  shared : e.shared = some s
  world : e.world = w.world
  kept : SharedKept w.start s
  linked : Linked s.pool
  settled : Settled (w.pages e.calls)
  layout : SameLayout w.initial (w.pages e.calls)
  unrefused : w.map.Unrefused w.world w.initial e.calls
  holding : s.pool.poisoned = false → Holding w.index pending s (w.pages e.calls)

/-- What carries the agreement on. -/
def Carries (w : Watched) (e e' : Engine) : Prop :=
  ∀ pending, (∃ s, Carried w pending e s) → ∃ s, Carried w pending e' s

variable {w : Watched} {pending : Option Nat} {e e' : Engine} {s s' : SharedState} {slot : Nat}

instance : Steps (Carries w) := ⟨fun _ _ h => h, fun h h' pending he => h' pending (h pending he)⟩

/-! ## Parts of the engine -/

/-- Changes beside the maps and the pool. -/
theorem Carried.beside (h : Carried w pending e s) (hworld : e'.world = e.world) (hcalls : e'.calls = e.calls)
    (hshared : e'.shared = e.shared) : Carried w pending e' s where
  shared := hshared.trans h.shared
  world := hworld.trans h.world
  kept := h.kept
  linked := h.linked
  settled := hcalls ▸ h.settled
  layout := hcalls ▸ h.layout
  unrefused := hcalls ▸ h.unrefused
  holding := hcalls ▸ h.holding

theorem carries_beside {f : Engine → Engine} (hworld : ∀ e, (f e).world = e.world) (hcalls : ∀ e, (f e).calls = e.calls)
    (hshared : ∀ e, (f e).shared = e.shared) : Keeps (Carries w) (Method.modify f : Call Unit) := by
  apply keeps_modify
  rintro e pending ⟨s, hs⟩
  exact ⟨s, hs.beside (hworld e) (hcalls e) (hshared e)⟩

/-- A call that does not concern the map. -/
theorem Carried.skip {call : Foreign} (h : Carried w pending e s) (hrun : w.map.run call = Pure.pure ()) :
    Carried w pending (e.called call) s := by
  have hsame : w.pages (e.called call).calls = w.pages e.calls := PageMap.after_skip hrun
  exact ⟨h.shared, h.world, h.kept, h.linked, hsame ▸ h.settled, hsame ▸ h.layout,
    ⟨fun _ => by rw [hrun]; rfl, h.unrefused⟩, hsame ▸ h.holding⟩

theorem carries_foreign {call : Foreign} (hrun : w.map.run call = Pure.pure ()) : Keeps (Carries w) (foreign call) := by
  rintro e pending ⟨s, hs⟩
  exact ⟨s, hs.skip hrun⟩

/-- A move of the map that leaves its pages where they are. -/
theorem Carried.moved {call : Foreign} (h : Carried w pending e s) (hquiet : PageMap.reassigns call = false)
    (hsettled : Settled (w.pages (call :: e.calls)))
    (hlayout : SameLayout (w.pages e.calls) (w.pages (call :: e.calls)))
    (hpages : (w.pages (call :: e.calls)).sharedPages = (w.pages e.calls).sharedPages) :
    Carried w pending (e.called call) s where
  shared := h.shared
  world := h.world
  kept := h.kept
  linked := h.linked
  settled := hsettled
  layout := h.layout.trans hlayout
  unrefused := ⟨fun hno => absurd (hquiet.symm.trans hno) Bool.false_ne_true, h.unrefused⟩
  holding hhealthy := by
    obtain ⟨hheld, hfree, hdistinct⟩ := h.holding hhealthy
    have hcalls : (w.pages (e.called call).calls).sharedPages = (w.pages e.calls).sharedPages := hpages
    refine ⟨fun hlease => ?_, fun hnone => by rw [hcalls]; exact hfree hnone, hdistinct⟩
    rw [hcalls]
    exact hheld hlease

/-- Another slot is active, and no pages move. -/
theorem Carried.select (h : Carried w pending e s) (slot : Nat) : Carried w pending (e.called (.selectResident slot)) s := by
  by_cases hstatus : (w.world.answer (.selectResident slot :: e.calls)).status = 0
  · by_cases hslot : slot < (w.pages e.calls).slots.length
    · obtain ⟨hrun, hsettled⟩ := ResidentPages.select_settled h.settled hslot
      have hpages : w.pages (.selectResident slot :: e.calls) = _ := PageMap.after_answered hstatus hrun
      refine h.moved rfl ?_ ?_ ?_ <;> rw [hpages]
      · exact hsettled
      · exact ⟨rfl, rfl, rfl, rfl⟩
    · have hpages : w.pages (.selectResident slot :: e.calls) = w.pages e.calls :=
        PageMap.after_answered hstatus (ResidentPages.select_refused hslot)
      refine h.moved rfl ?_ ?_ ?_ <;> rw [hpages]
      · exact h.settled
      · exact .refl _
  · have hpages : w.pages (.selectResident slot :: e.calls) = w.pages e.calls := PageMap.after_refused hstatus
    refine h.moved rfl ?_ ?_ ?_ <;> rw [hpages]
    · exact h.settled
    · exact .refl _

theorem carries_selectForeign (slot : Nat) : Keeps (Carries w) (foreign (.selectResident slot)) := by
  rintro e pending ⟨s, hs⟩
  exact ⟨s, hs.select slot⟩

/-! ## The pool -/

/-- An accepted operation of the pool that retires nothing. -/
theorem Holding.accepted {p : StatePool} {op : Runtime.Op} {reply : Runtime.Reply} {r : ResidentPages}
    (hin : Holding w.index pending s r) (hlinked : Linked s.pool) (h : Accepted s.pool op reply p)
    (hop : ∀ epoch l, op ≠ .retire epoch l) : Holding w.index pending { s with pool := p } r where
  held := fun {slot l} hlease => by
    obtain ⟨a, b, halloc, hretired, hb, hpages⟩ := hin.held hlease
    obtain ⟨a', halloc', hretired', hfixed, -⟩ := h.kept hlinked (fun epoch => hop epoch l) halloc hretired
    exact ⟨a', b, halloc', hretired', Allocation.bindings_of_fixed hfixed ▸ hb, hpages⟩
  free := hin.free
  distinct := hin.distinct

theorem Carried.accepted {p : StatePool} {op : Runtime.Op} {reply : Runtime.Reply} (h : Carried w pending e s)
    (hp : p = final StatePool.step [op] s.pool) (haccepted : Accepted s.pool op reply p)
    (hop : ∀ epoch l, op ≠ .retire epoch l) :
    Carried w pending { e with shared := some { s with pool := p } } { s with pool := p } where
  shared := rfl
  world := h.world
  kept := h.kept.trans ⟨⟨[op], hp⟩, rfl, rfl, rfl, rfl, rfl⟩
  linked := haccepted.linked h.linked
  settled := h.settled
  layout := h.layout
  unrefused := h.unrefused
  holding hhealthy := by
    have hbefore : s.pool.poisoned = false := by
      rw [← Bool.not_eq_true]
      intro hpoisoned
      rw [haccepted.frame.poisoned hpoisoned] at hhealthy
      cases hhealthy
    exact (h.holding hbefore).accepted h.linked haccepted hop

theorem carries_onPool {α : Type} {c : Method StatePool Error α} (op : Runtime.Op) (wrap : α → Runtime.Reply)
    (hcall : IsCall c op wrap) (hop : ∀ epoch l, op ≠ .retire epoch l) : Keeps (Carries w) (onPool c) := by
  rintro e pending ⟨s, h⟩
  have hafter := hcall.after s.pool
  have hrun : (onPool c e).2 = { e with shared := some { s with pool := (c s.pool).2 } } := by
    simp only [onPool, h.shared]
  rw [hrun]
  rw [final_cons, final_nil] at hafter
  rcases step_cases h.linked op with ⟨error, hstep⟩ | ⟨reply, t, hstep, haccepted⟩
  · refine ⟨s, h.beside rfl rfl ?_⟩
    rw [hafter, hstep, h.shared]
  · rw [hafter, hstep]
    refine ⟨_, h.accepted ?_ haccepted hop⟩
    rw [final_cons, final_nil, hstep]

theorem carries_poison : Keeps (Carries w) (onPool StatePool.poison) :=
  carries_onPool .poison (fun _ => .done) rfl fun _ _ h => by cases h

theorem carries_ifShared_poison : Keeps (Carries w) (ifShared StatePool.poison) := by
  unfold ifShared
  refine keeps_get.bind fun e => ?_
  split
  · exact carries_poison
  · exact keeps_pure ()

/-! ## Calls that leave the maps alone -/

theorem carries_setHistory (slot : Nat) (history : CompletedHistory) : Keeps (Carries w) (setHistory slot history) := by
  unfold setHistory
  exact (keeps_read _).bind fun _ => carries_beside (fun _ => rfl) (fun _ => rfl) fun _ => rfl

theorem carries_setImported (slot tokens : Nat) : Keeps (Carries w) (setImported slot tokens) := by
  unfold setImported
  exact (keeps_read _).bind fun _ => carries_beside (fun _ => rfl) (fun _ => rfl) fun _ => rfl

theorem carries_setSealed (slot : Nat) (value : Option SealedLease) : Keeps (Carries w) (setSealed slot value) := by
  unfold setSealed
  exact (keeps_read _).bind fun _ => carries_beside (fun _ => rfl) (fun _ => rfl) fun _ => rfl

theorem carries_appendCompleted (slot : Nat) (variant : Variant) (position count : Nat) :
    Keeps (Carries w) (appendCompleted slot variant position count) := by
  unfold appendCompleted
  refine (keeps_read _).bind fun history => ?_
  refine Keeps.bind (carries_beside ?_ ?_ ?_) fun _ => keeps_lift _ <;> exact fun _ => rfl

theorem carries_submit (leases : List Lease) (reads : List Borrow) :
    Keeps (Carries w) (onPool (StatePool.submit 1 leases reads)) :=
  carries_onPool (.submit 1 leases reads) .ticket rfl fun _ _ h => by cases h

theorem carries_release (read : Borrow) : Keeps (Carries w) (onPool (StatePool.release 1 read)) :=
  carries_onPool (.release 1 read) (fun _ => .done) rfl fun _ _ h => by cases h

theorem carries_beginInvocation (position count : Nat) : Keeps (Carries w) (beginInvocation position count) := by
  unfold beginInvocation
  refine keeps_get.bind fun e => ?_
  split
  · exact keeps_pure none
  · refine (keeps_lift _).bind fun lease => ?_
    refine (keeps_lift _).bind fun limit => ?_
    refine (keeps_require _ _).bind fun _ => ?_
    exact (carries_submit _ _).bind fun ticket => keeps_pure _

theorem carries_finishInvocation (ticket : Option Ticket) (answer : Answer) :
    Keeps (Carries w) (finishInvocation ticket answer) := by
  unfold finishInvocation
  refine keeps_get.bind fun e => ?_
  split
  · exact keeps_lift _
  · cases ticket with
    | none => exact keeps_pure ()
    | some ticket =>
      refine Keeps.forEach (fun rank => ?_) _
      exact carries_onPool (.complete 1 ticket rank) (fun _ => .done) rfl fun _ _ h => by cases h
  · exact carries_poison.bind fun _ => keeps_lift _

theorem carries_token (value position : Nat) (sample : Bool) : Keeps (Carries w) (token value position sample) := by
  unfold token
  refine keeps_get.bind fun e => ?_
  refine (keeps_lift _).bind fun history => ?_
  refine (keeps_lift _).bind fun variant => ?_
  refine Keeps.bind (keeps_lift _) fun _ => ?_
  refine (carries_beginInvocation _ _).bind fun ticket => ?_
  refine (carries_foreign rfl).bind fun answer => ?_
  refine (carries_finishInvocation _ _).bind fun _ => ?_
  exact (carries_appendCompleted _ _ _ _).bind fun _ => keeps_pure _

theorem carries_prefill (tokens : List Nat) (position : Nat) (sample : Bool) :
    Keeps (Carries w) (prefill tokens position sample) := by
  unfold prefill
  refine (keeps_lift _).bind fun count => ?_
  refine keeps_get.bind fun e => ?_
  split
  · exact keeps_fail _
  refine (keeps_lift _).bind fun variant => ?_
  refine (keeps_lift _).bind fun history => ?_
  refine Keeps.bind (keeps_lift _) fun _ => ?_
  refine (keeps_require _ _).bind fun _ => ?_
  refine (carries_beginInvocation _ _).bind fun ticket => ?_
  refine (carries_foreign rfl).bind fun answer => ?_
  refine (carries_finishInvocation _ _).bind fun _ => ?_
  exact (carries_appendCompleted _ _ _ _).bind fun _ => keeps_pure _

theorem carries_submitBatch (inputs : List BatchInput) : Keeps (Carries w) (submitBatch inputs) := by
  unfold submitBatch
  refine keeps_get.bind fun e => ?_
  split
  · exact keeps_pure none
  · refine (keeps_lift _).bind fun leases => ?_
    exact (carries_submit _ _).bind fun ticket => keeps_pure _

theorem carries_batch (inputs : List BatchInput) : Keeps (Carries w) (batch inputs) := by
  unfold batch
  refine (keeps_require _ _).bind fun _ => ?_
  refine keeps_get.bind fun e => ?_
  refine (keeps_lift _).bind fun packed => ?_
  refine (keeps_lift _).bind fun base => ?_
  refine (keeps_lift _).bind fun members => ?_
  refine (carries_submitBatch _).bind fun ticket => ?_
  refine (carries_foreign rfl).bind fun answer => ?_
  refine (carries_finishInvocation _ _).bind fun _ => ?_
  extract_lets sampled
  split
  · exact carries_ifShared_poison.bind fun _ => keeps_fail _
  · exact (Keeps.forEach (fun member => carries_appendCompleted _ _ _ _) _).bind fun _ => keeps_pure _

theorem carries_selectResident (slot : Nat) : Keeps (Carries w) (selectResident slot) := by
  unfold selectResident
  refine keeps_get.bind fun e => ?_
  split
  · exact keeps_pure ()
  · refine (keeps_require _ _).bind fun _ => ?_
    refine (carries_selectForeign slot).bind fun answer => ?_
    refine (keeps_lift _).bind fun _ => ?_
    exact carries_beside (fun _ => rfl) (fun _ => rfl) fun _ => rfl

theorem carries_submitCopy (destination : Lease) (read : Borrow) : Keeps (Carries w) (submitCopy destination read) := by
  unfold submitCopy
  refine (carries_submit _ _).attempt.bind fun ticket => ?_
  split
  · exact keeps_pure _
  · exact (carries_release _).bind fun _ => keeps_lift _

theorem carries_copyResident (source destination boundary : Nat) :
    Keeps (Carries w) (copyResident source destination boundary) := by
  unfold copyResident
  refine (keeps_require _ _).bind fun _ => ?_
  refine (keeps_read _).bind fun history => ?_
  refine (keeps_read _).bind fun leases => ?_
  refine Keeps.bind (carries_onPool (.borrow 1 leases.1) .borrow rfl fun _ _ h => by cases h) fun read => ?_
  refine (carries_submitCopy _ _).bind fun ticket => ?_
  refine (carries_foreign rfl).bind fun answer => ?_
  refine (carries_finishInvocation _ _).bind fun _ => ?_
  refine (carries_release _).bind fun _ => ?_
  exact (carries_setHistory _ _).bind fun _ => carries_setImported _ _

theorem carries_sealResident (slot : Nat) : Keeps (Carries w) (sealResident slot) := by
  unfold sealResident
  refine (keeps_read _).bind fun history => ?_
  refine (keeps_read _).bind fun refused => ?_
  split
  · exact keeps_fail _
  refine (keeps_require _ _).bind fun _ => ?_
  refine (keeps_read _).bind fun shared => ?_
  refine (keeps_lift _).bind fun lease => ?_
  refine Keeps.bind (carries_onPool (.sealLease 1 lease) .sealedLease rfl fun _ _ h => by cases h) fun sealedLease => ?_
  exact (carries_setSealed _ _).bind fun _ => keeps_pure _

theorem carries_restoreSnapshot (snapshot : Snapshot) (destination : Nat) :
    Keeps (Carries w) (restoreSnapshot snapshot destination) := by
  unfold restoreSnapshot
  refine (keeps_read _).bind fun _ => ?_
  refine (keeps_read _).bind fun history => ?_
  exact carries_copyResident _ _ _

end Engine

end Inferfabric.Native
