-- SUMMARY: What stays of a state pool when nothing is retired, when it is poisoned, and when a submission is completed on every rank.
import IronPangu.Runtime.StatePool.Reuse

open Rust Std

namespace Inferfabric.Runtime

namespace StatePool

/-! ## Reservations through the pool's operations -/

/-- A reservation of `limit` tokens that has not been retired. -/
def Held (s : StatePool) (l : Lease) (limit : Nat) : Prop :=
  ∃ a : Allocation, s.allocations[l]? = some a ∧ a.retired = false ∧ a.tokenLimit = limit

def SealedIn (s : StatePool) (l : Lease) : Prop :=
  ∃ a : Allocation, s.allocations[l]? = some a ∧ a.retired = false ∧ a.isSealed = true

variable {s t : StatePool} {op : Op} {reply : Reply} {l : Lease}

/-- An accepted call that does not retire a lease keeps its allocation. -/
theorem Accepted.kept (hs : Linked s) (h : Accepted s op reply t) (hop : ∀ epoch, op ≠ .retire epoch l)
    {a : Allocation} (halloc : s.allocations[l]? = some a) (hretired : a.retired = false) :
    ∃ b : Allocation, t.allocations[l]? = some b ∧ b.retired = false ∧ b.fixed = a.fixed ∧
      (a.isSealed = true → b.isSealed = true) := by
  obtain ⟨b, hfixed, hsealed, hb, hleft⟩ := h.carried hs halloc
  have hlive : b.retired = false := by
    rw [← Bool.not_eq_true, hb, hretired]
    rintro (hfalse | ⟨epoch, heq⟩)
    · cases hfalse
    · exact hop epoch heq
  rcases hleft with halloc' | ⟨-, hended⟩
  · exact ⟨b, halloc', hlive, hfixed, hsealed⟩
  · rw [hended.retired] at hlive
    cases hlive

theorem Accepted.held (hs : Linked s) (h : Accepted s op reply t) (hop : ∀ epoch, op ≠ .retire epoch l)
    {limit : Nat} (hheld : Held s l limit) : Held t l limit := by
  obtain ⟨a, halloc, hretired, hlimit⟩ := hheld
  obtain ⟨b, hb, hb', hfixed, -⟩ := h.kept hs hop halloc hretired
  have htokens := congrArg Allocation.tokenLimit hfixed
  exact ⟨b, hb, hb', htokens.trans hlimit⟩

theorem Accepted.sealedIn (hs : Linked s) (h : Accepted s op reply t)
    (hop : ∀ epoch, op ≠ .retire epoch l) (hsealed : SealedIn s l) : SealedIn t l := by
  obtain ⟨a, halloc, hretired, hsealed⟩ := hsealed
  obtain ⟨b, hb, hb', -, hkept⟩ := h.kept hs hop halloc hretired
  exact ⟨b, hb, hb', hkept hsealed⟩

theorem Frame.trans {u : StatePool} (h : Frame s t) (h' : Frame t u) : Frame s u :=
  ⟨h'.id.trans h.id, h'.epoch.trans h.epoch, h'.maxContext.trans h.maxContext, h'.fixed.trans h.fixed,
    h.next.trans h'.next, fun hp => h'.poisoned (h.poisoned hp)⟩

/-- A pool after calls that retire nothing. -/
structure Advanced (s t : StatePool) : Prop where
  linked : Linked t
  frame : Frame s t
  held : ∀ {l limit}, Held s l limit → Held t l limit
  sealedIn : ∀ {l}, SealedIn s l → SealedIn t l

theorem Advanced.refl (hs : Linked s) : Advanced s s :=
  ⟨hs, ⟨rfl, rfl, rfl, rfl, Nat.le_refl _, fun h => h⟩, fun h => h, fun h => h⟩

theorem Advanced.trans {u : StatePool} (h : Advanced s t) (h' : Advanced t u) : Advanced s u :=
  ⟨h'.linked, h.frame.trans h'.frame, fun hl => h'.held (h.held hl),
    fun hl => h'.sealedIn (h.sealedIn hl)⟩

theorem Accepted.advanced (hs : Linked s) (h : Accepted s op reply t)
    (hop : ∀ epoch l, op ≠ .retire epoch l) : Advanced s t :=
  ⟨h.linked hs, h.frame, fun hl => h.held hs (fun epoch => hop epoch _) hl,
    fun hl => h.sealedIn hs (fun epoch => hop epoch _) hl⟩

/-- A reservation is new, and within the context. -/
theorem Accepted.reserved_held {epoch request tokens : Nat} {slot : Option Nat} {l : Lease}
    (hs : Linked s) (h : Accepted s (.reserve epoch request tokens slot) (.lease l) t) :
    Held t l tokens ∧ tokens ≤ t.maxContext ∧ s.allocations[l]? = none ∧ s.poisoned = false := by
  cases h with
  | reserve hlive htokens hcontext =>
    refine ⟨⟨_, ExtTreeMap.getElem?_insert_self, rfl, rfl⟩, hcontext, hs.fresh_lease, hlive.healthy⟩

/-- A poisoned pool accepts nothing but being poisoned again. -/
theorem Accepted.healthy (h : Accepted s op reply t) : s.poisoned = false ∨ op = .poison := by
  cases h with
  | poison => exact .inr rfl
  | reserve hlive | borrow hlive | borrowSealed hlive | sealLease hlive | release hlive
  | submit hlive | completeRank hlive | completeLast hlive | retire hlive =>
    exact .inl hlive.healthy

/-- A poisoned pool never changes again. -/
theorem final_poisoned (hs : Linked s) (hpoisoned : s.poisoned = true) (ops : List Op) :
    final step ops s = s := by
  induction ops with
  | nil => rfl
  | cons op ops ih =>
    rw [final_cons]
    have hsame : (step op s).2 = s := by
      rcases step_cases hs op with ⟨e, hrun⟩ | ⟨reply, t, hrun, haccepted⟩
      · rw [hrun]
      · rcases haccepted.healthy with hhealthy | rfl
        · rw [hhealthy] at hpoisoned
          cases hpoisoned
        · rw [hrun]
          cases haccepted
          rw [← hpoisoned]
    rw [hsame, ih]

/-! ## Retiring an idle lease -/

theorem checkIdle_eq_ok {epoch : Nat} {u : Unit} :
    s.checkIdle epoch l = .ok u ↔ s.Live epoch ∧ ∃ a : Allocation, s.allocations[l]? = some a ∧
      a.retired = false ∧ a.borrowers.isEmpty = true ∧ a.pending.isEmpty = true := by
  simp only [checkIdle, Outcome.bind_eq_ok, bindings_eq_ok, Outcome.unwrap_eq_ok]
  constructor
  · rintro ⟨-, ⟨hlive, a, halloc, hretired, -⟩, a', halloc', h⟩
    obtain rfl := Option.some.inj (halloc.symm.trans halloc')
    split at h
    · simp at h
    · rename_i hidle
      simp only [not_or, Bool.not_eq_false] at hidle
      exact ⟨hlive, a, halloc, hretired, hidle⟩
  · rintro ⟨hlive, a, halloc, hretired, hborrowers, hpending⟩
    exact ⟨_, ⟨hlive, a, halloc, hretired, rfl⟩, a, halloc, by simp [hborrowers, hpending]⟩

/-- A lease without readers and incomplete work is retired, and reclaimed at once. -/
theorem retire_idle (hs : Linked s) {epoch : Nat} (hidle : s.checkIdle epoch l = .ok ()) :
    ∃ t, retire epoch l s = (.ok (), t) ∧ Accepted s (.retire epoch l) .done t ∧
      t.allocations[l]? = none := by
  obtain ⟨hlive, a, halloc, hretired, hborrowers, hpending⟩ := checkIdle_eq_ok.mp hidle
  have hbindings : s.bindings epoch l = .ok a.bindings := bindings_eq_ok.mpr ⟨hlive, a, halloc, hretired, rfl⟩
  have hmark : updateAllocation l (fun a => { a with retired := true }) s = (.ok (), s.markedRetired l) :=
    updateAllocation_eq_ok.mpr ⟨⟨a, halloc⟩, rfl⟩
  have hrun : retire epoch l s = (.ok (), (s.markedRetired l).reclaimed) := by
    rw [retire, Method.bind_run, Method.read_run, hbindings]
    exact (Method.bind_ok hmark).trans (reclaim_run _)
  refine ⟨_, hrun, retire_eq_ok hrun, ?_⟩
  rw [Option.eq_none_iff_forall_ne_some]
  intro b hb
  obtain ⟨hb, hended⟩ := reclaimed_getElem?.mp hb
  simp only [markedRetired, ExtTreeMap.getElem?_modify_self, halloc, Option.map_some,
    Option.some.injEq] at hb
  subst hb
  exact hended ⟨rfl, hborrowers, hpending⟩

/-- A borrow that is on record is released. -/
theorem release_live (hs : Linked s) {epoch : Nat} {read : Borrow} (hlive : s.Live epoch)
    (hpool : read.pool = s.id) (hborrower : s.borrowers[read.id]? = some l) :
    ∃ t, release epoch read s = (.ok (), t) := by
  obtain ⟨a, halloc, -⟩ := hs.borrowers.mp hborrower
  have hbindings : s.borrowedBindings epoch read = .ok a.bindings :=
    borrowedBindings_eq_ok.mpr ⟨hlive, hpool, l, a, hborrower, halloc, rfl⟩
  have hunwrap : (Outcome.unwrap s.borrowers[read.id]? : Result Lease) = .ok l :=
    Outcome.unwrap_eq_ok.mpr hborrower
  have hunpin : updateAllocation l (fun a => { a with borrowers := a.borrowers.erase read.id })
      { s with borrowers := s.borrowers.erase read.id } = (.ok (), s.unpinned read.id l) :=
    updateAllocation_eq_ok.mpr ⟨⟨a, halloc⟩, rfl⟩
  refine ⟨(s.unpinned read.id l).reclaimed, ?_⟩
  rw [release, Method.bind_run, Method.read_run, hbindings]
  dsimp only
  rw [Method.bind_run, Method.read_run, hunwrap]
  exact (Method.bind_ok hunpin).trans (reclaim_run _)

/-! ## Completing a submission -/

theorem Accepted.next_complete {epoch rank : Nat} {ticket : Ticket}
    (h : Accepted s (.complete epoch ticket rank) reply t) :
    t.next = s.next ∧ t.borrowers = s.borrowers ∧ t.poisoned = s.poisoned ∧ t.epoch = s.epoch := by
  cases h with
  | completeRank => exact ⟨rfl, rfl, rfl, rfl⟩
  | completeLast => simp [landed]

/-- Completing every outstanding rank of a ticket, one after another. -/
theorem complete_ranks (hs : Linked s) {epoch : Nat} (hlive : s.Live epoch) {ticket : Ticket}
    {ranks : List Nat} (hnodup : ranks.Nodup) (hranks : ∀ r ∈ ranks, s.Outstanding ticket r) :
    ∃ t, Method.forEach ranks (fun r => complete epoch ticket r) s = (.ok (), t) ∧ Advanced s t ∧
      t.Live epoch ∧ t.next = s.next ∧ t.borrowers = s.borrowers ∧
      ∀ ticket' r, t.Outstanding ticket' r ↔ s.Outstanding ticket' r ∧ ¬(ticket = ticket' ∧ r ∈ ranks) := by
  induction ranks generalizing s with
  | nil => exact ⟨s, rfl, .refl hs, hlive, rfl, rfl, by simp⟩
  | cons rank ranks ih =>
    obtain ⟨hnew, hnodup⟩ := List.nodup_cons.mp hnodup
    obtain ⟨u, hrun⟩ := complete_accepted hs hlive (hranks rank List.mem_cons_self)
    have haccepted := accepted_of_step hrun
    obtain ⟨hnext, hborrowers, hpoisoned, hepoch⟩ := haccepted.next_complete
    have hadvanced := haccepted.advanced hs (fun _ _ h => by cases h)
    have hrun' : complete epoch ticket rank s = (.ok (), u) := by
      rw [step, Method.bind_eq_ok] at hrun
      obtain ⟨_, v, hcomplete, hreturn⟩ := hrun
      obtain ⟨-, rfl⟩ := Prod.mk.inj hreturn
      exact hcomplete
    have hlive' : u.Live epoch := ⟨hpoisoned ▸ hlive.healthy, hepoch ▸ hlive.current⟩
    have hranks' : ∀ r ∈ ranks, u.Outstanding ticket r := by
      intro r hr
      rw [haccepted.outstanding_complete]
      refine ⟨hranks r (List.mem_cons_of_mem _ hr), ?_⟩
      rintro ⟨-, rfl⟩
      exact hnew hr
    obtain ⟨t, hrest, hadvanced', hlive'', hnext', hborrowers', hout⟩ :=
      ih hadvanced.linked hlive' hnodup hranks'
    refine ⟨t, ?_, hadvanced.trans hadvanced', hlive'', hnext'.trans hnext,
      hborrowers'.trans hborrowers, fun ticket' r => ?_⟩
    · rw [Method.forEach, Method.bind_ok hrun', hrest]
    · rw [hout, haccepted.outstanding_complete, List.mem_cons]
      grind

end StatePool

end Inferfabric.Runtime
