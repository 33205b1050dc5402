-- SUMMARY: Units are reused only after retirement and the last reader and rank, and a sealed allocation is never written again.
import IronPangu.Runtime.StatePool.References

open Rust Std

/-!
# Reuse and sealing

A unit leaves its allocation only when the allocation goes, and an allocation
goes only in `reclaim`. What is sealed stays sealed under its lease, so that the
only flights over it are readers'.
-/

namespace Inferfabric.Runtime

open Ir

namespace StatePool

variable {s t : StatePool} {op : Op} {reply : Reply} {l : Lease}

/-! ## One step -/

theorem reclaimed_of_some {a : Allocation} (halloc : s.allocations[l]? = some a) :
    s.reclaimed.allocations[l]? = some a ∨ (s.reclaimed.allocations[l]? = none ∧ a.Ended) := by
  by_cases hended : a.Ended
  · refine .inr ⟨?_, hended⟩
    rw [Option.eq_none_iff_forall_ne_some]
    intro b hb
    obtain ⟨hb, hnot⟩ := reclaimed_getElem?.mp hb
    obtain rfl := Option.some.inj (halloc.symm.trans hb)
    exact hnot hended
  · exact .inl (reclaimed_getElem?.mpr ⟨halloc, hended⟩)

/-- What becomes of an allocation in an accepted call: it keeps its reservation
    and its seal, is retired only by `retire`, and goes only when it has ended. -/
theorem Accepted.carried (hs : Linked s) (h : Accepted s op reply t) {a : Allocation}
    (halloc : s.allocations[l]? = some a) :
    ∃ b : Allocation, b.fixed = a.fixed ∧ (a.isSealed = true → b.isSealed = true) ∧
      (b.retired = true ↔ a.retired = true ∨ ∃ epoch, op = .retire epoch l) ∧
      (t.allocations[l]? = some b ∨ (t.allocations[l]? = none ∧ b.Ended)) := by
  have hmodify : ∀ {lease : Lease} {f : Allocation → Allocation} {u : StatePool},
      u.allocations = s.allocations.modify lease f →
        u.allocations[l]? = some (if lease = l then f a else a) := by
    intro lease f u hu
    rw [hu]
    exact ExtTreeMap.getElem?_modify_of_some halloc
  have hmodifyAll : ∀ {leases : List Lease} {f : Allocation → Allocation} {u : StatePool},
      leases.Nodup → u.allocations = s.allocations.modifyAll leases f →
        u.allocations[l]? = some (if l ∈ leases then f a else a) := by
    intro leases f u hnodup hu
    rw [hu]
    exact ExtTreeMap.getElem?_modifyAll_of_some hnodup halloc
  cases h with
  | reserve =>
    have hne : (⟨s.id, s.next + 1⟩ : Lease) ≠ l := by
      rintro rfl
      rw [hs.fresh_lease] at halloc
      cases halloc
    refine ⟨a, rfl, fun h => h, by simp, .inl ?_⟩
    rw [reserved, ExtTreeMap.getElem?_insert_ne hne, halloc]
  | borrow => exact ⟨_, by split <;> rfl, by split <;> simp, by split <;> simp, .inl (hmodify rfl)⟩
  | borrowSealed =>
    exact ⟨_, by split <;> rfl, by split <;> simp, by split <;> simp, .inl (hmodify rfl)⟩
  | sealLease => exact ⟨_, by split <;> rfl, by split <;> simp, by split <;> simp, .inl (hmodify rfl)⟩
  | release =>
    exact ⟨_, by split <;> rfl, by split <;> simp, by split <;> simp,
      reclaimed_of_some (hmodify rfl)⟩
  | submit =>
    exact ⟨_, by split <;> rfl, by split <;> simp, by split <;> simp,
      .inl (hmodifyAll (nodup_submission _ _) rfl)⟩
  | completeRank => exact ⟨a, rfl, fun h => h, by simp, .inl halloc⟩
  | completeLast hlive hpool hflight =>
    exact ⟨_, by split <;> rfl, by split <;> simp, by split <;> simp,
      reclaimed_of_some (hmodifyAll (hs.distinct hflight) rfl)⟩
  | retire =>
    refine ⟨_, by split <;> rfl, by split <;> simp, ?_, reclaimed_of_some (hmodify rfl)⟩
    split <;> simp [*]
  | poison => exact ⟨a, rfl, fun h => h, by simp, .inl halloc⟩

/-- No allocation has ended and is still there. -/
def Settled (s : StatePool) : Prop :=
  ∀ (l : Lease) (a : Allocation), s.allocations[l]? = some a → ¬ a.Ended

theorem settled_reclaimed (s : StatePool) : Settled s.reclaimed :=
  fun _ _ halloc => (reclaimed_getElem?.mp halloc).2

theorem Accepted.settled (hsettled : Settled s) (h : Accepted s op reply t) :
    Settled t := by
  have hpinned : ∀ {lease : Lease}, Settled (s.pinned lease) := by
    intro lease l a halloc hended
    simp only [pinned, ExtTreeMap.getElem?_modify_eq_some] at halloc
    rcases halloc with ⟨rfl, b, hb, rfl⟩ | ⟨-, halloc⟩
    · exact ExtTreeSet.isEmpty_iff_forall.mp hended.borrowers (s.next + 1) (by simp)
    · exact hsettled l a halloc hended
  cases h with
  | reserve =>
    intro l a halloc hended
    simp only [reserved, ExtTreeMap.getElem?_insert_eq_some] at halloc
    rcases halloc with ⟨rfl, rfl⟩ | ⟨-, halloc⟩
    · cases hended.retired
    · exact hsettled l a halloc hended
  | borrow => exact hpinned
  | borrowSealed => exact hpinned
  | sealLease =>
    intro l a halloc hended
    simp only [markedSealed, ExtTreeMap.getElem?_modify_eq_some] at halloc
    rcases halloc with ⟨rfl, b, hb, rfl⟩ | ⟨-, halloc⟩
    · exact hsettled _ b hb ⟨hended.retired, hended.borrowers, hended.pending⟩
    · exact hsettled l a halloc hended
  | release => exact settled_reclaimed _
  | submit =>
    intro l a halloc hended
    simp only [submitted, ExtTreeMap.getElem?_modifyAll_eq_some (nodup_submission _ _)] at halloc
    rcases halloc with ⟨-, b, hb, rfl⟩ | ⟨-, halloc⟩
    · exact ExtTreeSet.isEmpty_iff_forall.mp hended.pending (s.next + 1) (by simp)
    · exact hsettled l a halloc hended
  | completeRank => exact hsettled
  | completeLast => exact settled_reclaimed _
  | retire => exact settled_reclaimed _
  | poison => exact hsettled

/-! ## Retirement over a run -/

/-- A retirement of the lease has been accepted. -/
def RetiredBy (events : List PoolEvent) (l : Lease) : Prop :=
  ∃ ev ∈ events, ∃ epoch reply, ev.call = .retire epoch l ∧ ev.reply = .ok reply

theorem RetiredBy.append {events : List PoolEvent} (h : RetiredBy events l) (ev : PoolEvent) :
    RetiredBy (events ++ [ev]) l := by
  obtain ⟨e, he, hrest⟩ := h
  exact ⟨e, List.mem_append_left _ he, hrest⟩

theorem retiredBy_concat {events : List PoolEvent} {epoch : Nat}
    (hrun : step (.retire epoch l) s = (.ok reply, t)) :
    RetiredBy (events ++ [event step s (.retire epoch l)]) l :=
  ⟨_, List.mem_append_right _ (List.mem_singleton_self _), epoch, reply, rfl, by rw [event, hrun]⟩

/-- The state flag says that a retirement has been accepted. -/
def Retirements (events : List PoolEvent) (s : StatePool) : Prop :=
  ∀ (l : Lease) (a : Allocation), s.allocations[l]? = some a → a.retired = true → RetiredBy events l

theorem retirements_final {m : Manifest} {capacities : ExtTreeMap Key Nat} {s : StatePool}
    (h : Fresh m capacities s) (ops : List Op) :
    Retirements (history step ops s) (final step ops s) := by
  refine run_induction (P := Retirements) h.linked ?_ ?_ ?_ ops
  · intro l a halloc
    simp [h.allocations] at halloc
  · intro events t op e _ hP _ l a halloc hretired
    exact (hP l a halloc hretired).append _
  · intro events t op reply u hs hP hrun haccepted l a halloc hretired
    rcases haccepted.origin halloc with ⟨b, hb, -⟩ | ⟨_, _, _, -, -, -, hfixed, -⟩
    · obtain ⟨c, -, -, hcause, hc | ⟨hc, -⟩⟩ := haccepted.carried hs hb
      · obtain rfl := Option.some.inj (halloc.symm.trans hc)
        rcases hcause.mp hretired with hold | ⟨epoch, rfl⟩
        · exact (hP l b hb hold).append _
        · exact retiredBy_concat hrun
      · rw [hc] at halloc
        cases halloc
    · rw [← hfixed] at hretired
      cases hretired

theorem settled_final {m : Manifest} {capacities : ExtTreeMap Key Nat} {s : StatePool}
    (h : Fresh m capacities s) (ops : List Op) : Settled (final step ops s) := by
  refine run_induction (P := fun _ t => Settled t) h.linked ?_ (fun _ _ _ _ _ ht _ => ht)
    (fun _ _ _ _ _ _ ht _ haccepted => haccepted.settled ht) ops
  intro l a halloc
  simp [h.allocations] at halloc

/-! ## Reuse -/

/-- Between two states, a unit bound under the lease has become free or bound
    under another lease. -/
def Reused (s t : StatePool) (l : Lease) : Prop :=
  ∃ (i u : Nat) (p : Pool) (a : Allocation) (b : Binding), s.allocations[l]? = some a ∧ a.bindings[i]? = some b ∧
    u ∈ b.units ∧ t.pools[i]? = some p ∧
    (u ∈ p.free ∨ ∃ (l' : Lease) (a' : Allocation) (b' : Binding), l' ≠ l ∧
      t.allocations[l']? = some a' ∧ a'.bindings[i]? = some b' ∧ u ∈ b'.units)

/-- The units of an allocation that stays are not reused. -/
theorem not_reused_of_kept (ht : Linked t) (hconserved : Conserved t) {a c : Allocation}
    (halloc : s.allocations[l]? = some a) (hc : t.allocations[l]? = some c)
    (hbindings : c.bindings = a.bindings) : ¬ Reused s t l := by
  rintro ⟨i, u, p, a', b, halloc', hb, hu, hp, hwhere⟩
  obtain rfl := Option.some.inj (halloc.symm.trans halloc')
  have hpartition := hconserved.partition ht hp
  rw [← hbindings] at hb
  rcases hwhere with hfree | ⟨l', a', b', hne, halloc', hb', hu'⟩
  · obtain ⟨b'', hb'', -, hunits⟩ := hpartition.bound l c hc
    obtain rfl := Option.some.inj (hb.symm.trans hb'')
    exact (hunits u hu).2 hfree
  · exact hpartition.disjoint l l' c a' b b' (Ne.symm hne) hc halloc' hb hb' hu hu'

/-! ## Sealing -/

/-- The event is an accepted submission, answered with ticket `id`, that reads
    the lease through a borrow and does not write it. -/
def ReadsOnly (ev : PoolEvent) (l : Lease) (id : Nat) : Prop :=
  ∃ epoch leases reads b, ev.call = .submit epoch leases reads ∧
    ev.reply = .ok (.ticket ⟨ev.before.id, id⟩) ∧ l ∉ leases ∧ b ∈ reads ∧
    ev.before.borrowers[b.id]? = some l

/-- Since the lease was sealed, every flight over it has been a reader's. -/
structure Immutable (l : Lease) (events : List PoolEvent) (s : StatePool) : Prop where
  own : l.pool = s.id ∧ l.generation ≤ s.next
  isSealed : ∀ a : Allocation, s.allocations[l]? = some a → a.isSealed = true
  flights : ∀ (id : Nat) (f : Flight), s.flights[id]? = some f → l ∈ f.leases →
    ∃ ev ∈ events, ReadsOnly ev l id

theorem immutable_final (hs : Linked s) (h : Immutable l [] s) (ops : List Op) :
    Immutable l (history step ops s) (final step ops s) := by
  refine run_induction (P := Immutable l) hs h ?_ ?_ ops
  · intro events t op e _ ht _
    refine ⟨ht.own, ht.isSealed, fun id f hflight hl => ?_⟩
    obtain ⟨ev, hev, hreads⟩ := ht.flights id f hflight hl
    exact ⟨ev, List.mem_append_left _ hev, hreads⟩
  · intro events t op reply u hs ht hrun haccepted
    have hframe := haccepted.frame
    refine ⟨⟨ht.own.1.trans hframe.id.symm, ht.own.2.trans hframe.next⟩, ?_, ?_⟩
    · intro a halloc
      rcases haccepted.origin halloc with ⟨b, hb, -⟩ | ⟨_, _, _, -, -, rfl, -⟩
      · obtain ⟨c, -, hkeep, -, hc | ⟨hc, -⟩⟩ := haccepted.carried hs hb
        · obtain rfl := Option.some.inj (halloc.symm.trans hc)
          exact hkeep (ht.isSealed b hb)
        · rw [hc] at halloc
          cases halloc
      · have := ht.own.2
        simp at this
    · intro id f hflight hl
      rcases haccepted.flight_origin hflight with
        ⟨g, hg, hleases⟩ | ⟨epoch, leases, reads, borrowed, rfl, rfl, -, hleases, hwrites, hreads⟩
      · obtain ⟨ev, hev, hreads⟩ := ht.flights id g hg (hleases ▸ hl)
        exact ⟨ev, List.mem_append_left _ hev, hreads⟩
      · refine ⟨_, List.mem_append_right _ (List.mem_singleton_self _), epoch, leases, reads, ?_⟩
        have hnot : l ∉ leases := by
          intro hmem
          obtain ⟨a, halloc, -, hopen⟩ := hwrites l hmem
          rw [ht.isSealed a halloc] at hopen
          cases hopen
        rw [hleases, mem_submission] at hl
        obtain ⟨i, hi, rfl⟩ := List.mem_iff_getElem.mp (hl.resolve_left hnot)
        have hi' : i < reads.length := hreads.length_eq ▸ hi
        refine ⟨reads[i], rfl, by rw [event, hrun], hnot, List.getElem_mem hi', ?_⟩
        exact ((List.forall₂_iff_get.mp hreads).2 i hi' hi).2.1

/-- No accepted submission writes a sealed lease. -/
theorem Immutable.write_rejected {events : List PoolEvent} (hs : Linked s)
    (h : Immutable l events s) {epoch : Nat} {leases : List Lease} {reads : List Borrow}
    (hl : l ∈ leases) : ∃ e, step (.submit epoch leases reads) s = (.err e, s) := by
  rcases step_cases hs (.submit epoch leases reads) with hrejected | ⟨reply, t, -, haccepted⟩
  · exact hrejected
  · cases haccepted with
    | submit hlive hwrites =>
      obtain ⟨a, halloc, -, hopen⟩ := hwrites l hl
      rw [h.isSealed a halloc] at hopen
      cases hopen

/-- An allocation is sealed only while no flight uses it. -/
theorem idle_of_sealLease (hs : Linked s) {epoch : Nat}
    (h : Accepted s (.sealLease epoch l) reply t) :
    (∀ (id : Nat) (f : Flight), s.flights[id]? = some f → l ∉ f.leases) ∧ Immutable l [] t := by
  cases h with
  | sealLease hlive halloc hretired hpending =>
    have hidle : ∀ (id : Nat) (f : Flight), s.flights[id]? = some f → l ∉ f.leases := by
      intro id f hflight hl
      obtain ⟨a, halloc', hmem⟩ := hs.pending.mp ⟨f, hflight, hl⟩
      obtain rfl := Option.some.inj (halloc.symm.trans halloc')
      exact ExtTreeSet.isEmpty_iff_forall.mp hpending id hmem
    refine ⟨hidle, hs.leases halloc, ?_, fun id f hflight hl => absurd hl (hidle id f hflight)⟩
    intro a ha
    simp only [markedSealed, ExtTreeMap.getElem?_modify_eq_some] at ha
    rcases ha with ⟨-, b, -, rfl⟩ | ⟨hne, -⟩
    · rfl
    · exact absurd rfl hne

/-! ## The reuse theorem -/

/-- What holds along every run from a pool: a unit is reused only after its
    allocation was retired and lost its last borrower and flight, no such
    allocation stays behind, and a sealed lease is never written again. -/
structure NoEarlyReuse (s₀ : StatePool) : Prop where
  reused : ∀ ops op l, Reused (final step ops s₀) (final step (ops ++ [op]) s₀) l →
    RetiredBy (history step (ops ++ [op]) s₀) l ∧
      (∀ id : Nat, (final step (ops ++ [op]) s₀).borrowers[id]? ≠ some l) ∧
      ∀ (id : Nat) (f : Flight), (final step (ops ++ [op]) s₀).flights[id]? = some f → l ∉ f.leases
  settled : ∀ ops, Settled (final step ops s₀)
  isSealed : ∀ ops epoch l sealedLease t,
    step (.sealLease epoch l) (final step ops s₀) = (.ok (.sealedLease sealedLease), t) →
      (∀ (id : Nat) (f : Flight), (final step ops s₀).flights[id]? = some f → l ∉ f.leases) ∧
      ∀ ops',
        (∀ epoch' leases reads, l ∈ leases → ∃ e,
          step (.submit epoch' leases reads) (final step ops' t) = (.err e, final step ops' t)) ∧
        ∀ (id : Nat) (f : Flight), (final step ops' t).flights[id]? = some f → l ∈ f.leases →
          ∃ ev ∈ history step ops' t, ReadsOnly ev l id

/-- Every run from a new pool reuses no unit early and keeps sealed leases
    unwritten. -/
theorem no_early_reuse {m : Manifest} {epoch nextPool counter : Nat}
    {capacities : ExtTreeMap Key Nat} {s₀ : StatePool}
    (hnew : new m epoch capacities nextPool = .ok (s₀, counter)) : NoEarlyReuse s₀ := by
  have hfresh := fresh_of_new hnew
  refine ⟨?_, settled_final hfresh, ?_⟩
  · intro ops op l hreused
    have hs := linked_final hfresh.linked ops
    have ht := linked_final hfresh.linked (ops ++ [op])
    have hconserved := conserved_final hfresh (ops ++ [op])
    rw [final_concat] at hreused ht hconserved ⊢
    have ⟨_, _, _, a, _, halloc, _⟩ := hreused
    rcases step_cases hs op with ⟨e, hrun⟩ | ⟨reply, t, hrun, haccepted⟩
    · rw [hrun] at hreused hconserved
      exact absurd hreused (not_reused_of_kept hs hconserved halloc halloc rfl)
    · simp only [hrun] at hreused ht hconserved ⊢
      obtain ⟨c, hfixed, -, hcause, hc | ⟨hgone, hended⟩⟩ := haccepted.carried hs halloc
      · exact absurd hreused (not_reused_of_kept ht hconserved halloc hc
          (Allocation.bindings_of_fixed hfixed))
      refine ⟨?_, ?_, ?_⟩
      · rw [history_concat]
        rcases hcause.mp hended.retired with hold | ⟨epoch, rfl⟩
        · exact (retirements_final hfresh ops l a halloc hold).append _
        · exact retiredBy_concat hrun
      · intro id hborrower
        obtain ⟨b, hb, -⟩ := ht.borrowers.mp hborrower
        rw [hgone] at hb
        cases hb
      · intro id f hflight hl
        obtain ⟨b, hb, -⟩ := ht.pending.mp ⟨f, hflight, hl⟩
        rw [hgone] at hb
        cases hb
  · intro ops epoch l sealedLease t hrun
    have hs := linked_final hfresh.linked ops
    have haccepted := accepted_of_step hrun
    obtain ⟨hidle, himmutable⟩ := idle_of_sealLease hs haccepted
    refine ⟨hidle, fun ops' => ?_⟩
    have ht := haccepted.linked hs
    have hfinal := immutable_final ht himmutable ops'
    exact ⟨fun _ _ _ hl => hfinal.write_rejected (linked_final ht ops') hl, hfinal.flights⟩

theorem no_early_reuse_sample : NoEarlyReuse samplePool :=
  no_early_reuse sample_new

end StatePool

end Inferfabric.Runtime
