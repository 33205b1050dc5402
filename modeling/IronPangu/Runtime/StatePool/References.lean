-- SUMMARY: Cross references and handles over whole runs: nothing dangles or panics, completions count once, handles of reclaimed objects stay dead.
import IronPangu.Runtime.StatePool.Conservation

open Rust Std

/-!
# References over runs

A handle refers to an object while the maps hold it. Handles are numbered by one
counter, so an object that is gone never comes back under the same handle; and a
rank of a ticket is outstanding until its one accepted completion.
-/

namespace Inferfabric.Runtime

open Ir

/-- Anything a caller may hold on to. -/
inductive Handle where
  | lease (lease : Lease)
  | sealedLease (sealedLease : SealedLease)
  | borrow (borrowed : Borrow)
  | ticket (ticket : Ticket)

/-- The serial number in a handle. -/
def Handle.serial : Handle → Nat
  | .lease l => l.generation
  | .sealedLease l => l.lease.generation
  | .borrow b => b.id
  | .ticket t => t.id

/-- The handles a call names. -/
def Op.Uses : Op → Handle → Prop
  | .borrow _ l, h => h = .lease l
  | .borrowSealed _ l, h => h = .sealedLease l
  | .sealLease _ l, h => h = .lease l
  | .release _ b, h => h = .borrow b
  | .submit _ leases reads, h => (∃ l ∈ leases, h = .lease l) ∨ ∃ b ∈ reads, h = .borrow b
  | .complete _ t _, h => h = .ticket t
  | .retire _ l, h => h = .lease l
  | _, _ => False

/-- The calls that only read. -/
inductive Query where
  | bindings (epoch : Nat) (lease : Lease)
  | pageAddress (epoch : Nat) (lease : Lease) (component : String) (rank position : Nat)
  | checkIdle (epoch : Nat) (lease : Lease)
  | borrowedBindings (epoch : Nat) (borrowed : Borrow)
  | usage

/-- The handle a read-only call names. -/
def Query.Uses : Query → Handle → Prop
  | .bindings _ l, h => h = .lease l
  | .pageAddress _ l _ _ _, h => h = .lease l
  | .checkIdle _ l, h => h = .lease l
  | .borrowedBindings _ b, h => h = .borrow b
  | .usage, _ => False

inductive Answer where
  | bindings (bindings : List Binding)
  | address (address : PageAddress)
  | usage (usage : List Usage)
  | done

namespace StatePool

def ask : Query → StatePool → Result Answer
  | .bindings epoch lease, s => do return .bindings (← s.bindings epoch lease)
  | .pageAddress epoch lease component rank position, s => do
    return .address (← s.pageAddress epoch lease component rank position)
  | .checkIdle epoch lease, s => do
    s.checkIdle epoch lease
    return .done
  | .borrowedBindings epoch borrowed, s => do
    return .bindings (← s.borrowedBindings epoch borrowed)
  | .usage, s => do return .usage (← s.usage)

/-- The object of a handle is there. -/
def Refers (s : StatePool) : Handle → Prop
  | .lease l => ∃ a, s.allocations[l]? = some a
  | .sealedLease l => ∃ a, s.allocations[l.lease]? = some a
  | .borrow b => b.pool = s.id ∧ ∃ l, s.borrowers[b.id]? = some l
  | .ticket t => t.pool = s.id ∧ ∃ f, s.flights[t.id]? = some f

section Queries

variable {s : StatePool} {epoch : Nat}

theorem bind_return_ne_panic {α β : Type} {o : Result α} {f : α → β} (ho : o ≠ .panic) :
    (o >>= fun a => pure (f a)) ≠ .panic := by
  simpa [Outcome.bind_eq_panic] using ho

theorem pageAddress_ne_panic (hs : Linked s) {lease : Lease} {component : String}
    {rank position : Nat} : s.pageAddress epoch lease component rank position ≠ .panic := by
  intro hpanic
  simp only [pageAddress, Outcome.bind_eq_panic (x := s.bindings epoch lease), bindings_ne_panic,
    bindings_eq_ok, false_or] at hpanic
  obtain ⟨bs, ⟨-, a, halloc, -, rfl⟩, hpanic⟩ := hpanic
  simp only [halloc, Outcome.unwrap_some, Outcome.ok_bind] at hpanic
  split at hpanic
  · simp at hpanic
  split at hpanic
  · simp at hpanic
  rename_i index hindex
  obtain ⟨hlt, -⟩ := List.findIdx?_eq_some_iff_getElem.mp hindex
  have hlt' : index < a.bindings.length := by rwa [hs.bindings_length halloc]
  simp only [List.getElem?_eq_getElem hlt, List.getElem?_eq_getElem hlt', Outcome.unwrap_some,
    Outcome.ok_bind] at hpanic
  split at hpanic
  · simp at hpanic
  rename_i n hn
  obtain ⟨hpos, hring⟩ := hs.pages (List.getElem_mem hlt) hn
  have hpage : ∀ logicalPage, bindingPage s.pools[index] n logicalPage ≠ .panic := by
    intro logicalPage
    unfold bindingPage
    split
    · simp
    · simp [Outcome.div_pos hpos, Outcome.rem_pos hring]
  simp only [Outcome.div_pos hpos, Outcome.rem_pos hpos, Outcome.ok_bind, Outcome.bind_eq_panic,
    hpage, false_or] at hpanic
  obtain ⟨page, -, hpanic⟩ := hpanic
  split at hpanic <;> simp at hpanic

theorem checkIdle_ne_panic {lease : Lease} : s.checkIdle epoch lease ≠ .panic := by
  intro hpanic
  simp only [checkIdle, Outcome.bind_eq_panic (x := s.bindings epoch lease), bindings_ne_panic,
    bindings_eq_ok, false_or] at hpanic
  obtain ⟨bs, ⟨-, a, halloc, -, -⟩, hpanic⟩ := hpanic
  simp only [halloc, Outcome.unwrap_some, Outcome.ok_bind] at hpanic
  split at hpanic <;> simp at hpanic

/-- No read-only call panics in a linked state. -/
theorem ask_ne_panic (hs : Linked s) (q : Query) : ask q s ≠ .panic := by
  cases q with
  | bindings epoch lease => exact bind_return_ne_panic bindings_ne_panic
  | pageAddress epoch lease component rank position =>
    exact bind_return_ne_panic (pageAddress_ne_panic hs)
  | checkIdle epoch lease => exact bind_return_ne_panic (f := fun _ => Answer.done) checkIdle_ne_panic
  | borrowedBindings epoch borrowed => exact bind_return_ne_panic (borrowedBindings_ne_panic hs)
  | usage =>
    refine bind_return_ne_panic ?_
    rw [usage_eq hs]
    simp

/-- An answered read-only call names an object that is there. -/
theorem refers_of_ask {q : Query} {a : Answer} {h : Handle} (hask : ask q s = .ok a)
    (huses : q.Uses h) : s.Refers h := by
  have hbindings : ∀ {epoch lease bs}, s.bindings epoch lease = .ok bs → s.Refers (.lease lease) :=
    fun hok => (bindings_eq_ok.mp hok).2.imp fun _ h => h.1
  cases q with
  | bindings epoch lease =>
    obtain ⟨bs, hbs, -⟩ := Outcome.bind_eq_ok.mp hask
    exact huses ▸ hbindings hbs
  | pageAddress epoch lease component rank position =>
    obtain ⟨address, haddress, -⟩ := Outcome.bind_eq_ok.mp hask
    obtain ⟨bs, hbs, -⟩ := Outcome.bind_eq_ok.mp haddress
    exact huses ▸ hbindings hbs
  | checkIdle epoch lease =>
    obtain ⟨_, hidle, -⟩ := Outcome.bind_eq_ok.mp hask
    obtain ⟨bs, hbs, -⟩ := Outcome.bind_eq_ok.mp hidle
    exact huses ▸ hbindings hbs
  | borrowedBindings epoch borrowed =>
    obtain ⟨bs, hbs, -⟩ := Outcome.bind_eq_ok.mp hask
    obtain ⟨-, hpool, l, -, hborrower, -⟩ := borrowedBindings_eq_ok.mp hbs
    exact huses ▸ ⟨hpool, l, hborrower⟩
  | usage => cases huses

theorem unanswered_of_not_refers (hs : Linked s) {q : Query} {h : Handle} (huses : q.Uses h)
    (hgone : ¬ s.Refers h) : ∃ e, ask q s = .err e := by
  cases hask : ask q s with
  | ok a => exact absurd (refers_of_ask hask huses) hgone
  | err e => exact ⟨e, rfl⟩
  | panic => exact absurd hask (ask_ne_panic hs q)

end Queries

/-! ## Handles of objects that are gone -/

namespace Accepted

variable {s t : StatePool} {op : Op} {reply : Reply} {h : Handle}

/-- An accepted call names only objects that are there. -/
theorem refers (haccepted : Accepted s op reply t) (huses : op.Uses h) : s.Refers h := by
  cases haccepted with
  | reserve => cases huses
  | borrow hlive halloc =>
    cases huses
    exact ⟨_, halloc⟩
  | borrowSealed hlive halloc =>
    cases huses
    exact ⟨_, halloc⟩
  | sealLease hlive halloc =>
    cases huses
    exact ⟨_, halloc⟩
  | release hlive hpool hborrower =>
    cases huses
    exact ⟨hpool, _, hborrower⟩
  | submit hlive hwrites hreads =>
    rcases huses with ⟨l, hl, rfl⟩ | ⟨b, hb, rfl⟩
    · exact (hwrites l hl).imp fun _ h => h.1
    · obtain ⟨i, hi, rfl⟩ := List.mem_iff_getElem.mp hb
      have hread := (List.forall₂_iff_get.mp hreads).2 i hi (hreads.length_eq ▸ hi)
      exact ⟨hread.1, _, hread.2.1⟩
  | completeRank hlive hpool hflight =>
    cases huses
    exact ⟨hpool, _, hflight⟩
  | completeLast hlive hpool hflight =>
    cases huses
    exact ⟨hpool, _, hflight⟩
  | retire hlive halloc =>
    cases huses
    exact ⟨_, halloc⟩
  | poison => cases huses

/-- A borrower after an accepted call was there before it, or has the next
    serial number. -/
theorem borrower_origin (haccepted : Accepted s op reply t) {id : Nat} {l : Lease}
    (hid : t.borrowers[id]? = some l) : s.borrowers[id]? = some l ∨ id = s.next + 1 := by
  have hpinned : ∀ {lease : Lease}, (s.pinned lease).borrowers[id]? = some l →
      s.borrowers[id]? = some l ∨ id = s.next + 1 := by
    intro lease hid
    simp only [pinned, ExtTreeMap.getElem?_insert_eq_some] at hid
    rcases hid with ⟨rfl, -⟩ | ⟨-, hid⟩
    · exact .inr rfl
    · exact .inl hid
  cases haccepted with
  | borrow => exact hpinned hid
  | borrowSealed => exact hpinned hid
  | release =>
    simp only [reclaimed_borrowers, unpinned, ExtTreeMap.getElem?_erase_eq_some] at hid
    exact .inl hid.2
  | completeLast => exact .inl (by simpa [landed] using hid)
  | retire => exact .inl (by simpa [markedRetired] using hid)
  | reserve => exact .inl hid
  | sealLease => exact .inl hid
  | submit => exact .inl hid
  | completeRank => exact .inl hid
  | poison => exact .inl hid

/-- What a handle refers to after an accepted call was there before it, or is
    numbered by it. -/
theorem refers_origin (haccepted : Accepted s op reply t) (hrefers : t.Refers h) :
    s.Refers h ∨ s.next < h.serial := by
  have hlease : ∀ l : Lease, (∃ a, t.allocations[l]? = some a) →
      (∃ a, s.allocations[l]? = some a) ∨ s.next < l.generation := by
    rintro l ⟨a, halloc⟩
    rcases haccepted.origin halloc with ⟨b, hb, -⟩ | ⟨_, _, _, -, -, rfl, -⟩
    · exact .inl ⟨b, hb⟩
    · exact .inr (Nat.lt_succ_self _)
  cases h with
  | lease l => exact hlease l hrefers
  | sealedLease l => exact hlease l.lease hrefers
  | borrow b =>
    obtain ⟨hpool, l, hid⟩ := hrefers
    rcases haccepted.borrower_origin hid with hid | hid
    · exact .inl ⟨hpool.trans haccepted.frame.id, l, hid⟩
    · exact .inr (Nat.lt_of_lt_of_eq (Nat.lt_succ_self _) hid.symm)
  | ticket ticket =>
    obtain ⟨hpool, f, hid⟩ := hrefers
    rcases haccepted.flight_origin hid with ⟨g, hg, -⟩ | ⟨_, _, _, _, -, -, hid, -⟩
    · exact .inl ⟨hpool.trans haccepted.frame.id, g, hg⟩
    · exact .inr (Nat.lt_of_lt_of_eq (Nat.lt_succ_self _) hid.symm)

end Accepted

theorem Linked.serial_le {s : StatePool} (hs : Linked s) {h : Handle} (hrefers : s.Refers h) :
    h.serial ≤ s.next := by
  cases h with
  | lease l => exact (hs.leases hrefers.choose_spec).2
  | sealedLease l => exact (hs.leases hrefers.choose_spec).2
  | borrow b => exact hs.borrowIds hrefers.2.choose_spec
  | ticket t => exact hs.ticketIds hrefers.2.choose_spec

/-- A call that names a handle without an object is rejected. -/
theorem rejected_of_not_refers {s : StatePool} (hs : Linked s) {op : Op} {h : Handle}
    (huses : op.Uses h) (hgone : ¬ s.Refers h) : ∃ e, step op s = (.err e, s) := by
  rcases step_cases hs op with hrejected | ⟨reply, t, -, haccepted⟩
  · exact hrejected
  · exact absurd (haccepted.refers huses) hgone

/-- Once an issued handle has lost its object it never gets one again. -/
theorem gone_final {s : StatePool} (hs : Linked s) {h : Handle} (hissued : h.serial ≤ s.next)
    (hgone : ¬ s.Refers h) (ops : List Op) : ¬ (final step ops s).Refers h := by
  have hboth := run_induction (P := fun _ t => h.serial ≤ t.next ∧ ¬ t.Refers h) hs ⟨hissued, hgone⟩
    (fun _ _ _ _ _ ht _ => ht) ?_ ops
  · exact hboth.2
  · rintro _ t op reply u - ⟨hserial, hno⟩ - haccepted
    refine ⟨hserial.trans haccepted.frame.next, fun hrefers => ?_⟩
    rcases haccepted.refers_origin hrefers with hold | hnew
    · exact hno hold
    · omega

/-! ## Completions -/

abbrev PoolEvent : Type := Event StatePool Error Op Reply

/-- An accepted completion of one rank of a ticket. -/
def completes (ticket : Ticket) (rank : Nat) (ev : PoolEvent) : Bool :=
  match ev.call, ev.reply with
  | .complete _ t r, .ok _ => t == ticket && r == rank
  | _, _ => false

/-- Accepted completions of one rank of a ticket. -/
def completions (events : List PoolEvent) (ticket : Ticket) (rank : Nat) : Nat :=
  events.countP (completes ticket rank)

/-- A submission has been answered with the ticket. -/
def Issued (events : List PoolEvent) (ticket : Ticket) : Prop :=
  ∃ ev ∈ events, ev.reply = .ok (.ticket ticket)

/-- State is bound on the rank. -/
def BoundOn (s : StatePool) (rank : Nat) : Prop := ∃ p ∈ s.pools, p.key.rank = rank

/-- The rank of the ticket has work to complete. -/
def Outstanding (s : StatePool) (ticket : Ticket) (rank : Nat) : Prop :=
  ticket.pool = s.id ∧ ∃ f, s.flights[ticket.id]? = some f ∧ rank ∈ f.remainingRanks

variable {s t : StatePool}

theorem Frame.boundOn (h : Frame s t) {rank : Nat} : t.BoundOn rank ↔ s.BoundOn rank := by
  have hfixed : ∀ r : StatePool, r.BoundOn rank ↔ ∃ p ∈ r.pools.map Pool.fixed, p.key.rank = rank := by
    intro r
    simp [BoundOn, Pool.fixed]
  rw [hfixed, hfixed, h.fixed]

theorem Accepted.outstanding_complete {epoch rank : Nat} {ticket : Ticket} {reply : Reply}
    (h : Accepted s (.complete epoch ticket rank) reply t) {ticket' : Ticket} {rank' : Nat} :
    t.Outstanding ticket' rank' ↔
      s.Outstanding ticket' rank' ∧ ¬ (ticket = ticket' ∧ rank = rank') := by
  have hid : ∀ {p : Nat}, ticket.pool = p → (ticket'.pool = p ∧ ticket.id = ticket'.id ↔
      ticket'.pool = p ∧ ticket = ticket') := by
    intro p hp
    cases ticket; cases ticket'
    simp only [Ticket.mk.injEq] at *
    grind
  cases h with
  | completeRank hlive hpool hflight hrank hmore =>
    simp only [Outstanding, rankDone, ExtTreeMap.exists_modify]
    by_cases heq : ticket = ticket'
    · subst heq
      simp only [if_true, ExtTreeSet.mem_erase_iff, true_and]
      grind
    · grind
  | completeLast hlive hpool hflight hrank hlast =>
    have hlast := ExtTreeSet.isEmpty_iff_forall.mp hlast
    simp only [ExtTreeSet.mem_erase_iff, not_and] at hlast
    simp only [Outstanding, reclaimed_flights, reclaimed_id, landed, ExtTreeMap.exists_erase]
    grind

/-- A call that is no completion and no submission leaves the outstanding ranks. -/
theorem Accepted.outstanding_other {op : Op} {reply : Reply} (h : Accepted s op reply t)
    (hcomplete : ∀ epoch ticket rank, op ≠ .complete epoch ticket rank)
    (hsubmit : ∀ epoch leases reads, op ≠ .submit epoch leases reads) {ticket : Ticket} {rank : Nat} :
    t.Outstanding ticket rank ↔ s.Outstanding ticket rank := by
  cases h with
  | submit => exact absurd rfl (hsubmit _ _ _)
  | completeRank => exact absurd rfl (hcomplete _ _ _)
  | completeLast => exact absurd rfl (hcomplete _ _ _)
  | release => simp [Outstanding, unpinned]
  | retire => simp [Outstanding, markedRetired]
  | reserve => rfl
  | borrow => rfl
  | borrowSealed => rfl
  | sealLease => rfl
  | poison => rfl

theorem Accepted.outstanding_submit {epoch : Nat} {leases : List Lease} {reads : List Borrow}
    {reply : Reply} (hs : Linked s) (h : Accepted s (.submit epoch leases reads) reply t) :
    ∃ ticket : Ticket, reply = .ticket ticket ∧ ticket.pool = s.id ∧ ticket.id = s.next + 1 ∧
      t.next = s.next + 1 ∧
      ∀ ticket' rank, t.Outstanding ticket' rank ↔
        s.Outstanding ticket' rank ∨ (ticket' = ticket ∧ s.BoundOn rank) := by
  cases h with
  | @submit _ _ _ borrowed hlive hwrites hreads hsome hnext =>
    refine ⟨_, rfl, rfl, rfl, rfl, fun ticket' rank => ?_⟩
    have hranks : rank ∈ (submission leases borrowed).flatMap s.ranksOf ↔ s.BoundOn rank := by
      rw [List.mem_flatMap]
      constructor
      · rintro ⟨l, hl, hrank⟩
        obtain ⟨a, halloc⟩ := submission_allocated hwrites hreads l hl
        exact (mem_ranksOf hs halloc).mp hrank
      · intro hbound
        obtain ⟨l, hl⟩ := List.exists_mem_of_ne_nil _ hsome
        obtain ⟨a, halloc⟩ := submission_allocated hwrites hreads l hl
        exact ⟨l, hl, (mem_ranksOf hs halloc).mpr hbound⟩
    simp only [Outstanding, submitted, ExtTreeMap.exists_insert_fresh hs.fresh_ticket,
      ExtTreeSet.mem_ofList_iff, hranks]
    cases ticket'
    simp only [Ticket.mk.injEq]
    grind

/-- The rank is outstanding: its completion is accepted. -/
theorem complete_accepted (hs : Linked s) {epoch rank : Nat} {ticket : Ticket}
    (hlive : s.Live epoch) (h : s.Outstanding ticket rank) :
    ∃ u, step (.complete epoch ticket rank) s = (.ok .done, u) := by
  obtain ⟨hpool, f, hflight, hrank⟩ := h
  have hlive : s.live epoch = .ok () := live_eq_ok.mpr hlive
  have hcomplete : complete epoch ticket rank s = finishRank ticket.id rank f s := by
    simp [complete, Method.bind_run, hlive, hpool, hflight, hrank]
  rcases hrun : step (.complete epoch ticket rank) s with ⟨reply | e | _, u⟩
  · cases accepted_of_step hrun <;> exact ⟨_, rfl⟩
  · have hinfallible : Method.Infallible (do finishRank ticket.id rank f; return Reply.done) :=
      (infallible_finishRank _ _ _).bind fun _ => Method.infallible_pure _
    rw [step, Method.bind_run, hcomplete, ← Method.bind_run] at hrun
    exact absurd hrun (hinfallible s e u)
  · exact absurd (congrArg Prod.fst hrun) (step_ne_panic hs _)

/-- Where the completions of a run stand: each rank of an issued ticket is either
    outstanding or has been completed once. -/
structure Tallied (events : List PoolEvent) (s : StatePool) : Prop where
  issued : ∀ {ticket}, Issued events ticket → ticket.pool = s.id ∧ ticket.id ≤ s.next
  outstanding : ∀ {ticket rank}, s.Outstanding ticket rank →
    Issued events ticket ∧ s.BoundOn rank ∧ completions events ticket rank = 0
  completed : ∀ {ticket rank}, Issued events ticket → s.BoundOn rank →
    ¬ s.Outstanding ticket rank → completions events ticket rank = 1
  unissued : ∀ {ticket rank}, ¬ (Issued events ticket ∧ s.BoundOn rank) →
    completions events ticket rank = 0

theorem completions_concat (events : List PoolEvent) (ev : PoolEvent) (ticket : Ticket) (rank : Nat) :
    completions (events ++ [ev]) ticket rank =
      completions events ticket rank + if completes ticket rank ev then 1 else 0 := by
  simp [completions, List.countP_append, List.countP_singleton]

theorem issued_concat {events : List PoolEvent} {ev : PoolEvent} {ticket : Ticket} :
    Issued (events ++ [ev]) ticket ↔ Issued events ticket ∨ ev.reply = .ok (.ticket ticket) := by
  simp only [Issued, List.mem_append, List.mem_singleton, or_and_right, exists_or, exists_eq_left]

theorem Fresh.tallied {m : Manifest} {capacities : ExtTreeMap Key Nat} (h : Fresh m capacities s) :
    Tallied [] s where
  issued h := by simp [Issued] at h
  outstanding := by
    rintro ticket rank ⟨-, f, hflight, -⟩
    simp [h.flights] at hflight
  completed h := by simp [Issued] at h
  unissued _ := rfl

/-- An event that completes nothing and issues no ticket. -/
theorem Tallied.quiet {events : List PoolEvent} {ev : PoolEvent} (ht : Tallied events s)
    (hframe : Frame s t) (houtstanding : ∀ ticket rank, t.Outstanding ticket rank ↔
      s.Outstanding ticket rank)
    (hcompletes : ∀ ticket rank, completes ticket rank ev = false)
    (hreply : ∀ ticket, ev.reply ≠ .ok (.ticket ticket)) : Tallied (events ++ [ev]) t := by
  have hissued : ∀ ticket, Issued (events ++ [ev]) ticket ↔ Issued events ticket := by
    intro ticket
    rw [issued_concat, or_iff_left (hreply ticket)]
  have hcount : ∀ ticket rank,
      completions (events ++ [ev]) ticket rank = completions events ticket rank := by
    intro ticket rank
    simp [completions_concat, hcompletes]
  constructor
  · intro ticket h
    obtain ⟨hpool, hid⟩ := ht.issued ((hissued _).mp h)
    exact ⟨hpool.trans hframe.id.symm, hid.trans hframe.next⟩
  · intro ticket rank h
    rw [hissued, hframe.boundOn, hcount]
    exact ht.outstanding ((houtstanding _ _).mp h)
  · intro ticket rank h hbound hout
    rw [hissued] at h
    rw [hframe.boundOn] at hbound
    rw [houtstanding] at hout
    rw [hcount]
    exact ht.completed h hbound hout
  · intro ticket rank h
    rw [hissued, hframe.boundOn] at h
    rw [hcount]
    exact ht.unissued h

theorem Tallied.complete {events : List PoolEvent} {epoch rank : Nat} {ticket : Ticket}
    {reply : Reply} (ht : Tallied events s)
    (hrun : step (.complete epoch ticket rank) s = (.ok reply, t))
    (haccepted : Accepted s (.complete epoch ticket rank) reply t) :
    Tallied (events ++ [event step s (.complete epoch ticket rank)]) t := by
  have hout : s.Outstanding ticket rank := by
    cases haccepted with
    | completeRank hlive hpool hflight hrank => exact ⟨hpool, _, hflight, hrank⟩
    | completeLast hlive hpool hflight hrank => exact ⟨hpool, _, hflight, hrank⟩
  obtain rfl : reply = .done := by cases haccepted <;> rfl
  have hframe := haccepted.frame
  have hissued : ∀ ticket', Issued (events ++ [event step s (.complete epoch ticket rank)]) ticket' ↔
      Issued events ticket' := by
    intro ticket'
    simp [issued_concat, event, hrun]
  have hcount : ∀ ticket' rank',
      completions (events ++ [event step s (.complete epoch ticket rank)]) ticket' rank' =
        completions events ticket' rank' + if ticket = ticket' ∧ rank = rank' then 1 else 0 := by
    intro ticket' rank'
    simp [completions_concat, completes, event, hrun]
  constructor
  · intro ticket' h
    obtain ⟨hpool, hid⟩ := ht.issued ((hissued _).mp h)
    exact ⟨hpool.trans hframe.id.symm, hid.trans hframe.next⟩
  · intro ticket' rank' h
    obtain ⟨h, hne⟩ := haccepted.outstanding_complete.mp h
    rw [hissued, hframe.boundOn, hcount, if_neg hne]
    exact ht.outstanding h
  · intro ticket' rank' h hbound hnot
    rw [hissued] at h
    rw [hframe.boundOn] at hbound
    rw [haccepted.outstanding_complete] at hnot
    rw [hcount]
    by_cases heq : ticket = ticket' ∧ rank = rank'
    · obtain ⟨rfl, rfl⟩ := heq
      rw [(ht.outstanding hout).2.2, if_pos ⟨rfl, rfl⟩]
    · rw [if_neg heq]
      exact ht.completed h hbound fun hout' => hnot ⟨hout', heq⟩
  · intro ticket' rank' h
    rw [hissued, hframe.boundOn] at h
    have hne : ¬ (ticket = ticket' ∧ rank = rank') := by
      rintro ⟨rfl, rfl⟩
      exact h ⟨(ht.outstanding hout).1, (ht.outstanding hout).2.1⟩
    rw [hcount, if_neg hne]
    exact ht.unissued h

theorem Tallied.submit {events : List PoolEvent} {epoch : Nat} {leases : List Lease}
    {reads : List Borrow} {reply : Reply} (hs : Linked s) (ht : Tallied events s)
    (hrun : step (.submit epoch leases reads) s = (.ok reply, t))
    (haccepted : Accepted s (.submit epoch leases reads) reply t) :
    Tallied (events ++ [event step s (.submit epoch leases reads)]) t := by
  obtain ⟨ticket, rfl, hpool, hid, hnext, hout⟩ := haccepted.outstanding_submit hs
  have hframe := haccepted.frame
  have hnew : ¬ Issued events ticket := by
    intro h
    have := (ht.issued h).2
    omega
  have hissued : ∀ ticket', Issued (events ++ [event step s (.submit epoch leases reads)]) ticket' ↔
      Issued events ticket' ∨ ticket = ticket' := by
    intro ticket'
    simp [issued_concat, event, hrun]
  have hcount : ∀ ticket' rank',
      completions (events ++ [event step s (.submit epoch leases reads)]) ticket' rank' =
        completions events ticket' rank' := by
    intro ticket' rank'
    simp [completions_concat, completes, event]
  have hnone : ∀ rank, completions events ticket rank = 0 :=
    fun rank => ht.unissued fun h => hnew h.1
  constructor
  · intro ticket' h
    rcases (hissued _).mp h with h | rfl
    · obtain ⟨hpool, hid⟩ := ht.issued h
      exact ⟨hpool.trans hframe.id.symm, hid.trans hframe.next⟩
    · exact ⟨hpool.trans hframe.id.symm, by omega⟩
  · intro ticket' rank h
    rw [hissued, hframe.boundOn, hcount]
    rcases (hout _ _).mp h with h | ⟨rfl, hbound⟩
    · obtain ⟨hissued, hrest⟩ := ht.outstanding h
      exact ⟨.inl hissued, hrest⟩
    · exact ⟨.inr rfl, hbound, hnone rank⟩
  · intro ticket' rank h hbound hnot
    rw [hframe.boundOn] at hbound
    rw [hout, not_or] at hnot
    rw [hcount]
    rcases (hissued _).mp h with h | rfl
    · exact ht.completed h hbound hnot.1
    · exact absurd ⟨rfl, hbound⟩ hnot.2
  · intro ticket' rank h
    rw [hissued, hframe.boundOn] at h
    rw [hcount]
    exact ht.unissued fun hboth => h ⟨.inl hboth.1, hboth.2⟩

/-- Every run from a fresh pool is tallied. -/
theorem tallied_final {m : Manifest} {capacities : ExtTreeMap Key Nat} (h : Fresh m capacities s)
    (ops : List Op) : Tallied (history step ops s) (final step ops s) := by
  refine run_induction (P := Tallied) h.linked h.tallied ?_ ?_ ops
  · intro events t op e hs ht hrun
    refine ht.quiet ⟨rfl, rfl, rfl, rfl, Nat.le_refl _, fun h => h⟩ (fun _ _ => Iff.rfl) ?_ ?_
    · intro ticket rank
      cases op <;> simp [completes, event, hrun]
    · simp [event, hrun]
  · intro events t op reply u hs ht hrun haccepted
    cases op with
    | complete epoch ticket rank => exact ht.complete hrun haccepted
    | submit epoch leases reads => exact ht.submit hs hrun haccepted
    | _ =>
      refine ht.quiet haccepted.frame (fun _ _ => haccepted.outstanding_other (by simp) (by simp))
        (by simp [completes, event]) ?_
      intro ticket
      rw [event, hrun]
      cases haccepted
      all_goals simp

/-! ## The cross-reference theorem -/

/-- What holds of the handles after the run `ops`: the maps agree, nothing panics,
    a rank of a ticket is completed at most once and its completion accepted
    exactly while it has not been, and a handle whose object is gone is rejected
    from then on. -/
structure CrossReferenced (s₀ : StatePool) (ops : List Op) (s : StatePool)
    (events : List PoolEvent) : Prop where
  borrowers : ∀ (id : Nat) (l : Lease), s.borrowers[id]? = some l ↔
    ∃ a : Allocation, s.allocations[l]? = some a ∧ id ∈ a.borrowers
  pending : ∀ (id : Nat) (l : Lease),
    (∃ a : Allocation, s.allocations[l]? = some a ∧ id ∈ a.pending) ↔
      ∃ f : Flight, s.flights[id]? = some f ∧ l ∈ f.leases
  flights : ∀ (id : Nat) (f : Flight), s.flights[id]? = some f →
    (∃ rank, rank ∈ f.remainingRanks) ∧ ∀ l ∈ f.leases, ∃ a, s.allocations[l]? = some a
  calls : ∀ op, (step op s).1 ≠ .panic
  queries : ∀ q, ask q s ≠ .panic
  once : ∀ ticket rank, completions events ticket rank ≤ 1
  accepted : ∀ epoch ticket rank, (∃ t, step (.complete epoch ticket rank) s = (.ok .done, t)) ↔
    s.Live epoch ∧ Issued events ticket ∧ s.BoundOn rank ∧ completions events ticket rank = 0
  gone : ∀ ops₁ ops₂ h, ops = ops₁ ++ ops₂ → (final step ops₁ s₀).Refers h → ¬ s.Refers h →
    ∀ ops',
      (∀ op : Op, op.Uses h → ∃ e, step op (final step ops' s) = (.err e, final step ops' s)) ∧
      ∀ q : Query, q.Uses h → ∃ e, ask q (final step ops' s) = .err e

theorem Tallied.completions_le_one {events : List PoolEvent} (ht : Tallied events s)
    (ticket : Ticket) (rank : Nat) : completions events ticket rank ≤ 1 := by
  by_cases hout : s.Outstanding ticket rank
  · rw [(ht.outstanding hout).2.2]
    exact Nat.zero_le 1
  · by_cases hissued : Issued events ticket ∧ s.BoundOn rank
    · rw [ht.completed hissued.1 hissued.2 hout]
    · rw [ht.unissued hissued]
      exact Nat.zero_le 1

/-- A completion is accepted exactly on a live pool for a rank of an issued ticket
    that has not been completed. -/
theorem Tallied.accepted_iff {events : List PoolEvent} (hs : Linked s) (ht : Tallied events s)
    {epoch rank : Nat} {ticket : Ticket} :
    (∃ t, step (.complete epoch ticket rank) s = (.ok .done, t)) ↔
      s.Live epoch ∧ Issued events ticket ∧ s.BoundOn rank ∧ completions events ticket rank = 0 := by
  constructor
  · rintro ⟨t, hrun⟩
    obtain ⟨hlive, hout⟩ : s.Live epoch ∧ s.Outstanding ticket rank := by
      cases accepted_of_step hrun with
      | completeRank hlive hpool hflight hrank => exact ⟨hlive, hpool, _, hflight, hrank⟩
      | completeLast hlive hpool hflight hrank => exact ⟨hlive, hpool, _, hflight, hrank⟩
    exact ⟨hlive, ht.outstanding hout⟩
  · rintro ⟨hlive, hissued, hbound, hzero⟩
    refine complete_accepted hs hlive ?_
    by_contra hout
    have := ht.completed hissued hbound hout
    omega

/-- Every run from a new pool is cross-referenced. -/
theorem cross_references {m : Manifest} {epoch nextPool counter : Nat}
    {capacities : ExtTreeMap Key Nat} {s₀ : StatePool}
    (hnew : new m epoch capacities nextPool = .ok (s₀, counter)) (ops : List Op) :
    CrossReferenced s₀ ops (final step ops s₀) (history step ops s₀) := by
  have hfresh := fresh_of_new hnew
  have hs := linked_final hfresh.linked ops
  have ht := tallied_final hfresh ops
  refine {
    borrowers := fun _ _ => hs.borrowers
    pending := fun _ _ => hs.pending.symm
    flights := ?_
    calls := step_ne_panic hs
    queries := ask_ne_panic hs
    once := ht.completions_le_one
    accepted := fun _ _ _ => ht.accepted_iff hs
    gone := ?_ }
  · intro id f hflight
    refine ⟨?_, fun l hl => (hs.pending.mp ⟨f, hflight, hl⟩).imp fun _ h => h.1⟩
    by_contra hnone
    rw [not_exists] at hnone
    have := hs.waiting hflight
    rw [ExtTreeSet.isEmpty_iff_forall.mpr hnone] at this
    cases this
  · rintro ops₁ ops₂ h rfl hrefers hgone ops'
    have hs₁ := linked_final hfresh.linked ops₁
    have hissued : h.serial ≤ (final step (ops₁ ++ ops₂) s₀).next := by
      have hnext := (frame_final hs₁ ops₂).next
      rw [← final_append] at hnext
      exact (hs₁.serial_le hrefers).trans hnext
    have hs' := linked_final hs ops'
    have hgone' := gone_final hs hissued hgone ops'
    exact ⟨fun op huses => rejected_of_not_refers hs' huses hgone',
      fun q huses => unanswered_of_not_refers hs' huses hgone'⟩

/-- Reserve, borrow, submit a read, retire, complete on one of two ranks, release. -/
def sampleOps : List Op :=
  [.reserve 1 7 3 none, .borrow 1 ⟨0, 1⟩, .submit 1 [] [⟨0, 2⟩], .retire 1 ⟨0, 1⟩,
    .complete 1 ⟨0, 3⟩ 0, .release 1 ⟨0, 2⟩]

theorem cross_references_sample :
    CrossReferenced samplePool sampleOps (final step sampleOps samplePool)
      (history step sampleOps samplePool) :=
  cross_references sample_new sampleOps

end StatePool

end Inferfabric.Runtime
