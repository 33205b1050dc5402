-- SUMMARY: The jobs of the live scheduler: each is on the way of its solo run, and its log says how far.
import IronPangu.Scheduler.Live.Leases
import IronPangu.Scheduler.Live.Delivery

open Rust Method Outcome Std

/-!
# Jobs of the live scheduler

A job prefills or decodes, and its state is that of its transcript. `Inv` adds to the
leases what the log owes to each request; reporting a token and leaving keep it.
-/

namespace Inferfabric.Scheduler

/-! ## Work -/

/-- How many tokens are still to be read or written. -/
def Job.work (job : Job) : Nat :=
  job.request.prompt.length - job.state.consumed + (job.request.maxNewTokens - job.generated)

def work (jobs : ExtTreeMap Nat Job) : Nat := (jobs.toList.map fun e => e.2.work).sum

theorem work_erase {jobs : ExtTreeMap Nat Job} {id : Nat} {job : Job} (h : jobs[id]? = some job) : work (jobs.erase id) + job.work = work jobs := by
  rw [work, work, ((ExtTreeMap.toList_erase_perm h).map _).sum_eq, List.map_cons, List.sum_cons, Nat.add_comm]

theorem work_insert {jobs : ExtTreeMap Nat Job} {id : Nat} {job : Job} (job' : Job) (h : jobs[id]? = some job) :
    work (jobs.insert id job') + job.work = work jobs + job'.work := by
  rw [← work_erase h, work, (ExtTreeMap.toList_replace_perm.map _).sum_eq, List.map_cons, List.sum_cons, ← work]
  dsimp only
  omega

namespace LiveScheduler

open Compiler.Ranks (Artifact Target)
open Transfer (ResourcePool InMemoryTransport Lease Manifest)
open Mock (StepInput StepOutput WorkerGroup fed answer)

variable {a : Artifact} {c : Capacity} {s t : LiveScheduler} {id : Nat} {job job' : Job} {log : List Entry}

/-! ## Jobs -/

/-- What `submit` asks of a request. -/
structure Valid (a : Artifact) (c : Capacity) (request : Request) : Prop where
  nonempty : request.prompt ≠ []
  some : 0 < request.maxNewTokens
  vocabulary : ∀ token ∈ request.prompt, token < a.spec.model.vocab
  room : request.prompt.length + request.maxNewTokens ≤ a.spec.serving.maxContext
  pages : ResourcePool.pageCount a.spec.pageTokens request.prompt.length ≤ c.pages

theorem Valid.vocab {request : Request} (h : Valid a c request) : 0 < a.spec.serving.model.vocab := by
  obtain ⟨token, htoken⟩ := List.exists_mem_of_ne_nil _ h.nonempty
  exact (Nat.zero_le token).trans_lt (h.vocabulary token htoken)

structure Prefilling (a : Artifact) (job : Job) : Prop where
  lease : ∃ lease, job.prefill = some lease ∧
    lease.pages.length = ResourcePool.pageCount a.spec.pageTokens job.request.prompt.length
  decode : job.decode = none
  generated : job.generated = 0
  frontier : job.state.consumed ≤ job.request.prompt.length
  state : job.state = fed a.spec.serving (job.request.prompt.take job.state.consumed)
  next : job.state.consumed = job.request.prompt.length → job.next = following a.spec.serving job.request.prompt

/-- A job after some tokens, whose next one is computed. -/
structure Computed (a : Artifact) (job : Job) (k : Nat) : Prop where
  prefill : job.prefill = none
  decode : ∃ lease, job.decode = some lease
  more : job.generated < job.request.maxNewTokens
  state : job.state = fed a.spec.serving (transcript a.spec.serving job.request.prompt k)
  next : job.next = following a.spec.serving (transcript a.spec.serving job.request.prompt k)

/-- The last token that was reported is the one to be fed. -/
def Decoding (a : Artifact) (job : Job) : Prop := ∃ k, job.generated = k + 1 ∧ Computed a job k

structure JobOk (a : Artifact) (c : Capacity) (id : Nat) (job : Job) : Prop where
  id : job.request.id = id
  valid : Valid a c job.request
  phase : Prefilling a job ∨ Decoding a job

theorem Computed.consumed {k : Nat} (h : Computed a job k) : job.state.consumed = job.request.prompt.length + k := by
  rw [h.state, Mock.fed_consumed, length_transcript]

theorem JobOk.decoding (h : JobOk a c id job) (hdecode : job.decode ≠ none) : Decoding a job :=
  h.phase.resolve_left fun hprefill => hdecode hprefill.decode

theorem JobOk.prefilling (h : JobOk a c id job) (hprefill : job.prefill ≠ none) : Prefilling a job :=
  h.phase.resolve_right fun hdecode => hprefill hdecode.choose_spec.2.prefill

/-! ## The invariant -/

structure Inv (a : Artifact) (c : Capacity) (log : List Entry) (s : LiveScheduler) : Prop where
  leased : Leased a c s
  jobs : ∀ (id : Nat) job, s.jobs[id]? = some job → JobOk a c id job
  serves : ∀ id : Nat, Serves a.spec.serving (log.filter (·.request = id)) s.jobs[id]?

/-- An event is about one request. -/
theorem filter_event (log : List Entry) (event : Event) (id : Nat) :
    (log ++ [Entry.event event]).filter (·.request = id) =
      log.filter (·.request = id) ++ if event.request = id then [Entry.event event] else [] := by
  rw [List.filter_append, List.filter_singleton]
  exact congrArg _ (Bool.cond_decide _ _ _)

/-! ## Leaving -/

theorem Inv.leave {event : Event} (h : Inv a c log s) (hjob : s.jobs[id]? = some job) (hevent : event.request = id)
    (hends : ∀ request stopTokens k events, Generates a.spec.serving request stopTokens k events → job.Of request stopTokens k →
      Finishes a.spec.serving request stopTokens (events ++ [event])) (ht : Leased a c t) (hjobs : t.jobs = s.jobs.erase id) :
    Inv a c (log ++ [.event event]) t where
  leased := ht
  jobs id' job' hjob' := h.jobs id' job' (ExtTreeMap.getElem?_erase_eq_some.mp (hjobs ▸ hjob')).2
  serves id' := by
    rw [filter_event, hjobs]
    rcases eq_or_ne id id' with rfl | hne
    · rw [if_pos hevent, ExtTreeMap.getElem?_erase_self]
      exact (hjob ▸ h.serves id : Serves _ _ (some job)).leave hends
    · rw [if_neg (fun heq => hne (hevent.symm.trans heq)), List.append_nil, ExtTreeMap.getElem?_erase_ne hne]
      exact h.serves id'

/-- The event of a request that is cancelled. -/
theorem Inv.abort (h : Inv a c log s) (hjob : s.jobs[id]? = some job) :
    Inv a c (log ++ [.event ⟨id, none, some .abort⟩]) (s.removed id) := by
  refine h.leave hjob rfl (fun request stopTokens k events hevents hof => ?_) (h.leased.removed id) rfl
  have hid : request.id = id := (congrArg Request.id hof.request).symm.trans (h.jobs id job hjob).id
  exact hid ▸ .abort hevents

/-- The event of a request without room for its next token. -/
theorem Inv.error (h : Inv a c log s) (hjob : s.jobs[id]? = some job) (hdecode : Decoding a job) :
    Inv a c (log ++ [.event ⟨id, none, some (.error "KV growth")⟩]) (s.removed id) := by
  refine h.leave hjob rfl (fun request stopTokens k events hevents hof => ?_) (h.leased.removed id) rfl
  have hid : request.id = id := (congrArg Request.id hof.request).symm.trans (h.jobs id job hjob).id
  obtain ⟨k', hgenerated, -⟩ := hdecode
  obtain rfl : k = k' + 1 := hof.generated.symm.trans hgenerated
  exact hid ▸ .error hevents

/-! ## Tokens -/

theorem finish_counted (job : Job) :
    (finish (counted job) = some .stop ∧ (job.request.eos = some job.next ∨ job.next ∈ job.stopTokens)) ∨
    (finish (counted job) = some .length ∧ ¬(job.request.eos = some job.next ∨ job.next ∈ job.stopTokens) ∧
      job.generated + 1 = job.request.maxNewTokens) ∨
    (finish (counted job) = none ∧ ¬(job.request.eos = some job.next ∨ job.next ∈ job.stopTokens) ∧
      job.generated + 1 ≠ job.request.maxNewTokens) := by
  by_cases hstops : job.request.eos = some job.next ∨ job.next ∈ job.stopTokens
  · exact .inl ⟨if_pos hstops, hstops⟩
  by_cases hlast : job.generated + 1 = job.request.maxNewTokens
  · exact .inr (.inl ⟨(if_neg hstops).trans (if_pos hlast), hstops, hlast⟩)
  · exact .inr (.inr ⟨(if_neg hstops).trans (if_neg hlast), hstops, hlast⟩)

/-- The next token of a computed job is that of its solo run. -/
theorem Computed.generated {k : Nat} (h : Computed a job k) (hvalid : Valid a c job.request) (hk : job.generated = k) {request : Request}
    {stopTokens : List Nat} {n : Nat} (hof : job.Of request stopTokens n) : Generated a.spec.serving request n job.next := by
  have hn : n = k := hof.generated.symm.trans hk
  have hprompt : request.prompt = job.request.prompt := (congrArg Request.prompt hof.request).symm
  have hroom := hvalid.room
  have hmore := h.more
  have hsolo := @solo_run a.spec.serving _ hvalid.nonempty hvalid.vocabulary k (by omega)
  rw [← hn, ← hprompt] at hsolo
  refine ⟨_, hsolo, ?_⟩
  rw [h.next, hn, hprompt]

/-- A job goes on with an event that does not end it. -/
theorem Inv.goOn {event : Event} (h : Inv a c log s) (job' : Job) (hjob : s.jobs[id]? = some job) (hevent : event.request = id)
    (hgoes : ∀ request stopTokens k events, Generates a.spec.serving request stopTokens k events → job.Of request stopTokens k →
      Generates a.spec.serving request stopTokens (k + 1) (events ++ [event]))
    (hof : ∀ request stopTokens k, job.Of request stopTokens k → job'.Of request stopTokens (k + 1)) (hok : JobOk a c id job')
    (ht : Leased a c t) (hjobs : t.jobs = s.jobs.insert id job') : Inv a c (log ++ [.event event]) t where
  leased := ht
  jobs id' job'' hjob'' := by
    rw [hjobs] at hjob''
    rcases ExtTreeMap.getElem?_insert_eq_some.mp hjob'' with ⟨rfl, rfl⟩ | ⟨-, hjob''⟩
    · exact hok
    · exact h.jobs id' job'' hjob''
  serves id' := by
    rw [filter_event, hjobs]
    rcases eq_or_ne id id' with rfl | hne
    · rw [if_pos hevent, ExtTreeMap.getElem?_insert_self]
      exact (hjob ▸ h.serves id : Serves _ _ (some job)).goOn hgoes hof
    · rw [if_neg (fun heq => hne (hevent.symm.trans heq)), List.append_nil, ExtTreeMap.getElem?_insert_ne hne]
      exact h.serves id'

/-- What a job reports is the next token it is owed, and it leaves with its last. -/
theorem Inv.emitted (h : Inv a c log s) (job' : Job) (hjob : s.jobs[id]? = some job) (hrequest : job'.request = job.request)
    (hstop : job'.stopTokens = job.stopTokens) (hgenerated : job'.generated = job.generated) (hcomputed : Computed a job' job'.generated)
    (ht : Leased a c t) (hjobs : t.jobs = LiveScheduler.emitted (s.jobs.insert id job') id job') :
    Inv a c (log ++ [.event ⟨id, some job'.next, finish (counted job')⟩]) t := by
  have hok := h.jobs id job hjob
  have hvalid : Valid a c job'.request := hrequest ▸ hok.valid
  have hof : ∀ {request stopTokens k}, job.Of request stopTokens k → job'.Of request stopTokens k := fun hof =>
    ⟨hrequest.trans hof.request, hstop.trans hof.stopTokens, hgenerated.trans hof.generated⟩
  have hid : ∀ {request stopTokens k}, job.Of request stopTokens k → request.id = id := fun hof =>
    (congrArg Request.id hof.request).symm.trans hok.id
  have hstops : ∀ {request stopTokens k}, job.Of request stopTokens k →
      ((job'.request.eos = some job'.next ∨ job'.next ∈ job'.stopTokens) ↔ Stops request stopTokens job'.next) := by
    intro request stopTokens k h
    rw [(hof h).request, (hof h).stopTokens]
    rfl
  have htoken : ∀ {request stopTokens k}, job.Of request stopTokens k → Generated a.spec.serving request k job'.next :=
    fun h => hcomputed.generated hvalid rfl (hof h)
  have hmaximum : ∀ {request stopTokens k}, job.Of request stopTokens k → k = job'.generated ∧
      request.maxNewTokens = job'.request.maxNewTokens := fun h =>
    ⟨(hof h).generated.symm, (congrArg Request.maxNewTokens (hof h).request).symm⟩
  rcases finish_counted job' with ⟨hfinish, hend⟩ | ⟨hfinish, hgoes, hend⟩ | ⟨hfinish, hgoes, hmore⟩
  · refine h.leave hjob rfl (fun request stopTokens k events hevents h => ?_) ht ?_
    · rw [hfinish, ← hid h]
      exact .stop hevents (htoken h) ((hstops h).mp hend)
    · rw [hjobs, LiveScheduler.emitted, hfinish, if_pos (by rfl), erase_insert]
  · refine h.leave hjob rfl (fun request stopTokens k events hevents h => ?_) ht ?_
    · rw [hfinish, ← hid h]
      exact .length hevents (htoken h) (fun hstops' => hgoes ((hstops h).mpr hstops'))
        (by rw [(hmaximum h).1, (hmaximum h).2, hend])
    · rw [hjobs, LiveScheduler.emitted, hfinish, if_pos (by rfl), erase_insert]
  · refine h.goOn (counted job') hjob rfl (fun request stopTokens k events hevents h => ?_)
      (fun request stopTokens k h => ⟨(hof h).request, (hof h).stopTokens, congrArg (· + 1) (hof h).generated⟩) ?_ ht ?_
    · rw [hfinish, ← hid h]
      refine .token hevents (htoken h) (fun hstops' => hgoes ((hstops h).mpr hstops')) ?_
      rw [(hmaximum h).1, (hmaximum h).2]
      exact Nat.lt_of_le_of_ne hcomputed.more hmore
    · refine ⟨(congrArg Request.id hrequest).trans hok.id, hvalid, .inr ⟨job'.generated, rfl, ?_⟩⟩
      exact { hcomputed with more := Nat.lt_of_le_of_ne hcomputed.more hmore }
    · rw [hjobs, LiveScheduler.emitted, hfinish, if_neg (by simp), ExtTreeMap.insert_insert]

/-- A report is a unit of work, and more when it is the last. -/
theorem work_emitted {jobs : ExtTreeMap Nat Job} (job' : Job) (hjob : jobs[id]? = some job) (hrequest : job'.request = job.request)
    (hgenerated : job'.generated = job.generated) (hconsumed : job.state.consumed ≤ job'.state.consumed)
    (hmore : job'.generated < job'.request.maxNewTokens) :
    work (LiveScheduler.emitted (jobs.insert id job') id job') + 1 ≤ work jobs := by
  have hwork : job'.work ≤ job.work := by
    rw [Job.work, Job.work, hrequest, hgenerated]
    omega
  have hcounted : (counted job').work + 1 = job'.work := by
    simp only [Job.work, counted]
    omega
  unfold LiveScheduler.emitted
  split
  · have herase := work_erase hjob
    rw [erase_insert]
    omega
  · have hinsert := work_insert (counted job') hjob
    rw [ExtTreeMap.insert_insert]
    omega

end LiveScheduler

end Inferfabric.Scheduler
