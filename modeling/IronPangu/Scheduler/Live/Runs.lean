-- SUMMARY: Runs of the live scheduler: every call comes back, every request is served, and enough steps serve them all.
import IronPangu.Scheduler.Live.Rounds

open Rust Method Outcome Std

/-!
# Runs of the live scheduler

A step keeps the invariant and works off at least a token of what is left, so the
scheduler is idle after as many steps as there are tokens to read and to write.
-/

namespace Inferfabric.Scheduler.LiveScheduler

open Compiler.Ranks (Artifact Target validateBuckets)
open Transfer (ResourcePool InMemoryTransport Lease Manifest)
open Mock (StepInput StepOutput WorkerGroup fed answer)

variable {a : Artifact} {c : Capacity} {s t : LiveScheduler} {id : Nat} {job job' : Job} {log : List Entry} {ids : List Nat}

/-! ## Bounds -/

/-- What the steps rely on of a specification that validates. -/
structure Bounded (a : Artifact) (c : Capacity) : Prop where
  budget : 0 < a.spec.tokenBudget
  pageTokens : a.spec.pageTokens ≤ 16777216
  context : a.spec.serving.maxContext ≤ 16777216
  batch : ∃ batch, a.spec.batchBuckets.getLast? = some batch ∧ 0 < batch
  slots : 0 < c.slots

/-- Ascending buckets are positive when the first one is. -/
theorem pos_of_ascending {n : Nat} {ns : List Nat} (hfirst : 0 < n) (h : ∀ p ∈ (n :: ns).zip ns, p.1 < p.2) : ∀ m ∈ n :: ns, 0 < m := by
  induction ns generalizing n with
  | nil => simpa using hfirst
  | cons m ns ih =>
    obtain ⟨hless, hrest⟩ := List.forall_mem_cons.mp h
    exact List.forall_mem_cons.mpr ⟨hfirst, ih (hfirst.trans hless) hrest⟩

theorem pos_of_validateBuckets {buckets : List Nat} (h : validateBuckets buckets = .ok ()) : ∃ n, buckets.getLast? = some n ∧ 0 < n := by
  unfold validateBuckets at h
  split at h
  · exact absurd h invalid_ne_ok
  rename_i hvalid
  cases buckets with
  | nil => exact absurd (.inl rfl) hvalid
  | cons n ns =>
    simp only [List.isEmpty_cons, List.head?_cons, Option.some.injEq, List.tail_cons, List.any_eq_true, not_or, not_exists, not_and,
      decide_eq_true_eq, Nat.not_le] at hvalid
    have hpositive := pos_of_ascending (Nat.pos_of_ne_zero hvalid.2.1) hvalid.2.2
    refine ⟨(n :: ns).getLast (List.cons_ne_nil n ns), List.getLast?_eq_some_getLast _, ?_⟩
    exact hpositive _ (List.getLast_mem _)

theorem bounded_of_validate (h : a.spec.validate = .ok ()) (hslots : 0 < c.slots) : Bounded a c := by
  unfold Compiler.Ranks.Spec.validate at h
  split at h
  · exact absurd h invalid_ne_ok
  rename_i hpositive
  split at h
  · exact absurd h invalid_ne_ok
  rename_i hsmall
  split at h
  · exact absurd h invalid_ne_ok
  obtain ⟨-, h⟩ := check_bind_eq_ok.mp h
  obtain ⟨-, h⟩ := check_bind_eq_ok.mp h
  split at h
  · exact absurd h invalid_ne_ok
  obtain ⟨hbatch, -⟩ := check_bind_eq_ok.mp h
  obtain ⟨hdimensions, hbuckets⟩ := not_or.mp hsmall
  simp only [List.any_eq_true, decide_eq_true_eq, not_exists, not_and, Nat.not_lt, List.mem_append] at hdimensions hbuckets
  exact {
    budget := Nat.pos_of_ne_zero fun hzero => hpositive (.inr (.inr (by simp [Compiler.Ranks.Spec.dimensions, hzero])))
    pageTokens := hdimensions _ (by simp [Compiler.Ranks.Spec.dimensions])
    context := by
      cases hlast : a.spec.contextBuckets.getLast? with
      | none => simp [Spec.maxContext, Compiler.Ranks.Spec.serving, hlast]
      | some n => simpa [Spec.maxContext, Compiler.Ranks.Spec.serving, hlast] using hbuckets n (.inr (List.mem_of_getLast? hlast))
    batch := pos_of_validateBuckets hbatch
    slots := hslots }

/-! ## Handing over -/

/-- A request whose prompt is through, still with the prefill workers. -/
def Ready (s : LiveScheduler) (id : Nat) : Prop :=
  ∃ job, s.jobs[id]? = some job ∧ job.prefill ≠ none ∧ job.state.consumed = job.request.prompt.length

theorem mem_ready : id ∈ s.ready ↔ Ready s id := by
  simp [ready, Ready, ExtTreeMap.mem_toList_iff_getElem?_eq_some, Option.isSome_iff_ne_none]

/-- A prompt that is through waits, or its first token is reported; with the decoder's pool empty it does not wait. -/
theorem handOff_kept (h : Inv a c log s) (hbounded : Bounded a c) (hready : Ready s id) :
    ∃ events t, handOff id s = (.ok events, t) ∧ Inv a c (log ++ events.map .event) t ∧ work t.jobs + events.length ≤ work s.jobs ∧
      (∀ id' : Nat, id ≠ id' → t.jobs[id']? = s.jobs[id']?) ∧ (s.transport.pool.active = ∅ → events ≠ []) := by
  obtain ⟨job, hjob, hprefill, hthrough⟩ := hready
  have hok := h.jobs id job hjob
  have hphase := hok.prefilling hprefill
  obtain ⟨prefill, hlease, -⟩ := hphase.lease
  have hstate : job.state = fed a.spec.serving job.request.prompt := by
    have hstate := hphase.state
    rwa [hthrough, List.take_length] at hstate
  have hroom := hok.valid.room
  have hcontext := hbounded.context
  have hvalid : job.state.validate a.spec.serving = .ok () := by
    refine (hstate ▸ Mock.fed_formed : Mock.Formed a.spec.serving job.state).validate ?_
    omega
  have hnext : job.next < a.spec.model.vocab := hphase.next hthrough ▸ following_lt hok.valid.vocab
  have hsmall : job.state.consumed + a.spec.pageTokens ≤ u64Max := by
    have hpage := hbounded.pageTokens
    unfold u64Max
    omega
  rcases handOff_run h.leased hjob hlease hphase.decode hvalid hnext hsmall with ⟨hshort, hrun⟩ | ⟨lease, t, hrun, ht, hjobs⟩
  · refine ⟨[], s, hrun, ?_, le_rfl, fun _ _ => rfl, fun hempty => absurd hshort ?_⟩
    · rwa [List.map_nil, List.append_nil]
    · apply h.leased.linked.pool.not_short hempty h.leased.transferSettled hbounded.slots
      rw [h.leased.transferPageTokens, hthrough]
      exact hok.valid.pages
  · have hcomputed : Computed a (decoded job lease) (decoded job lease).generated := by
      have hgenerated : (decoded job lease).generated = 0 := hphase.generated
      rw [hgenerated]
      exact {
        prefill := rfl
        decode := ⟨lease, rfl⟩
        more := hgenerated ▸ hok.valid.some
        state := hstate
        next := hphase.next hthrough }
    refine ⟨_, t, hrun, h.emitted (decoded job lease) hjob rfl rfl rfl hcomputed ht hjobs, ?_, fun id' hne => ?_, fun _ => List.cons_ne_nil _ _⟩
    · rw [hjobs]
      exact work_emitted (decoded job lease) hjob rfl rfl le_rfl hcomputed.more
    · rw [hjobs, emitted_other hne]

theorem handOffs_run (h : Inv a c log s) (hbounded : Bounded a c) (hnodup : ids.Nodup) (hready : ∀ id ∈ ids, Ready s id) :
    ∃ events t, handOffs ids s = (.ok events, t) ∧ Inv a c (log ++ events.map .event) t ∧ work t.jobs + events.length ≤ work s.jobs ∧
      (ids ≠ [] → s.transport.pool.active = ∅ → events ≠ []) := by
  induction ids generalizing log s with
  | nil =>
    refine ⟨[], s, rfl, ?_, le_rfl, fun hnonempty => absurd rfl hnonempty⟩
    rwa [List.map_nil, List.append_nil]
  | cons id ids ih =>
    obtain ⟨hfresh, hnodup⟩ := List.nodup_cons.mp hnodup
    obtain ⟨hfirst, hready⟩ := List.forall_mem_cons.mp hready
    obtain ⟨events, t₁, hrun, ht₁, hwork, hothers, hsome⟩ := handOff_kept h hbounded hfirst
    obtain ⟨events', t, hrest, ht, hwork', -⟩ := ih ht₁ hnodup fun id' hid' => by
      obtain ⟨job, hjob, hready'⟩ := hready id' hid'
      exact ⟨job, (hothers id' fun heq => hfresh (heq ▸ hid')).trans hjob, hready'⟩
    refine ⟨events ++ events', t, ?_, ?_, ?_, fun _ hempty => List.append_ne_nil_of_left_ne_nil (hsome hempty) _⟩
    · rw [handOffs, Method.bind_ok hrun, Method.bind_ok hrest]
      rfl
    · rwa [List.append_assoc, ← List.map_append] at ht
    · rw [List.length_append]
      omega

/-! ## Steps -/

theorem nodup_fst_toList {β : Type} (m : ExtTreeMap Nat β) : (m.toList.map Prod.fst).Nodup := by
  refine List.pairwise_map.mpr (m.distinct_keys_toList.imp ?_)
  intro e e' hne heq
  exact hne (heq ▸ compare_self)

theorem nodup_fst_filter (jobs : ExtTreeMap Nat Job) (p : Nat × Job → Bool) : ((jobs.toList.filter p).map Prod.fst).Nodup :=
  (nodup_fst_toList jobs).sublist (List.filter_sublist.map Prod.fst)

theorem nodup_ready (s : LiveScheduler) : s.ready.Nodup := nodup_fst_filter s.jobs _

theorem decoding_mem {batch : Nat} (hid : id ∈ s.decoding batch) : ∃ job, s.jobs[id]? = some job ∧ job.decode ≠ none := by
  obtain ⟨e, he, rfl⟩ := List.mem_map.mp (List.mem_of_mem_take hid)
  obtain ⟨hmem, hdecode⟩ := List.mem_filter.mp he
  exact ⟨e.2, ExtTreeMap.mem_toList_iff_getElem?_eq_some.mp hmem, Option.isSome_iff_ne_none.mp hdecode⟩

/-- Whoever decodes is in some batch. -/
theorem decoding_eq_nil {batch : Nat} (hbatch : 0 < batch) (h : s.decoding batch = []) (hjob : s.jobs[id]? = some job) :
    job.decode = none := by
  have hall := (List.take_eq_nil_iff.mp h).resolve_left hbatch.ne'
  have hfilter := List.filter_eq_nil_iff.mp (List.map_eq_nil_iff.mp hall) (id, job)
    (ExtTreeMap.mem_toList_iff_getElem?_eq_some.mpr hjob)
  exact Option.not_isSome_iff_eq_none.mp hfilter

/-- The decode rounds work off a token for each request of the batch. -/
theorem decoding_run {batch : Nat} (h : Inv a c log s) (hbatch : batch ∈ a.spec.batchBuckets) :
    ∃ inputs dropped decoded t₁ t₂, decodeInputs (s.decoding batch) s = (.ok (inputs, dropped), t₁) ∧
      decodeRound inputs t₁ = (.ok decoded, t₂) ∧ Inv a c (log ++ (dropped ++ decoded).map .event) t₂ ∧
      work t₂.jobs + (s.decoding batch).length ≤ work s.jobs ∧ (s.decoding batch = [] → t₂ = s) := by
  have hnodup : (s.decoding batch).Nodup := (nodup_fst_filter s.jobs _).sublist (List.take_sublist _ _)
  obtain ⟨inputs, dropped, t₁, hinputs, hgathered⟩ := decodeInputs_run h hnodup fun id hid => decoding_mem hid
  have hlength : inputs.length ≤ batch :=
    calc inputs.length ≤ inputs.length + dropped.length := Nat.le_add_right _ _
      _ = (s.decoding batch).length := hgathered.length
      _ ≤ batch := List.length_take_le _ _
  obtain ⟨decoded, t₂, hround, ht₂, hwork⟩ :=
    decodeRound_run hgathered.inv hgathered.matched (hnodup.sublist hgathered.requests) hbatch hlength
  refine ⟨inputs, dropped, decoded, t₁, t₂, hinputs, hround, ?_, ?_, fun hnone => ?_⟩
  · rwa [List.map_append, ← List.append_assoc]
  · have hless := hgathered.work
    rw [← hgathered.length]
    omega
  · rw [hnone] at hinputs
    obtain ⟨hnothing, rfl⟩ := Prod.mk.inj hinputs
    obtain ⟨rfl, rfl⟩ := Prod.mk.inj (Outcome.ok.inj hnothing)
    exact (Prod.mk.inj hround).2.symm

/-- The prefill rounds work off some tokens, or all prompts are through. -/
theorem prefilling_run (h : Inv a c log s) (hbounded : Bounded a c) :
    ∃ inputs t₁ t₂, prefillInputs s.queue.length a.spec.tokenBudget s = (.ok inputs, t₁) ∧ prefillRound inputs t₁ = (.ok (), t₂) ∧
      Inv a c log t₂ ∧ work t₂.jobs ≤ work s.jobs ∧
      (work t₂.jobs = work s.jobs → t₂.jobs = s.jobs ∧ t₂.transport = s.transport ∧ ∀ id ∈ s.queue, Through s id) := by
  obtain ⟨inputs, queue, hinputs, hperm, hfits, hsublist, hthrough⟩ := @prefillInputs_run _ _ _ _ s.queue [] a.spec.tokenBudget h
    (List.append_nil _).symm
  obtain ⟨t₂, hround, ht₂, hwork⟩ := prefillRound_run (h.permuted hperm) hfits (h.leased.queue.sublist hsublist)
  refine ⟨inputs, _, t₂, hinputs, hround, ht₂, (Nat.le_add_right _ _).trans hwork, fun hsame => ?_⟩
  have hnone : inputs = [] := by
    apply List.eq_nil_of_length_eq_zero
    replace hwork : work t₂.jobs + inputs.length ≤ work s.jobs := hwork
    omega
  subst hnone
  obtain rfl := (Prod.mk.inj hround).2
  exact ⟨rfl, rfl, hthrough rfl hbounded.budget⟩

/-- Every request has something left to do. -/
theorem JobOk.work_pos (h : JobOk a c id job) : 0 < job.work := by
  have hmore : job.generated < job.request.maxNewTokens := by
    rcases h.phase with hphase | ⟨k, -, hphase⟩
    · exact hphase.generated ▸ h.valid.some
    · exact hphase.more
  exact Nat.add_pos_right _ (Nat.sub_pos_of_lt hmore)

theorem exists_job {jobs : ExtTreeMap Nat Job} (h : work jobs ≠ 0) : ∃ (id : Nat) (job : Job), jobs[id]? = some job := by
  by_contra hnone
  have hempty : jobs = ∅ := by
    refine ExtTreeMap.ext_getElem? fun id => ?_
    exact Option.eq_none_iff_forall_ne_some.mpr fun job hjob => hnone ⟨id, job, hjob⟩
  exact h (hempty ▸ rfl)

theorem Inv.idle (h : Inv a c log s) (hwork : work s.jobs = 0) : s.jobs = ∅ := by
  refine ExtTreeMap.ext_getElem? fun id => ?_
  cases hjob : s.jobs[id]? with
  | none => rfl
  | some job =>
    have hpositive := (h.jobs id job hjob).work_pos
    have herase := work_erase hjob
    omega

/-- With all prompts through and nobody decoding, there is a request to hand over, and all the room there ever was. -/
theorem Inv.progress (h : Inv a c log s) (hdecode : ∀ (id : Nat) job, s.jobs[id]? = some job → job.decode = none)
    (hthrough : ∀ id ∈ s.queue, Through s id) (hjob : s.jobs[id]? = some job) : Ready s id ∧ s.transport.pool.active = ∅ := by
  constructor
  · have hphase := (h.jobs id job hjob).phase.resolve_right fun hdecoding => by
      obtain ⟨k, -, hcomputed⟩ := hdecoding
      obtain ⟨lease, hlease⟩ := hcomputed.decode
      simp [hdecode id job hjob] at hlease
    obtain ⟨lease, hlease, -⟩ := hphase.lease
    have hqueued : id ∈ s.queue := (h.leased.queued id).mpr (Option.isSome_iff_exists.mpr ⟨lease, h.leased.prefillLease hjob hlease⟩)
    obtain ⟨job', hjob', hconsumed⟩ := hthrough id hqueued
    obtain rfl := Option.some.inj (hjob.symm.trans hjob')
    exact ⟨job, hjob, hlease ▸ Option.some_ne_none lease, hconsumed⟩
  · refine ExtTreeMap.ext_getElem? fun id => ?_
    rw [h.leased.decode]
    cases hjob : s.jobs[id]? with
    | none => rfl
    | some job => exact hdecode id job hjob

/-- A step comes back, keeps the invariant, and works off a token while there is one. -/
theorem step_run (h : Inv a c log s) (hbounded : Bounded a c) :
    ∃ events t, step s = (.ok events, t) ∧ Inv a c (log ++ events.map .event) t ∧ work t.jobs ≤ work s.jobs - 1 := by
  obtain ⟨batch, hlast, hbatch⟩ := hbounded.batch
  obtain ⟨inputs, dropped, decoded, t₁, t₂, hinputs, hround, ht₂, hdecoded, hsame⟩ := decoding_run h (List.mem_of_getLast? hlast)
  obtain ⟨prompts, t₃, t₄, hprompts, hprefill, ht₄, hprefilled, hthrough⟩ := prefilling_run ht₂ hbounded
  obtain ⟨handed, t, hhanded, ht, hwork, hsome⟩ := handOffs_run ht₄ hbounded t₄.nodup_ready fun id hid => mem_ready.mp hid
  refine ⟨dropped ++ decoded ++ handed, t, ?_, ?_, ?_⟩
  · have hbuckets : okOr s.artifact.spec.batchBuckets.getLast? (Error.invalid "no buckets") = .ok batch := by
      rw [h.leased.artifact, hlast, okOr_some]
    have hbudget : t₂.artifact.spec.tokenBudget = a.spec.tokenBudget := congrArg (·.spec.tokenBudget) ht₂.leased.artifact
    simp only [step, Method.bind_run, Method.get_run, Method.lift_run, hbuckets, hinputs, hround, hbudget, hprompts, hprefill,
      hhanded, Method.pure_run]
  · rwa [List.map_append, ← List.append_assoc]
  · by_contra hstuck
    have hnobody : s.decoding batch = [] := List.eq_nil_of_length_eq_zero (by omega)
    obtain rfl := hsame hnobody
    obtain ⟨hjobs, htransport, hall⟩ := hthrough (by omega)
    obtain ⟨id, job, hjob⟩ : ∃ (id : Nat) (job : Job), t₂.jobs[id]? = some job := exists_job (by omega)
    obtain ⟨hready, hempty⟩ := h.progress (fun id job => decoding_eq_nil hbatch hnobody) hall hjob
    have hmem : id ∈ t₄.ready := mem_ready.mpr (by rwa [Ready, hjobs])
    have hevents := List.length_pos_iff.mpr (hsome (List.ne_nil_of_mem hmem) (htransport ▸ hempty))
    omega

/-! ## Calls -/

/-- What a call adds to the log. -/
def entries : Op → Result (List Event) → List Entry
  | .submit request stopTokens, .ok _ => [.admitted request stopTokens]
  | _, .ok events => events.map .event
  | _, _ => []

/-- Only a submission may be refused. -/
def Answered : Op → Result (List Event) → Prop
  | .submit _ _, reply => reply = .ok [] ∨ ∃ error, reply = .err error
  | _, reply => ∃ events, reply = .ok events

theorem admitted_ok {request : Request} {stopTokens : List Nat} {lease : Lease} (hvalid : Valid a c request)
    (hpages : lease.pages.length = ResourcePool.pageCount a.spec.pageTokens request.prompt.length) :
    JobOk a c request.id (admitted a request stopTokens lease) where
  id := rfl
  valid := { hvalid with }
  phase := .inl {
    lease := ⟨lease, rfl, hpages⟩
    decode := rfl
    generated := rfl
    frontier := Nat.zero_le _
    state := rfl
    next := fun hempty => absurd (List.eq_nil_of_length_eq_zero hempty.symm) hvalid.nonempty }

/-- A request that is admitted starts a life of its number. -/
theorem Inv.admit {request : Request} {stopTokens : List Nat} {lease : Lease} (h : Inv a c log s) (hnew : s.jobs[request.id]? = none)
    (hvalid : Valid a c request) (hpages : lease.pages.length = ResourcePool.pageCount a.spec.pageTokens request.prompt.length)
    (ht : Leased a c t) (hjobs : t.jobs = s.jobs.insert request.id (admitted a request stopTokens lease)) :
    Inv a c (log ++ [.admitted request stopTokens]) t where
  leased := ht
  jobs id job hjob := by
    rw [hjobs] at hjob
    rcases ExtTreeMap.getElem?_insert_eq_some.mp hjob with ⟨rfl, rfl⟩ | ⟨-, hjob⟩
    · exact admitted_ok hvalid hpages
    · exact h.jobs id job hjob
  serves id := by
    rw [List.filter_append, hjobs]
    rcases eq_or_ne request.id id with rfl | hne
    · rw [ExtTreeMap.getElem?_insert_self]
      have hlog := h.serves request.id
      rw [hnew] at hlog
      have hof : (admitted a request stopTokens lease).Of request stopTokens 0 := ⟨rfl, rfl, rfl⟩
      have hhere : [Entry.admitted request stopTokens].filter (·.request = request.id) =
          .admitted request stopTokens :: ([] : List Event).map .event := by simp [Entry.request]
      rw [hhere]
      exact .ongoing hlog .start hof
    · have hother : [Entry.admitted request stopTokens].filter (·.request = id) = [] := by simp [Entry.request, hne]
      rw [hother, List.append_nil, ExtTreeMap.getElem?_insert_ne hne]
      exact h.serves id

theorem submit_run (h : Inv a c log s) (request : Request) (stopTokens : List Nat) :
    (∃ error t, submit request stopTokens s = (.err error, t) ∧ Inv a c log t) ∨
    ∃ t, submit request stopTokens s = (.ok (), t) ∧ Inv a c (log ++ [.admitted request stopTokens]) t := by
  rcases submit_cases h.leased request stopTokens with ⟨error, t, hrun, ht, hjobs⟩ | ⟨lease, t, hrun, hrefuses, -, hroom, hpages, ht, hjobs⟩
  · exact .inl ⟨error, t, hrun, ht, hjobs ▸ h.jobs, hjobs ▸ h.serves⟩
  · obtain rfl := h.leased.artifact
    simp only [refuses, not_or, not_exists, not_and, Nat.not_le, Nat.not_lt] at hrefuses
    obtain ⟨hnew, hnonempty, hsome, hvocabulary, hlong⟩ := hrefuses
    have hvalid : Valid s.artifact c request := ⟨hnonempty, Nat.pos_of_ne_zero hsome, hvocabulary, hlong, hroom⟩
    exact .inr ⟨t, hrun, h.admit (ExtTreeMap.getElem?_eq_none hnew) hvalid hpages ht hjobs⟩

theorem cancel_run (h : Inv a c log s) (id : Nat) :
    ∃ event, cancel id s = (.ok event, s.removed id) ∧ Inv a c (log ++ event.toList.map .event) (s.removed id) := by
  refine ⟨if id ∈ s.jobs then some ⟨id, none, some .abort⟩ else none, ?_, ?_⟩
  · simp only [cancel, Method.bind_run, Method.get_run, remove_run h.leased, Method.pure_run]
  · split
    case isTrue hmem =>
      obtain ⟨job, hjob⟩ := Option.isSome_iff_exists.mp (ExtTreeMap.isSome_getElem?_iff_mem.mpr hmem)
      exact h.abort hjob
    case isFalse hmem =>
      have hjobs : (s.removed id).jobs = s.jobs := erase_eq_self (ExtTreeMap.getElem?_eq_none hmem)
      rw [Option.toList_none, List.map_nil, List.append_nil]
      exact ⟨h.leased.removed id, hjobs ▸ h.jobs, hjobs ▸ h.serves⟩

theorem call_run (h : Inv a c log s) (hbounded : Bounded a c) (op : Op) :
    Answered op (call op s).1 ∧ Inv a c (log ++ entries op (call op s).1) (call op s).2 := by
  cases op with
  | submit request stopTokens =>
    rcases submit_run h request stopTokens with ⟨error, t, hrun, ht⟩ | ⟨t, hrun, ht⟩
    · rw [call, Method.bind_err hrun]
      exact ⟨.inr ⟨error, rfl⟩, (List.append_nil log).symm ▸ ht⟩
    · rw [call, Method.bind_ok hrun]
      exact ⟨.inl rfl, ht⟩
  | cancel id =>
    obtain ⟨event, hrun, ht⟩ := cancel_run h id
    rw [call, Method.bind_ok hrun]
    exact ⟨⟨event.toList, rfl⟩, ht⟩
  | step =>
    obtain ⟨events, t, hrun, ht, -⟩ := step_run h hbounded
    rw [call, hrun]
    exact ⟨⟨events, rfl⟩, ht⟩

/-! ## Runs -/

/-- The log of a run. -/
def logged (events : List (Rust.Event LiveScheduler Error Op (List Event))) : List Entry :=
  events.flatMap fun ev => entries ev.call ev.reply

theorem mock_inv {key : Compiler.Ranks.Spec → Target → Result String} (h : mock key a c = .ok s) : Inv a c [] s ∧ Bounded a c := by
  obtain ⟨prefill, hprefill, h⟩ := Outcome.bind_eq_ok.mp h
  obtain ⟨decode, hdecode, h⟩ := Outcome.bind_eq_ok.mp h
  obtain ⟨pPool, hpool, h⟩ := Outcome.bind_eq_ok.mp h
  obtain ⟨transport, htransport, h⟩ := Outcome.bind_eq_ok.mp h
  obtain rfl := Outcome.ok.inj h
  obtain ⟨hprefillGroup, hvalid⟩ := WorkerGroup.mock_started hprefill
  obtain ⟨hdecodeGroup, -⟩ := WorkerGroup.mock_started hdecode
  have hfresh := ResourcePool.new_fresh hpool
  obtain ⟨htransportFresh, hspec, hkey⟩ := InMemoryTransport.new_fresh htransport
  have hleased : Leased a c ⟨a, prefill, decode, pPool, transport, ∅, [], c, 0⟩ := {
    artifact := rfl
    capacity := rfl
    prefillGroup := hprefillGroup
    decodeGroup := hdecodeGroup
    spec := hspec
    key := hkey
    pool := ResourcePool.sound_new hpool
    linked := (InMemoryTransport.new_linked htransport).1
    pageTokens := hfresh.pageTokens
    transferPageTokens := htransportFresh.pageTokens
    settled := hfresh.retired
    transferSettled := htransportFresh.retired
    prefill := by simp [hfresh.active]
    decode := by simp [htransportFresh.active]
    queue := List.nodup_nil
    queued := by simp [hfresh.active]
    issued := hfresh.generation.le
    transferred := by simp [hfresh.active, htransportFresh.generation]
    epoch := Nat.zero_le _ }
  exact ⟨⟨hleased, by simp, fun _ => .fresh⟩, bounded_of_validate hvalid hfresh.slots⟩

theorem run_inv (h : Inv a c log s) (hbounded : Bounded a c) (ops : List Op) :
    (∀ ev ∈ history call ops s, Answered ev.call ev.reply) ∧ Inv a c (log ++ logged (history call ops s)) (final call ops s) := by
  apply @history_induction _ _ _ _ call s
    (fun events t => (∀ ev ∈ events, Answered ev.call ev.reply) ∧ Inv a c (log ++ logged events) t)
  · refine ⟨by simp, ?_⟩
    rwa [logged, List.flatMap_nil, List.append_nil]
  · intro events t op ht
    obtain ⟨hanswered, hnext⟩ := call_run ht.2 hbounded op
    refine ⟨List.forall_mem_append.mpr ⟨ht.1, List.forall_mem_singleton.mpr hanswered⟩, ?_⟩
    rwa [logged, List.flatMap_append, List.flatMap_singleton, ← List.append_assoc]

/-- After as many steps as there is work, nothing is left. -/
theorem drained (h : Inv a c log s) (hbounded : Bounded a c) {n : Nat} (hn : work s.jobs ≤ n) :
    (final call (List.replicate n .step) s).jobs = ∅ := by
  induction n generalizing log s with
  | zero => exact h.idle (Nat.le_zero.mp hn)
  | succ n ih =>
    obtain ⟨events, t, hrun, ht, hwork⟩ := step_run h hbounded
    have hcall : (call .step s).2 = t := congrArg Prod.snd hrun
    rw [List.replicate_succ, final_cons, hcall]
    exact ih ht (by omega)

/-- A request holds one lease, which its pool knows. -/
def Holds (s : LiveScheduler) (id : Nat) (job : Job) : Prop :=
  (∃ lease, job.prefill = some lease ∧ job.decode = none ∧ s.pPool.active[id]? = some lease) ∨
  ∃ lease, job.prefill = none ∧ job.decode = some lease ∧ s.transport.pool.active[id]? = some lease

theorem Inv.holds (h : Inv a c log s) (hjob : s.jobs[id]? = some job) : Holds s id job := by
  rcases (h.jobs id job hjob).phase with hphase | ⟨k, -, hphase⟩
  · obtain ⟨lease, hlease, -⟩ := hphase.lease
    exact .inl ⟨lease, hlease, hphase.decode, h.leased.prefillLease hjob hlease⟩
  · obtain ⟨lease, hlease⟩ := hphase.decode
    exact .inr ⟨lease, hphase.prefill, hlease, h.leased.decodeLease hjob hlease⟩

/-- A pool has as many leases as there are jobs with one. -/
theorem size_active {f : Job → Option Lease} {active : ExtTreeMap Nat Lease} {jobs : ExtTreeMap Nat Job}
    (h : ∀ id : Nat, active[id]? = jobs[id]?.bind f) : active.size = (jobs.toList.filter fun e => (f e.2).isSome).length := by
  have hperm : (active.toList.map Prod.fst).Perm ((jobs.toList.filter fun e => (f e.2).isSome).map Prod.fst) := by
    refine (List.perm_ext_iff_of_nodup (nodup_fst_toList active) (nodup_fst_filter jobs _)).mpr fun id => ?_
    simp only [List.mem_map, List.mem_filter, Prod.exists, exists_and_right, exists_eq_right,
      ExtTreeMap.mem_toList_iff_getElem?_eq_some, h, Option.bind_eq_some_iff, Option.isSome_iff_exists]
    grind
  simpa using hperm.length_eq

theorem Inv.allocations (h : Inv a c log s) : s.allocations = s.jobs.size := by
  have hprefill := size_active h.leased.prefill
  have hdecode := size_active h.leased.decode
  have hone : ∀ e ∈ s.jobs.toList, (!e.2.prefill.isSome) = e.2.decode.isSome := by
    intro e he
    rcases h.holds (ExtTreeMap.mem_toList_iff_getElem?_eq_some.mp he) with ⟨lease, hprefill, hdecode, -⟩ | ⟨lease, hprefill, hdecode, -⟩
    · rw [hprefill, hdecode]
      rfl
    · rw [hprefill, hdecode]
      rfl
  have hsplit := List.length_eq_length_filter_add (l := s.jobs.toList) fun e => e.2.prefill.isSome
  rw [List.filter_congr hone, ← hprefill, ← hdecode, ExtTreeMap.length_toList] at hsplit
  rw [LiveScheduler.allocations, h.leased.settled, h.leased.transferSettled, List.length_nil, Nat.add_zero, Nat.add_zero]
  exact hsplit.symm

structure Serving (a : Artifact) (log : List Entry) (s : LiveScheduler) : Prop where
  holds : ∀ (id : Nat) job, s.jobs[id]? = some job → Holds s id job
  allocations : s.allocations = s.jobs.size
  serves : ∀ id : Nat, Serves a.spec.serving (log.filter (·.request = id)) s.jobs[id]?
  drained : ∀ n ≥ work s.jobs, (final call (List.replicate n .step) s).isIdle ∧ (final call (List.replicate n .step) s).allocations = 0

/-- The lifecycle of the requests, over every order of calls. -/
theorem live_serving {key : Compiler.Ranks.Spec → Target → Result String} (hnew : mock key a c = .ok s) (ops : List Op) :
    (∀ ev ∈ history call ops s, Answered ev.call ev.reply) ∧ Serving a (logged (history call ops s)) (final call ops s) := by
  obtain ⟨hinit, hbounded⟩ := mock_inv hnew
  obtain ⟨hanswered, hinv⟩ := run_inv hinit hbounded ops
  refine ⟨hanswered, {
    holds := fun id job hjob => hinv.holds hjob
    allocations := hinv.allocations
    serves := hinv.serves
    drained := fun n hn => ?_ }⟩
  have hdrained := drained hinv hbounded hn
  have hlast := (run_inv hinv hbounded (List.replicate n .step)).2
  rw [isIdle, hlast.allocations, hdrained]
  exact ⟨rfl, rfl⟩

/-- One full layer on one worker of each role. -/
def servedSpec : Compiler.Ranks.Spec where
  model := ⟨"full", 8, 8, 16, 4, 2, 4, 2, 4, 3, [.full]⟩
  prefill := ⟨1, 1, false⟩
  decode := ⟨1, 1, false⟩
  pageTokens := 4
  tokenBudget := 2
  batchBuckets := [1, 2]
  contextBuckets := [8]

def servedOps : List Op :=
  [.submit ⟨1, [3, 4, 5], 3, 0, none, none⟩ [], .step, .submit ⟨2, [6], 2, 0, none, none⟩ [], .step, .cancel 2, .step]

theorem live_serving_sample : ∃ a s, Compiler.Ranks.compile (fun _ _ => .ok "key") servedSpec ⟨.mock, "cpu-mock", "none", "mock-v1", []⟩ = .ok a ∧
    mock (fun _ _ => .ok "key") a ⟨4, 2⟩ = .ok s ∧ (∀ ev ∈ history call servedOps s, Answered ev.call ev.reply) ∧
    Serving a (logged (history call servedOps s)) (final call servedOps s) :=
  ⟨_, _, rfl, rfl, @live_serving _ ⟨4, 2⟩ _ (fun _ _ => .ok "key") rfl servedOps⟩

end Inferfabric.Scheduler.LiveScheduler
