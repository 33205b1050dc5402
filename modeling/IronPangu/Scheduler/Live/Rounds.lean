-- SUMMARY: A step of the live scheduler, round by round: it always comes back, keeps the invariant, and works off a token.
import IronPangu.Scheduler.Live.Jobs

open Rust Method Outcome Std

/-!
# Rounds of the live scheduler

The inputs of a round belong to different requests, so an output changes only the job it
is for. A round reports what its requests are owed, and leaves less work.
-/

namespace Inferfabric.Scheduler.LiveScheduler

open Compiler.Ranks (Artifact Target)
open Transfer (ResourcePool InMemoryTransport Lease Manifest)
open Mock (StepInput StepOutput WorkerGroup fed answer Steppable)

variable {a : Artifact} {c : Capacity} {s t : LiveScheduler} {id : Nat} {job job' : Job} {log : List Entry}
variable {ids : List Nat} {inputs : List StepInput}

/-! ## Jobs that change -/

/-- A job may change where its request is at the same point. -/
theorem Inv.replace (h : Inv a c log s) (job' : Job) (hjob : s.jobs[id]? = some job) (hrequest : job'.request = job.request)
    (hstop : job'.stopTokens = job.stopTokens) (hgenerated : job'.generated = job.generated)
    (hphase : Prefilling a job' ∨ Decoding a job') (ht : Leased a c t) (hjobs : t.jobs = s.jobs.insert id job') : Inv a c log t where
  leased := ht
  jobs id' job'' hjob'' := by
    have hok := h.jobs id job hjob
    rw [hjobs] at hjob''
    rcases ExtTreeMap.getElem?_insert_eq_some.mp hjob'' with ⟨rfl, rfl⟩ | ⟨-, hjob''⟩
    · exact ⟨(congrArg Request.id hrequest).trans hok.id, hrequest ▸ hok.valid, hphase⟩
    · exact h.jobs id' job'' hjob''
  serves id' := by
    rw [hjobs]
    rcases eq_or_ne id id' with rfl | hne
    · rw [ExtTreeMap.getElem?_insert_self]
      exact (hjob ▸ h.serves id : Serves _ _ (some job)).same hrequest hstop hgenerated
    · rw [ExtTreeMap.getElem?_insert_ne hne]
      exact h.serves id'

/-- A job with the output of a step. -/
def stored (job : Job) (output : StepOutput) : Job := { job with state := output.state, next := output.nextToken }

theorem store_run {output : StepOutput} (hjob : s.jobs[output.request]? = some job) :
    store output s = (.ok (), { s with jobs := s.jobs.insert output.request (stored job output) }) := by
  rw [store, Method.bind_ok (job_run hjob)]
  rfl

/-! ## Decoding -/

/-- An input of the decode round, with room for its token. -/
def Matched (a : Artifact) (s : LiveScheduler) (i : StepInput) : Prop :=
  ∃ job lease, s.jobs[i.request]? = some job ∧ job.decode = some lease ∧
    i = ⟨i.request, lease.epoch, [job.next], job.state, lease.binding⟩ ∧
    ResourcePool.pageCount a.spec.pageTokens (job.state.consumed + 1) ≤ lease.pages.length

structure Gathered (a : Artifact) (c : Capacity) (log : List Entry) (ids : List Nat) (s t : LiveScheduler) (inputs : List StepInput)
    (events : List Event) : Prop where
  inv : Inv a c (log ++ events.map .event) t
  matched : ∀ i ∈ inputs, Matched a t i
  requests : (inputs.map StepInput.request).Sublist ids
  others : ∀ id : Nat, id ∉ ids → t.jobs[id]? = s.jobs[id]?
  length : inputs.length + events.length = ids.length
  work : work t.jobs + events.length ≤ work s.jobs

theorem Computed.withLease {k : Nat} {lease : Lease} (h : Computed a job k) : Computed a { job with decode := some lease } k :=
  { h with decode := ⟨lease, rfl⟩ }

theorem decodeInputs_run (h : Inv a c log s) (hnodup : ids.Nodup)
    (hids : ∀ id ∈ ids, ∃ job, s.jobs[id]? = some job ∧ job.decode ≠ none) :
    ∃ inputs events t, decodeInputs ids s = (.ok (inputs, events), t) ∧ Gathered a c log ids s t inputs events := by
  induction ids generalizing log s with
  | nil =>
    refine ⟨[], [], s, rfl, ⟨?_, by simp, List.Sublist.refl _, fun _ _ => rfl, rfl, le_rfl⟩⟩
    rwa [List.map_nil, List.append_nil]
  | cons id ids ih =>
    obtain ⟨hfresh, hnodup⟩ := List.nodup_cons.mp hnodup
    obtain ⟨⟨job, hjob, hdecode⟩, hids⟩ := List.forall_mem_cons.mp hids
    obtain ⟨lease, hlease⟩ := Option.ne_none_iff_exists'.mp hdecode
    obtain ⟨k, hgenerated, hcomputed⟩ := (h.jobs id job hjob).decoding hdecode
    rcases decodeInput_run h.leased hjob hlease with ⟨lease', t₁, hrun, ht₁, hjobs, hroom⟩ | hrun
    · -- There is room: the job keeps all but its lease.
      have hinv : Inv a c log t₁ := h.replace { job with decode := some lease' } hjob rfl rfl rfl
        (.inr ⟨k, hgenerated, hcomputed.withLease⟩) ht₁ hjobs
      have hsame : ∀ id' : Nat, id ≠ id' → t₁.jobs[id']? = s.jobs[id']? := fun id' hne => by
        rw [hjobs, ExtTreeMap.getElem?_insert_ne hne]
      obtain ⟨inputs, events, t, hrest, hgathered⟩ := ih hinv hnodup fun id' hid' => by
        rw [hsame id' fun heq => hfresh (heq ▸ hid')]
        exact hids id' hid'
      have hwork := work_insert { job with decode := some lease' } hjob
      refine ⟨⟨id, lease'.epoch, [job.next], job.state, lease'.binding⟩ :: inputs, events, t, ?_, ⟨hgathered.inv, List.forall_mem_cons.mpr ⟨?_, hgathered.matched⟩, hgathered.requests.cons_cons id,
        ?_, ?_, ?_⟩⟩
      · rw [decodeInputs, Method.bind_ok hrun, Method.bind_ok hrest]
        rfl
      · refine ⟨{ job with decode := some lease' }, lease', ?_, rfl, rfl, hroom⟩
        exact (hgathered.others id hfresh).trans (by rw [hjobs, ExtTreeMap.getElem?_insert_self])
      · intro id' hid'
        obtain ⟨hne, hid'⟩ := not_or.mp fun hmem => hid' (List.mem_cons.mpr hmem)
        exact (hgathered.others id' hid').trans (hsame id' (Ne.symm hne))
      · rw [List.length_cons, List.length_cons, ← hgathered.length]
        omega
      · have hless := hgathered.work
        rw [hjobs] at hless
        simp only [Job.work] at hwork
        omega
    · -- There is none: the job leaves.
      have hinv := h.error hjob ⟨k, hgenerated, hcomputed⟩
      have hsame : ∀ id' : Nat, id ≠ id' → (s.removed id).jobs[id']? = s.jobs[id']? := fun id' hne =>
        ExtTreeMap.getElem?_erase_ne hne
      obtain ⟨inputs, events, t, hrest, hgathered⟩ := ih hinv hnodup fun id' hid' => by
        rw [hsame id' fun heq => hfresh (heq ▸ hid')]
        exact hids id' hid'
      have hwork := work_erase hjob
      have hpositive : 0 < job.work := by
        have hmore := hcomputed.more
        rw [Job.work]
        omega
      refine ⟨inputs, ⟨id, none, some (.error "KV growth")⟩ :: events, t, ?_, ⟨?_, hgathered.matched, hgathered.requests.cons id, ?_, ?_, ?_⟩⟩
      · rw [decodeInputs, Method.bind_ok hrun, Method.bind_ok hrest]
        rfl
      · have hlog := hgathered.inv
        rwa [List.append_assoc] at hlog
      · intro id' hid'
        obtain ⟨hne, hid'⟩ := not_or.mp fun hmem => hid' (List.mem_cons.mpr hmem)
        exact (hgathered.others id' hid').trans (hsame id' (Ne.symm hne))
      · rw [List.length_cons, List.length_cons, ← hgathered.length]
        omega
      · have hless := hgathered.work
        rw [removed_jobs] at hless
        rw [List.length_cons]
        omega

/-- The bindings of active leases of one pool are apart. -/
theorem bound_of_leases {pool : ResourcePool} {pages slots pageTokens : Nat} (hs : pool.Sound pages slots)
    (hnodup : (inputs.map StepInput.request).Nodup)
    (h : ∀ i ∈ inputs, ∃ lease, pool.active[i.request]? = some lease ∧ i.binding = lease.binding ∧
      ResourcePool.pageCount pageTokens (i.state.consumed + i.tokens.length) ≤ lease.pages.length) : Mock.Bound pageTokens inputs where
  apart := by
    refine (List.pairwise_map.mp hnodup).imp_of_mem ?_
    intro i j hi hj hne
    obtain ⟨lease, hactive, hbinding, -⟩ := h i hi
    obtain ⟨lease', hactive', hbinding', -⟩ := h j hj
    have hleases : lease ≠ lease' := by
      rintro rfl
      exact hne ((hs.keyed _ _ hactive).symm.trans (hs.keyed _ _ hactive'))
    have hmem := ResourcePool.mem_leases_of_active hactive
    have hmem' := ResourcePool.mem_leases_of_active hactive'
    rw [hbinding, hbinding']
    exact ⟨hs.slot_ne hmem hmem' hleases, hs.disjoint hmem hmem' hleases⟩
  distinct i hi := by
    obtain ⟨lease, hactive, hbinding, -⟩ := h i hi
    rw [hbinding]
    exact hs.pages_nodup (ResourcePool.mem_leases_of_active hactive)
  enough i hi := by
    obtain ⟨lease, -, hbinding, henough⟩ := h i hi
    rwa [hbinding]

theorem emitted_other {jobs : ExtTreeMap Nat Job} {id' : Nat} (hne : id ≠ id') :
    (LiveScheduler.emitted (jobs.insert id job) id job)[id']? = jobs[id']? := by
  unfold LiveScheduler.emitted
  split
  · rw [ExtTreeMap.getElem?_erase_ne hne, ExtTreeMap.getElem?_insert_ne hne]
  · rw [ExtTreeMap.getElem?_insert_ne hne, ExtTreeMap.getElem?_insert_ne hne]

/-- A token further. -/
theorem Computed.answered {k : Nat} {i : StepInput} (h : Computed a job k) (hstate : i.state = job.state) (htokens : i.tokens = [job.next]) :
    Computed a (stored job (answer a.spec.serving i)) (k + 1) := by
  have hanswer := answer_fed (hstate.trans h.state) (htokens ▸ List.cons_ne_nil _ _)
  rw [htokens, h.next] at hanswer
  exact { h with
    state := congrArg StepOutput.state hanswer
    next := congrArg StepOutput.nextToken hanswer }

/-- The outputs of a batch are stored and reported one by one. -/
theorem decodeOutputs_run (h : Inv a c log s) (hmatched : ∀ i ∈ inputs, Matched a s i) (hnodup : (inputs.map StepInput.request).Nodup) :
    ∃ events t, decodeOutputs (inputs.map (answer a.spec.serving)) s = (.ok events, t) ∧ Inv a c (log ++ events.map .event) t ∧
      work t.jobs + inputs.length ≤ work s.jobs := by
  induction inputs generalizing log s with
  | nil =>
    refine ⟨[], s, rfl, ?_, le_rfl⟩
    rwa [List.map_nil, List.append_nil]
  | cons i inputs ih =>
    obtain ⟨⟨job, lease, hjob, hlease, hinput, -⟩, hmatched⟩ := List.forall_mem_cons.mp hmatched
    obtain ⟨hfresh, hnodup⟩ := List.nodup_cons.mp hnodup
    have hdecode : job.decode ≠ none := hlease ▸ Option.some_ne_none lease
    obtain ⟨k, hgenerated, hcomputed⟩ := (h.jobs i.request job hjob).decoding hdecode
    have hnext := hcomputed.answered (congrArg StepInput.state hinput) (congrArg StepInput.tokens hinput)
    generalize hjob' : stored job (answer a.spec.serving i) = job' at hnext
    have hsame : job'.request = job.request ∧ job'.stopTokens = job.stopTokens ∧ job'.generated = job.generated := by
      subst hjob'
      exact ⟨rfl, rfl, rfl⟩
    have hleased : Leased a c { s with jobs := s.jobs.insert i.request job' } := by
      subst hjob'
      exact h.leased.setJob _ hjob rfl rfl
    obtain ⟨t₁, hemit, ht₁, hjobs⟩ := emit_run hleased ExtTreeMap.getElem?_insert_self
    replace hjobs : t₁.jobs = LiveScheduler.emitted (s.jobs.insert i.request job') i.request job' := hjobs
    have hinv := h.emitted job' hjob hsame.1 hsame.2.1 hsame.2.2 (hsame.2.2.trans hgenerated ▸ hnext) ht₁ hjobs
    have hrest : ∀ i' ∈ inputs, Matched a t₁ i' := fun i' hi' => by
      obtain ⟨job'', lease'', hjob'', hfits⟩ := hmatched i' hi'
      have hne : i.request ≠ i'.request := fun heq => hfresh (heq ▸ List.mem_map_of_mem hi')
      exact ⟨job'', lease'', by rw [hjobs, emitted_other hne, hjob''], hfits⟩
    obtain ⟨events, t, hrun, ht, hwork⟩ := ih hinv hrest hnodup
    refine ⟨⟨i.request, some job'.next, finish (counted job')⟩ :: events, t, ?_, ?_, ?_⟩
    · have hanswer : (answer a.spec.serving i).request = i.request := rfl
      have hstore := @store_run s _ (answer a.spec.serving i) hjob
      rw [hanswer, hjob'] at hstore
      rw [List.map_cons, decodeOutputs, Method.bind_ok hstore, hanswer, Method.bind_ok hemit, Method.bind_ok hrun]
      rfl
    · rwa [List.append_assoc] at ht
    · have hconsumed : job.state.consumed ≤ job'.state.consumed := by
        rw [hcomputed.consumed, hnext.consumed, hsame.1]
        exact Nat.le_succ _
      have hless := work_emitted job' hjob hsame.1 hsame.2.2 hconsumed hnext.more
      rw [hjobs] at hwork
      rw [List.length_cons]
      omega

/-- The batch is one the decoder's workers cannot refuse. -/
theorem Inv.steppable (h : Inv a c log s) (hmatched : ∀ i ∈ inputs, Matched a s i) (hnodup : (inputs.map StepInput.request).Nodup)
    (hnonempty : inputs ≠ []) {batch : Nat} (hbatch : batch ∈ a.spec.batchBuckets) (hlength : inputs.length ≤ batch) :
    Steppable a.spec .decode inputs where
  nonempty := hnonempty
  bound := by
    refine bound_of_leases h.leased.linked.pool hnodup fun i hi => ?_
    obtain ⟨job, lease, hjob, hlease, hinput, hroom⟩ := hmatched i hi
    refine ⟨lease, h.leased.decodeLease hjob hlease, congrArg StepInput.binding hinput, ?_⟩
    rw [hinput]
    exact hroom
  runnable i hi := by
    obtain ⟨job, lease, hjob, hlease, hinput, -⟩ := hmatched i hi
    have hok := h.jobs i.request job hjob
    have hdecode : job.decode ≠ none := hlease ▸ Option.some_ne_none lease
    obtain ⟨k, hgenerated, hcomputed⟩ := hok.decoding hdecode
    have htokens : i.tokens = [job.next] := congrArg StepInput.tokens hinput
    apply runnable_fed ((congrArg StepInput.state hinput).trans hcomputed.state)
    · exact htokens ▸ List.cons_ne_nil _ _
    · have hroom := hok.valid.room
      have hmore := hcomputed.more
      rw [htokens, length_transcript, List.length_singleton]
      omega
    · rw [htokens, hcomputed.next]
      exact List.forall_mem_singleton.mpr (following_lt hok.valid.vocab)
  batch _ := ⟨batch, hbatch, hlength⟩
  single _ i hi := by
    obtain ⟨job, lease, -, -, hinput, -⟩ := hmatched i hi
    rw [hinput]
    rfl

theorem decodeRound_run (h : Inv a c log s) (hmatched : ∀ i ∈ inputs, Matched a s i) (hnodup : (inputs.map StepInput.request).Nodup)
    {batch : Nat} (hbatch : batch ∈ a.spec.batchBuckets) (hlength : inputs.length ≤ batch) :
    ∃ events t, decodeRound inputs s = (.ok events, t) ∧ Inv a c (log ++ events.map .event) t ∧
      work t.jobs + inputs.length ≤ work s.jobs := by
  rcases eq_or_ne inputs [] with rfl | hnonempty
  · refine ⟨[], s, rfl, ?_, le_rfl⟩
    rwa [List.map_nil, List.append_nil]
  · have hstep := h.leased.decodeGroup.step_run h.leased.positive (h.steppable hmatched hnodup hnonempty hbatch hlength)
    obtain ⟨events, t, hrun, ht, hwork⟩ := decodeOutputs_run h hmatched hnodup
    refine ⟨events, t, ?_, ht, hwork⟩
    rw [decodeRound, Method.bind_ok (Method.get_run s), if_neg hnonempty, hstep]
    exact hrun

/-! ## Prefilling -/

/-- The queue may change its order. -/
theorem Inv.permuted {queue : List Nat} (h : Inv a c log s) (hperm : queue.Perm s.queue) : Inv a c log { s with queue } :=
  { h with
    leased := { h.leased with
      queue := hperm.nodup_iff.mpr h.leased.queue
      queued := fun id => hperm.mem_iff.trans (h.leased.queued id) } }

/-- A queued request prefills. -/
theorem Inv.queued (h : Inv a c log s) (hid : id ∈ s.queue) :
    ∃ job lease, s.jobs[id]? = some job ∧ job.prefill = some lease ∧ Prefilling a job := by
  have hactive := (h.leased.queued id).mp hid
  rw [h.leased.prefill] at hactive
  obtain ⟨lease, hlease⟩ := Option.isSome_iff_exists.mp hactive
  obtain ⟨job, hjob, hprefill⟩ := Option.bind_eq_some_iff.mp hlease
  exact ⟨job, lease, hjob, hprefill, (h.jobs id job hjob).prefilling (hprefill ▸ Option.some_ne_none lease)⟩

/-- An input of the prefill round: the next tokens of a prompt. -/
def Fits (s : LiveScheduler) (i : StepInput) : Prop :=
  ∃ job lease chunk, s.jobs[i.request]? = some job ∧ job.prefill = some lease ∧ 0 < chunk ∧
    chunk ≤ job.request.prompt.length - job.state.consumed ∧
    i = ⟨i.request, lease.epoch, (job.request.prompt.drop job.state.consumed).take chunk, job.state, lease.binding⟩

/-- A prompt that is through. -/
def Through (s : LiveScheduler) (id : Nat) : Prop :=
  ∃ job, s.jobs[id]? = some job ∧ job.state.consumed = job.request.prompt.length

theorem popQueue_run {queue : List Nat} (hqueue : s.queue = id :: queue) : popQueue s = (.ok id, { s with queue }) := by
  rw [popQueue, Method.bind_ok (Method.get_run s)]
  simp only [hqueue]
  rfl

/-- A turn of the loop: the request goes to the back of the queue. -/
theorem prefillInputs_cons {rounds budget : Nat} {queue : List Nat} {lease : Lease} (hbudget : 0 < budget) (hqueue : s.queue = id :: queue)
    (hjob : s.jobs[id]? = some job) (hprefill : job.prefill = some lease) (hfrontier : job.state.consumed ≤ job.request.prompt.length)
    (hrun : prefillInputs rounds (budget - min (job.request.prompt.length - job.state.consumed) budget)
      { s with queue := queue ++ [id] } = (.ok inputs, t)) :
    prefillInputs (rounds + 1) budget s = (.ok (if min (job.request.prompt.length - job.state.consumed) budget > 0 then
      ⟨id, lease.epoch, (job.request.prompt.drop job.state.consumed).take (min (job.request.prompt.length - job.state.consumed) budget),
        job.state, lease.binding⟩ :: inputs else inputs), t) := by
  have hpopped : LiveScheduler.job id { s with queue } = (.ok job, { s with queue }) := job_run hjob
  rw [prefillInputs, if_neg hbudget.ne', Method.bind_ok (popQueue_run hqueue), Method.bind_ok hpopped]
  simp only [hprefill, Method.bind_run, Method.lift_run, Outcome.sub_of_le hfrontier, Method.modify_run, hrun, Method.pure_run]

/-- The loop goes once around the queue; without inputs, and with budget left, all prompts are through. -/
theorem prefillInputs_run {front back : List Nat} {budget : Nat} (h : Inv a c log s) (hqueue : s.queue = front ++ back) :
    ∃ inputs queue, prefillInputs front.length budget s = (.ok inputs, { s with queue }) ∧ queue.Perm s.queue ∧
      (∀ i ∈ inputs, Fits s i) ∧ (inputs.map StepInput.request).Sublist front ∧
      (inputs = [] → 0 < budget → ∀ id ∈ front, Through s id) := by
  induction front generalizing s back budget with
  | nil => exact ⟨[], s.queue, rfl, .rfl, by simp, .refl _, by simp⟩
  | cons id front ih =>
    rcases Nat.eq_zero_or_pos budget with rfl | hbudget
    · refine ⟨[], s.queue, ?_, .rfl, by simp, List.nil_sublist _, fun _ hpos => absurd hpos (Nat.lt_irrefl 0)⟩
      rw [List.length_cons, prefillInputs, if_pos rfl]
      rfl
    obtain ⟨job, lease, hjob, hprefill, hphase⟩ := h.queued (hqueue ▸ List.mem_append_left _ List.mem_cons_self)
    generalize hchunk : min (job.request.prompt.length - job.state.consumed) budget = chunk
    -- The request goes to the back of the queue, and the loop goes on from there.
    have hrotated : (front ++ (back ++ [id])).Perm s.queue := by
      rw [hqueue, ← List.append_assoc]
      exact List.perm_append_singleton id (front ++ back)
    obtain ⟨inputs, queue, hrun, hperm, hfits, hsublist, hthrough⟩ := @ih _ _ (budget - chunk) (h.permuted hrotated) rfl
    have hturn := @prefillInputs_cons _ _ _ _ _ front.length _ _ _ hbudget (hqueue.trans (List.cons_append ..)) hjob hprefill
      hphase.frontier (hchunk ▸ List.append_assoc front back [id] ▸ hrun)
    rw [hchunk] at hturn
    rw [List.length_cons, hturn]
    rcases Nat.eq_zero_or_pos chunk with rfl | hpositive
    · refine ⟨inputs, queue, rfl, hperm.trans hrotated, hfits, hsublist.cons id, fun hempty hpos => ?_⟩
      refine List.forall_mem_cons.mpr ⟨⟨job, hjob, ?_⟩, hthrough hempty hbudget⟩
      have hfrontier := hphase.frontier
      omega
    · refine ⟨_, queue, congrArg (fun inputs => (Outcome.ok inputs, _)) (if_pos hpositive), hperm.trans hrotated, ?_,
        hsublist.cons_cons id, fun hempty => absurd hempty (List.cons_ne_nil _ _)⟩
      refine List.forall_mem_cons.mpr ⟨⟨job, lease, chunk, hjob, hprefill, hpositive, ?_, rfl⟩, hfits⟩
      exact hchunk ▸ Nat.min_le_left _ _

/-- Some tokens of the prompt further. -/
theorem Prefilling.answered {chunk : Nat} {i : StepInput} (h : Prefilling a job) (hstate : i.state = job.state)
    (htokens : i.tokens = (job.request.prompt.drop job.state.consumed).take chunk) (hpositive : 0 < chunk)
    (hchunk : chunk ≤ job.request.prompt.length - job.state.consumed) :
    Prefilling a (stored job (answer a.spec.serving i)) ∧
      (answer a.spec.serving i).state.consumed = job.state.consumed + chunk := by
  have hlength : i.tokens.length = chunk := by
    rw [htokens, List.length_take, List.length_drop]
    exact Nat.min_eq_left hchunk
  have hnonempty : i.tokens ≠ [] := List.ne_nil_of_length_pos (hlength.symm ▸ hpositive)
  have hanswer := answer_fed (hstate.trans h.state) hnonempty
  rw [htokens, ← List.take_add] at hanswer
  have hconsumed : (answer a.spec.serving i).state.consumed = job.state.consumed + chunk := by
    rw [hanswer, Mock.fed_consumed, List.length_take]
    omega
  have hfrontier : (answer a.spec.serving i).state.consumed ≤ job.request.prompt.length := by
    have hle := h.frontier
    omega
  refine ⟨{ h with frontier := hfrontier, state := ?_, next := fun hthrough => ?_ }, hconsumed⟩
  · rw [stored, hconsumed]
    exact congrArg StepOutput.state hanswer
  · have hall : job.state.consumed + chunk = job.request.prompt.length := hconsumed.symm.trans hthrough
    rw [hall, List.take_length] at hanswer
    exact congrArg StepOutput.nextToken hanswer

theorem prefillOutputs_run (h : Inv a c log s) (hfits : ∀ i ∈ inputs, Fits s i) (hnodup : (inputs.map StepInput.request).Nodup) :
    ∃ t, prefillOutputs (inputs.map (answer a.spec.serving)) s = (.ok (), t) ∧ Inv a c log t ∧
      work t.jobs + inputs.length ≤ work s.jobs := by
  induction inputs generalizing s with
  | nil => exact ⟨s, rfl, h, le_rfl⟩
  | cons i inputs ih =>
    obtain ⟨⟨job, lease, chunk, hjob, hprefill, hpositive, hchunk, hinput⟩, hfits⟩ := List.forall_mem_cons.mp hfits
    obtain ⟨hfresh, hnodup⟩ := List.nodup_cons.mp hnodup
    have hphase := (h.jobs i.request job hjob).prefilling (hprefill ▸ Option.some_ne_none lease)
    obtain ⟨hnext, hconsumed⟩ := hphase.answered (congrArg StepInput.state hinput) (congrArg StepInput.tokens hinput) hpositive hchunk
    have hstore := @store_run s _ (answer a.spec.serving i) hjob
    have hleased := h.leased.setJob (stored job (answer a.spec.serving i)) hjob rfl rfl
    have hinv := h.replace (stored job (answer a.spec.serving i)) hjob rfl rfl rfl (.inl hnext) hleased rfl
    have hrest : ∀ i' ∈ inputs, Fits { s with jobs := s.jobs.insert i.request (stored job (answer a.spec.serving i)) } i' := by
      intro i' hi'
      obtain ⟨job', lease', chunk', hjob', hfits'⟩ := hfits i' hi'
      have hne : i.request ≠ i'.request := fun heq => hfresh (heq ▸ List.mem_map_of_mem hi')
      exact ⟨job', lease', chunk', (ExtTreeMap.getElem?_insert_ne hne).trans hjob', hfits'⟩
    obtain ⟨t, hrun, ht, hwork⟩ := ih hinv hrest hnodup
    replace hwork : work t.jobs + inputs.length ≤ work (s.jobs.insert i.request (stored job (answer a.spec.serving i))) := hwork
    refine ⟨t, ?_, ht, ?_⟩
    · rw [prefillOutputs, List.map_cons, forEach, Method.bind_ok hstore]
      exact hrun
    · have hinsert := work_insert (stored job (answer a.spec.serving i)) hjob
      have hstored : (stored job (answer a.spec.serving i)).work + chunk = job.work := by
        simp only [Job.work, stored, hconsumed]
        omega
      rw [List.length_cons]
      omega

theorem prefillRound_run (h : Inv a c log s) (hfits : ∀ i ∈ inputs, Fits s i) (hnodup : (inputs.map StepInput.request).Nodup) :
    ∃ t, prefillRound inputs s = (.ok (), t) ∧ Inv a c log t ∧ work t.jobs + inputs.length ≤ work s.jobs := by
  rcases eq_or_ne inputs [] with rfl | hnonempty
  · exact ⟨s, rfl, h, le_rfl⟩
  · have hsteppable : Steppable a.spec .prefill inputs := {
      nonempty := hnonempty
      bound := by
        refine bound_of_leases h.leased.pool hnodup fun i hi => ?_
        obtain ⟨job, lease, chunk, hjob, hprefill, hpositive, hchunk, hinput⟩ := hfits i hi
        obtain ⟨lease', hlease', hpages⟩ := ((h.jobs i.request job hjob).prefilling (hprefill ▸ Option.some_ne_none lease)).lease
        obtain rfl := Option.some.inj (hprefill.symm.trans hlease')
        refine ⟨lease, h.leased.prefillLease hjob hprefill, congrArg StepInput.binding hinput, ?_⟩
        rw [hinput, hpages, ResourcePool.pageCount, ResourcePool.pageCount]
        apply Nat.div_le_div_right
        dsimp only
        rw [List.length_take, List.length_drop]
        have hfrontier := ((h.jobs i.request job hjob).prefilling (hprefill ▸ Option.some_ne_none lease)).frontier
        omega
      runnable := fun i hi => by
        obtain ⟨job, lease, chunk, hjob, hprefill, hpositive, hchunk, hinput⟩ := hfits i hi
        have hok := h.jobs i.request job hjob
        have hphase := hok.prefilling (hprefill ▸ Option.some_ne_none lease)
        have htokens : i.tokens = (job.request.prompt.drop job.state.consumed).take chunk := congrArg StepInput.tokens hinput
        have hlength : i.tokens.length = chunk := by
          rw [htokens, List.length_take, List.length_drop]
          exact Nat.min_eq_left hchunk
        apply runnable_fed ((congrArg StepInput.state hinput).trans hphase.state)
        · exact List.ne_nil_of_length_pos (hlength.symm ▸ hpositive)
        · have hroom := hok.valid.room
          rw [hlength, List.length_take]
          omega
        · intro token htoken
          rw [htokens] at htoken
          exact hok.valid.vocabulary token (List.mem_of_mem_drop (List.mem_of_mem_take htoken))
      batch := fun hrole => by cases hrole
      single := fun hrole => by cases hrole }
    have hstep := h.leased.prefillGroup.step_run h.leased.positive hsteppable
    obtain ⟨t, hrun, ht, hwork⟩ := prefillOutputs_run h hfits hnodup
    refine ⟨t, ?_, ht, hwork⟩
    rw [prefillRound, Method.bind_ok (Method.get_run s), if_neg hnonempty, hstep]
    exact hrun

end Inferfabric.Scheduler.LiveScheduler
