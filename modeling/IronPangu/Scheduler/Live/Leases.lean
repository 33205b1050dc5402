-- SUMMARY: Every request of the live scheduler holds one lease, of one of two pools, and what it held is free when it leaves.
import IronPangu.Scheduler.Live
import IronPangu.Transfer.Owned

open Rust Method Std

/-!
# Leases of the live scheduler

The active leases of the two pools are those of the jobs, and nothing stays retired. So
no call on a pool is refused but for lack of capacity.
-/

namespace Inferfabric.Scheduler.LiveScheduler

open Compiler.Ranks (Artifact Target)
open Transfer (ResourcePool InMemoryTransport Lease Manifest)
open Mock (StepInput StepOutput WorkerGroup)

variable {a : Artifact} {c : Capacity} {s t : LiveScheduler} {id : Nat} {job : Job} {lease : Lease}

/-! ## The invariant -/

structure Leased (a : Artifact) (c : Capacity) (s : LiveScheduler) : Prop where
  artifact : s.artifact = a
  capacity : s.capacity = c
  prefillGroup : s.prefill.Started a .prefill
  decodeGroup : s.decode.Started a .decode
  spec : s.transport.spec = a.spec.serving
  key : s.transport.key = a.key
  pool : s.pPool.Sound c.pages c.slots
  linked : s.transport.Linked c.pages c.slots
  pageTokens : s.pPool.pageTokens = a.spec.pageTokens
  transferPageTokens : s.transport.pool.pageTokens = a.spec.pageTokens
  settled : s.pPool.retired = []
  transferSettled : s.transport.pool.retired = []
  prefill : ∀ id : Nat, s.pPool.active[id]? = s.jobs[id]?.bind Job.prefill
  decode : ∀ id : Nat, s.transport.pool.active[id]? = s.jobs[id]?.bind Job.decode
  queue : s.queue.Nodup
  queued : ∀ id : Nat, id ∈ s.queue ↔ (s.pPool.active[id]?).isSome
  issued : s.pPool.generation ≤ s.epoch
  transferred : s.transport.pool.generation + s.pPool.active.size ≤ s.epoch
  epoch : s.epoch ≤ u64Max

theorem Leased.positive (h : Leased a c s) : 0 < a.spec.pageTokens := h.pageTokens ▸ h.pool.pageTokens

theorem Leased.prefillLease (h : Leased a c s) (hjob : s.jobs[id]? = some job) (hlease : job.prefill = some lease) :
    s.pPool.active[id]? = some lease := by
  rw [h.prefill, hjob, Option.bind_some, hlease]

theorem Leased.decodeLease (h : Leased a c s) (hjob : s.jobs[id]? = some job) (hlease : job.decode = some lease) :
    s.transport.pool.active[id]? = some lease := by
  rw [h.decode, hjob, Option.bind_some, hlease]

/-- A job may change in all but its leases. -/
theorem Leased.setJob (h : Leased a c s) (job' : Job) (hjob : s.jobs[id]? = some job) (hprefill : job'.prefill = job.prefill)
    (hdecode : job'.decode = job.decode) : Leased a c { s with jobs := s.jobs.insert id job' } := by
  refine { h with prefill := fun id' => ?_, decode := fun id' => ?_ }
  · rcases eq_or_ne id id' with rfl | hne
    · rw [ExtTreeMap.getElem?_insert_self, h.prefill, hjob, Option.bind_some, Option.bind_some, hprefill]
    · rw [ExtTreeMap.getElem?_insert_ne hne, h.prefill]
  · rcases eq_or_ne id id' with rfl | hne
    · rw [ExtTreeMap.getElem?_insert_self, h.decode, hjob, Option.bind_some, Option.bind_some, hdecode]
    · rw [ExtTreeMap.getElem?_insert_ne hne, h.decode]

/-! ## Leaving -/

def retiredPool (pool : ResourcePool) : Option Lease → ResourcePool
  | some lease => { pool with
      active := pool.active.erase lease.request
      retired := pool.retired ++ [lease] }
  | none => pool

def retiredTransport (transport : InMemoryTransport) : Option Lease → InMemoryTransport
  | some lease => { transport with
      pool := retiredPool transport.pool (some lease)
      entries := transport.entries.erase lease.request }
  | none => transport

/-- The scheduler without a request. -/
def removed (s : LiveScheduler) (id : Nat) : LiveScheduler :=
  { s with
    jobs := s.jobs.erase id
    queue := s.queue.filter (· ≠ id)
    pPool := (retiredPool s.pPool (s.jobs[id]?.bind Job.prefill)).fenced
    transport :=
      let transport := retiredTransport s.transport (s.jobs[id]?.bind Job.decode)
      { transport with pool := transport.pool.fenced } }

theorem release_run (hprefill : ∀ lease ∈ job.prefill, s.pPool.Held lease lease)
    (hdecode : ∀ lease ∈ job.decode, s.transport.pool.Held lease lease) :
    release job s = (.ok (), { s with
      pPool := retiredPool s.pPool job.prefill
      transport := retiredTransport s.transport job.decode }) := by
  cases hp : job.prefill with
  | none =>
    cases hd : job.decode with
    | none => simp only [release, hp, hd, Method.bind_run, Method.pure_run, retiredPool, retiredTransport]
    | some lease =>
      simp only [release, hp, hd, Method.bind_run, Method.pure_run, onTransport, retiredPool, retiredTransport,
        InMemoryTransport.finish_run (hdecode lease hd)]
  | some lease =>
    cases hd : job.decode with
    | none =>
      simp only [release, hp, hd, Method.bind_run, Method.pure_run, onPool, retiredPool, retiredTransport,
        ResourcePool.retire_run (hprefill lease hp)]
    | some lease' =>
      simp only [release, hp, hd, Method.bind_run, onPool, onTransport, retiredPool, retiredTransport,
        ResourcePool.retire_run (hprefill lease hp), InMemoryTransport.finish_run (hdecode lease' hd)]

theorem remove_run (h : Leased a c s) (id : Nat) : remove id s = (.ok (), s.removed id) := by
  cases hjob : s.jobs[id]? with
  | none =>
    simp only [remove, Method.bind_run, Method.get_run, Method.modify_run, Method.pure_run, hjob]
    simp only [removed, hjob, Option.bind_none, retiredPool, retiredTransport]
    rfl
  | some job =>
    have hrun := @release_run { s with jobs := s.jobs.erase id } job
      (fun lease hlease => h.pool.held (h.prefillLease hjob hlease))
      (fun lease hlease => h.linked.pool.held (h.decodeLease hjob hlease))
    simp only [remove, Method.bind_run, Method.get_run, Method.modify_run, hjob, hrun]
    simp only [removed, hjob, Option.bind_some]
    rfl

theorem erase_eq_self {β : Type} {m : ExtTreeMap Nat β} (h : m[id]? = none) : m.erase id = m := by
  refine ExtTreeMap.ext_getElem? fun k => ?_
  rcases eq_or_ne id k with rfl | hne
  · rw [ExtTreeMap.getElem?_erase_self, h]
  · rw [ExtTreeMap.getElem?_erase_ne hne]

theorem erase_insert {β : Type} {m : ExtTreeMap Nat β} {v : β} : (m.insert id v).erase id = m.erase id := by
  refine ExtTreeMap.ext_getElem? fun k => ?_
  rcases eq_or_ne id k with rfl | hne
  · rw [ExtTreeMap.getElem?_erase_self, ExtTreeMap.getElem?_erase_self]
  · rw [ExtTreeMap.getElem?_erase_ne hne, ExtTreeMap.getElem?_erase_ne hne, ExtTreeMap.getElem?_insert_ne hne]

/-- Whether or not it had one, the request has no lease of the pool any more. -/
theorem retiredPool_active {pool : ResourcePool} {pages slots : Nat} (hs : pool.Sound pages slots) :
    (retiredPool pool pool.active[id]?).active = pool.active.erase id := by
  cases hactive : pool.active[id]? with
  | none => exact (erase_eq_self hactive).symm
  | some lease =>
    obtain rfl := hs.keyed id lease hactive
    rfl

theorem retiredPool_sound {pool : ResourcePool} {pages slots : Nat} (hs : pool.Sound pages slots) (id : Nat) :
    (retiredPool pool pool.active[id]?).fenced.Sound pages slots := by
  apply ResourcePool.Accepted.completionFence.sound
  cases hactive : pool.active[id]? with
  | none => exact hs
  | some lease => exact (ResourcePool.Accepted.retire (hs.held hactive)).sound hs

theorem retiredTransport_linked {transport : InMemoryTransport} {pages slots : Nat} (ht : transport.Linked pages slots) (id : Nat) :
    (let t := retiredTransport transport transport.pool.active[id]?
     { t with pool := t.pool.fenced } : InMemoryTransport).Linked pages slots := by
  apply InMemoryTransport.Accepted.completionFence.linked
  cases hactive : transport.pool.active[id]? with
  | none => exact ht
  | some lease => exact (InMemoryTransport.Accepted.finish (ht.pool.held hactive) (.inl rfl)).linked ht

theorem retiredTransport_pool (transport : InMemoryTransport) (o : Option Lease) :
    (retiredTransport transport o).pool = retiredPool transport.pool o := by
  cases o <;> rfl

theorem retiredPool_frame (pool : ResourcePool) (o : Option Lease) :
    (retiredPool pool o).pageTokens = pool.pageTokens ∧ (retiredPool pool o).generation = pool.generation := by
  cases o <;> exact ⟨rfl, rfl⟩

theorem retiredTransport_frame (transport : InMemoryTransport) (o : Option Lease) :
    (retiredTransport transport o).spec = transport.spec ∧ (retiredTransport transport o).key = transport.key := by
  cases o <;> exact ⟨rfl, rfl⟩

/-- What is left of a pool after a request gave its lease back agrees with the jobs that are left. -/
theorem erased_lease {f : Job → Option Lease} {active : ExtTreeMap Nat Lease} {jobs : ExtTreeMap Nat Job}
    (h : ∀ id : Nat, active[id]? = jobs[id]?.bind f) (id id' : Nat) : (active.erase id)[id']? = (jobs.erase id)[id']?.bind f := by
  rcases eq_or_ne id id' with rfl | hne
  · rw [ExtTreeMap.getElem?_erase_self, ExtTreeMap.getElem?_erase_self, Option.bind_none]
  · rw [ExtTreeMap.getElem?_erase_ne hne, ExtTreeMap.getElem?_erase_ne hne, h]

theorem Leased.removed (h : Leased a c s) (id : Nat) : Leased a c (s.removed id) := by
  have hactive : (s.removed id).pPool.active = s.pPool.active.erase id := by
    change (retiredPool s.pPool (s.jobs[id]?.bind Job.prefill)).active = _
    rw [← h.prefill]
    exact retiredPool_active h.pool
  have htransport : (s.removed id).transport.pool.active = s.transport.pool.active.erase id := by
    change (retiredTransport s.transport (s.jobs[id]?.bind Job.decode)).pool.active = _
    rw [← h.decode, retiredTransport_pool]
    exact retiredPool_active h.linked.pool
  have hframe := retiredTransport_frame s.transport (s.jobs[id]?.bind Job.decode)
  have hpool := retiredPool_frame s.pPool (s.jobs[id]?.bind Job.prefill)
  have htransferred : (s.removed id).transport.pool.pageTokens = s.transport.pool.pageTokens ∧
      (s.removed id).transport.pool.generation = s.transport.pool.generation := by
    change (retiredTransport s.transport (s.jobs[id]?.bind Job.decode)).pool.pageTokens = _ ∧
      (retiredTransport s.transport (s.jobs[id]?.bind Job.decode)).pool.generation = _
    rw [retiredTransport_pool]
    exact retiredPool_frame _ _
  exact {
    artifact := h.artifact
    capacity := h.capacity
    prefillGroup := h.prefillGroup
    decodeGroup := h.decodeGroup
    spec := hframe.1.trans h.spec
    key := hframe.2.trans h.key
    pool := by
      change (retiredPool s.pPool (s.jobs[id]?.bind Job.prefill)).fenced.Sound _ _
      rw [← h.prefill]
      exact retiredPool_sound h.pool id
    linked := by
      have hlinked := retiredTransport_linked h.linked id
      rw [h.decode] at hlinked
      exact hlinked
    pageTokens := hpool.1.trans h.pageTokens
    transferPageTokens := htransferred.1.trans h.transferPageTokens
    settled := rfl
    transferSettled := rfl
    prefill := fun id' => by
      rw [hactive]
      exact erased_lease h.prefill id id'
    decode := fun id' => by
      rw [htransport]
      exact erased_lease h.decode id id'
    queue := h.queue.filter _
    queued := fun id' => by
      change id' ∈ s.queue.filter (· ≠ id) ↔ _
      rw [hactive, List.mem_filter, h.queued]
      rcases eq_or_ne id id' with rfl | hne
      · simp
      · simp [ExtTreeMap.getElem?_erase_ne hne, hne.symm]
    issued := hpool.2.trans_le h.issued
    transferred := by
      rw [htransferred.2, hactive]
      exact (Nat.add_le_add_left ExtTreeMap.size_erase_le _).trans h.transferred
    epoch := h.epoch }

/-- A job that leaves takes only itself along. -/
@[simp] theorem removed_jobs (s : LiveScheduler) (id : Nat) : (s.removed id).jobs = s.jobs.erase id := rfl

/-! ## Tokens -/

theorem job_run (hjob : s.jobs[id]? = some job) : LiveScheduler.job id s = (.ok job, s) := by
  rw [LiveScheduler.job, Method.read_run, hjob, Outcome.unwrap_some]

/-- The job after its token was counted. -/
def counted (job : Job) : Job := { job with generated := job.generated + 1 }

/-- The jobs after a token of one of them was reported. -/
def emitted (jobs : ExtTreeMap Nat Job) (id : Nat) (job : Job) : ExtTreeMap Nat Job :=
  if (finish (counted job)).isSome then jobs.erase id else jobs.insert id (counted job)

theorem emit_run (h : Leased a c s) (hjob : s.jobs[id]? = some job) :
    ∃ t, emit id s = (.ok ⟨id, some job.next, finish (counted job)⟩, t) ∧ Leased a c t ∧
      t.jobs = emitted s.jobs id job := by
  have hcounted : Leased a c { s with jobs := s.jobs.insert id (counted job) } := h.setJob (counted job) hjob rfl rfl
  have hrun : emit id s = (do
      if (finish (counted job)).isSome then remove id
      return ⟨id, some job.next, finish (counted job)⟩ : Call Event) { s with jobs := s.jobs.insert id (counted job) } := by
    rw [emit, Method.bind_run, Method.read_run, hjob, Outcome.okOr_some]
    rfl
  unfold emitted
  split
  case isTrue hfinish =>
    refine ⟨_, ?_, hcounted.removed id, erase_insert⟩
    rw [hrun, if_pos hfinish, Method.bind_ok (remove_run hcounted id)]
    rfl
  case isFalse hfinish =>
    refine ⟨_, ?_, hcounted, rfl⟩
    rw [hrun, if_neg hfinish]
    rfl

/-! ## Growth -/

/-- The scheduler after the decoder's lease of a request has grown. -/
def grown (s : LiveScheduler) (id : Nat) (job : Job) (lease lease' : Lease) (pages : List Nat) : LiveScheduler :=
  { s with
    transport := { s.transport with pool := s.transport.pool.grown lease.request lease pages }
    jobs := s.jobs.insert id { job with decode := some lease' } }

theorem Leased.grown {pages : List Nat} {tokens : Nat} (h : Leased a c s) (hjob : s.jobs[id]? = some job)
    (hlease : job.decode = some lease) (havailable : s.transport.pool.Available pages)
    (hcount : pages.length = ResourcePool.pageCount s.transport.pool.pageTokens tokens - lease.pages.length) :
    Leased a c (s.grown id job lease { lease with pages := lease.pages ++ pages } pages) := by
  have hactive := h.decodeLease hjob hlease
  have hrequest : lease.request = id := h.linked.pool.keyed id lease hactive
  have haccepted := ResourcePool.Accepted.ensure (h.linked.pool.held hactive) havailable hcount
  refine { h with linked := h.linked.ensured haccepted, prefill := fun id' => ?_, decode := fun id' => ?_ }
  · rcases eq_or_ne id id' with rfl | hne
    · exact (h.prefill id).trans (by rw [hjob, LiveScheduler.grown, ExtTreeMap.getElem?_insert_self, Option.bind_some, Option.bind_some])
    · rw [LiveScheduler.grown, ExtTreeMap.getElem?_insert_ne hne]
      exact h.prefill id'
  · rcases eq_or_ne id id' with rfl | hne
    · rw [LiveScheduler.grown, ResourcePool.grown, hrequest, ExtTreeMap.getElem?_insert_self, ExtTreeMap.getElem?_insert_self,
        Option.bind_some]
    · rw [LiveScheduler.grown, ResourcePool.grown, hrequest, ExtTreeMap.getElem?_insert_ne hne, ExtTreeMap.getElem?_insert_ne hne]
      exact h.decode id'

/-- A request of the batch gets its room, or leaves for want of pages. -/
theorem decodeInput_run (h : Leased a c s) (hjob : s.jobs[id]? = some job) (hlease : job.decode = some lease) :
    (∃ lease' t, decodeInput id s = (.ok (.inl ⟨id, lease'.epoch, [job.next], job.state, lease'.binding⟩), t) ∧ Leased a c t ∧
      t.jobs = s.jobs.insert id { job with decode := some lease' } ∧
      ResourcePool.pageCount a.spec.pageTokens (job.state.consumed + 1) ≤ lease'.pages.length) ∨
    decodeInput id s = (.ok (.inr ⟨id, none, some (.error "KV growth")⟩), s.removed id) := by
  have hheld := h.linked.pool.held (h.decodeLease hjob hlease)
  rcases ResourcePool.ensure_run (job.state.consumed + 1) h.linked.pool.pageTokens hheld with
    hrun | ⟨pages, havailable, hcount, hrun⟩
  · refine .inr ?_
    have hremove := remove_run h id
    simp only [decodeInput, Method.bind_run, job_run hjob, Method.lift_run, hlease, Outcome.unwrap_some, Method.attempt,
      onTransport, InMemoryTransport.onPool, hrun, hremove, Method.pure_run]
  · refine .inl ⟨_, _, ?_, h.grown hjob hlease havailable hcount, rfl, ?_⟩
    · simp only [decodeInput, Method.bind_run, job_run hjob, Method.lift_run, hlease, Outcome.unwrap_some, Method.attempt,
        onTransport, InMemoryTransport.onPool, hrun, LiveScheduler.setJob, Method.modify_run, Method.pure_run]
      rfl
    · rw [List.length_append, hcount, h.transferPageTokens]
      omega

/-! ## Handing over -/

/-- A job in the decoder's hands. -/
def decoded (job : Job) (lease : Lease) : Job := { job with decode := some lease, prefill := none }

/-- The scheduler after a hand-off, before the first token is reported. -/
def handed (s : LiveScheduler) (id : Nat) (job : Job) (prefill lease : Lease) : LiveScheduler :=
  { s with
    pPool := (retiredPool s.pPool (some prefill)).fenced
    transport := s.transport.handedOver ⟨lease, s.artifact.key, job.state, job.next⟩
    jobs := s.jobs.insert id (decoded job lease)
    queue := s.queue.filter (· ≠ id) }

/-- A state that fits its pages is accepted by the transport. -/
theorem checkManifest_run {transport : InMemoryTransport} {manifest : Manifest} (hkey : manifest.modelKey = transport.key)
    (hstate : manifest.state.validate transport.spec = .ok ()) (hnext : manifest.nextToken < transport.spec.model.vocab)
    (hpage : 0 < transport.spec.pageTokens)
    (hpages : manifest.lease.pages.length = ResourcePool.pageCount transport.spec.pageTokens manifest.state.consumed)
    (hbound : manifest.state.consumed + transport.spec.pageTokens ≤ u64Max) : transport.checkManifest manifest = .ok () := by
  have hcapacity : manifest.state.consumed ≤ manifest.lease.pages.length * transport.spec.pageTokens ∧
      manifest.lease.pages.length * transport.spec.pageTokens ≤ u64Max := by
    rw [hpages, ResourcePool.pageCount]
    have hmod := Nat.div_add_mod (manifest.state.consumed + transport.spec.pageTokens - 1) transport.spec.pageTokens
    have hlt := Nat.mod_lt (manifest.state.consumed + transport.spec.pageTokens - 1) hpage
    rw [Nat.mul_comm] at hmod
    omega
  have hchecked := checkedMul_eq_some.mpr ⟨hcapacity.2, rfl⟩
  rw [InMemoryTransport.checkManifest, if_neg (not_not.mpr hkey), hstate, Outcome.ok_bind, if_neg (Nat.not_le.mpr hnext), hchecked,
    Outcome.okOr_some, Outcome.ok_bind, if_neg (Nat.not_lt.mpr hcapacity.1)]

theorem Leased.handed {prefill : Lease} (h : Leased a c s) (hjob : s.jobs[id]? = some job) (hprefill : job.prefill = some prefill)
    (hrequest : lease.request = id) (hgeneration : lease.generation = s.transport.pool.generation + 1)
    (hlinked : (s.transport.withReserved lease).Linked c.pages c.slots) : Leased a c (s.handed id job prefill lease) := by
  have hactive := h.prefillLease hjob hprefill
  have hreturned : (retiredPool s.pPool (some prefill)).active = s.pPool.active.erase id := hactive ▸ retiredPool_active h.pool
  have hsize := ExtTreeMap.size_erase_of_some hactive
  have htransferred := h.transferred
  exact {
    artifact := h.artifact
    capacity := h.capacity
    prefillGroup := h.prefillGroup
    decodeGroup := h.decodeGroup
    spec := h.spec
    key := h.key
    pool := by
      have hsound := retiredPool_sound h.pool id
      rw [hactive] at hsound
      exact hsound
    linked := hlinked.handedOver
    pageTokens := h.pageTokens
    transferPageTokens := h.transferPageTokens
    settled := rfl
    transferSettled := h.transferSettled
    prefill := fun id' => by
      change (retiredPool s.pPool (some prefill)).active[id']? = (s.jobs.insert id (decoded job lease))[id']?.bind Job.prefill
      rw [hreturned]
      rcases eq_or_ne id id' with rfl | hne
      · rw [ExtTreeMap.getElem?_erase_self, ExtTreeMap.getElem?_insert_self]
        rfl
      · rw [ExtTreeMap.getElem?_erase_ne hne, ExtTreeMap.getElem?_insert_ne hne, h.prefill]
    decode := fun id' => by
      change (s.transport.pool.active.insert lease.request lease)[id']? = (s.jobs.insert id (decoded job lease))[id']?.bind Job.decode
      rw [hrequest]
      rcases eq_or_ne id id' with rfl | hne
      · rw [ExtTreeMap.getElem?_insert_self, ExtTreeMap.getElem?_insert_self]
        rfl
      · rw [ExtTreeMap.getElem?_insert_ne hne, ExtTreeMap.getElem?_insert_ne hne, h.decode]
    queue := h.queue.filter _
    queued := fun id' => by
      change id' ∈ s.queue.filter (· ≠ id) ↔ ((retiredPool s.pPool (some prefill)).active[id']?).isSome
      rw [hreturned, List.mem_filter, h.queued]
      rcases eq_or_ne id id' with rfl | hne
      · simp
      · simp [ExtTreeMap.getElem?_erase_ne hne, hne.symm]
    issued := h.issued
    transferred := by
      change lease.generation + (retiredPool s.pPool (some prefill)).active.size ≤ s.epoch
      rw [hreturned]
      omega
    epoch := h.epoch }

/-- A prompt that is through waits for capacity, or is handed over and has its first token. -/
theorem handOff_run {prefill : Lease} (h : Leased a c s) (hjob : s.jobs[id]? = some job) (hprefill : job.prefill = some prefill)
    (hdecode : job.decode = none) (hstate : job.state.validate a.spec.serving = .ok ())
    (hnext : job.next < a.spec.model.vocab) (hbound : job.state.consumed + a.spec.pageTokens ≤ u64Max) :
    (s.transport.pool.Short job.state.consumed ∧ handOff id s = (.ok [], s)) ∨
    ∃ lease t, handOff id s = (.ok [⟨id, some job.next, finish (counted job)⟩], t) ∧ Leased a c t ∧
      t.jobs = emitted (s.jobs.insert id (decoded job lease)) id (decoded job lease) := by
  have hactive := h.prefillLease hjob hprefill
  have hinactive : s.transport.pool.active[id]? = none := by rw [h.decode, hjob, Option.bind_some, hdecode]
  have hlast : s.transport.pool.generation < u64Max := by
    have hsize := ExtTreeMap.size_erase_of_some hactive
    have htransferred := h.transferred
    have hepoch := h.epoch
    omega
  rcases InMemoryTransport.reserve_run prefill.epoch job.state.consumed h.linked hinactive h.transferSettled
    hlast with ⟨hshort, hrun⟩ | ⟨lease, hrequest, hcount, hgeneration, hrun, hlinked⟩
  · refine .inl ⟨hshort, ?_⟩
    simp only [handOff, Method.bind_run, Method.get_run, job_run hjob, hprefill, Outcome.unwrap_some, Method.lift_run,
      Method.attempt, onTransport, hrun, Method.pure_run]
  · have hleased := h.handed hjob hprefill hrequest hgeneration hlinked
    have hcheck : (s.transport.withReserved lease).checkManifest ⟨lease, s.artifact.key, job.state, job.next⟩ = .ok () := by
      apply checkManifest_run
      · exact (congrArg Artifact.key h.artifact).trans h.key.symm
      · exact h.spec ▸ hstate
      · exact h.spec ▸ hnext
      · exact h.spec ▸ h.positive
      · refine hcount.trans ?_
        rw [h.transferPageTokens]
        exact (congrArg (fun spec : Spec => ResourcePool.pageCount spec.pageTokens job.state.consumed) h.spec).symm
      · exact h.spec ▸ hbound
    obtain ⟨t₁, t₂, t₃, htransfer, hcomplete, hcommit, hacknowledge⟩ := InMemoryTransport.handOver_run hcheck
    have hretire := ResourcePool.retire_run (h.pool.held hactive)
    have hhanded : (s.handed id job prefill lease).jobs[id]? = some (decoded job lease) := ExtTreeMap.getElem?_insert_self
    obtain ⟨t, hemit, ht, hjobs⟩ := emit_run hleased hhanded
    refine .inr ⟨lease, t, ?_, ht, hjobs⟩
    have hrest : handOff id s = (do
        let event ← emit id
        return [event] : Call (List Event)) (s.handed id job prefill lease) := by
      simp only [handOff, Method.bind_run, Method.get_run, job_run hjob, hprefill, Outcome.unwrap_some, Method.lift_run,
        Method.attempt, onTransport, hrun, LiveScheduler.setJob, Method.modify_run, htransfer, hcomplete, hcommit, hacknowledge,
        onPool, hretire, ResourcePool.completionFence, ExtTreeMap.insert_insert]
      rfl
    rw [hrest, Method.bind_ok hemit]
    rfl

/-! ## Admission -/

/-- A job as it is admitted. -/
def admitted (a : Artifact) (request : Request) (stopTokens : List Nat) (lease : Lease) : Job where
  request := { request with submitAt := 0, cancelAt := none }
  state := .empty a.spec.serving
  prefill := some lease
  decode := none
  next := 0
  generated := 0
  stopTokens := stopTokens

theorem Leased.nextEpoch {epoch : Nat} (h : Leased a c s) (hnext : s.epoch + 1 ≤ u64Max ∧ s.epoch + 1 = epoch) :
    Leased a c { s with epoch } :=
  { h with
    issued := h.issued.trans (hnext.2 ▸ Nat.le_succ _)
    transferred := h.transferred.trans (hnext.2 ▸ Nat.le_succ _)
    epoch := hnext.2 ▸ hnext.1 }

theorem Leased.admitted {request : Request} {tokens epoch : Nat} (h : Leased a c s) (stopTokens : List Nat)
    (hepoch : s.epoch + 1 ≤ u64Max ∧ s.epoch + 1 = epoch) (hnew : s.jobs[request.id]? = none)
    (haccepted : ResourcePool.Accepted s.pPool (.reserve request.id epoch tokens) (.lease lease) (s.pPool.reserved lease)) :
    Leased a c { s with
      epoch
      pPool := s.pPool.reserved lease
      queue := s.queue ++ [request.id]
      jobs := s.jobs.insert request.id (admitted a request stopTokens lease) } := by
  have hrequest : lease.request = request.id := haccepted.given.1
  have hinactive : s.pPool.active[request.id]? = none := haccepted.inactive
  have hactive : (s.pPool.reserved lease).active = s.pPool.active.insert request.id lease := hrequest ▸ rfl
  refine { h with
    pool := haccepted.sound h.pool
    prefill := fun id' => ?_
    decode := fun id' => ?_
    queue := ?_
    queued := fun id' => ?_
    issued := ?_
    transferred := ?_
    epoch := hepoch.2 ▸ hepoch.1 }
  · rw [hactive]
    rcases eq_or_ne request.id id' with rfl | hne
    · rw [ExtTreeMap.getElem?_insert_self, ExtTreeMap.getElem?_insert_self]
      rfl
    · rw [ExtTreeMap.getElem?_insert_ne hne, ExtTreeMap.getElem?_insert_ne hne, h.prefill]
  · rcases eq_or_ne request.id id' with rfl | hne
    · rw [h.decode, hnew, ExtTreeMap.getElem?_insert_self]
      rfl
    · rw [ExtTreeMap.getElem?_insert_ne hne, h.decode]
  · refine List.nodup_append.mpr ⟨h.queue, List.nodup_singleton _, ?_⟩
    intro id' hid' id'' hid''
    obtain rfl := List.mem_singleton.mp hid''
    rintro rfl
    simp [h.queued, hinactive] at hid'
  · rw [hactive, List.mem_append, List.mem_singleton, h.queued]
    rcases eq_or_ne request.id id' with rfl | hne
    · simp
    · simp [ExtTreeMap.getElem?_insert_ne hne, hne.symm]
  · change lease.generation ≤ epoch
    rw [haccepted.issued, ← hepoch.2]
    exact Nat.succ_le_succ h.issued
  · rw [hactive, ExtTreeMap.size_insert_of_none hinactive, ← hepoch.2]
    exact Nat.succ_le_succ h.transferred

/-- A request is refused, and at most uses up a number, or is admitted to the prefill pool. -/
theorem submit_cases (h : Leased a c s) (request : Request) (stopTokens : List Nat) :
    (∃ error t, submit request stopTokens s = (.err error, t) ∧ Leased a c t ∧ t.jobs = s.jobs) ∨
    ∃ lease t, submit request stopTokens s = (.ok (), t) ∧ ¬s.refuses request ∧ s.jobs.size < c.slots ∧
      ResourcePool.pageCount a.spec.pageTokens request.prompt.length ≤ c.pages ∧
      lease.pages.length = ResourcePool.pageCount a.spec.pageTokens request.prompt.length ∧ Leased a c t ∧
      t.jobs = s.jobs.insert request.id (admitted a request stopTokens lease) := by
  obtain rfl := h.artifact
  by_cases hrefuses : s.refuses request
  · refine .inl ⟨.invalid "invalid live request", s, ?_, h, rfl⟩
    rw [submit, Method.bind_run, Method.get_run]
    exact congrFun (if_pos hrefuses) s
  have hpages : (Outcome.divCeil request.prompt.length s.artifact.spec.pageTokens : Result Nat) =
      .ok (ResourcePool.pageCount s.artifact.spec.pageTokens request.prompt.length) := Outcome.divCeil_pos h.positive
  by_cases hfull : s.jobs.size ≥ s.capacity.slots ∨
      ResourcePool.pageCount s.artifact.spec.pageTokens request.prompt.length > s.capacity.pages
  · refine .inl ⟨.capacity "live admission", s, ?_, h, rfl⟩
    simp only [submit, Method.bind_run, Method.get_run, if_neg hrefuses, Method.lift_run, hpages, if_pos hfull, Method.fail_run]
  have hnew : s.jobs[request.id]? = none := ExtTreeMap.getElem?_eq_none fun hmem => hrefuses (.inl hmem)
  have hinactive : s.pPool.active[request.id]? = none := by rw [h.prefill, hnew, Option.bind_none]
  cases hepoch : checkedAdd u64Max s.epoch 1 with
  | none =>
    refine .inl ⟨.invalid "request epoch overflow", s, ?_, h, rfl⟩
    simp only [submit, Method.bind_run, Method.get_run, if_neg hrefuses, Method.lift_run, hpages, if_neg hfull, hepoch,
      Outcome.okOr_none]
  | some epoch =>
    have hnext := checkedAdd_eq_some.mp hepoch
    have hlast : s.pPool.generation < u64Max := Nat.lt_of_le_of_lt h.issued (Nat.lt_of_succ_le hnext.1)
    rcases ResourcePool.reserve_run epoch request.prompt.length h.pool.pageTokens hinactive h.settled hlast
      with ⟨hshort, hrun⟩ | ⟨lease, hrun, haccepted⟩
    · refine .inl ⟨.capacity "pages/slots", { s with epoch }, ?_, h.nextEpoch hnext, rfl⟩
      simp only [submit, Method.bind_run, Method.get_run, if_neg hrefuses, Method.lift_run, hpages, if_neg hfull, hepoch,
        Outcome.okOr_some, Method.modify_run, onPool, hrun]
    · obtain ⟨hslots, hroom⟩ := not_or.mp hfull
      refine .inr ⟨lease, _, ?_, hrefuses, ?_, ?_, ?_, h.admitted stopTokens hnext hnew haccepted, rfl⟩
      · simp only [submit, Method.bind_run, Method.get_run, if_neg hrefuses, Method.lift_run, hpages, if_neg hfull, hepoch,
          Outcome.okOr_some, Method.modify_run, onPool, hrun, LiveScheduler.setJob]
        rfl
      · exact h.capacity ▸ Nat.lt_of_not_le hslots
      · exact h.capacity ▸ Nat.le_of_not_lt hroom
      · rw [← h.pageTokens]
        exact haccepted.given.2.2

end Inferfabric.Scheduler.LiveScheduler
