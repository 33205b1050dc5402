-- SUMMARY: The rank programs of an artifact agree on their collectives, pair every send with a receive and never deadlock.
import IronPangu.Compiler.Communication

open Rust Collectives

/-!
# Agreement of the rank programs

The plans of an artifact are the coherent programs of two meshes. What a group's members
issue, who receives a send and the absence of deadlock follow from that.
-/

namespace Inferfabric.Compiler.Ranks

def CommOp.target : CommOp → Option Nat
  | .send peer => some peer
  | .receive _ | .allReduce | .allGather | .reduceScatter => none

def CommOp.source : CommOp → Option Nat
  | .receive peer => some peer
  | .send _ | .allReduce | .allGather | .reduceScatter => none

/-- The peers of the sends or receives of one group, number and tensor. -/
def peers (select : CommOp → Option Nat) (group : String) (seq : Nat) (tensor : String)
    (instructions : List Instruction) : List Nat :=
  instructions.filterMap fun
    | .communication g s op t => if g = group ∧ s = seq ∧ t = tensor then select op else none
    | .kernel .. | .fence => none

/-- The ranks a group is named after. -/
def Artifact.Member (a : Artifact) (group : String) (rank : Rank) : Prop :=
  (∃ plan ∈ a.ranks, plan.rank = rank) ∧ (group = rank.tpGroup ∨ group = rank.cpGroup)

/-- What every rank runs; a rank without a plan runs nothing. -/
def Artifact.programs (a : Artifact) (rank : Rank) : List RankAction :=
  match a.ranks.find? fun plan => plan.rank = rank with
  | some plan => plan.instructions.map rank.action
  | none => []

variable {mesh : Mesh} {role : Role}

/-! ## Lists of communications -/

theorem action_eq_send {r q : Rank} {m : Message} {i : Instruction} (h : r.action i = .send q m) :
    i = .communication m.1 m.2.1 (.send q.cp) m.2.2 := by
  cases i with
  | kernel | fence => cases h
  | communication g s op t =>
    cases op with
    | send peer =>
      obtain ⟨rfl, rfl⟩ := Action.send.inj h
      rfl
    | receive | allReduce | allGather | reduceScatter => cases h

theorem action_eq_receive {r q : Rank} {m : Message} {i : Instruction} (h : r.action i = .receive q m) :
    i = .communication m.1 m.2.1 (.receive q.cp) m.2.2 := by
  cases i with
  | kernel | fence => cases h
  | communication g s op t =>
    cases op with
    | receive peer =>
      obtain ⟨rfl, rfl⟩ := Action.receive.inj h
      rfl
    | send | allReduce | allGather | reduceScatter => cases h

theorem mem_collectives {g : String} {c : Collective} {r : Rank} {instructions : List Instruction} :
    c ∈ collectives g instructions ↔ .collective g c ∈ instructions.map r.action := by
  obtain ⟨seq, op, tensor⟩ := c
  rw [collectives, List.mem_filterMap, List.mem_map]
  constructor
  · rintro ⟨i, hi, hc⟩
    refine ⟨i, hi, ?_⟩
    cases i with
    | kernel | fence => cases hc
    | communication g' s o t =>
      obtain ⟨⟨hop, rfl⟩, heq⟩ := Option.ite_none_right_eq_some.mp hc
      rw [← Option.some.inj heq]
      exact action_collective hop ..
  · rintro ⟨i, hi, hc⟩
    refine ⟨i, hi, ?_⟩
    cases i with
    | kernel | fence => cases hc
    | communication g' s o t =>
      cases o with
      | send | receive => cases hc
      | allReduce | allGather | reduceScatter =>
        obtain ⟨rfl, heq⟩ := Action.collective.inj hc
        simp [CommOp.isCollective, ← heq]

theorem mem_peers {select : CommOp → Option Nat} {g tensor : String} {seq peer : Nat}
    {instructions : List Instruction} : peer ∈ peers select g seq tensor instructions ↔
      ∃ op, select op = some peer ∧ .communication g seq op tensor ∈ instructions := by
  rw [peers, List.mem_filterMap]
  constructor
  · rintro ⟨i, hi, hpeer⟩
    cases i with
    | kernel | fence => cases hpeer
    | communication g' s op t =>
      obtain ⟨⟨rfl, rfl, rfl⟩, hop⟩ := Option.ite_none_right_eq_some.mp hpeer
      exact ⟨op, hop, hi⟩
  · rintro ⟨op, hop, hi⟩
    exact ⟨_, hi, by simp [hop]⟩

theorem eq_singleton {α : Type} {l : List α} {a : α} (h : a ∈ l) (hone : l.Pairwise fun _ _ => False) : l = [a] := by
  match l, hone with
  | [b], _ => rw [List.mem_singleton.mp h]
  | b :: c :: _, hone => exact (List.rel_of_pairwise_cons hone List.mem_cons_self).elim

section

variable {r : Rank} {instructions : List Instruction}
  (h : (instructions.map r.action).Pairwise fun a b => a ≠ .compute → b ≠ .compute → stamp a < stamp b)
include h

/-- Stamps increase, so one number is sent, or received, at most once. -/
theorem peers_pairwise {select : CommOp → Option Nat} {k : Nat} (hselect : ∀ op peer, select op = some peer →
      ∀ g s t, r.action (.communication g s op t) ≠ .compute ∧ stamp (r.action (.communication g s op t)) = 2 * s + k)
    (g tensor : String) (seq : Nat) : (peers select g seq tensor instructions).Pairwise fun _ _ => False := by
  rw [peers, List.pairwise_filterMap]
  refine (List.pairwise_map.mp h).imp fun {i j} hij p hp q hq => ?_
  cases i with
  | kernel | fence => cases hp
  | communication gi si opi ti =>
    cases j with
    | kernel | fence => cases hq
    | communication gj sj opj tj =>
      obtain ⟨⟨-, rfl, -⟩, hopi⟩ := Option.ite_none_right_eq_some.mp hp
      obtain ⟨⟨-, rfl, -⟩, hopj⟩ := Option.ite_none_right_eq_some.mp hq
      obtain ⟨hi, hstampi⟩ := hselect opi p hopi gi _ ti
      obtain ⟨hj, hstampj⟩ := hselect opj q hopj gj _ tj
      have hlt := hij hi hj
      omega

theorem targets_pairwise (g tensor : String) (seq : Nat) :
    (peers CommOp.target g seq tensor instructions).Pairwise fun _ _ => False := by
  refine peers_pairwise h (k := 0) (fun op peer hop g s t => ?_) g tensor seq
  cases op with
  | send => exact ⟨nofun, rfl⟩
  | receive | allReduce | allGather | reduceScatter => cases hop

theorem sources_pairwise (g tensor : String) (seq : Nat) :
    (peers CommOp.source g seq tensor instructions).Pairwise fun _ _ => False := by
  refine peers_pairwise h (k := 1) (fun op peer hop g s t => ?_) g tensor seq
  cases op with
  | receive => exact ⟨nofun, rfl⟩
  | send | allReduce | allGather | reduceScatter => cases hop

end

/-! ## Artifacts -/

def Spec.meshOf (s : Spec) : Role → Mesh
  | .prefill => s.prefill
  | .decode => s.decode

theorem validateMesh_ok {m : Model} (h : m.validateMesh mesh = .ok ()) : mesh.tp ≤ 2 ∧ mesh.cp ≤ 2 := by
  unfold Model.validateMesh at h
  split at h
  · exact absurd h invalid_ne_ok
  · rename_i hdegrees
    simp only [not_or, List.contains_iff_mem, List.mem_cons, List.not_mem_nil, or_false] at hdegrees
    omega

theorem validate_ok {s : Spec} (h : s.validate = .ok ()) (role : Role) : (s.meshOf role).tp ≤ 2 ∧ (s.meshOf role).cp ≤ 2 := by
  unfold Spec.validate at h
  split at h
  · exact absurd h invalid_ne_ok
  split at h
  · exact absurd h invalid_ne_ok
  split at h
  · exact absurd h invalid_ne_ok
  obtain ⟨⟨⟩, hprefill, h⟩ := Outcome.bind_eq_ok.mp h
  obtain ⟨⟨⟩, hdecode, -⟩ := Outcome.bind_eq_ok.mp h
  cases role with
  | prefill => exact validateMesh_ok hprefill
  | decode => exact validateMesh_ok hdecode

theorem compile_ok {key : Spec → Target → Result String} {s : Spec} {target : Target} {a : Artifact}
    (h : compile key s target = .ok a) : s.validate = .ok () ∧
      a.ranks = meshRanks s .prefill s.prefill ++ meshRanks s .decode s.decode := by
  obtain ⟨⟨⟩, hvalid, h⟩ := Outcome.bind_eq_ok.mp h
  obtain ⟨k, -, h⟩ := Outcome.bind_eq_ok.mp h
  rw [← Outcome.ok.inj h]
  exact ⟨hvalid, rfl⟩

theorem mem_meshRanks {s : Spec} {plan : RankPlan} :
    plan ∈ meshRanks s role mesh ↔ ∃ r, mesh.Has role r ∧ plan = rankPlan s mesh r := by
  simp only [meshRanks, List.mem_flatMap, List.mem_map, List.mem_range]
  constructor
  · rintro ⟨cp, hcp, tp, htp, rfl⟩
    exact ⟨⟨role, tp, cp⟩, ⟨rfl, htp, hcp⟩, rfl⟩
  · rintro ⟨⟨role', tp, cp⟩, ⟨hrole, htp, hcp⟩, rfl⟩
    obtain rfl : role' = role := hrole
    exact ⟨cp, hcp, tp, htp, rfl⟩

/-- The artifact of a valid spec holds one plan for each rank of the two meshes. -/
structure Planned (s : Spec) (a : Artifact) : Prop where
  bounded : ∀ role, (s.meshOf role).tp ≤ 2 ∧ (s.meshOf role).cp ≤ 2
  mem_ranks : ∀ plan, plan ∈ a.ranks ↔ ∃ r, (s.meshOf r.role).Has r.role r ∧ plan = rankPlan s (s.meshOf r.role) r

theorem planned_compile {key : Spec → Target → Result String} {s : Spec} {target : Target} {a : Artifact}
    (h : compile key s target = .ok a) : Planned s a := by
  obtain ⟨hvalid, hranks⟩ := compile_ok h
  refine ⟨validate_ok hvalid, fun plan => ?_⟩
  rw [hranks, List.mem_append, mem_meshRanks, mem_meshRanks]
  constructor
  · rintro (⟨r, hr, rfl⟩ | ⟨r, hr, rfl⟩)
    · obtain ⟨rr, tp, cp⟩ := r
      obtain rfl : rr = .prefill := hr.1
      exact ⟨_, hr, rfl⟩
    · obtain ⟨rr, tp, cp⟩ := r
      obtain rfl : rr = .decode := hr.1
      exact ⟨_, hr, rfl⟩
  · rintro ⟨⟨rr, tp, cp⟩, hr, rfl⟩
    cases rr with
    | prefill => exact .inl ⟨_, hr, rfl⟩
    | decode => exact .inr ⟨_, hr, rfl⟩

section

variable {s : Spec} {a : Artifact} {p r : Rank}

/-- The program of a rank of a mesh. -/
abbrev Spec.program (s : Spec) (r : Rank) : List Instruction := (rankProgram s.model.layers (s.meshOf r.role) r 0).1

/-- The ranks of the two meshes. -/
abbrev Spec.Has (s : Spec) (r : Rank) : Prop := (s.meshOf r.role).Has r.role r

theorem Spec.coherent (s : Spec) (role : Role) :
    Coherent (s.meshOf role) role fun r => rankProgram s.model.layers (s.meshOf role) r := coherent_rankProgram _

theorem Planned.exists_plan (h : Planned s a) : (∃ plan ∈ a.ranks, plan.rank = r) ↔ s.Has r := by
  constructor
  · rintro ⟨plan, hplan, rfl⟩
    obtain ⟨r, hr, rfl⟩ := (h.mem_ranks plan).mp hplan
    exact hr
  · exact fun hr => ⟨_, (h.mem_ranks _).mpr ⟨r, hr, rfl⟩, rfl⟩

theorem Planned.plan_eq (h : Planned s a) {plan : RankPlan} (hplan : plan ∈ a.ranks) :
    s.Has plan.rank ∧ plan.instructions = s.program plan.rank := by
  obtain ⟨r, hr, rfl⟩ := (h.mem_ranks plan).mp hplan
  exact ⟨hr, rfl⟩

theorem Planned.programs_eq (h : Planned s a) (r : Rank) :
    a.programs r = if s.Has r then (s.program r).map r.action else [] := by
  unfold Artifact.programs
  split
  · rename_i plan hfind
    have hrank : plan.rank = r := by simpa using List.find?_some hfind
    obtain ⟨hhas, hprogram⟩ := h.plan_eq (List.mem_of_find?_eq_some hfind)
    subst hrank
    rw [if_pos hhas, hprogram]
  · rename_i hfind
    rw [if_neg]
    intro hr
    obtain ⟨plan, hplan, hrank⟩ := h.exists_plan.mpr hr
    exact absurd (decide_eq_true hrank) (List.find?_eq_none.mp hfind plan hplan)

/-! ### Group names -/

theorem tpName_inj : ∀ i j : Fin 2, ∀ role role' : Role,
    role.debug ++ "/tp/cp" ++ toString i.val = role'.debug ++ "/tp/cp" ++ toString j.val → role = role' ∧ i = j := by
  intro i j role role'
  cases role <;> cases role' <;> revert i j <;> decide

theorem tpName_ne_cpName : ∀ i j : Fin 2, ∀ role role' : Role,
    role.debug ++ "/tp/cp" ++ toString i.val ≠ role'.debug ++ "/cp/tp" ++ toString j.val := by
  intro i j role role'
  cases role <;> cases role' <;> revert i j <;> decide

theorem Planned.has_lt_two (h : Planned s a) (hr : s.Has r) : r.tp < 2 ∧ r.cp < 2 :=
  ⟨Nat.lt_of_lt_of_le hr.2.1 (h.bounded r.role).1, Nat.lt_of_lt_of_le hr.2.2 (h.bounded r.role).2⟩

theorem Planned.tpGroup_inj (h : Planned s a) (hp : s.Has p) (hr : s.Has r) (hgroup : p.tpGroup = r.tpGroup) :
    p.role = r.role ∧ p.cp = r.cp := by
  obtain ⟨hrole, hcp⟩ := tpName_inj ⟨p.cp, (h.has_lt_two hp).2⟩ ⟨r.cp, (h.has_lt_two hr).2⟩ p.role r.role hgroup
  exact ⟨hrole, Fin.mk.inj hcp⟩

theorem Planned.tpGroup_ne_cpGroup (h : Planned s a) (hp : s.Has p) (hr : s.Has r) : p.tpGroup ≠ r.cpGroup :=
  tpName_ne_cpName ⟨p.cp, (h.has_lt_two hp).2⟩ ⟨r.tp, (h.has_lt_two hr).1⟩ p.role r.role

/-! ### Consistency -/

theorem Spec.has_of_role {role : Role} (h : (s.meshOf role).Has role r) : s.Has r := by
  rw [Spec.Has, h.1]
  exact h

/-- A rank issues collectives in its tensor-parallel group only. -/
theorem Spec.collectives_group (hr : s.Has r) {g : String} {c : Collective} (hc : c ∈ collectives g (s.program r)) :
    g = r.tpGroup :=
  (s.coherent r.role).grouped r 0 hr g c (mem_collectives.mp hc)

theorem Planned.collectives_eq (h : Planned s a) {g : String} (hp : a.Member g p) (hr : a.Member g r) :
    collectives g (s.program p) = collectives g (s.program r) := by
  obtain ⟨hp, hgp⟩ := hp
  obtain ⟨hr, hgr⟩ := hr
  replace hp := h.exists_plan.mp hp
  replace hr := h.exists_plan.mp hr
  have hnone : ∀ {q : Rank}, s.Has q → g ≠ q.tpGroup → collectives g (s.program q) = [] :=
    fun hq hne => List.eq_nil_iff_forall_not_mem.mpr fun c hc => hne (Spec.collectives_group hq hc)
  rcases hgp with hgp | hgp <;> rcases hgr with hgr | hgr
  · obtain ⟨hrole, hcp⟩ := h.tpGroup_inj hp hr (hgp.symm.trans hgr)
    have htogether := (s.coherent p.role).together p r 0 hp (hrole ▸ hr) hcp g
    rw [hrole] at htogether
    rwa [Spec.program, hrole]
  · exact absurd (hgp.symm.trans hgr) (h.tpGroup_ne_cpGroup hp hr)
  · exact absurd (hgr.symm.trans hgp) (h.tpGroup_ne_cpGroup hr hp)
  · rw [hnone hp (fun heq => h.tpGroup_ne_cpGroup hp hp (heq.symm.trans hgp)),
      hnone hr (fun heq => h.tpGroup_ne_cpGroup hr hr (heq.symm.trans hgr))]

/-- The channel between two ranks of one mesh is received in the order it is sent. -/
theorem Spec.matched (hp : s.Has p) (hr : s.Has r) :
    sent r ((s.program p).map p.action) = received p ((s.program r).map r.action) := by
  by_cases hline : p.role = r.role ∧ p.tp = r.tp
  · obtain ⟨hrole, htp⟩ := hline
    have hmatched := (s.coherent p.role).matched p r 0 hp (hrole ▸ hr) htp
    rw [hrole] at hmatched
    rwa [Spec.program, hrole]
  · have hsent : sent r ((s.program p).map p.action) = [] := by
      refine List.eq_nil_iff_forall_not_mem.mpr fun m hm => hline ?_
      obtain ⟨hhas, htp⟩ := (s.coherent p.role).sends p 0 hp r m (mem_sent.mp hm)
      exact ⟨hhas.1.symm, htp.symm⟩
    have hreceived : received p ((s.program r).map r.action) = [] := by
      refine List.eq_nil_iff_forall_not_mem.mpr fun m hm => hline ?_
      obtain ⟨hhas, htp⟩ := (s.coherent r.role).receives r 0 hr p m (mem_received.mp hm)
      exact ⟨hhas.1, htp⟩
    rw [hsent, hreceived]

theorem Planned.stamped (h : Planned s a) : Stamped a.Member stamp a.programs := by
  constructor
  · intro r
    rw [h.programs_eq]
    split
    · rename_i hr
      exact (s.coherent r.role).ordered r 0 hr
    · exact .nil
  · intro r g op hop
    rw [h.programs_eq] at hop
    split at hop
    · rename_i hr
      obtain rfl := (s.coherent r.role).grouped r 0 hr g op hop
      have hmember : a.Member r.tpGroup r := ⟨h.exists_plan.mpr hr, .inl rfl⟩
      refine ⟨hmember, fun r' hr' => ?_⟩
      rw [h.programs_eq, if_pos (h.exists_plan.mp hr'.1)]
      rw [← mem_collectives] at hop ⊢
      rwa [← h.collectives_eq hmember hr']
    · cases hop
  · intro p r
    rw [h.programs_eq, h.programs_eq]
    by_cases hp : s.Has p
    · by_cases hr : s.Has r
      · rw [if_pos hp, if_pos hr, Spec.matched hp hr]
      · rw [if_pos hp, if_neg hr]
        refine List.eq_nil_iff_forall_not_mem.mpr fun m hm => hr ?_
        obtain ⟨hhas, -⟩ := (s.coherent p.role).sends p 0 hp r m (mem_sent.mp hm)
        exact Spec.has_of_role hhas
    · by_cases hr : s.Has r
      · rw [if_neg hp, if_pos hr]
        refine (List.eq_nil_iff_forall_not_mem.mpr fun m hm => hp ?_).symm
        obtain ⟨hhas, -⟩ := (s.coherent r.role).receives r 0 hr p m (mem_received.mp hm)
        exact Spec.has_of_role hhas
      · rw [if_neg hp, if_neg hr]
        rfl
  · exact fun p r m _ => Nat.lt_succ_self _

/-- Every send is received once by its peer, under the same group, number and tensor. -/
theorem Planned.send_received (hp : s.Has p) {g tensor : String} {seq peer : Nat}
    (hsend : .communication g seq (.send peer) tensor ∈ s.program p) :
    s.Has { p with cp := peer } ∧ peers CommOp.target g seq tensor (s.program p) = [peer] ∧
      peers CommOp.source g seq tensor (s.program { p with cp := peer }) = [p.cp] := by
  have hmem : .send { p with cp := peer } (g, seq, tensor) ∈ (s.program p).map p.action := List.mem_map.mpr ⟨_, hsend, rfl⟩
  have hpeer : s.Has { p with cp := peer } := ((s.coherent p.role).sends p 0 hp _ _ hmem).1
  refine ⟨hpeer, ?_, ?_⟩
  · exact eq_singleton (mem_peers.mpr ⟨_, rfl, hsend⟩)
      (targets_pairwise ((s.coherent p.role).ordered p 0 hp) g tensor seq)
  · refine eq_singleton (mem_peers.mpr ⟨.receive p.cp, rfl, ?_⟩)
      (sources_pairwise ((s.coherent p.role).ordered _ 0 hpeer) g tensor seq)
    have hreceive := mem_sent.mpr hmem
    rw [Spec.matched hp hpeer, mem_received, List.mem_map] at hreceive
    obtain ⟨i, hi, hreceive⟩ := hreceive
    rwa [action_eq_receive hreceive] at hi

/-- Every receive is sent once by its peer, under the same group, number and tensor. -/
theorem Planned.receive_sent (hr : s.Has r) {g tensor : String} {seq peer : Nat}
    (hreceive : .communication g seq (.receive peer) tensor ∈ s.program r) :
    s.Has { r with cp := peer } ∧ peers CommOp.source g seq tensor (s.program r) = [peer] ∧
      peers CommOp.target g seq tensor (s.program { r with cp := peer }) = [r.cp] := by
  have hmem : .receive { r with cp := peer } (g, seq, tensor) ∈ (s.program r).map r.action :=
    List.mem_map.mpr ⟨_, hreceive, rfl⟩
  have hpeer : s.Has { r with cp := peer } := ((s.coherent r.role).receives r 0 hr _ _ hmem).1
  refine ⟨hpeer, ?_, ?_⟩
  · exact eq_singleton (mem_peers.mpr ⟨_, rfl, hreceive⟩)
      (sources_pairwise ((s.coherent r.role).ordered r 0 hr) g tensor seq)
  · refine eq_singleton (mem_peers.mpr ⟨.send r.cp, rfl, ?_⟩)
      (targets_pairwise ((s.coherent r.role).ordered _ 0 hpeer) g tensor seq)
    have hsend := mem_received.mpr hmem
    rw [← Spec.matched hpeer hr, mem_sent, List.mem_map] at hsend
    obtain ⟨i, hi, hsend⟩ := hsend
    rwa [action_eq_send hsend] at hi

end

/-! ### The ranks are distinct -/

theorem meshRanks_nodup (s : Spec) (role : Role) (mesh : Mesh) :
    ((meshRanks s role mesh).map RankPlan.rank).Nodup := by
  rw [meshRanks, List.map_flatMap, List.nodup_flatMap]
  constructor
  · intro cp _
    rw [List.map_map]
    exact List.nodup_range.map fun _ _ heq => (Rank.mk.inj heq).2.1
  · refine List.nodup_range.imp fun hne => ?_
    simp only [Function.onFun, List.disjoint_left, List.mem_map]
    rintro r ⟨_, ⟨_, _, rfl⟩, rfl⟩ ⟨_, ⟨_, _, rfl⟩, heq⟩
    exact hne (Rank.mk.inj heq).2.2.symm

theorem ranks_nodup {key : Spec → Target → Result String} {s : Spec} {target : Target} {a : Artifact}
    (h : compile key s target = .ok a) : (a.ranks.map RankPlan.rank).Nodup := by
  rw [(compile_ok h).2, List.map_append, List.nodup_append]
  refine ⟨meshRanks_nodup .., meshRanks_nodup .., ?_⟩
  rintro r hr r' hr' rfl
  obtain ⟨plan, hplan, rfl⟩ := List.mem_map.mp hr
  obtain ⟨plan', hplan', hrank⟩ := List.mem_map.mp hr'
  obtain ⟨p, hp, rfl⟩ := mem_meshRanks.mp hplan
  obtain ⟨q, hq, rfl⟩ := mem_meshRanks.mp hplan'
  have hrole : q.role = p.role := congrArg Rank.role hrank
  rw [hp.1, hq.1] at hrole
  cases hrole

/-- In the artifact of a spec the ranks are distinct, the members of a group issue the same
    collectives, sends and receives pair up, and the programs never deadlock. -/
theorem communication_consistent {key : Spec → Target → Result String} {s : Spec} {target : Target} {a : Artifact}
    (h : compile key s target = .ok a) :
    (a.ranks.map RankPlan.rank).Nodup ∧
    (∀ g, ∀ p ∈ a.ranks, ∀ q ∈ a.ranks, a.Member g p.rank → a.Member g q.rank →
      collectives g p.instructions = collectives g q.instructions) ∧
    (∀ p ∈ a.ranks, ∀ g seq peer tensor, .communication g seq (.send peer) tensor ∈ p.instructions →
      ∃ q ∈ a.ranks, q.rank = { p.rank with cp := peer } ∧ peers CommOp.target g seq tensor p.instructions = [peer] ∧
        peers CommOp.source g seq tensor q.instructions = [p.rank.cp]) ∧
    (∀ q ∈ a.ranks, ∀ g seq peer tensor, .communication g seq (.receive peer) tensor ∈ q.instructions →
      ∃ p ∈ a.ranks, p.rank = { q.rank with cp := peer } ∧ peers CommOp.source g seq tensor q.instructions = [peer] ∧
        peers CommOp.target g seq tensor p.instructions = [q.rank.cp]) ∧
    (∀ n, Relation.ReflTransGen (Step a.Member) (start a.programs) n →
      (∀ r, n.rest r = []) ∨ ∃ n', Step a.Member n n') := by
  have hplanned := planned_compile h
  refine ⟨ranks_nodup h, ?_, ?_, ?_, fun n hreach => hplanned.stamped.progress hreach⟩
  · intro g p hp q hq hgp hgq
    rw [(hplanned.plan_eq hp).2, (hplanned.plan_eq hq).2]
    exact hplanned.collectives_eq hgp hgq
  · intro p hp g seq peer tensor hsend
    obtain ⟨hhas, hprogram⟩ := hplanned.plan_eq hp
    rw [hprogram] at hsend ⊢
    obtain ⟨hpeer, hone, hreceived⟩ := Planned.send_received hhas hsend
    exact ⟨_, (hplanned.mem_ranks _).mpr ⟨_, hpeer, rfl⟩, rfl, hone, hreceived⟩
  · intro q hq g seq peer tensor hreceive
    obtain ⟨hhas, hprogram⟩ := hplanned.plan_eq hq
    rw [hprogram] at hreceive ⊢
    obtain ⟨hpeer, hone, hsent⟩ := Planned.receive_sent hhas hreceive
    exact ⟨_, (hplanned.mem_ranks _).mpr ⟨_, hpeer, rfl⟩, rfl, hone, hsent⟩

/-- Two full meshes of a hybrid model. -/
def sampleSpec : Spec where
  model := ⟨"hybrid", 8, 8, 16, 4, 2, 4, 2, 4, 3, [.full, .delta]⟩
  prefill := ⟨2, 2, true⟩
  decode := ⟨2, 1, false⟩
  pageTokens := 4
  tokenBudget := 8
  batchBuckets := [1, 2]
  contextBuckets := [8]

def sampleTarget : Target := ⟨.mock, "cpu-mock", "none", "mock-v1", []⟩

theorem communication_consistent_sample : ∃ a, compile (fun _ _ => .ok "key") sampleSpec sampleTarget = .ok a ∧
    a.ranks.length = 6 ∧ (∀ n, Relation.ReflTransGen (Step a.Member) (start a.programs) n →
      (∀ r, n.rest r = []) ∨ ∃ n', Step a.Member n n') :=
  ⟨_, rfl, rfl, (@communication_consistent (fun _ _ => .ok "key") sampleSpec sampleTarget _ rfl).2.2.2.2⟩

end Inferfabric.Compiler.Ranks
