-- SUMMARY: The blocks of the rank programs pair their communications on every mesh.
import IronPangu.Compiler.Ranks
import IronPangu.Lib.Collectives

open Rust Collectives

/-!
# Communication of the rank programs

A block of a rank program is a family over the ranks of a mesh. `Coherent` families
advance the sequence number alike on all ranks and pair their communications; it is kept
by putting blocks one after another, so a whole program has it.
-/

namespace Inferfabric.Compiler.Ranks

/-- Sequence number, operator and tensor of a collective. -/
abbrev Collective : Type := Nat × CommOp × String

/-- Group, sequence number and tensor of a message. -/
abbrev Message : Type := String × Nat × String

abbrev RankAction : Type := Action Rank String Collective Message

def CommOp.isCollective : CommOp → Bool
  | .allReduce | .allGather | .reduceScatter => true
  | .send _ | .receive _ => false

/-- What a rank does to carry out an instruction. -/
def Rank.action (rank : Rank) : Instruction → RankAction
  | .kernel .. | .fence => .compute
  | .communication group seq (.send peer) tensor => .send { rank with cp := peer } (group, seq, tensor)
  | .communication group seq (.receive peer) tensor => .receive { rank with cp := peer } (group, seq, tensor)
  | .communication group seq op tensor => .collective group (seq, op, tensor)

/-- The collectives issued in a group, in order. -/
def collectives (group : String) (instructions : List Instruction) : List Collective :=
  instructions.filterMap fun
    | .communication g seq op tensor => if op.isCollective ∧ g = group then some (seq, op, tensor) else none
    | .kernel .. | .fence => none

/-! ## Blocks -/

/-- A receive comes after the send of its number. -/
def stamp : RankAction → Nat
  | .compute => 0
  | .collective _ op => 2 * op.1
  | .send _ m => 2 * m.2.1
  | .receive _ m => 2 * m.2.1 + 1

/-- The ranks of a mesh. -/
def Mesh.Has (mesh : Mesh) (role : Role) (r : Rank) : Prop := r.role = role ∧ r.tp < mesh.tp ∧ r.cp < mesh.cp

instance (mesh : Mesh) (role : Role) (r : Rank) : Decidable (mesh.Has role r) :=
  inferInstanceAs (Decidable (r.role = role ∧ r.tp < mesh.tp ∧ r.cp < mesh.cp))

/-- The actions of a block on a rank. -/
def acts (e : Rank → Emit) (r : Rank) (seq : Nat) : List RankAction := (e r seq).1.map r.action

structure Coherent (mesh : Mesh) (role : Role) (e : Rank → Emit) : Prop where
  advance : ∃ k, ∀ r seq, mesh.Has role r → (e r seq).2 = seq + k
  within : ∀ r seq, mesh.Has role r → ∀ a ∈ acts e r seq, a ≠ .compute → 2 * seq ≤ stamp a ∧ stamp a < 2 * (e r seq).2
  ordered : ∀ r seq, mesh.Has role r →
    (acts e r seq).Pairwise fun a b => a ≠ .compute → b ≠ .compute → stamp a < stamp b
  grouped : ∀ r seq, mesh.Has role r → ∀ g op, .collective g op ∈ acts e r seq → g = r.tpGroup
  together : ∀ p r seq, mesh.Has role p → mesh.Has role r → p.cp = r.cp →
    ∀ g, collectives g (e p seq).1 = collectives g (e r seq).1
  sends : ∀ p seq, mesh.Has role p → ∀ r m, .send r m ∈ acts e p seq → mesh.Has role r ∧ r.tp = p.tp
  receives : ∀ r seq, mesh.Has role r → ∀ p m, .receive p m ∈ acts e r seq → mesh.Has role p ∧ p.tp = r.tp
  matched : ∀ p r seq, mesh.Has role p → mesh.Has role r → p.tp = r.tp →
    sent r (acts e p seq) = received p (acts e r seq)

variable {mesh : Mesh} {role : Role} {e first second : Rank → Emit}

theorem collectives_append (g : String) (xs ys : List Instruction) :
    collectives g (xs ++ ys) = collectives g xs ++ collectives g ys := List.filterMap_append

theorem acts_andThen (r : Rank) (seq : Nat) : acts (fun r => (first r).andThen (second r)) r seq =
    acts first r seq ++ acts second r (first r seq).2 := List.map_append

theorem Coherent.le_advance (h : Coherent mesh role e) {r : Rank} (hr : mesh.Has role r) (seq : Nat) :
    seq ≤ (e r seq).2 := by
  obtain ⟨k, hk⟩ := h.advance
  exact Nat.le_trans (Nat.le_add_right seq k) (Nat.le_of_eq (hk r seq hr).symm)

theorem Coherent.advance_eq (h : Coherent mesh role e) {p r : Rank} (hp : mesh.Has role p) (hr : mesh.Has role r)
    (seq : Nat) : (e p seq).2 = (e r seq).2 := by
  obtain ⟨k, hk⟩ := h.advance
  rw [hk p seq hp, hk r seq hr]

/-- Blocks are put one after another. -/
theorem Coherent.andThen (hfirst : Coherent mesh role first) (hsecond : Coherent mesh role second) :
    Coherent mesh role fun r => (first r).andThen (second r) := by
  have hmem : ∀ {r : Rank} {seq : Nat} {a : RankAction}, a ∈ acts (fun r => (first r).andThen (second r)) r seq →
      a ∈ acts first r seq ∨ a ∈ acts second r (first r seq).2 := by
    intro r seq a ha
    rw [acts_andThen, List.mem_append] at ha
    exact ha
  constructor
  · obtain ⟨k, hk⟩ := hfirst.advance
    obtain ⟨l, hl⟩ := hsecond.advance
    refine ⟨k + l, fun r seq hr => ?_⟩
    show (second r (first r seq).2).2 = _
    rw [hl r _ hr, hk r _ hr, Nat.add_assoc]
  · intro r seq hr a ha hcompute
    show 2 * seq ≤ stamp a ∧ stamp a < 2 * (second r (first r seq).2).2
    have hseq := hfirst.le_advance hr seq
    have hnext := hsecond.le_advance hr (first r seq).2
    rcases hmem ha with ha | ha
    · have := hfirst.within r seq hr a ha hcompute
      omega
    · have := hsecond.within r _ hr a ha hcompute
      omega
  · intro r seq hr
    rw [acts_andThen, List.pairwise_append]
    refine ⟨hfirst.ordered r seq hr, hsecond.ordered r _ hr, fun a ha b hb hacompute hbcompute => ?_⟩
    have hbefore := hfirst.within r seq hr a ha hacompute
    have hafter := hsecond.within r _ hr b hb hbcompute
    omega
  · intro r seq hr g op h
    rcases hmem h with h | h
    · exact hfirst.grouped r seq hr g op h
    · exact hsecond.grouped r _ hr g op h
  · intro p r seq hp hr hcp g
    show collectives g ((first p seq).1 ++ (second p _).1) = collectives g ((first r seq).1 ++ (second r _).1)
    rw [collectives_append, collectives_append, hfirst.together p r seq hp hr hcp, hfirst.advance_eq hp hr,
      hsecond.together p r _ hp hr hcp]
  · intro p seq hp r m h
    rcases hmem h with h | h
    · exact hfirst.sends p seq hp r m h
    · exact hsecond.sends p _ hp r m h
  · intro r seq hr p m h
    rcases hmem h with h | h
    · exact hfirst.receives r seq hr p m h
    · exact hsecond.receives r _ hr p m h
  · intro p r seq hp hr htp
    rw [acts_andThen, acts_andThen, sent_append, received_append, hfirst.matched p r seq hp hr htp,
      hfirst.advance_eq hp hr, hsecond.matched p r _ hp hr htp]

/-- A block that computes only. -/
theorem coherent_computing (hseq : ∀ r seq, (e r seq).2 = seq)
    (hcompute : ∀ r seq, ∀ i ∈ (e r seq).1, r.action i = .compute) : Coherent mesh role e := by
  have hnone : ∀ r seq a, a ∈ acts e r seq → a = .compute := by
    intro r seq a ha
    obtain ⟨i, hi, rfl⟩ := List.mem_map.mp ha
    exact hcompute r seq i hi
  have hacts : ∀ r seq, acts e r seq = List.replicate (e r seq).1.length .compute := by
    intro r seq
    refine List.eq_replicate_iff.mpr ⟨List.length_map _, hnone r seq⟩
  have hsent : ∀ p r n, sent (ρ := Rank) r (List.replicate n (.compute : RankAction)) = [] ∧
      received (ρ := Rank) p (List.replicate n (.compute : RankAction)) = [] := by
    intro p r n
    induction n with
    | zero => exact ⟨rfl, rfl⟩
    | succ n ih => exact ih
  have hcollectives : ∀ g r seq, collectives g (e r seq).1 = [] := by
    intro g r seq
    refine List.filterMap_eq_nil_iff.mpr fun i hi => ?_
    have hi := hcompute r seq i hi
    cases i with
    | kernel | fence => rfl
    | communication g' s op t => cases op <;> cases hi
  constructor
  · exact ⟨0, fun r seq _ => hseq r seq⟩
  · exact fun r seq _ a ha hne => absurd (hnone r seq a ha) hne
  · intro r seq _
    rw [hacts]
    exact List.pairwise_replicate.mpr (.inr fun h => absurd rfl h)
  · exact fun r seq _ g op h => nomatch hnone r seq _ h
  · intro p r seq _ _ _ g
    rw [hcollectives, hcollectives]
  · exact fun p seq _ r m h => nomatch hnone p seq _ h
  · exact fun r seq _ p m h => nomatch hnone r seq _ h
  · intro p r seq _ _ _
    rw [hacts, hacts, (hsent p r _).1, (hsent p r _).2]

theorem coherent_nothing : Coherent mesh role fun _ => Emit.nothing :=
  coherent_computing (fun _ _ => rfl) fun _ _ _ h => nomatch h

theorem coherent_kernels (layer : Option Nat) (names : List String) :
    Coherent mesh role fun _ => Emit.kernels layer names := by
  refine coherent_computing (fun _ _ => rfl) fun r seq i hi => ?_
  obtain ⟨name, -, rfl⟩ := List.mem_map.mp hi
  rfl

theorem Coherent.when (h : Coherent mesh role e) (condition : Bool) :
    Coherent mesh role fun r => Emit.when condition (e r) := by
  cases condition with
  | true => exact h
  | false => exact coherent_nothing

theorem coherent_all {es : List (Rank → Emit)} (h : ∀ e ∈ es, Coherent mesh role e) :
    Coherent mesh role fun r => Emit.all (es.map fun e => e r) := by
  induction es with
  | nil => exact coherent_nothing
  | cons e es ih =>
    exact (h e List.mem_cons_self).andThen (ih fun e' he' => h e' (List.mem_cons_of_mem _ he'))

/-! ## Communicating blocks -/

@[simp] theorem action_collective {op : CommOp} (hop : op.isCollective = true) (r : Rank) (g : String) (seq : Nat)
    (tensor : String) : r.action (.communication g seq op tensor) = .collective g (seq, op, tensor) := by
  cases op with
  | allReduce | allGather | reduceScatter => rfl
  | send | receive => cases hop

theorem Mesh.Has.tpGroup_eq {p r : Rank} (hp : mesh.Has role p) (hr : mesh.Has role r) (hcp : p.cp = r.cp) :
    p.tpGroup = r.tpGroup := by
  rw [Rank.tpGroup, Rank.tpGroup, hp.1, hr.1, hcp]

theorem Mesh.Has.cpGroup_eq {p r : Rank} (hp : mesh.Has role p) (hr : mesh.Has role r) (htp : p.tp = r.tp) :
    p.cpGroup = r.cpGroup := by
  rw [Rank.cpGroup, Rank.cpGroup, hp.1, hr.1, htp]

/-- The rank of a peer is the one with its context-parallel index. -/
theorem Mesh.Has.peer_eq_iff {p r : Rank} (hp : mesh.Has role p) (hr : mesh.Has role r) (htp : p.tp = r.tp)
    (cp : Nat) : { p with cp := cp } = r ↔ cp = r.cp := by
  obtain ⟨prole, ptp, pcp⟩ := p
  obtain ⟨rrole, rtp, rcp⟩ := r
  obtain rfl : prole = rrole := hp.1.trans hr.1.symm
  obtain rfl : ptp = rtp := htp
  simp

theorem coherent_collective {op : CommOp} (hop : op.isCollective = true) (tensor : String) :
    Coherent mesh role fun r => Emit.communicate r.tpGroup op tensor := by
  have hacts : ∀ r seq, acts (fun r => Emit.communicate r.tpGroup op tensor) r seq =
      [.collective r.tpGroup (seq, op, tensor)] := by
    intro r seq
    show [r.action _] = _
    rw [action_collective hop]
  constructor
  · exact ⟨1, fun _ _ _ => rfl⟩
  · intro r seq _ a ha _
    rw [hacts, List.mem_singleton] at ha
    subst ha
    exact ⟨Nat.le_refl (2 * seq), Nat.mul_lt_mul_of_pos_left (Nat.lt_succ_self seq) Nat.two_pos⟩
  · intro r seq _
    rw [hacts]
    exact List.pairwise_singleton _ _
  · intro r seq _ g op' h
    rw [hacts, List.mem_singleton] at h
    exact (Action.collective.inj h).1
  · intro p r seq hp hr hcp g
    show collectives g [.communication p.tpGroup seq op tensor] = collectives g [.communication r.tpGroup seq op tensor]
    rw [hp.tpGroup_eq hr hcp]
  · intro p seq _ r m h
    rw [hacts] at h
    simp at h
  · intro r seq _ p m h
    rw [hacts] at h
    simp at h
  · intro p r seq _ _ _
    rw [hacts, hacts]
    rfl

/-- Around the ring, the next rank of `p` is `r` when the previous one of `r` is `p`. -/
theorem ring_next_iff {p r n : Nat} (hp : p < n) (hr : r < n) : (p + 1) % n = r ↔ (r + n - 1) % n = p := by
  rcases Nat.lt_or_ge (p + 1) n with hnext | hlast
  · rw [Nat.mod_eq_of_lt hnext]
    cases r with
    | zero => rw [Nat.zero_add, Nat.mod_eq_of_lt (by omega)]; omega
    | succ r =>
      rw [show r + 1 + n - 1 = r + n by omega, Nat.add_mod_right, Nat.mod_eq_of_lt (by omega)]
      omega
  · obtain rfl : n = p + 1 := by omega
    rw [Nat.mod_self]
    cases r with
    | zero => rw [Nat.zero_add, Nat.add_sub_cancel, Nat.mod_eq_of_lt hp]; simp
    | succ r =>
      rw [show r + 1 + (p + 1) - 1 = r + (p + 1) by omega, Nat.add_mod_right, Nat.mod_eq_of_lt (by omega)]
      omega

theorem coherent_ringStep (layer step : Nat) : Coherent mesh role fun r => ringStep mesh r layer step := by
  have hacts : ∀ r seq, acts (fun r => ringStep mesh r layer step) r seq =
      [.send { r with cp := (r.cp + 1) % mesh.cp } (r.cpGroup, seq, "kv_context_shard"),
        .receive { r with cp := (r.cp + mesh.cp - 1) % mesh.cp } (r.cpGroup, seq, "kv_context_shard"), .compute] :=
    fun _ _ => rfl
  constructor
  · exact ⟨1, fun _ _ _ => rfl⟩
  · intro r seq _ a ha hcompute
    show 2 * seq ≤ stamp a ∧ stamp a < 2 * (seq + 1)
    rw [hacts] at ha
    rcases List.mem_cons.mp ha with rfl | ha
    · exact ⟨Nat.le_refl _, by simp only [stamp]; omega⟩
    rcases List.mem_cons.mp ha with rfl | ha
    · exact ⟨Nat.le_succ _, by simp only [stamp]; omega⟩
    · exact absurd (List.mem_singleton.mp ha) hcompute
  · intro r seq _
    rw [hacts]
    simp [stamp]
  · intro r seq _ g op h
    rw [hacts] at h
    simp at h
  · exact fun p r seq _ _ _ g => rfl
  · intro p seq hp r m h
    rw [hacts] at h
    obtain ⟨rfl, -⟩ : r = { p with cp := (p.cp + 1) % mesh.cp } ∧ _ := by simpa using h
    exact ⟨⟨hp.1, hp.2.1, Nat.mod_lt _ (Nat.zero_lt_of_lt hp.2.2)⟩, rfl⟩
  · intro r seq hr p m h
    rw [hacts] at h
    obtain ⟨rfl, -⟩ : p = { r with cp := (r.cp + mesh.cp - 1) % mesh.cp } ∧ _ := by simpa using h
    exact ⟨⟨hr.1, hr.2.1, Nat.mod_lt _ (Nat.zero_lt_of_lt hr.2.2)⟩, rfl⟩
  · intro p r seq hp hr htp
    have hring := ring_next_iff hp.2.2 hr.2.2
    rw [hacts, hacts]
    simp only [sent, received, List.filterMap_cons, List.filterMap_nil, hp.peer_eq_iff hr htp,
      hr.peer_eq_iff hp htp.symm, hp.cpGroup_eq hr htp, hring]

section

variable {α : Type} {c : Prop} [Decidable c]

theorem mem_optional {a b : α} : a ∈ (if c then [b] else []) ↔ c ∧ a = b := by
  split <;> simp_all

theorem pairwise_optional {R : α → α → Prop} {b : α} : (if c then [b] else []).Pairwise R := by
  split
  · exact List.pairwise_singleton R b
  · exact .nil

theorem collectives_optional {g : String} {i : Instruction} (h : collectives g [i] = []) :
    collectives g (if c then [i] else []) = [] := by
  split
  · exact h
  · rfl

end

/-- The message a hop number of a boundary carries. -/
def boundary (r : Rank) (layer seq : Nat) : Message := (r.cpGroup, seq, "hybrid_boundary_layer" ++ toString layer)

section

variable (mesh) (layer : Nat) (r : Rank) (seq : Nat)

theorem acts_deltaLayer : acts (fun r => deltaLayer mesh r layer) r seq =
    (if r.cp > 0 then [.receive { r with cp := r.cp - 1 } (boundary r layer (seq + r.cp - 1))] else []) ++
      List.replicate 5 .compute ++
      (if r.cp + 1 < mesh.cp then [.send { r with cp := r.cp + 1 } (boundary r layer (seq + r.cp))] else []) := by
  show List.map r.action (_ ++ _ ++ _) = _
  rw [List.map_append, List.map_append]
  congr 1
  · congr 1
    split <;> rfl
  · split <;> rfl

theorem mem_deltaLayer {a : RankAction} (ha : a ∈ acts (fun r => deltaLayer mesh r layer) r seq) : a = .compute ∨
    (r.cp > 0 ∧ a = .receive { r with cp := r.cp - 1 } (boundary r layer (seq + r.cp - 1))) ∨
    (r.cp + 1 < mesh.cp ∧ a = .send { r with cp := r.cp + 1 } (boundary r layer (seq + r.cp))) := by
  rw [acts_deltaLayer, List.mem_append, List.mem_append] at ha
  rcases ha with (ha | ha) | ha
  · exact .inr (.inl (mem_optional.mp ha))
  · exact .inl (List.eq_of_mem_replicate ha)
  · exact .inr (.inr (mem_optional.mp ha))

theorem ordered_deltaLayer : (acts (fun r => deltaLayer mesh r layer) r seq).Pairwise fun a b =>
    a ≠ .compute → b ≠ .compute → stamp a < stamp b := by
  rw [acts_deltaLayer, List.pairwise_append, List.pairwise_append]
  refine ⟨⟨pairwise_optional, ?_, ?_⟩, pairwise_optional, ?_⟩
  · exact List.pairwise_replicate.mpr (.inr fun h => absurd rfl h)
  · exact fun a _ b hb _ hcompute => absurd (List.eq_of_mem_replicate hb) hcompute
  -- The boundary is received one number before it is sent on.
  · intro a ha b hb hcompute _
    rcases List.mem_append.mp ha with ha | ha
    · obtain ⟨hpos, rfl⟩ := mem_optional.mp ha
      obtain ⟨-, rfl⟩ := mem_optional.mp hb
      simp only [stamp, boundary]
      omega
    · exact absurd (List.eq_of_mem_replicate ha) hcompute

theorem collectives_deltaLayer (g : String) : collectives g (deltaLayer mesh r layer seq).1 = [] := by
  show collectives g (_ ++ _ ++ _) = []
  rw [collectives_append, collectives_append, collectives_optional rfl, collectives_optional rfl]
  rfl

theorem sent_deltaLayer (q : Rank) : sent q (acts (fun r => deltaLayer mesh r layer) r seq) =
    if r.cp + 1 < mesh.cp ∧ { r with cp := r.cp + 1 } = q then [boundary r layer (seq + r.cp)] else [] := by
  rw [acts_deltaLayer, sent_append, sent_append]
  have hreceive : sent q (if r.cp > 0 then
      [(.receive { r with cp := r.cp - 1 } (boundary r layer (seq + r.cp - 1)) : RankAction)] else []) = [] := by
    split <;> rfl
  rw [hreceive, show sent q (List.replicate 5 (.compute : RankAction)) = [] from rfl, List.nil_append, List.nil_append]
  by_cases hlast : r.cp + 1 < mesh.cp
  · simp only [hlast, if_true, sent_send, true_and]
  · simp only [hlast, if_false, false_and, sent, List.filterMap_nil]

theorem received_deltaLayer (q : Rank) : received q (acts (fun r => deltaLayer mesh r layer) r seq) =
    if r.cp > 0 ∧ { r with cp := r.cp - 1 } = q then [boundary r layer (seq + r.cp - 1)] else [] := by
  rw [acts_deltaLayer, received_append, received_append]
  have hsend : received q (if r.cp + 1 < mesh.cp then
      [(.send { r with cp := r.cp + 1 } (boundary r layer (seq + r.cp)) : RankAction)] else []) = [] := by
    split <;> rfl
  rw [hsend, show received q (List.replicate 5 (.compute : RankAction)) = [] from rfl, List.append_nil, List.append_nil]
  by_cases hpos : r.cp > 0
  · simp only [hpos, if_true, received_receive, true_and]
  · simp only [hpos, if_false, false_and, received, List.filterMap_nil]

end

/-- One hop of the hybrid boundary for each rank but the last, in the order of the ranks. -/
theorem coherent_deltaLayer (layer : Nat) : Coherent mesh role fun r => deltaLayer mesh r layer := by
  constructor
  · exact ⟨mesh.cp - 1, fun _ _ _ => rfl⟩
  · intro r seq hr a ha hcompute
    show 2 * seq ≤ stamp a ∧ stamp a < 2 * (seq + (mesh.cp - 1))
    have hcp := hr.2.2
    rcases mem_deltaLayer mesh layer r seq ha with rfl | ⟨hpos, rfl⟩ | ⟨hlast, rfl⟩
    · exact absurd rfl hcompute
    · simp only [stamp, boundary]
      omega
    · simp only [stamp, boundary]
      omega
  · exact fun r seq _ => ordered_deltaLayer mesh layer r seq
  · intro r seq _ g op h
    rcases mem_deltaLayer mesh layer r seq h with h | ⟨-, h⟩ | ⟨-, h⟩ <;> cases h
  · intro p r seq _ _ _ g
    rw [collectives_deltaLayer, collectives_deltaLayer]
  · intro p seq hp r m h
    rcases mem_deltaLayer mesh layer p seq h with h | ⟨-, h⟩ | ⟨hlast, h⟩
    · cases h
    · cases h
    · obtain ⟨rfl, -⟩ := Action.send.inj h
      exact ⟨⟨hp.1, hp.2.1, hlast⟩, rfl⟩
  · intro r seq hr p m h
    rcases mem_deltaLayer mesh layer r seq h with h | ⟨-, h⟩ | ⟨-, h⟩
    · cases h
    · obtain ⟨rfl, -⟩ := Action.receive.inj h
      exact ⟨⟨hr.1, hr.2.1, Nat.lt_of_le_of_lt (Nat.sub_le _ _) hr.2.2⟩, rfl⟩
    · cases h
  · intro p r seq hp hr htp
    have hrcp := hr.2.2
    rw [sent_deltaLayer, received_deltaLayer]
    simp only [hp.peer_eq_iff hr htp, hr.peer_eq_iff hp htp.symm]
    by_cases hnext : p.cp + 1 = r.cp
    · rw [if_pos (by omega), if_pos (by omega), boundary, boundary, hp.cpGroup_eq hr htp, ← hnext]
      rfl
    · rw [if_neg (by omega), if_neg (by omega)]

/-! ## Whole programs -/

theorem coherent_gatherTokens (tensor : String) : Coherent mesh role fun r => gatherTokens mesh r tensor :=
  (coherent_collective rfl tensor).when mesh.sp

theorem coherent_residual (layer : Nat) (branch : String) : Coherent mesh role fun r => residual mesh r layer branch := by
  have hop : CommOp.isCollective (if mesh.sp then .reduceScatter else .allReduce) = true := by
    split <;> rfl
  exact ((coherent_collective hop _).when _).andThen ((coherent_kernels _ _).andThen coherent_nothing)

theorem coherent_fullLayer (layer : Nat) : Coherent mesh role fun r => fullLayer mesh r layer := by
  have hring : Coherent mesh role fun r => Emit.all ((List.range' 1 (mesh.cp - 1)).map (ringStep mesh r layer)) := by
    have hall : Coherent mesh role fun r => Emit.all
        (((List.range' 1 (mesh.cp - 1)).map fun step r => ringStep mesh r layer step).map fun e => e r) := by
      refine coherent_all fun e he => ?_
      obtain ⟨step, -, rfl⟩ := List.mem_map.mp he
      exact coherent_ringStep layer step
    simpa only [List.map_map, Function.comp_def] using hall
  exact (coherent_kernels _ _).andThen ((hring.when _).andThen ((coherent_kernels _ _).andThen coherent_nothing))

theorem coherent_mixer (layer : Nat) (kind : Layer) : Coherent mesh role fun r => mixer mesh r layer kind := by
  cases kind with
  | full => exact coherent_fullLayer layer
  | delta => exact coherent_deltaLayer layer

theorem coherent_layerProgram (layer : Layer) (i : Nat) : Coherent mesh role fun r => layerProgram mesh r layer i :=
  (coherent_kernels _ _).andThen <| (coherent_gatherTokens _).andThen <| (coherent_mixer i layer).andThen <|
    (coherent_kernels _ _).andThen <| (coherent_residual i _).andThen <| (coherent_kernels _ _).andThen <|
    (coherent_gatherTokens _).andThen <| (coherent_kernels _ _).andThen <| (coherent_residual i _).andThen
    coherent_nothing

theorem coherent_fence : Coherent mesh role fun _ seq => ([.fence], seq) := by
  refine coherent_computing (fun _ _ => rfl) fun r seq i hi => ?_
  rw [List.mem_singleton.mp hi]
  rfl

/-- Every rank program is coherent, over any layers and any degrees of the mesh. -/
theorem coherent_rankProgram (layers : List Layer) : Coherent mesh role fun r => rankProgram layers mesh r := by
  have hlayers : Coherent mesh role fun r =>
      Emit.all (layers.zipIdx.map fun p => layerProgram mesh r p.1 p.2) := by
    have hall : Coherent mesh role fun r => Emit.all
        ((layers.zipIdx.map fun p r => layerProgram mesh r p.1 p.2).map fun e => e r) := by
      refine coherent_all fun e he => ?_
      obtain ⟨p, -, rfl⟩ := List.mem_map.mp he
      exact coherent_layerProgram p.1 p.2
    simpa only [List.map_map, Function.comp_def] using hall
  exact (coherent_kernels _ _).andThen <| hlayers.andThen <| (coherent_kernels _ _).andThen <|
    (coherent_gatherTokens _).andThen <| (coherent_kernels _ _).andThen <| coherent_fence.andThen coherent_nothing

end Inferfabric.Compiler.Ranks
