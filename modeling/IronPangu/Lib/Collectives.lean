-- SUMMARY: Programs that meet in collectives and exchange messages over FIFO channels: stamped programs never deadlock.
import Mathlib.Data.Nat.Find
import Mathlib.Logic.Relation
import Mathlib.Logic.Function.Basic

/-!
# Collective programs

Each rank runs a program of actions. A collective waits until all members of its group
have reached it, a send never waits, a receive waits for the oldest message of its
channel. Programs whose actions carry increasing stamps, the same for all members of a
collective and larger for a receive than for its send, never get stuck.
-/

namespace Collectives

/-- Ranks `ρ`, groups `γ`, collective operations `κ` and messages `μ`. -/
inductive Action (ρ γ κ μ : Type) where
  | compute
  | collective (group : γ) (op : κ)
  | send (target : ρ) (message : μ)
  | receive (source : ρ) (message : μ)
  deriving DecidableEq

variable {ρ γ κ μ : Type} [DecidableEq ρ]

/-- The messages sent to a rank, in order. -/
def sent (target : ρ) (actions : List (Action ρ γ κ μ)) : List μ :=
  actions.filterMap fun
    | .send r m => if r = target then some m else none
    | .compute | .collective .. | .receive .. => none

/-- The messages received from a rank, in order. -/
def received (source : ρ) (actions : List (Action ρ γ κ μ)) : List μ :=
  actions.filterMap fun
    | .receive r m => if r = source then some m else none
    | .compute | .collective .. | .send .. => none

@[simp] theorem sent_append (r : ρ) (xs ys : List (Action ρ γ κ μ)) : sent r (xs ++ ys) = sent r xs ++ sent r ys :=
  List.filterMap_append

@[simp] theorem received_append (r : ρ) (xs ys : List (Action ρ γ κ μ)) :
    received r (xs ++ ys) = received r xs ++ received r ys := List.filterMap_append

@[simp] theorem sent_compute (r : ρ) : sent r [(.compute : Action ρ γ κ μ)] = [] := rfl

@[simp] theorem received_compute (r : ρ) : received r [(.compute : Action ρ γ κ μ)] = [] := rfl

@[simp] theorem sent_receive (r p : ρ) (m : μ) : sent r [(.receive p m : Action ρ γ κ μ)] = [] := rfl

@[simp] theorem received_send (p r : ρ) (m : μ) : received p [(.send r m : Action ρ γ κ μ)] = [] := rfl

theorem sent_send (r r' : ρ) (m : μ) : sent r [(.send r' m : Action ρ γ κ μ)] = if r' = r then [m] else [] := by
  by_cases h : r' = r <;> simp [sent, h]

theorem received_receive (p p' : ρ) (m : μ) :
    received p [(.receive p' m : Action ρ γ κ μ)] = if p' = p then [m] else [] := by
  by_cases h : p' = p <;> simp [received, h]

theorem mem_sent {r : ρ} {m : μ} {actions : List (Action ρ γ κ μ)} : m ∈ sent r actions ↔ .send r m ∈ actions := by
  rw [sent, List.mem_filterMap]
  constructor
  · rintro ⟨a, ha, hm⟩
    cases a with
    | send r' m' =>
      obtain ⟨rfl, rfl⟩ : r' = r ∧ m' = m := by simpa using hm
      exact ha
    | compute | collective | receive => cases hm
  · exact fun ha => ⟨_, ha, by simp⟩

theorem mem_received {p : ρ} {m : μ} {actions : List (Action ρ γ κ μ)} :
    m ∈ received p actions ↔ .receive p m ∈ actions := by
  rw [received, List.mem_filterMap]
  constructor
  · rintro ⟨a, ha, hm⟩
    cases a with
    | receive p' m' =>
      obtain ⟨rfl, rfl⟩ : p' = p ∧ m' = m := by simpa using hm
      exact ha
    | compute | collective | send => cases hm
  · exact fun ha => ⟨_, ha, by simp⟩

/-- What the ranks have still to do, and the messages under way between them. -/
structure Net (ρ γ κ μ : Type) where
  rest : ρ → List (Action ρ γ κ μ)
  queue : ρ → ρ → List μ

/-- One rank computes, sends or receives, or all members of a group meet. -/
inductive Step (members : γ → ρ → Prop) : Net ρ γ κ μ → Net ρ γ κ μ → Prop where
  | compute {n : Net ρ γ κ μ} {r rest} : n.rest r = .compute :: rest →
      Step members n { n with rest := Function.update n.rest r rest }
  | send {n : Net ρ γ κ μ} {p r m rest} : n.rest p = .send r m :: rest →
      Step members n ⟨Function.update n.rest p rest,
        Function.update n.queue p (Function.update (n.queue p) r (n.queue p r ++ [m]))⟩
  | receive {n : Net ρ γ κ μ} {p r m rest ms} : n.rest r = .receive p m :: rest → n.queue p r = m :: ms →
      Step members n ⟨Function.update n.rest r rest, Function.update n.queue p (Function.update (n.queue p) r ms)⟩
  | collective {n : Net ρ γ κ μ} {g op r₀} {next : ρ → List (Action ρ γ κ μ)} : members g r₀ →
      (∀ r, members g r → n.rest r = .collective g op :: next r) → (∀ r, ¬members g r → next r = n.rest r) →
      Step members n { n with rest := next }

def start (programs : ρ → List (Action ρ γ κ μ)) : Net ρ γ κ μ := ⟨programs, fun _ _ => []⟩

/-- Every communication is stamped later than those before it, the members of a group have
    the same collectives, and every channel is received in the order it is sent. -/
structure Stamped (members : γ → ρ → Prop) (stamp : Action ρ γ κ μ → Nat) (programs : ρ → List (Action ρ γ κ μ)) :
    Prop where
  ordered : ∀ r, (programs r).Pairwise fun a b => a ≠ .compute → b ≠ .compute → stamp a < stamp b
  grouped : ∀ r g op, .collective g op ∈ programs r →
    members g r ∧ ∀ r', members g r' → .collective g op ∈ programs r'
  matched : ∀ p r, sent r (programs p) = received p (programs r)
  causal : ∀ p r m, .send r m ∈ programs p → stamp (.send r m) < stamp (.receive p m)

/-- What was done so far accounts for what is left and what is under way. -/
structure Accounted (members : γ → ρ → Prop) (programs : ρ → List (Action ρ γ κ μ)) (n : Net ρ γ κ μ)
    (past : ρ → List (Action ρ γ κ μ)) : Prop where
  split : ∀ r, programs r = past r ++ n.rest r
  queues : ∀ p r, sent r (past p) = received p (past r) ++ n.queue p r
  together : ∀ g op r r', members g r → members g r' → .collective g op ∈ past r → .collective g op ∈ past r'

section

variable {members : γ → ρ → Prop} {stamp : Action ρ γ κ μ → Nat} {programs past : ρ → List (Action ρ γ κ μ)}
  {n n' : Net ρ γ κ μ}

theorem accounted_start : Accounted members programs (start programs) fun _ => [] :=
  ⟨fun _ => rfl, fun _ _ => rfl, fun _ _ _ _ _ _ h => h⟩

/-- One rank does its next action. -/
theorem split_update {r : ρ} {a : Action ρ γ κ μ} {rest : List (Action ρ γ κ μ)}
    (hsplit : ∀ r, programs r = past r ++ n.rest r) (hrest : n.rest r = a :: rest) (r' : ρ) :
    programs r' = Function.update past r (past r ++ [a]) r' ++ Function.update n.rest r rest r' := by
  by_cases h : r' = r
  · subst h
    rw [Function.update_self, Function.update_self, hsplit, hrest, List.append_assoc, List.singleton_append]
  · rw [Function.update_of_ne h, Function.update_of_ne h, hsplit]

theorem together_update {r₀ : ρ} {a : Action ρ γ κ μ} (ha : ∀ g op, a ≠ .collective g op)
    (htogether : ∀ g op r r', members g r → members g r' → .collective g op ∈ past r → .collective g op ∈ past r') :
    ∀ g op r r', members g r → members g r' → .collective g op ∈ Function.update past r₀ (past r₀ ++ [a]) r →
      .collective g op ∈ Function.update past r₀ (past r₀ ++ [a]) r' := by
  have hmem : ∀ g op r, .collective g op ∈ Function.update past r₀ (past r₀ ++ [a]) r ↔
      .collective g op ∈ past r := by
    intro g op r
    by_cases h : r = r₀
    · subst h
      simp [(ha g op).symm]
    · rw [Function.update_of_ne h]
  intro g op r r' hr hr' h
  exact (hmem g op r').mpr (htogether g op r r' hr hr' ((hmem g op r).mp h))

theorem sent_update (past : ρ → List (Action ρ γ κ μ)) (r₀ p r : ρ) (a : Action ρ γ κ μ) :
    sent r (Function.update past r₀ (past r₀ ++ [a]) p) = sent r (past p) ++ if p = r₀ then sent r [a] else [] := by
  by_cases h : p = r₀
  · subst h
    rw [Function.update_self, sent_append, if_pos rfl]
  · rw [Function.update_of_ne h, if_neg h, List.append_nil]

theorem received_update (past : ρ → List (Action ρ γ κ μ)) (r₀ p r : ρ) (a : Action ρ γ κ μ) :
    received p (Function.update past r₀ (past r₀ ++ [a]) r) =
      received p (past r) ++ if r = r₀ then received p [a] else [] := by
  by_cases h : r = r₀
  · subst h
    rw [Function.update_self, received_append, if_pos rfl]
  · rw [Function.update_of_ne h, if_neg h, List.append_nil]

theorem queue_update (queue : ρ → ρ → List μ) (p₀ r₀ p r : ρ) (ms : List μ) :
    Function.update queue p₀ (Function.update (queue p₀) r₀ ms) p r =
      if p = p₀ ∧ r = r₀ then ms else queue p r := by
  by_cases hp : p = p₀
  · subst hp
    rw [Function.update_self]
    by_cases hr : r = r₀
    · subst hr
      simp
    · rw [Function.update_of_ne hr, if_neg fun h => hr h.2]
  · rw [Function.update_of_ne hp, if_neg fun h => hp h.1]

/-- Every step keeps the account. -/
theorem Accounted.step (h : Accounted members programs n past) (hstep : Step members n n') :
    ∃ past', Accounted members programs n' past' := by
  cases hstep with
  | @compute r rest hrest =>
    refine ⟨Function.update past r (past r ++ [.compute]), split_update h.split hrest, fun p r' => ?_,
      together_update (fun _ _ => nofun) h.together⟩
    rw [sent_update, received_update, h.queues p r']
    simp
  | @send p₀ r₀ m rest hrest =>
    refine ⟨Function.update past p₀ (past p₀ ++ [.send r₀ m]), split_update h.split hrest, fun p r => ?_,
      together_update (fun _ _ => nofun) h.together⟩
    dsimp only
    rw [sent_update, received_update, queue_update, h.queues p r, sent_send, received_send]
    by_cases hp : p = p₀
    · subst hp
      by_cases hr : r = r₀
      · subst hr
        simp
      · simpa [hr] using fun h : r₀ = r => hr h.symm
    · simp [hp]
  | @receive p₀ r₀ m rest ms hrest hqueue =>
    refine ⟨Function.update past r₀ (past r₀ ++ [.receive p₀ m]), split_update h.split hrest, fun p r => ?_,
      together_update (fun _ _ => nofun) h.together⟩
    dsimp only
    rw [sent_update, received_update, queue_update, h.queues p r, sent_receive, received_receive]
    by_cases hr : r = r₀
    · subst hr
      by_cases hp : p = p₀
      · subst hp
        simp [hqueue]
      · simpa [hp] using fun h : p₀ = p => hp h.symm
    · simp [hr]
  | @collective g op r₀ next hmember hnext hother =>
    classical
    refine ⟨fun r => past r ++ if members g r then [.collective g op] else [], fun r => ?_, fun p r => ?_, ?_⟩
    · by_cases hr : members g r
      · simp [hr, h.split r, hnext r hr]
      · simp [hr, h.split r, hother r hr]
    · have hsent : ∀ q : ρ, sent r (if members g q then [Action.collective g op] else []) = ([] : List μ) := by
        intro q
        split <;> rfl
      have hreceived : ∀ q : ρ, received p (if members g q then [Action.collective g op] else []) = ([] : List μ) := by
        intro q
        split <;> rfl
      rw [sent_append, received_append, hsent, hreceived, List.append_nil, List.append_nil, h.queues p r]
    · intro g' op' r r' hr hr' hmem
      rw [List.mem_append] at hmem ⊢
      rcases hmem with hmem | hmem
      · exact .inl (h.together g' op' r r' hr hr' hmem)
      · split at hmem
        · obtain ⟨rfl, rfl⟩ : g' = g ∧ op' = op := by simpa using hmem
          exact .inr (by simp [hr'])
        · cases hmem

theorem accounted_reachable (hreach : Relation.ReflTransGen (Step members) (start programs) n) :
    ∃ past, Accounted members programs n past := by
  induction hreach with
  | refl => exact ⟨_, accounted_start⟩
  | tail _ hstep ih =>
    obtain ⟨past, hpast⟩ := ih
    exact hpast.step hstep

/-- What is left of a program starts with its smallest stamp. -/
theorem Stamped.head_least (h : Stamped members stamp programs) (hpast : Accounted members programs n past) {r : ρ}
    {a b : Action ρ γ κ μ} {rest : List (Action ρ γ κ μ)} (hrest : n.rest r = a :: rest) (ha : a ≠ .compute)
    (hb : b ≠ .compute) (hmem : b ∈ n.rest r) : b = a ∨ stamp a < stamp b := by
  have hordered := h.ordered r
  rw [hpast.split r, List.pairwise_append] at hordered
  have hleft := hordered.2.1
  rw [hrest] at hleft hmem
  rcases List.mem_cons.mp hmem with rfl | hmem
  · exact .inl rfl
  · exact .inr (List.rel_of_pairwise_cons hleft hmem ha hb)

theorem Stamped.not_past (h : Stamped members stamp programs) (hpast : Accounted members programs n past) {r : ρ}
    {a : Action ρ γ κ μ} {rest : List (Action ρ γ κ μ)} (hrest : n.rest r = a :: rest) (ha : a ≠ .compute) :
    a ∉ past r := by
  intro hmem
  have hordered := h.ordered r
  rw [hpast.split r, List.pairwise_append] at hordered
  exact Nat.lt_irrefl _ (hordered.2.2 a hmem a (hrest ▸ List.mem_cons_self) ha ha)

/-- A receive of least stamp finds its message. -/
theorem Stamped.receive_ready (h : Stamped members stamp programs) (hpast : Accounted members programs n past)
    {p r : ρ} {m : μ} {rest : List (Action ρ γ κ μ)} (hrest : n.rest r = .receive p m :: rest)
    (hleast : ∀ r' a rest', n.rest r' = a :: rest' → a ≠ .compute ∧ stamp (.receive p m) ≤ stamp a) :
    ∃ ms, n.queue p r = m :: ms := by
  -- Both sides of the channel list the same messages, and share what was received.
  have hmatched := h.matched p r
  have hreceived : received p (n.rest r) = m :: received p rest := by rw [hrest]; simp [received]
  rw [hpast.split p, hpast.split r, sent_append, received_append, hpast.queues, List.append_assoc, hreceived] at hmatched
  have hchannel := List.append_cancel_left hmatched
  cases hqueue : n.queue p r with
  | cons m' ms =>
    rw [hqueue, List.cons_append] at hchannel
    exact ⟨ms, by rw [(List.cons.inj hchannel).1]⟩
  | nil =>
    rw [hqueue, List.nil_append] at hchannel
    have hmem : .send r m ∈ n.rest p := mem_sent.mp (hchannel ▸ List.mem_cons_self)
    have hsend : .send r m ∈ programs p := by
      rw [hpast.split p]
      exact List.mem_append_right _ hmem
    obtain ⟨a, rest', hrest'⟩ := List.exists_cons_of_ne_nil (List.ne_nil_of_mem hmem)
    obtain ⟨ha, hle⟩ := hleast p a rest' hrest'
    have hcausal := h.causal p r m hsend
    have hfirst : stamp a ≤ stamp (.send r m) := by
      rcases h.head_least hpast hrest' ha (by nofun) hmem with heq | hlt
      · exact Nat.le_of_eq (by rw [heq])
      · exact Nat.le_of_lt hlt
    omega

/-- A collective of least stamp finds all members of its group. -/
theorem Stamped.collective_ready (h : Stamped members stamp programs) (hpast : Accounted members programs n past)
    {g : γ} {op : κ} {r : ρ} {rest : List (Action ρ γ κ μ)} (hrest : n.rest r = .collective g op :: rest)
    (hleast : ∀ r' a rest', n.rest r' = a :: rest' → a ≠ .compute ∧ stamp (.collective g op) ≤ stamp a) :
    members g r ∧ ∀ r', members g r' → ∃ rest', n.rest r' = .collective g op :: rest' := by
  have hmem : .collective g op ∈ programs r := by
    rw [hpast.split r, hrest]
    exact List.mem_append_right _ List.mem_cons_self
  obtain ⟨hmember, hall⟩ := h.grouped r g op hmem
  refine ⟨hmember, fun r' hr' => ?_⟩
  have hleft : .collective g op ∈ n.rest r' := by
    have hprogram := hall r' hr'
    rw [hpast.split r', List.mem_append] at hprogram
    refine hprogram.resolve_left fun hdone => ?_
    exact h.not_past hpast hrest (by nofun) (hpast.together g op r' r hr' hmember hdone)
  obtain ⟨a, rest', hrest'⟩ := List.exists_cons_of_ne_nil (List.ne_nil_of_mem hleft)
  obtain ⟨ha, hle⟩ := hleast r' a rest' hrest'
  rcases h.head_least hpast hrest' ha (by nofun) hleft with heq | hlt
  · exact ⟨rest', heq ▸ hrest'⟩
  · omega

omit [DecidableEq ρ] in
/-- Some next action has the least stamp. -/
theorem exists_least (stamp : Action ρ γ κ μ → Nat) {r₀ : ρ} (h : n.rest r₀ ≠ []) :
    ∃ r a rest, n.rest r = a :: rest ∧ ∀ r' a' rest', n.rest r' = a' :: rest' → stamp a ≤ stamp a' := by
  classical
  obtain ⟨a₀, rest₀, hrest₀⟩ := List.exists_cons_of_ne_nil h
  have hexists : ∃ k, ∃ r a rest, n.rest r = a :: rest ∧ stamp a = k := ⟨_, r₀, a₀, rest₀, hrest₀, rfl⟩
  obtain ⟨r, a, rest, hrest, hstamp⟩ := Nat.find_spec hexists
  refine ⟨r, a, rest, hrest, fun r' a' rest' hrest' => ?_⟩
  rw [hstamp]
  exact Nat.find_min' hexists ⟨r', a', rest', hrest', rfl⟩

/-- Stamped programs never deadlock: in every reachable state all are done or someone moves. -/
theorem Stamped.progress (h : Stamped members stamp programs)
    (hreach : Relation.ReflTransGen (Step members) (start programs) n) :
    (∀ r, n.rest r = []) ∨ ∃ n', Step members n n' := by
  classical
  obtain ⟨past, hpast⟩ := accounted_reachable hreach
  by_cases hdone : ∀ r, n.rest r = []
  · exact .inl hdone
  obtain ⟨r₀, hr₀⟩ := not_forall.mp hdone
  refine .inr ?_
  -- Computing and sending never wait.
  by_cases hfree : ∃ r a rest, n.rest r = a :: rest ∧ (a = .compute ∨ ∃ r' m, a = .send r' m)
  · obtain ⟨r, a, rest, hrest, rfl | ⟨r', m, rfl⟩⟩ := hfree
    · exact ⟨_, .compute hrest⟩
    · exact ⟨_, .send hrest⟩
  obtain ⟨r, a, rest, hrest, hleast⟩ := exists_least stamp hr₀
  have hwaiting : ∀ r' a' rest', n.rest r' = a' :: rest' → a' ≠ .compute ∧ stamp a ≤ stamp a' :=
    fun r' a' rest' hrest' => ⟨fun ha => hfree ⟨r', a', rest', hrest', .inl ha⟩, hleast r' a' rest' hrest'⟩
  cases a with
  | compute => exact absurd ⟨r, _, rest, hrest, .inl rfl⟩ hfree
  | send r' m => exact absurd ⟨r, _, rest, hrest, .inr ⟨r', m, rfl⟩⟩ hfree
  | receive p m =>
    obtain ⟨ms, hqueue⟩ := h.receive_ready hpast hrest hwaiting
    exact ⟨_, .receive hrest hqueue⟩
  | collective g op =>
    obtain ⟨hmember, hall⟩ := h.collective_ready hpast hrest hwaiting
    have hmeet : Step members n ⟨fun r' => if members g r' then (n.rest r').tail else n.rest r', n.queue⟩ := by
      apply @Step.collective ρ γ κ μ _ members n g op r _ hmember
      · intro r' hr'
        obtain ⟨rest', hrest'⟩ := hall r' hr'
        rw [if_pos hr', hrest', List.tail_cons]
      · exact fun r' hr' => if_neg hr'
    exact ⟨_, hmeet⟩

end

end Collectives
