-- SUMMARY: Steps of the mock workers that cannot fail: what they answer, and the state after any sequence of tokens.
import IronPangu.Runtime.Mock

open Rust Method Outcome

/-!
# Steps of the mock workers

A state that is formed stays so with every token. A step is accepted when its inputs are
runnable and their bindings apart; all workers of the group then answer alike.
-/

namespace Inferfabric.Mock

open Compiler.Ranks (Artifact RankPlan Role Target)

variable {spec : Spec} {state : HybridState} {token : Nat} {tokens : List Nat} {input : StepInput} {inputs : List StepInput}

/-! ## Formed states -/

/-- What `validate` asks of a state, but for its length. -/
structure Formed (spec : Spec) (state : HybridState) : Prop where
  kv : state.kv.length = (HybridState.empty spec).kv.length
  recurrent : state.recurrent.length = (HybridState.empty spec).recurrent.length
  conv : state.conv.length = (HybridState.empty spec).conv.length
  kvLength : ∀ v ∈ state.kv, v.length = state.consumed
  convLength : ∀ v ∈ state.conv, v.length = min state.consumed spec.model.convWidth

theorem Formed.validate (h : Formed spec state) (hroom : state.consumed ≤ spec.maxContext) :
    state.validate spec = .ok () := by
  refine if_neg ?_
  rintro (hlong | hkv | hrecurrent | hconv | ⟨v, hv, hlength⟩ | ⟨v, hv, hlength⟩)
  · exact Nat.not_lt.mpr hroom hlong
  · exact hkv h.kv
  · exact hrecurrent h.recurrent
  · exact hconv h.conv
  · exact hlength (h.kvLength v hv)
  · exact hlength (h.convLength v hv)

theorem formed_empty : Formed spec (.empty spec) where
  kv := rfl
  recurrent := rfl
  conv := rfl
  kvLength v hv := by simp_all [HybridState.empty]
  convLength v hv := by simp_all [HybridState.empty]

@[simp] theorem feed_consumed : (feed spec state token).consumed = state.consumed + 1 := rfl

theorem length_slide (width m : Nat) (conv : List Nat) (h : conv.length = min state.consumed width) :
    (slide width (conv ++ [m])).length = min (state.consumed + 1) width := by
  unfold slide
  split <;> simp_all <;> omega

theorem Formed.feed (h : Formed spec state) : Formed spec (feed spec state token) where
  kv := by simp [Mock.feed, h.kv]
  recurrent := by simp [Mock.feed, h.recurrent]
  conv := by simp [Mock.feed, h.conv]
  kvLength v hv := by
    obtain ⟨layer, hlayer, rfl⟩ := List.mem_mapIdx.mp hv
    rw [List.length_append, h.kvLength _ (List.getElem_mem hlayer)]
    rfl
  convLength v hv := by
    obtain ⟨conv, hconv, rfl⟩ := List.mem_map.mp hv
    exact length_slide _ _ conv (h.convLength conv hconv)

/-- The state after some tokens. -/
def fed (spec : Spec) (tokens : List Nat) : HybridState := tokens.foldl (feed spec) (.empty spec)

theorem consumed_foldl : (tokens.foldl (feed spec) state).consumed = state.consumed + tokens.length := by
  induction tokens generalizing state with
  | nil => rfl
  | cons token tokens ih =>
    rw [List.foldl_cons, ih, feed_consumed, List.length_cons, Nat.add_assoc, Nat.add_comm 1]

theorem Formed.foldl (h : Formed spec state) : Formed spec (tokens.foldl (Mock.feed spec) state) := by
  induction tokens generalizing state with
  | nil => exact h
  | cons token tokens ih => exact ih h.feed

@[simp] theorem fed_consumed : (fed spec tokens).consumed = tokens.length := by
  rw [fed, consumed_foldl]
  exact Nat.zero_add _

theorem fed_formed : Formed spec (fed spec tokens) := formed_empty.foldl

/-- The state does not tell where the tokens were cut. -/
theorem fed_append (tokens tokens' : List Nat) : tokens'.foldl (feed spec) (fed spec tokens) = fed spec (tokens ++ tokens') :=
  List.foldl_append.symm

/-! ## Runnable inputs -/

structure Runnable (spec : Spec) (input : StepInput) : Prop where
  formed : Formed spec input.state
  nonempty : input.tokens ≠ []
  room : input.state.consumed + input.tokens.length ≤ spec.maxContext
  vocabulary : ∀ token ∈ input.tokens, token < spec.model.vocab

def answer (spec : Spec) (input : StepInput) : StepOutput where
  request := input.request
  epoch := input.epoch
  nextToken := nextToken spec (input.tokens.getLast?.getD 0) (input.state.consumed + input.tokens.length)
  state := input.tokens.foldl (feed spec) input.state

theorem feedAll_run (h : ∀ token ∈ tokens, token < spec.model.vocab) :
    feedAll spec state tokens = .ok (tokens.foldl (feed spec) state) := by
  induction tokens generalizing state with
  | nil => rfl
  | cons token tokens ih =>
    obtain ⟨htoken, htokens⟩ := List.forall_mem_cons.mp h
    rw [feedAll, if_neg (Nat.not_le.mpr htoken), ih htokens, List.foldl_cons]

theorem executeOne_run (h : Runnable spec input) : executeOne spec input = .ok (answer spec input) := by
  have hroom : ¬(input.tokens = [] ∨ input.state.consumed + input.tokens.length > spec.maxContext) :=
    not_or.mpr ⟨h.nonempty, Nat.not_lt.mpr h.room⟩
  have hvalid := h.formed.validate ((Nat.le_add_right _ _).trans h.room)
  have hlast : input.tokens.getLast? = some (input.tokens.getLast h.nonempty) := List.getLast?_eq_some_getLast h.nonempty
  rw [executeOne, hvalid, ok_bind, if_neg hroom, feedAll_run h.vocabulary, ok_bind, hlast, okOr_some, ok_bind, consumed_foldl]
  simp [answer, hlast]

theorem nextToken_lt {last consumed : Nat} (h : 0 < spec.model.vocab) : nextToken spec last consumed < spec.model.vocab :=
  (Nat.mod_le _ _).trans_lt (Nat.mod_lt _ h)

theorem Runnable.vocab (h : Runnable spec input) : 0 < spec.model.vocab :=
  (Nat.zero_le _).trans_lt (h.vocabulary _ (List.getLast_mem h.nonempty))

theorem checkOutput_run (h : Runnable spec input) : Runtime.checkOutput spec (input, answer spec input) = .ok () := by
  have hconsumed : (answer spec input).state.consumed = input.state.consumed + input.tokens.length := consumed_foldl
  have hvalid : (answer spec input).state.validate spec = .ok () := h.formed.foldl.validate (hconsumed.trans_le h.room)
  have hnext : (answer spec input).nextToken < spec.model.vocab := nextToken_lt h.vocab
  rw [Runtime.checkOutput, hvalid, ok_bind]
  refine if_neg ?_
  rintro (hrequest | hepoch | htoken | hfrontier)
  · exact hrequest rfl
  · exact hepoch rfl
  · exact Nat.not_le.mpr hnext htoken
  · exact hfrontier hconsumed

/-! ## Bindings -/

/-- The bindings of a step do not share a slot or a page, and hold the tokens. -/
structure Bound (pageTokens : Nat) (inputs : List StepInput) : Prop where
  apart : inputs.Pairwise fun i j => i.binding.slot ≠ j.binding.slot ∧ i.binding.pages.Disjoint j.binding.pages
  distinct : ∀ i ∈ inputs, i.binding.pages.Nodup
  enough : ∀ i ∈ inputs, (i.state.consumed + i.tokens.length + pageTokens - 1) / pageTokens ≤ i.binding.pages.length

theorem checkBindings_run {pageTokens : Nat} {slots pages : List Nat} (hpage : 0 < pageTokens)
    (h : Bound pageTokens inputs) (hslots : ∀ i ∈ inputs, i.binding.slot ∉ slots)
    (hpages : ∀ i ∈ inputs, i.binding.pages.Disjoint pages) :
    Runtime.checkBindings pageTokens inputs slots pages = .ok () := by
  induction inputs generalizing slots pages with
  | nil => rfl
  | cons input inputs ih =>
    obtain ⟨⟨hapart, hrest⟩, ⟨hdistinct, hdistincts⟩, ⟨henough, henoughs⟩⟩ :=
      (⟨List.pairwise_cons.mp h.apart, List.forall_mem_cons.mp h.distinct, List.forall_mem_cons.mp h.enough⟩ : _ ∧ _ ∧ _)
    obtain ⟨hslot, hslots⟩ := List.forall_mem_cons.mp hslots
    obtain ⟨hpage', hpages⟩ := List.forall_mem_cons.mp hpages
    rw [Runtime.checkBindings, divCeil_pos hpage, ok_bind, if_neg]
    · apply ih ⟨hrest, hdistincts, henoughs⟩
      · intro i hi hmem
        rcases List.mem_cons.mp hmem with heq | hmem
        · exact (hapart i hi).1 heq.symm
        · exact hslots i hi hmem
      · intro i hi
        exact List.disjoint_append_right.mpr ⟨(hapart i hi).2.symm, hpages i hi⟩
    · rintro (hmem | hdup | ⟨p, hp, hmem⟩ | hfew)
      · exact hslot hmem
      · exact hdup hdistinct
      · exact hpage' hp hmem
      · exact Nat.not_lt.mpr henough hfew

/-! ## Groups -/

/-- A step the workers of a role cannot refuse. -/
structure Steppable (s : Compiler.Ranks.Spec) (role : Role) (inputs : List StepInput) : Prop where
  nonempty : inputs ≠ []
  bound : Bound s.pageTokens inputs
  runnable : ∀ i ∈ inputs, Runnable s.serving i
  batch : role = .decode → ∃ batch ∈ s.batchBuckets, inputs.length ≤ batch
  single : role = .decode → ∀ i ∈ inputs, i.tokens.length = 1

/-- A worker of a role, started on an artifact. -/
structure Runtime.Started (a : Artifact) (role : Role) (r : Runtime) : Prop where
  same : r.artifact = a
  ranked : r.plan.rank.role = role
  captured : role = .decode → r.graphs = buckets a.spec

structure WorkerGroup.Started (a : Artifact) (role : Role) (g : WorkerGroup) : Prop where
  nonempty : g.workers ≠ []
  workers : ∀ r ∈ g.workers, r.Started a role

theorem le_foldl_max {n : Nat} {ns : List Nat} : (∀ m ∈ ns, m ≤ ns.foldl max n) ∧ n ≤ ns.foldl max n := by
  induction ns generalizing n with
  | nil => simp
  | cons m ns ih =>
    obtain ⟨hall, hfirst⟩ := ih (n := max n m)
    refine ⟨List.forall_mem_cons.mpr ⟨(le_max_right n m).trans hfirst, hall⟩, (le_max_left n m).trans hfirst⟩

theorem foldl_max_le {n bound : Nat} {ns : List Nat} (hn : n ≤ bound) (h : ∀ m ∈ ns, m ≤ bound) : ns.foldl max n ≤ bound := by
  induction ns generalizing n with
  | nil => exact hn
  | cons m ns ih =>
    obtain ⟨hm, hns⟩ := List.forall_mem_cons.mp h
    exact ih (max_le hn hm) hns

theorem execute_run {graph : Option Bucket} (h : ∀ i ∈ inputs, Runnable spec i)
    (hgraph : ∀ b ∈ graph, b.exceeded inputs = false) : execute spec inputs graph = .ok (inputs.map (answer spec)) := by
  rw [execute, if_neg, collect_eq_map fun i hi => executeOne_run (h i hi)]
  cases graph with
  | none => simp
  | some b => simp [hgraph b rfl]

theorem exceeded_eq_false {b : Bucket} (hbatch : inputs.length ≤ b.batch)
    (h : ∀ i ∈ inputs, i.tokens.length = 1 ∧ i.state.consumed + 1 ≤ b.context) : b.exceeded inputs = false := by
  simp only [Bucket.exceeded, decide_eq_false_iff_not, not_or, Nat.not_lt, List.any_eq_true, not_exists, not_and,
    decide_eq_true_eq]
  exact ⟨hbatch, fun i hi => ⟨not_not.mpr (h i hi).1, (h i hi).2⟩⟩

theorem exists_bucket {ns : List Nat} {n m : Nat} (hm : m ∈ ns) (h : n ≤ m) :
    ∃ k ∈ ns, ns.find? (· ≥ n) = some k ∧ n ≤ k := by
  have hfound : (ns.find? (· ≥ n)).isSome := List.find?_isSome.mpr ⟨m, hm, by simpa using h⟩
  obtain ⟨k, hk⟩ := Option.isSome_iff_exists.mp hfound
  exact ⟨k, List.mem_of_find?_eq_some hk, hk, by simpa using List.find?_some hk⟩

theorem maxContext_mem (h : 0 < spec.maxContext) : spec.maxContext ∈ spec.contextBuckets := by
  unfold Spec.maxContext at h ⊢
  cases hlast : spec.contextBuckets.getLast? with
  | none => simp [hlast] at h
  | some n => exact List.mem_of_getLast? hlast

/-- A decode step finds a graph that is large enough for all its inputs. -/
theorem Runtime.Started.graph_run {a : Artifact} {role : Role} {r : Runtime} (hr : r.Started a role)
    (h : Steppable a.spec role inputs) : ∃ graph, r.graph inputs = .ok graph ∧ ∀ b ∈ graph, b.exceeded inputs = false := by
  rw [Runtime.graph, hr.ranked, hr.same]
  split
  case isFalse => exact ⟨none, rfl, by simp⟩
  case isTrue hrole =>
    have hroom : ∀ i ∈ inputs, i.state.consumed + i.tokens.length ≤ a.spec.serving.maxContext := fun i hi => (h.runnable i hi).room
    obtain ⟨first, hfirst⟩ := List.exists_mem_of_ne_nil _ h.nonempty
    have hpositive := List.length_pos_iff.mpr (h.runnable first hfirst).nonempty
    generalize hlargest : (inputs.map fun i => i.state.consumed + i.tokens.length).foldl max 0 = largest
    have hlargest' : largest ≤ a.spec.serving.maxContext := hlargest ▸ foldl_max_le (Nat.zero_le _) (by simpa using hroom)
    -- The last context bucket is large enough, so some bucket is found.
    have hlast : a.spec.serving.maxContext ∈ a.spec.contextBuckets :=
      maxContext_mem (hpositive.trans_le ((Nat.le_add_left _ _).trans (hroom first hfirst)))
    obtain ⟨large, hlarge, hfits⟩ := h.batch hrole
    obtain ⟨batch, hbatch, hfindBatch, hbatchFits⟩ := exists_bucket hlarge hfits
    obtain ⟨context, hcontext, hfindContext, hcontextFits⟩ := exists_bucket hlast hlargest'
    have hgraph : (⟨batch, context⟩ : Bucket) ∈ r.graphs := by
      rw [hr.captured hrole]
      exact List.mem_flatMap.mpr ⟨batch, hbatch, List.mem_map_of_mem hcontext⟩
    refine ⟨some ⟨batch, context⟩, ?_, ?_⟩
    · simp only [hfindBatch, hfindContext, okOr_some, ok_bind, if_pos hgraph]
    · rintro b ⟨⟩
      refine exceeded_eq_false hbatchFits fun i hi => ⟨h.single hrole i hi, ?_⟩
      rw [← h.single hrole i hi]
      exact (hlargest ▸ le_foldl_max.1 _ (List.mem_map_of_mem hi)).trans hcontextFits

theorem Runtime.Started.step_run {a : Artifact} {role : Role} {r : Runtime} (hr : r.Started a role)
    (hpage : 0 < a.spec.pageTokens) (h : Steppable a.spec role inputs) :
    r.step inputs = .ok (inputs.map (answer a.spec.serving)) := by
  obtain ⟨graph, hgraph, hfits⟩ := hr.graph_run h
  have hbindings : checkBindings a.spec.pageTokens inputs [] [] = .ok () :=
    checkBindings_run hpage h.bound (by simp) (by simp)
  have hchecked : collect (checkOutput a.spec.serving) (inputs.zip (inputs.map (answer a.spec.serving))) =
      .ok ((inputs.zip (inputs.map (answer a.spec.serving))).map fun _ => ()) := by
    refine collect_eq_map ?_
    intro step hstep
    rw [← List.map_prod_left_eq_zip] at hstep
    obtain ⟨i, hi, rfl⟩ := List.mem_map.mp hstep
    exact checkOutput_run (h.runnable i hi)
  rw [Runtime.step, if_neg h.nonempty, hr.same, hbindings, ok_bind, hgraph, ok_bind, execute_run h.runnable hfits, ok_bind,
    if_neg (by simp), hchecked, ok_bind]

/-- All workers of the group answer alike. -/
theorem WorkerGroup.Started.step_run {a : Artifact} {role : Role} {g : WorkerGroup} (hg : g.Started a role)
    (hpage : 0 < a.spec.pageTokens) (h : Steppable a.spec role inputs) :
    g.step inputs = .ok (inputs.map (answer a.spec.serving)) := by
  rw [WorkerGroup.step, collect_eq_map fun r hr => (hg.workers r hr).step_run hpage h, ok_bind]
  obtain ⟨r, hr⟩ := List.exists_mem_of_ne_nil _ hg.nonempty
  cases hworkers : g.workers with
  | nil => exact absurd hworkers hg.nonempty
  | cons r rs => rfl

theorem Runtime.start_started {key : Compiler.Ranks.Spec → Target → Result String} {a : Artifact} {plan : RankPlan} {r : Runtime}
    (h : Runtime.start key a plan = .ok r) : r.Started a plan.rank.role ∧ a.spec.validate = .ok () := by
  obtain ⟨hvalid, h⟩ := check_bind_eq_ok.mp h
  obtain ⟨compiled, -, h⟩ := bind_eq_ok.mp h
  split at h
  · exact absurd h invalid_ne_ok
  split at h
  · exact absurd h invalid_ne_ok
  split at h
  case isTrue hrole =>
    obtain ⟨outputs, -, h⟩ := bind_eq_ok.mp h
    obtain rfl := Outcome.ok.inj h
    exact ⟨⟨rfl, rfl, fun _ => rfl⟩, hvalid⟩
  case isFalse hrole =>
    obtain rfl := Outcome.ok.inj h
    exact ⟨⟨rfl, rfl, fun h => absurd h hrole⟩, hvalid⟩

theorem WorkerGroup.mock_started {key : Compiler.Ranks.Spec → Target → Result String} {a : Artifact} {role : Role}
    {g : WorkerGroup} (h : WorkerGroup.mock key a role = .ok g) : g.Started a role ∧ a.spec.validate = .ok () := by
  unfold WorkerGroup.mock at h
  split at h
  · exact absurd h invalid_ne_ok
  obtain ⟨workers, hworkers, h⟩ := bind_eq_ok.mp h
  split at h
  · exact absurd h invalid_ne_ok
  rename_i hnonempty
  obtain rfl := Outcome.ok.inj h
  have hstarted : ∀ r ∈ workers, r.Started a role ∧ a.spec.validate = .ok () := by
    intro r hr
    obtain ⟨plan, hplan, hstart⟩ := collect_mem_right hworkers hr
    have hrole : plan.rank.role = role := by simpa using (List.mem_filter.mp hplan).2
    exact hrole ▸ Runtime.start_started hstart
  obtain ⟨r, hr⟩ := List.exists_mem_of_ne_nil _ hnonempty
  exact ⟨⟨hnonempty, fun r hr => (hstarted r hr).1⟩, (hstarted r hr).2⟩

end Inferfabric.Mock
