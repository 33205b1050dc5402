-- SUMMARY: Sequences of invocations: arena reuse is invisible, and failed invocations leave no trace.
import IronPangu.Lib.Machine
import IronPangu.Plan.Arena

open Rust Method Std

/-!
# Invocations

An executor answers a sequence of invocations exactly as the private interpreter
does. The arena is therefore no state: what earlier invocations left in it, failed
ones included, is never seen.
-/

namespace Inferfabric.Plan

open Ir

namespace Executor

variable {F : Type} [Float32 F] {e : Executor F} {inputs : Inputs F}

/-! ## Inputs -/

theorem bound_ne_panic {b : Buffer F} {n : Nat} (hn : elements b.value.shape = .ok n) : bound inputs b ≠ .panic := by
  unfold bound
  split
  · simp
  · simp [count_eq hn]

theorem bound_eq_true {b : Buffer F} {n : Nat} (hn : elements b.value.shape = .ok n) (h : bound inputs b = .ok true) :
    ∃ v, inputs[b.value.name]? = some v ∧ elements b.value.shape = .ok v.length := by
  unfold bound at h
  split at h
  · cases h
  · rename_i v hv
    simp only [count_eq hn, Outcome.ok_bind, Outcome.ok.injEq, Bool.and_eq_true, beq_iff_eq] at h
    exact ⟨v, hv, h.1 ▸ hn⟩

theorem allBound_ne_panic {bs : List (Buffer F)} (hsizes : ∀ b ∈ bs, ∃ n, elements b.value.shape = .ok n) :
    allBound inputs bs ≠ .panic := by
  induction bs with
  | nil => simp [allBound]
  | cons b bs ih =>
    obtain ⟨n, hn⟩ := hsizes b List.mem_cons_self
    have hrest := ih fun b' hb' => hsizes b' (List.mem_cons_of_mem _ hb')
    rw [allBound]
    cases hb : bound inputs b with
    | panic => exact absurd hb (bound_ne_panic hn)
    | err error => simp
    | ok value => cases value <;> simp [hrest]

theorem allBound_eq_true {bs : List (Buffer F)} (hsizes : ∀ b ∈ bs, ∃ n, elements b.value.shape = .ok n)
    (h : allBound inputs bs = .ok true) :
    ∀ b ∈ bs, ∃ v, inputs[b.value.name]? = some v ∧ elements b.value.shape = .ok v.length := by
  induction bs with
  | nil => simp
  | cons b bs ih =>
    obtain ⟨n, hn⟩ := hsizes b List.mem_cons_self
    obtain ⟨value, hb, h⟩ := Outcome.bind_eq_ok.mp h
    cases value with
    | false => cases h
    | true =>
      rw [List.forall_mem_cons]
      exact ⟨bound_eq_true hn hb, ih (fun b' hb' => hsizes b' (List.mem_cons_of_mem _ hb')) h⟩

theorem checkInputs_ne_panic {p : PhysicalPlan F} (hp : Verified p) : checkInputs inputs p ≠ .panic := by
  have hbound : allBound inputs (p.buffers.filter (·.value.storage == .input)) ≠ .panic :=
    allBound_ne_panic fun b hb => (hp.stored b (List.mem_filter.mp hb).1).size
  rw [checkInputs]
  dsimp only
  intro hpanic
  split at hpanic
  · cases hpanic
  · rcases Outcome.bind_eq_panic.mp hpanic with hpanic | ⟨ok, -, hpanic⟩
    · exact hbound hpanic
    · split at hpanic <;> cases hpanic

theorem checkInputs_supplied {p : PhysicalPlan F} (hp : Verified p) (h : checkInputs inputs p = .ok ()) :
    Supplied inputs p := by
  rw [checkInputs] at h
  dsimp only at h
  split at h
  · exact absurd h invalid_ne_ok
  obtain ⟨ok, hok, h⟩ := Outcome.bind_eq_ok.mp h
  cases ok with
  | false => exact absurd h invalid_ne_ok
  | true =>
    intro b hb hinput
    refine allBound_eq_true (fun b' hb' => (hp.stored b' (List.mem_filter.mp hb').1).size) hok b ?_
    exact List.mem_filter.mpr ⟨hb, by simpa using hinput⟩

/-! ## Results -/

/-- A result is read after the last step. -/
theorem result_operand {p : PhysicalPlan F} (hp : Verified p) {id : Nat} (h : Resulting p p.lifetimes id) :
    Operand p p.lifetimes p.steps.length id := by
  refine ⟨h.buffer, fun b hb harena => ?_⟩
  obtain ⟨first, halive⟩ := h.alive b hb harena
  obtain ⟨step, hstep, -⟩ := hp.produced id first _ halive
  exact ⟨first, _, halive, (List.getElem?_eq_some_iff.mp hstep).1, le_rfl⟩

/-- New states in their own sizes. -/
def Sized (p : PhysicalPlan F) (update : Nat × List F) : Prop :=
  ∃ b, p.buffers[update.1]? = some b ∧ b.value.storage = .state ∧ elements b.value.shape = .ok update.2.length

section

variable {locals : Locals F}

theorem outputs_both (hready : e.Ready) (hinputs : Supplied inputs e.plan)
    (hlive : Live e.plan e.plan.steps.length e locals) :
    ∃ outputs, Outcome.collect (e.named inputs) e.plan.outputs = .ok outputs ∧
      Outcome.collect (e.toPrivate.named inputs locals) e.plan.outputs = .ok outputs := by
  have hboth : ∀ id ∈ e.plan.outputs, ∃ output, e.named inputs id = .ok output ∧
      e.toPrivate.named inputs locals id = .ok output ∧ True := by
    intro id hid
    have hresult := hready.verified.results id (List.mem_append_left _ hid)
    obtain ⟨b, hb⟩ := hresult.buffer
    obtain ⟨v, hv, hholds⟩ := value_holds hready hinputs hlive (result_operand hready.verified hresult)
    have hb' : e.toPrivate.plan.buffers[id]? = some b := hb
    refine ⟨(b.value.name, v), ?_, ?_, trivial⟩
    · simp only [named, buffer, hb, hholds.collect, Outcome.unwrap_some, Outcome.ok_bind]
    · simp only [PrivateExecutor.named, hb', hv, Outcome.unwrap_some, Outcome.ok_bind]
  obtain ⟨outputs, hexecutor, hprivate, -⟩ := Outcome.collect_both hboth
  exact ⟨outputs, hexecutor, hprivate⟩

theorem updates_both (hready : e.Ready) (hinputs : Supplied inputs e.plan)
    (hlive : Live e.plan e.plan.steps.length e locals) :
    ∃ updates, Outcome.collect (e.gathered inputs) e.plan.updates.toList = .ok updates ∧
      Outcome.collect (e.toPrivate.gathered inputs locals) e.plan.updates.toList = .ok updates ∧
      ∀ update ∈ updates, Sized e.plan update := by
  refine Outcome.collect_both fun update hupdate => ?_
  have hid : update.2 ∈ e.plan.results := List.mem_append_right _ (List.mem_map_of_mem hupdate)
  have hresult := hready.verified.results _ hid
  obtain ⟨v, hv, hholds⟩ := value_holds hready hinputs hlive (result_operand hready.verified hresult)
  obtain ⟨t, s, ht, hs, hstorage, hshape⟩ := (hready.verified.updates update hupdate).state
  obtain ⟨b, hb, hsize⟩ := hholds.buffer
  obtain rfl := Option.some.inj (hs.symm.trans hb)
  refine ⟨(update.1, v), ?_, ?_, t, ht, hstorage, hshape ▸ hsize⟩
  · simp only [gathered, hholds.collect, Outcome.ok_bind]
  · simp only [PrivateExecutor.gathered, hv, Outcome.ok_bind]

end

/-! ## Commits -/

theorem Ready.commit (h : e.Ready) {update : Nat × List F} (hsized : Sized e.plan update) :
    Ready { e with owned := e.owned.insert update.1 update.2 } := by
  refine ⟨h.verified, h.length, fun id b hb hstorage => ?_⟩
  by_cases hid : update.1 = id
  · subst hid
    obtain ⟨b', hb', -, hsize⟩ := hsized
    obtain rfl := Option.some.inj (hb.symm.trans hb')
    exact ⟨update.2, ExtTreeMap.getElem?_insert_self, hsize⟩
  · obtain ⟨v, hv, hsize⟩ := h.owned id b hb hstorage
    exact ⟨v, (ExtTreeMap.getElem?_insert_ne hid).trans hv, hsize⟩

/-- Copying the new states in cannot fail. -/
theorem forEach_commit {updates : List (Nat × List F)} (hready : e.Ready)
    (hsized : ∀ update ∈ updates, Sized e.plan update) :
    ∃ e', forEach updates commit e = (.ok (), e') ∧ e'.Ready ∧
      e'.toPrivate = { e.toPrivate with owned := PrivateExecutor.commit e.owned updates } := by
  induction updates generalizing e with
  | nil => exact ⟨e, rfl, hready, rfl⟩
  | cons update updates ih =>
    have hhere := hsized update List.mem_cons_self
    obtain ⟨b, hb, hstorage, hsize⟩ := hhere
    obtain ⟨old, hold, hsize'⟩ := hready.owned _ b hb (.inl hstorage)
    have hlength : old.length = update.2.length := Outcome.ok.inj (hsize'.symm.trans hsize)
    have hrun : commit update e = (.ok (), { e with owned := e.owned.insert update.1 update.2 }) := by
      simp only [commit, bind_run, get_run, lift_run, hold, Outcome.unwrap_some, hlength, if_true, modify_run]
    obtain ⟨e', hrest, hready', hprivate⟩ := ih (hready.commit ⟨b, hb, hstorage, hsize⟩)
      fun update' hupdate => hsized update' (List.mem_cons_of_mem _ hupdate)
    refine ⟨e', ?_, hready', hprivate⟩
    rw [forEach, bind_ok hrun, hrest]

omit [Float32 F] in
theorem mem_numbered {p : PhysicalPlan F} {i : Nat} {b : Buffer F} (h : (i, b) ∈ numbered p) :
    p.buffers[i]? = some b := by
  simpa [numbered, List.mem_zipIdx_iff_getElem?] using h

theorem states_ok (hready : e.Ready) :
    ∃ state, Outcome.collect e.stateOf ((numbered e.plan).filter (·.2.value.storage == .state)) = .ok state := by
  have hall : ∀ b ∈ (numbered e.plan).filter (·.2.value.storage == .state),
      ∃ s, e.stateOf b = .ok s ∧ e.stateOf b = .ok s ∧ True := by
    rintro ⟨i, b⟩ hmem
    obtain ⟨hmem, hstorage⟩ := List.mem_filter.mp hmem
    obtain ⟨v, hv, -⟩ := hready.owned i b (mem_numbered hmem) (.inl (by simpa using hstorage))
    exact ⟨(b.value.name, v), by simp [stateOf, hv], by simp [stateOf, hv], trivial⟩
  obtain ⟨state, hstate, -⟩ := Outcome.collect_both hall
  exact ⟨state, hstate⟩

/-! ## One invocation -/

omit [Float32 F] in
/-- Before the first step nothing is in the arena. -/
theorem live_zero {p : PhysicalPlan F} : Live p 0 e ∅ :=
  fun _ _ _ _ _ _ hfirst _ => absurd hfirst (Nat.not_lt_zero _)

/-- Two answers to an invocation: one from the arena, one with private storage. -/
structure Alike (r : Outcome Error (RunReport F) × Executor F)
    (r' : Outcome Error (RunReport F) × PrivateExecutor F) : Prop where
  reply : r.1 = r'.1
  toPrivate : r.2.toPrivate = r'.2
  ready : r.2.Ready
  ne_panic : r.1 ≠ .panic

theorem alike_err {e' : Executor F} {error : Error} (hready : e'.Ready) (hsame : e'.toPrivate = e.toPrivate)
    (hrun : run inputs e = (.err error, e')) (hcompute : e.toPrivate.compute inputs = .err error) :
    Alike (run inputs e) (PrivateExecutor.run inputs e.toPrivate) := by
  rw [hrun, PrivateExecutor.run_err hcompute]
  exact ⟨rfl, hsame, hready, by simp⟩

/-- The executor and the private interpreter answer an invocation alike. -/
theorem run_alike (inputs : Inputs F) (hready : e.Ready) :
    Alike (run inputs e) (PrivateExecutor.run inputs e.toPrivate) := by
  have hcheck : checkInputs inputs e.toPrivate.plan = checkInputs inputs e.plan := rfl
  let check (e : Executor F) : Result Unit := checkInputs inputs e.plan
  cases hinputs : checkInputs inputs e.plan with
  | panic => exact absurd hinputs (checkInputs_ne_panic hready.verified)
  | err error =>
    have hcompute : e.toPrivate.compute inputs = .err error := by
      rw [PrivateExecutor.compute, hcheck, hinputs, Outcome.err_bind]
    refine alike_err hready rfl ?_ hcompute
    rw [run, read_bind_err (g := check) hinputs]
  | ok =>
    have hsupplied := checkInputs_supplied hready.verified hinputs
    have hagree : Agree e.plan.steps.length e (forEach e.plan.steps (runStep inputs) e)
        (e.toPrivate.runSteps inputs e.plan.steps ∅) :=
      runSteps_agree hready hsupplied live_zero (Nat.zero_le _) rfl
    generalize hsteps : forEach e.plan.steps (runStep inputs) e = r at hagree
    generalize hlocals : e.toPrivate.runSteps inputs e.plan.steps ∅ = o at hagree
    have hlocals' : e.toPrivate.runSteps inputs e.toPrivate.plan.steps ∅ = o := hlocals
    cases hagree with
    | err same length =>
      rename_i e₁ error
      have hcompute : e.toPrivate.compute inputs = .err error := by
        rw [PrivateExecutor.compute, hcheck, hinputs, Outcome.ok_bind, hlocals', Outcome.err_bind]
      refine alike_err (hready.same same length) same ?_ hcompute
      rw [run, read_bind_ok (g := check) hinputs, bind_ok (get_run e), bind_err hsteps]
    | ok same length live =>
      rename_i e₁ locals
      have hplan : e₁.plan = e.plan := congrArg PrivateExecutor.plan same
      have hready₁ := hready.same same length
      obtain ⟨outputs, houtputs, houtputs'⟩ := outputs_both hready₁ (hplan ▸ hsupplied) (hplan ▸ live)
      obtain ⟨updates, hupdates, hupdates', hsized⟩ := updates_both hready₁ (hplan ▸ hsupplied) (hplan ▸ live)
      obtain ⟨e₂, hcommit, hready₂, hprivate⟩ := forEach_commit hready₁ hsized
      obtain ⟨state, hstate⟩ := states_ok hready₂
      have hplan₂ : e₂.plan = e.plan := (congrArg PrivateExecutor.plan hprivate).trans hplan
      have howned₁ : e₁.owned = e.owned := congrArg PrivateExecutor.owned same
      have howned₂ : e₂.owned = PrivateExecutor.commit e.owned updates := by
        rw [← howned₁]
        exact congrArg PrivateExecutor.owned hprivate
      have hexecutor : run inputs e =
          (.ok {
            outputs := ExtTreeMap.ofList outputs
            state := ExtTreeMap.ofList state
            executedSteps := e.plan.steps.map (·.name)
            arenaBytes := e.plan.arenaBytes }, e₂) := by
        let read (e : Executor F) := Outcome.collect (e.named inputs) e.plan.outputs
        let gather (e : Executor F) := Outcome.collect (e.gathered inputs) e.plan.updates.toList
        let states (e : Executor F) := Outcome.collect e.stateOf ((numbered e.plan).filter (·.2.value.storage == .state))
        rw [run, read_bind_ok (g := check) hinputs, bind_ok (get_run e), bind_ok hsteps, read_bind_ok (g := read) houtputs,
          read_bind_ok (g := gather) hupdates, bind_ok hcommit, read_bind_ok (g := states) hstate, pure_run]
      have hcompute : e.toPrivate.compute inputs = .ok ⟨outputs, updates, state⟩ := by
        rw [same, hplan] at houtputs' hupdates'
        have hstate' : Outcome.collect (fun b : Nat × Buffer F => (do
            let values ← Outcome.unwrap (PrivateExecutor.commit e.toPrivate.owned updates)[b.1]?
            .ok (b.2.value.name, values) : Result (String × List F)))
            ((numbered e.toPrivate.plan).filter (·.2.value.storage == .state)) = .ok state := by
          rw [hplan₂] at hstate
          simp only [toPrivate, ← howned₂]
          exact hstate
        have houtputs'' : Outcome.collect (e.toPrivate.named inputs locals) e.toPrivate.plan.outputs = .ok outputs :=
          houtputs'
        have hupdates'' : Outcome.collect (e.toPrivate.gathered inputs locals) e.toPrivate.plan.updates.toList =
            .ok updates := hupdates'
        rw [PrivateExecutor.compute, hcheck, hinputs, Outcome.ok_bind, hlocals', Outcome.ok_bind, houtputs'',
          Outcome.ok_bind, hupdates'', Outcome.ok_bind]
        dsimp only
        rw [hstate', Outcome.ok_bind]
      have hlast : e₂.toPrivate = { e.toPrivate with owned := PrivateExecutor.commit e.toPrivate.owned updates } := by
        rw [hprivate, same, howned₁]
        rfl
      rw [hexecutor, PrivateExecutor.run_computed hcompute]
      exact ⟨rfl, hlast, hready₂, by simp⟩

/-! ## New executors -/

omit [Float32 F] in
/-- A new executor owns an initial value for every state and constant. -/
theorem new_owned {p : PhysicalPlan F} {id : Nat} {b : Buffer F} {v : List F} (hb : p.buffers[id]? = some b)
    (hv : b.value.initial = some v) :
    (ExtTreeMap.ofList ((numbered p).filterMap fun (i, b) => b.value.initial.map fun v => (i, v)) :
      ExtTreeMap Nat (List F))[id]? = some v := by
  have hmem : (id, b) ∈ numbered p := by simpa [numbered, List.mem_zipIdx_iff_getElem?] using hb
  have hordered : (numbered p).Pairwise fun x y => x.1 < y.1 := by
    rw [numbered, List.pairwise_map, List.pairwise_iff_getElem]
    intro i j hi hj hlt
    simpa using hlt
  apply ExtTreeMap.getElem?_ofList_of_mem (k := id) compare_self
  · rw [List.pairwise_filterMap]
    refine hordered.imp fun {x y} hlt x' hx y' hy heq => ?_
    simp only [Option.map_eq_some_iff] at hx hy
    obtain ⟨_, -, rfl⟩ := hx
    obtain ⟨_, -, rfl⟩ := hy
    exact hlt.ne (Std.compare_eq_iff_eq.mp heq)
  · exact List.mem_filterMap.mpr ⟨(id, b), hmem, by simp [hv]⟩

theorem new_ready {p : PhysicalPlan F} (h : new p = .ok e) : e.plan = p ∧ e.Ready := by
  obtain ⟨hverify, h⟩ := Outcome.check_bind_eq_ok.mp h
  obtain rfl := Outcome.ok.inj h
  have hverified := verified hverify
  refine ⟨rfl, hverified, ?_, fun id b hb hstorage => ?_⟩
  · have := hverified.arenaBytes
    simp only [alignment] at this
    rw [List.length_replicate]
    show p.arenaBytes / 64 * 16 = p.arenaBytes / 4
    omega
  · obtain ⟨v, hv, hsize, -⟩ := (hverified.stored b (List.mem_of_getElem? hb)).owned hstorage
    exact ⟨v, new_owned hb hv, hsize⟩

/-- The executor with whatever was left in its arena. -/
theorem Ready.leftover (h : e.Ready) {arena : List F} (harena : arena.length = e.arena.length)
    (implementations : ExtTreeMap String (CompiledKernel F)) :
    Ready { e with arena := arena, implementations := implementations } :=
  ⟨h.verified, harena.trans h.length, h.owned⟩

/-! ## Sequences of invocations -/

theorem replies_private (hready : e.Ready) (invocations : List (Inputs F)) :
    replies run invocations e = replies PrivateExecutor.run invocations e.toPrivate ∧
      (final run invocations e).toPrivate = final PrivateExecutor.run invocations e.toPrivate := by
  have hsim : _ ∧ (final run invocations e).Ready ∧ _ := replies_simulation (R := fun (e : Executor F) e' => e.Ready ∧ e.toPrivate = e')
    (fun inputs s t hst => by
      obtain ⟨hs, rfl⟩ := hst
      have halike := run_alike inputs hs
      exact ⟨halike.reply, halike.ready, halike.toPrivate⟩)
    ⟨hready, rfl⟩
  exact ⟨hsim.1, hsim.2.2⟩

theorem final_ready (hready : e.Ready) (invocations : List (Inputs F)) : (final run invocations e).Ready :=
  final_induction hready (fun _ inputs hs => (run_alike inputs hs).ready) invocations

theorem ran_invocations (hready : e.Ready) (invocations : List (Inputs F)) : Ran run invocations e := by
  induction invocations generalizing e with
  | nil => simp [Ran]
  | cons inputs invocations ih =>
    have halike := run_alike inputs hready
    rw [ran_cons, ran_singleton]
    exact ⟨halike.ne_panic, ih halike.ready⟩

section

/-- Whole numbers in place of floating point. -/
instance wholeNumbers : Float32 Int where
  zero := 0
  add := (· + ·)
  mul := (· * ·)
  max := Max.max
  isFinite x := x < 1000

/-- `z = relu (x + c) * c`, which becomes the next state; `z` takes the cells of `a`. -/
def sample : PhysicalPlan Int where
  version := 1
  name := "sample"
  target := "cpu-f32-v1"
  policy := "deterministic-cpu-v1"
  alignment := 64
  arenaBytes := 128
  buffers := [
    ⟨⟨"x", [2], .input, none⟩, none, none⟩,
    ⟨⟨"c", [2], .constant, some [1, 2]⟩, none, none⟩,
    ⟨⟨"s", [2], .state, some [0, 0]⟩, none, none⟩,
    ⟨⟨"a", [2], .arena, none⟩, some 0, some (0, 1)⟩,
    ⟨⟨"b", [2], .arena, none⟩, some 64, some (1, 2)⟩,
    ⟨⟨"z", [2], .arena, none⟩, some 0, some (2, 3)⟩]
  steps := [
    ⟨"a", .addF32V1, [0, 1], 3, 0, 0, [], [], ""⟩,
    ⟨"b", .reluF32V1, [3], 4, 0, 0, [0], [], ""⟩,
    ⟨"z", .mulF32V1, [4, 1], 5, 0, 0, [1], [1], ""⟩]
  outputs := [5]
  updates := ExtTreeMap.ofList [(2, 5)]
  removedNodes := []
  foldedNodes := []

theorem sample_verified : verify sample = .ok () := by decide +kernel

/-- The second invocation overflows. -/
def sampleInvocations : List (Inputs Int) :=
  [[3, 4], [999, 0], [-5, 0]].map fun x => ExtTreeMap.ofList [("x", x)]

def sampleExecutor : Executor Int where
  plan := sample
  arena := List.replicate (sample.arenaBytes / 64 * 16) 0
  owned := ExtTreeMap.ofList ((numbered sample).filterMap fun (i, b) => b.value.initial.map fun v => (i, v))
  implementations := ∅

theorem sample_new : new sample = .ok sampleExecutor := by
  rw [new, sample_verified]
  rfl

end

/-- On a verified plan the shared arena is invisible: whatever it holds when a
    sequence of invocations starts, every one is answered as if each buffer had
    storage of its own, and none goes out of bounds. -/
theorem arena_invisible {p : PhysicalPlan F} (h : verify p = .ok ()) :
    ∃ e, new p = .ok e ∧ e.plan = p ∧
      ∀ (arena : List F) (implementations : ExtTreeMap String (CompiledKernel F)) (invocations : List (Inputs F)),
        arena.length = e.arena.length →
          replies run invocations { e with arena := arena, implementations := implementations } =
              replies PrivateExecutor.run invocations { e.toPrivate with implementations := implementations } ∧
            Ran run invocations { e with arena := arena, implementations := implementations } := by
  obtain ⟨e, hnew⟩ : ∃ e, new p = .ok e := ⟨_, by rw [new, h, Outcome.ok_bind]⟩
  obtain ⟨hplan, hready⟩ := new_ready hnew
  refine ⟨e, hnew, hplan, fun arena implementations invocations harena => ?_⟩
  have hleftover := hready.leftover harena implementations
  exact ⟨(replies_private hleftover invocations).1, ran_invocations hleftover invocations⟩

theorem arena_invisible_sample :
    ∃ e, new sample = .ok e ∧
      replies run sampleInvocations { e with arena := List.replicate e.arena.length 7 } =
        replies PrivateExecutor.run sampleInvocations e.toPrivate := by
  obtain ⟨e, hnew, -, hall⟩ := arena_invisible sample_verified
  exact ⟨e, hnew, (hall _ e.implementations sampleInvocations List.length_replicate).1⟩

/-- A failed invocation commits nothing. -/
theorem run_err_owned (hready : e.Ready) (hfail : (run inputs e).1.isErr = true) :
    (run inputs e).2.owned = e.owned := by
  have halike := run_alike inputs hready
  have hsame : (PrivateExecutor.run inputs e.toPrivate).2 = e.toPrivate := by
    rw [halike.reply] at hfail
    cases hreply : (PrivateExecutor.run inputs e.toPrivate).1 with
    | err error => exact PrivateExecutor.run_atomic inputs _ error _ (Prod.ext hreply rfl)
    | ok report => rw [hreply] at hfail; cases hfail
    | panic => rw [hreply] at hfail; cases hfail
  exact congrArg PrivateExecutor.owned (halike.toPrivate.trans hsame)

/-- Leaving out the invocations that fail changes neither the replies of the others
    nor the states they end in, and each of those left out left the states alone. -/
theorem failed_invisible {p : PhysicalPlan F} (hnew : new p = .ok e)
    (implementations : ExtTreeMap String (CompiledKernel F)) (invocations : List (Inputs F)) :
    let bound : Executor F := { e with implementations := implementations }
    replies run (unfailed run invocations bound) bound =
        (replies run invocations bound).filter (fun reply => !reply.isErr) ∧
      (final run (unfailed run invocations bound) bound).owned = (final run invocations bound).owned ∧
      ∀ ev ∈ history run invocations bound, ev.reply.isErr = true → ev.after.owned = ev.before.owned := by
  intro bound
  have hready : bound.Ready := (new_ready hnew).2.leftover rfl implementations
  have hprivate := replies_private hready invocations
  have hsame : unfailed run invocations bound = unfailed PrivateExecutor.run invocations bound.toPrivate :=
    unfailed_congr hprivate.1
  have hkept := replies_private hready (unfailed run invocations bound)
  have hdropped := @replies_unfailed _ _ _ _ PrivateExecutor.run bound.toPrivate invocations PrivateExecutor.run_atomic
  refine ⟨?_, ?_, fun ev hev hfail => ?_⟩
  · rw [hkept.1, hsame, hdropped.1, hprivate.1]
  · have hfinal : (final run (unfailed run invocations bound) bound).toPrivate =
        (final run invocations bound).toPrivate := by
      rw [hkept.2, hsame, hdropped.2, hprivate.2]
    exact congrArg PrivateExecutor.owned hfinal
  · obtain ⟨before, inputs, -, -, rfl⟩ := mem_history hev
    exact run_err_owned (final_ready hready before) hfail

theorem failed_invisible_sample :
    (replies run sampleInvocations sampleExecutor).map Outcome.isErr = [false, true, false] ∧
      replies run (unfailed run sampleInvocations sampleExecutor) sampleExecutor =
        (replies run sampleInvocations sampleExecutor).filter (fun reply => !reply.isErr) :=
  ⟨by decide +kernel, (failed_invisible sample_new ∅ sampleInvocations).1⟩

end Executor

end Inferfabric.Plan
