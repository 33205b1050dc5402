-- SUMMARY: What a plan that passes the verifier satisfies, in the executor's terms.
import IronPangu.Plan

open Rust Std

/-!
# Verified plans

`verify` recomputes who produces each buffer and how long it is needed, and compares
that with the lifetimes the plan declares. Here its loops are read once: `Verified`
is all the executor's correctness uses.
-/

namespace Inferfabric.Plan

open Ir

/-! ## Sizes -/

theorem elements_eq_ok {shape : List Nat} {n : Nat} (h : elements shape = .ok n) :
    product shape = some n ∧ n ≤ maxBytes / 4 := by
  unfold elements at h
  split at h
  · exact absurd h invalid_ne_ok
  · obtain ⟨m, hm, h⟩ := Outcome.bind_eq_ok.mp h
    split at h
    · exact absurd h invalid_ne_ok
    · obtain rfl := Outcome.ok.inj h
      exact ⟨Outcome.okOr_eq_ok.mp hm, Nat.le_of_not_gt ‹_›⟩

section

variable {F : Type} [Float32 F] {p : PhysicalPlan F}

/-! ## Buffers -/

/-- The storage of one buffer is in order. -/
structure Stored (p : PhysicalPlan F) (b : Buffer F) : Prop where
  size : ∃ n, elements b.value.shape = .ok n
  arena : b.value.storage = .arena → b.value.initial = none ∧ ∃ n offset, elements b.value.shape = .ok n ∧
    b.offset = some offset ∧ offset % alignment = 0 ∧ offset + n * 4 ≤ p.arenaBytes
  owned : b.value.storage = .state ∨ b.value.storage = .constant →
    ∃ v, b.value.initial = some v ∧ elements b.value.shape = .ok v.length ∧ ∀ x ∈ v, Float32.isFinite x = true
  input : b.value.storage = .input → b.value.initial = none
  lifetime : b.value.storage ≠ .arena → b.lifetime = none

theorem checkStorage_eq_ok {b : Buffer F} {n : Nat} (hsize : elements b.value.shape = .ok n)
    (h : checkStorage p b (n * 4) = .ok ()) : Stored p b := by
  unfold checkStorage at h
  cases hstorage : b.value.storage with
  | arena =>
    simp only [hstorage] at h
    obtain ⟨offset, hoffset, h⟩ := Outcome.bind_eq_ok.mp h
    split at h
    · exact absurd h invalid_ne_ok
    rename_i hchecks
    obtain ⟨hinitial, hchecks⟩ := not_or.mp hchecks
    obtain ⟨-, hchecks⟩ := not_or.mp hchecks
    obtain ⟨halignment, hend⟩ := not_or.mp hchecks
    have hbound : offset + n * 4 ≤ p.arenaBytes := by
      cases hadd : checkedAdd u64Max offset (n * 4) with
      | none => simp [hadd] at hend
      | some last =>
        obtain ⟨-, rfl⟩ := checkedAdd_eq_some.mp hadd
        simpa [hadd] using hend
    exact {
      size := ⟨n, hsize⟩
      arena := fun _ => ⟨Option.not_isSome_iff_eq_none.mp hinitial, n, offset, hsize,
        Outcome.okOr_eq_ok.mp hoffset, not_not.mp halignment, hbound⟩
      owned := by simp [hstorage]
      input := by simp [hstorage]
      lifetime := fun hne => absurd hstorage hne }
  | input =>
    simp only [hstorage, if_true] at h
    split at h
    · exact absurd h invalid_ne_ok
    rename_i halias
    split at h
    · exact absurd h invalid_ne_ok
    rename_i hinitial
    exact {
      size := ⟨n, hsize⟩
      arena := by simp [hstorage]
      owned := by simp [hstorage]
      input := fun _ => Option.not_isSome_iff_eq_none.mp hinitial
      lifetime := fun _ => Option.not_isSome_iff_eq_none.mp (not_or.mp halias).2 }
  | state | constant =>
    simp only [hstorage, reduceCtorEq, if_false] at h
    split at h
    · exact absurd h invalid_ne_ok
    rename_i halias
    split at h
    · exact absurd h invalid_ne_ok
    rename_i hinitial
    have howned : ∃ v, b.value.initial = some v ∧ v.length = n ∧ ∀ x ∈ v, Float32.isFinite x = true := by
      cases hv : b.value.initial with
      | none => simp [hv] at hinitial
      | some v => exact ⟨v, rfl, by simpa [hv] using hinitial⟩
    obtain ⟨v, hv, rfl, hfinite⟩ := howned
    exact {
      size := ⟨_, hsize⟩
      arena := by simp [hstorage]
      owned := fun _ => ⟨v, hv, hsize, hfinite⟩
      input := by simp [hstorage]
      lifetime := fun _ => Option.not_isSome_iff_eq_none.mp (not_or.mp halias).2 }

theorem checkBuffers_eq_ok {names : List String} {total : Nat} {buffers : List (Buffer F)}
    (h : checkBuffers p names total buffers = .ok ()) :
    (∀ b ∈ buffers, Stored p b) ∧ (buffers.map (·.value.name)).Nodup ∧
      ∀ b ∈ buffers, b.value.name ∉ names := by
  induction buffers generalizing names total with
  | nil => simp
  | cons b bs ih =>
    obtain ⟨n, hsize, h⟩ := Outcome.bind_eq_ok.mp h
    obtain ⟨sum, -, h⟩ := Outcome.bind_eq_ok.mp h
    split at h
    · exact absurd h invalid_ne_ok
    rename_i hname
    obtain ⟨hstorage, h⟩ := Outcome.check_bind_eq_ok.mp h
    obtain ⟨hstored, hdistinct, hnew⟩ := ih h
    simp only [not_or] at hname
    refine ⟨?_, ?_, ?_⟩
    · rw [List.forall_mem_cons]
      exact ⟨checkStorage_eq_ok hsize hstorage, hstored⟩
    · rw [List.map_cons, List.nodup_cons]
      refine ⟨fun hmem => ?_, hdistinct⟩
      obtain ⟨other, hother, hsame⟩ := List.mem_map.mp hmem
      exact hnew other hother (hsame ▸ List.mem_cons_self)
    · rw [List.forall_mem_cons]
      exact ⟨hname.2.2.2, fun other hother hmem => hnew other hother (List.mem_cons_of_mem _ hmem)⟩

end

section

variable {F : Type} {p : PhysicalPlan F}

/-! ## Production before use -/

/-- A buffer alive from one position to another. -/
def Alive (lives : List (Option (Nat × Nat))) (id first last : Nat) : Prop :=
  lives[id]? = some (some (first, last))

/-- The lifetimes after some of them were extended to a later position. -/
structure Stretched (i : Nat) (lives lives' : List (Option (Nat × Nat))) : Prop where
  length : lives'.length = lives.length
  each : ∀ id, lives'[id]? = lives[id]? ∨ ∃ first last, Alive lives id first last ∧ Alive lives' id first i

theorem Stretched.refl (i : Nat) (lives : List (Option (Nat × Nat))) : Stretched i lives lives :=
  ⟨rfl, fun _ => .inl rfl⟩

theorem Stretched.trans {i : Nat} {lives lives' lives'' : List (Option (Nat × Nat))} (h : Stretched i lives lives')
    (h' : Stretched i lives' lives'') : Stretched i lives lives'' := by
  refine ⟨h'.length.trans h.length, fun id => ?_⟩
  rcases h'.each id with hsame | ⟨first, last, halive, hlater⟩
  · rcases h.each id with hsame' | ⟨first, last, halive, hlater⟩
    · exact .inl (hsame.trans hsame')
    · exact .inr ⟨first, last, halive, hsame.trans hlater⟩
  · rcases h.each id with hsame' | ⟨first', last', halive', hlater'⟩
    · exact .inr ⟨first, last, hsame'.symm.trans halive, hlater⟩
    · obtain ⟨rfl, rfl⟩ := Prod.mk.inj (Option.some.inj (Option.some.inj (halive.symm.trans hlater')))
      exact .inr ⟨_, last', halive', hlater⟩

theorem stretched_set {i id first last : Nat} {lives : List (Option (Nat × Nat))} (h : Alive lives id first last) :
    Stretched i lives (lives.set id (some (first, i))) := by
  obtain ⟨hid, -⟩ := List.getElem?_eq_some_iff.mp h
  refine ⟨List.length_set, fun other => ?_⟩
  by_cases hother : id = other
  · subst hother
    exact .inr ⟨first, last, h, List.getElem?_set_self hid⟩
  · exact .inl (List.getElem?_set_ne hother)

/-- The last position only moves on, the first stays. -/
theorem Stretched.alive {i id first last : Nat} {lives lives' : List (Option (Nat × Nat))}
    (h : Stretched i lives lives') (halive : Alive lives id first last) :
    ∃ last', Alive lives' id first last' ∧ (last' = last ∨ last' = i) := by
  rcases h.each id with hsame | ⟨first', last', halive', hlater⟩
  · exact ⟨last, hsame.trans halive, .inl rfl⟩
  · obtain ⟨rfl, rfl⟩ := Prod.mk.inj (Option.some.inj (Option.some.inj (halive.symm.trans halive')))
    exact ⟨i, hlater, .inr rfl⟩

theorem Stretched.back {i id first last : Nat} {lives lives' : List (Option (Nat × Nat))}
    (h : Stretched i lives lives') (halive : Alive lives' id first last) :
    ∃ last', Alive lives id first last' ∧ (last = last' ∨ last = i) := by
  rcases h.each id with hsame | ⟨first', last', halive', hlater⟩
  · exact ⟨last, hsame.symm.trans halive, .inl rfl⟩
  · obtain ⟨rfl, rfl⟩ := Prod.mk.inj (Option.some.inj (Option.some.inj (halive.symm.trans hlater)))
    exact ⟨last', halive', .inr rfl⟩

/-- Whatever was alive still is, perhaps for longer. -/
def Later (lives lives' : List (Option (Nat × Nat))) : Prop :=
  ∀ id first last, Alive lives id first last → ∃ last', Alive lives' id first last' ∧ last ≤ last'

theorem Later.trans {lives lives' lives'' : List (Option (Nat × Nat))} (h : Later lives lives')
    (h' : Later lives' lives'') : Later lives lives'' := by
  intro id first last halive
  obtain ⟨last', halive', hle⟩ := h id first last halive
  obtain ⟨last'', halive'', hle'⟩ := h' id first last' halive'
  exact ⟨last'', halive'', hle.trans hle'⟩

theorem Stretched.later {i : Nat} {lives lives' : List (Option (Nat × Nat))} (h : Stretched i lives lives')
    (hbound : ∀ id first last, Alive lives id first last → last ≤ i) : Later lives lives' := by
  intro id first last halive
  obtain ⟨last', halive', rfl | rfl⟩ := h.alive halive
  · exact ⟨_, halive', le_rfl⟩
  · exact ⟨_, halive', hbound id first last halive⟩

theorem later_set {id : Nat} {life : Option (Nat × Nat)} {lives : List (Option (Nat × Nat))}
    (h : ∀ first last, ¬Alive lives id first last) : Later lives (lives.set id life) := by
  intro other first last halive
  have hne : id ≠ other := by
    rintro rfl
    exact h first last halive
  exact ⟨last, (List.getElem?_set_ne hne).trans halive, le_rfl⟩

/-- What is known before step `i`. -/
structure Produced (p : PhysicalPlan F) (i : Nat) (l : Liveness) : Prop where
  length : l.lives.length = p.buffers.length
  producer : ∀ id j : Nat, l.producer[id]? = some j →
    j < i ∧ (∃ step, p.steps[j]? = some step ∧ step.output = id) ∧ ∃ last, Alive l.lives id j last
  alive : ∀ id first last, Alive l.lives id first last → l.producer[id]? = some first ∧ last ≤ i

/-- An operand of step `i` is produced before it and alive at it. -/
structure Operand (p : PhysicalPlan F) (lives : List (Option (Nat × Nat))) (i id : Nat) : Prop where
  buffer : ∃ b, p.buffers[id]? = some b
  alive : ∀ b, p.buffers[id]? = some b → b.value.storage = .arena →
    ∃ first last, Alive lives id first last ∧ first < i ∧ i ≤ last

theorem Operand.later {lives lives' : List (Option (Nat × Nat))} {i id : Nat} (h : Operand p lives i id)
    (hlater : Later lives lives') : Operand p lives' i id := by
  refine ⟨h.buffer, fun b hb harena => ?_⟩
  obtain ⟨first, last, halive, hfirst, hlast⟩ := h.alive b hb harena
  obtain ⟨last', halive', hle⟩ := hlater id first last halive
  exact ⟨first, last', halive', hfirst, hlast.trans hle⟩

theorem Produced.stretched {i : Nat} {l : Liveness} {lives : List (Option (Nat × Nat))} (h : Produced p i l)
    (hs : Stretched i l.lives lives) : Produced p i ⟨l.producer, lives⟩ where
  length := hs.length.trans h.length
  producer id j hj := by
    obtain ⟨hlt, hstep, last, halive⟩ := h.producer id j hj
    obtain ⟨last', halive', -⟩ := hs.alive halive
    exact ⟨hlt, hstep, last', halive'⟩
  alive id first last halive := by
    obtain ⟨last', halive', hlast⟩ := hs.back halive
    obtain ⟨hproducer, hle⟩ := h.alive id first last' halive'
    exact ⟨hproducer, hlast.elim (fun h => h ▸ hle) fun h => h.le⟩

/-- The shape of a buffer. -/
def PhysicalPlan.shapeOf (p : PhysicalPlan F) (id : Nat) : Option (List Nat) :=
  p.buffers[id]?.map (·.value.shape)

theorem checkInputs_eq_ok {i : Nat} {ids : List Nat} {l l' : Liveness} {shapes : List (List Nat)}
    {required : List Nat} (hl : Produced p i l) (h : checkInputs p i ids l = .ok (shapes, required, l')) :
    Produced p i l' ∧ l'.producer = l.producer ∧ Stretched i l.lives l'.lives ∧
      (∀ id ∈ ids, Operand p l'.lives i id) ∧ ids.map p.shapeOf = shapes.map some := by
  induction ids generalizing l l' shapes required with
  | nil =>
    obtain ⟨rfl, -, rfl⟩ : shapes = [] ∧ required = [] ∧ l' = l := by
      simpa [checkInputs, eq_comm] using h
    exact ⟨hl, rfl, .refl i _, by simp, rfl⟩
  | cons id ids ih =>
    obtain ⟨b, hb, h⟩ := Outcome.bind_eq_ok.mp h
    have hb := Outcome.okOr_eq_ok.mp hb
    split at h
    · rename_i harena
      obtain ⟨source, hsource, h⟩ := Outcome.bind_eq_ok.mp h
      obtain ⟨life, hlife, h⟩ := Outcome.bind_eq_ok.mp h
      obtain ⟨⟨shapes', required', l₁⟩, hrest, h⟩ := Outcome.bind_eq_ok.mp h
      obtain ⟨rfl, hpair⟩ := Prod.mk.inj (Outcome.ok.inj h)
      obtain ⟨-, rfl⟩ := Prod.mk.inj hpair
      obtain ⟨first, last⟩ := life
      have halive : Alive l.lives id first last := by
        have := Outcome.unwrap_eq_ok.mp hlife
        rwa [Option.join_eq_some_iff] at this
      have hset : Stretched i l.lives (l.lives.set id (some (first, i))) := stretched_set halive
      obtain ⟨hproduced, hproducer, hstretched, hoperands, hshapes⟩ := ih (hl.stretched hset) hrest
      refine ⟨hproduced, hproducer, hset.trans hstretched, ?_, ?_⟩
      · rw [List.forall_mem_cons]
        refine ⟨⟨⟨b, hb⟩, fun _ _ _ => ?_⟩, hoperands⟩
        obtain ⟨hid, -⟩ := List.getElem?_eq_some_iff.mp halive
        have hnow : Alive (l.lives.set id (some (first, i))) id first i := List.getElem?_set_self hid
        obtain ⟨last', halive', rfl | rfl⟩ := hstretched.alive hnow
        · exact ⟨first, _, halive', (hl.producer id first (hl.alive id first last halive).1).1, le_rfl⟩
        · exact ⟨first, _, halive', (hl.producer id first (hl.alive id first last halive).1).1, le_rfl⟩
      · rw [List.map_cons, List.map_cons, hshapes, PhysicalPlan.shapeOf, hb]
        rfl
    · rename_i harena
      obtain ⟨⟨shapes', required', l₁⟩, hrest, h⟩ := Outcome.bind_eq_ok.mp h
      obtain ⟨rfl, hpair⟩ := Prod.mk.inj (Outcome.ok.inj h)
      obtain ⟨-, rfl⟩ := Prod.mk.inj hpair
      obtain ⟨hproduced, hproducer, hstretched, hoperands, hshapes⟩ := ih hl hrest
      refine ⟨hproduced, hproducer, hstretched, ?_, ?_⟩
      · rw [List.forall_mem_cons]
        refine ⟨⟨⟨b, hb⟩, fun b' hb' hstorage => ?_⟩, hoperands⟩
        obtain rfl := Option.some.inj (hb.symm.trans hb')
        exact absurd hstorage harena
      · rw [List.map_cons, List.map_cons, hshapes, PhysicalPlan.shapeOf, hb]
        rfl

/-- What is known of step `i` once it was checked. -/
structure CheckedStep (p : PhysicalPlan F) (lives : List (Option (Nat × Nat))) (i : Nat) (step : Step) : Prop where
  output : ∃ out shapes, p.buffers[step.output]? = some out ∧ out.value.storage = .arena ∧
    out.value.name = step.name ∧ step.inputs.map p.shapeOf = shapes.map some ∧
    shape step.kernel.op shapes = .ok out.value.shape
  alive : ∃ last, i ≤ last ∧ Alive lives step.output i last
  operands : ∀ id ∈ step.inputs, Operand p lives i id

theorem CheckedStep.later {lives lives' : List (Option (Nat × Nat))} {i : Nat} {step : Step}
    (h : CheckedStep p lives i step) (hlater : Later lives lives') : CheckedStep p lives' i step := by
  refine ⟨h.output, ?_, fun id hid => (h.operands id hid).later hlater⟩
  obtain ⟨last, hle, halive⟩ := h.alive
  obtain ⟨last', halive', hlast⟩ := hlater _ _ _ halive
  exact ⟨last', hle.trans hlast, halive'⟩

theorem checkStep_eq_ok {i : Nat} {step : Step} {l l' : Liveness} (hl : Produced p i l)
    (hstep : p.steps[i]? = some step) (h : checkStep p i step l = .ok l') :
    Produced p (i + 1) l' ∧ CheckedStep p l'.lives i step ∧ Later l.lives l'.lives := by
  unfold checkStep at h
  split at h
  · exact absurd h invalid_ne_ok
  obtain ⟨out, hout, h⟩ := Outcome.bind_eq_ok.mp h
  have hout := Outcome.okOr_eq_ok.mp hout
  split at h
  · exact absurd h invalid_ne_ok
  rename_i hproduced
  split at h
  · exact absurd h invalid_ne_ok
  obtain ⟨⟨shapes, required, l₁⟩, hinputs, h⟩ := Outcome.bind_eq_ok.mp h
  obtain ⟨hl₁, hproducer, hstretched, hoperands, hshapes⟩ := checkInputs_eq_ok hl hinputs
  dsimp only at h
  split at h
  · exact absurd h invalid_ne_ok
  obtain ⟨result, hresult, h⟩ := Outcome.bind_eq_ok.mp h
  split at h
  · exact absurd h invalid_ne_ok
  rename_i hsame
  obtain rfl := Outcome.ok.inj h
  simp only [not_or, not_not] at hproduced hsame
  obtain ⟨harena, hname, hnew⟩ := hproduced
  have hdead : ∀ first last, ¬Alive l₁.lives step.output first last := by
    intro first last halive
    have hsome := (hl₁.alive _ first last halive).1
    rw [hproducer, ExtTreeMap.getElem?_eq_none hnew] at hsome
    cases hsome
  have hrange : step.output < l₁.lives.length := by
    rw [hl₁.length]
    exact (List.getElem?_eq_some_iff.mp hout).1
  have hnow : Alive (l₁.lives.set step.output (some (i, i))) step.output i i := List.getElem?_set_self hrange
  have hlater : Later l₁.lives (l₁.lives.set step.output (some (i, i))) := later_set hdead
  refine ⟨⟨?_, ?_, ?_⟩, ⟨⟨out, shapes, hout, harena, hname, hshapes, hsame ▸ hresult⟩, ⟨i, le_rfl, hnow⟩, ?_⟩, ?_⟩
  · exact List.length_set.trans hl₁.length
  · intro id j hj
    rcases ExtTreeMap.getElem?_insert_eq_some.mp hj with ⟨rfl, rfl⟩ | ⟨hne, hj⟩
    · exact ⟨Nat.lt_succ_self _, ⟨step, hstep, rfl⟩, _, hnow⟩
    · obtain ⟨hlt, hproduces, last, halive⟩ := hl₁.producer id j hj
      exact ⟨Nat.lt_succ_of_lt hlt, hproduces, last, (List.getElem?_set_ne hne).trans halive⟩
  · intro id first last halive
    by_cases hid : step.output = id
    · subst hid
      obtain ⟨rfl, rfl⟩ := Prod.mk.inj (Option.some.inj (Option.some.inj (halive.symm.trans hnow)))
      exact ⟨ExtTreeMap.getElem?_insert_self, Nat.le_succ _⟩
    · obtain ⟨hsome, hle⟩ := hl₁.alive id first last ((List.getElem?_set_ne hid).symm.trans halive)
      exact ⟨(ExtTreeMap.getElem?_insert_ne hid).trans hsome, Nat.le_succ_of_le hle⟩
  · exact fun id hid => (hoperands id hid).later hlater
  · exact (hstretched.later fun id first last halive => (hl.alive id first last halive).2).trans hlater

/-- Every step of a checked plan is in order. -/
theorem checkSteps_eq_ok {i : Nat} {steps : List Step} {l l' : Liveness} (hl : Produced p i l)
    (hi : i ≤ p.steps.length) (hsteps : p.steps.drop i = steps)
    (hchecked : ∀ j step, j < i → p.steps[j]? = some step → CheckedStep p l.lives j step)
    (h : checkSteps p i steps l = .ok l') :
    Produced p p.steps.length l' ∧ ∀ j step, p.steps[j]? = some step → CheckedStep p l'.lives j step := by
  induction steps generalizing i l with
  | nil =>
    obtain rfl := Outcome.ok.inj h
    obtain rfl : i = p.steps.length := Nat.le_antisymm hi (List.drop_eq_nil_iff.mp hsteps)
    exact ⟨hl, fun j step hj => hchecked j step (List.getElem?_eq_some_iff.mp hj).1 hj⟩
  | cons step steps ih =>
    obtain ⟨l₁, hstep, h⟩ := Outcome.bind_eq_ok.mp h
    have hhere : p.steps[i]? = some step := by
      rw [← List.head?_drop, hsteps]
      rfl
    have hrest : p.steps.drop (i + 1) = steps := by
      rw [← List.drop_drop, hsteps]
      rfl
    obtain ⟨hproduced, hcurrent, hlater⟩ := checkStep_eq_ok hl hhere hstep
    refine ih hproduced (List.getElem?_eq_some_iff.mp hhere).1 hrest (fun j step' hj hstep' => ?_) h
    rcases Nat.lt_succ_iff_lt_or_eq.mp hj with hj | rfl
    · exact (hchecked j step' hj hstep').later hlater
    · obtain rfl := Option.some.inj (hhere.symm.trans hstep')
      exact hcurrent

/-! ## Results -/

theorem checkUpdates_eq_ok {updates : List (Nat × Nat)} (h : checkUpdates p updates = .ok ()) :
    ∀ update ∈ updates, checkUpdate p update = .ok () := by
  induction updates with
  | nil => simp
  | cons update updates ih =>
    obtain ⟨hupdate, h⟩ := Outcome.check_bind_eq_ok.mp h
    rw [List.forall_mem_cons]
    exact ⟨hupdate, ih h⟩

/-- A state is updated from a buffer of its shape. -/
structure Updatable (p : PhysicalPlan F) (update : Nat × Nat) : Prop where
  state : ∃ t s, p.buffers[update.1]? = some t ∧ p.buffers[update.2]? = some s ∧ t.value.storage = .state ∧
    t.value.shape = s.value.shape

theorem checkUpdate_eq_ok {update : Nat × Nat} (h : checkUpdate p update = .ok ()) : Updatable p update := by
  obtain ⟨t, ht, h⟩ := Outcome.bind_eq_ok.mp h
  obtain ⟨s, hs, h⟩ := Outcome.bind_eq_ok.mp h
  split at h
  · exact absurd h invalid_ne_ok
  rename_i hchecks
  simp only [not_or, not_not] at hchecks
  exact ⟨t, s, Outcome.okOr_eq_ok.mp ht, Outcome.okOr_eq_ok.mp hs, hchecks.1, hchecks.2⟩

/-- A result, alive to the end. -/
structure Resulting (p : PhysicalPlan F) (lives : List (Option (Nat × Nat))) (id : Nat) : Prop where
  buffer : ∃ b, p.buffers[id]? = some b
  alive : ∀ b, p.buffers[id]? = some b → b.value.storage = .arena → ∃ first, Alive lives id first p.steps.length

theorem checkResults_eq_ok {ids : List Nat} {lives lives' : List (Option (Nat × Nat))}
    (h : checkResults p ids lives = .ok lives') :
    Stretched p.steps.length lives lives' ∧ ∀ id ∈ ids, Resulting p lives' id := by
  induction ids generalizing lives with
  | nil =>
    obtain rfl := Outcome.ok.inj h
    exact ⟨.refl _ _, by simp⟩
  | cons id ids ih =>
    obtain ⟨b, hb, h⟩ := Outcome.bind_eq_ok.mp h
    have hb := Outcome.okOr_eq_ok.mp hb
    split at h
    · obtain ⟨life, hlife, h⟩ := Outcome.bind_eq_ok.mp h
      obtain ⟨⟨first, last⟩, hsome, h⟩ := Outcome.bind_eq_ok.mp h
      have halive : Alive lives id first last :=
        (Outcome.unwrap_eq_ok.mp hlife).trans (congrArg some (Outcome.okOr_eq_ok.mp hsome))
      have hset : Stretched p.steps.length lives (lives.set id (some (first, p.steps.length))) :=
        stretched_set halive
      obtain ⟨hstretched, hresults⟩ := ih h
      refine ⟨hset.trans hstretched, ?_⟩
      rw [List.forall_mem_cons]
      refine ⟨⟨⟨b, hb⟩, fun _ _ _ => ⟨first, ?_⟩⟩, hresults⟩
      have hnow : Alive (lives.set id (some (first, p.steps.length))) id first p.steps.length :=
        List.getElem?_set_self (List.getElem?_eq_some_iff.mp halive).1
      obtain ⟨last', halive', rfl | rfl⟩ := hstretched.alive hnow <;> exact halive'
    · rename_i harena
      obtain ⟨hstretched, hresults⟩ := ih h
      refine ⟨hstretched, ?_⟩
      rw [List.forall_mem_cons]
      refine ⟨⟨⟨b, hb⟩, fun b' hb' hstorage => ?_⟩, hresults⟩
      obtain rfl := Option.some.inj (hb.symm.trans hb')
      exact absurd hstorage harena

/-! ## Placement -/

/-- Two buffers do not overlap in bytes. -/
def Apart (b other : Buffer F) : Prop :=
  ∀ offset offset' n n', b.offset = some offset → other.offset = some offset' →
    elements b.value.shape = .ok n → elements other.value.shape = .ok n' →
    offset + n * 4 ≤ offset' ∨ offset' + n' * 4 ≤ offset

theorem Apart.symm {b other : Buffer F} (h : Apart b other) : Apart other b :=
  fun _ _ _ _ hoffset hoffset' hn hn' => (h _ _ _ _ hoffset' hoffset hn' hn).symm

/-- Two buffers are never alive at the same time, or do not overlap. -/
def Compatible (b other : Buffer F) : Prop :=
  ∀ first last first' last', b.lifetime = some (first, last) → other.lifetime = some (first', last') →
    first ≤ last' → first' ≤ last → Apart b other

theorem checkPair_eq_ok {b other : Buffer F} {life : Nat × Nat} (hlife : b.lifetime = some life)
    (h : checkPair p b life other = .ok ()) : Compatible b other := by
  intro first last first' last' hlifetime hlifetime' hle hle'
  obtain rfl := Option.some.inj (hlife.symm.trans hlifetime)
  simp only [checkPair, hlifetime'] at h
  obtain ⟨overlapping, hoverlaps, h⟩ := Outcome.bind_eq_ok.mp h
  split at h
  · rename_i hapart
    subst hapart
    intro offset offset' n n' hoffset hoffset' hn hn'
    simp only [overlaps, hoffset, hoffset', hn, hn', Outcome.unwrap_some, Outcome.ok_bind] at hoverlaps
    split at hoverlaps
    · left
      simpa using hoverlaps
    · omega
  · rw [if_pos ⟨hle, hle'⟩] at h
    exact absurd h invalid_ne_ok

theorem checkPairs_eq_ok {b : Buffer F} {life : Nat × Nat} {others : List (Buffer F)}
    (hlife : b.lifetime = some life) (h : checkPairs p b life others = .ok ()) :
    ∀ other ∈ others, Compatible b other := by
  induction others with
  | nil => simp
  | cons other others ih =>
    obtain ⟨hpair, h⟩ := Outcome.check_bind_eq_ok.mp h
    rw [List.forall_mem_cons]
    exact ⟨checkPair_eq_ok hlife hpair, ih h⟩

theorem checkLifetimes_eq_ok {lives : List (Option (Nat × Nat))} {earlier buffers : List (Buffer F)}
    (h : checkLifetimes p lives earlier buffers = .ok ()) :
    (∀ i b, buffers[i]? = some b → lives[earlier.length + i]? = some b.lifetime ∧
      (b.value.storage = .arena → b.lifetime ≠ none)) ∧
    (∀ b ∈ buffers, ∀ other ∈ earlier, Compatible b other) ∧ buffers.Pairwise fun other b => Compatible b other := by
  induction buffers generalizing earlier with
  | nil => simp
  | cons b bs ih =>
    obtain ⟨life, hlife, h⟩ := Outcome.bind_eq_ok.mp h
    have hlife := Outcome.unwrap_eq_ok.mp hlife
    split at h
    · exact absurd h invalid_ne_ok
    rename_i hforged
    obtain ⟨hsame, hstored⟩ := not_or.mp hforged
    obtain rfl := not_not.mp hsame
    obtain ⟨hpairs, h⟩ := Outcome.check_bind_eq_ok.mp h
    obtain ⟨hlives, hearlier, hpairwise⟩ := ih h
    have hcompatible : ∀ other ∈ earlier, Compatible b other := by
      intro other hother
      cases hlifetime : b.lifetime with
      | none => exact fun _ _ _ _ hsome => absurd (hlifetime.symm.trans hsome) (by simp)
      | some life =>
        simp only [checkAgainst, hlifetime] at hpairs
        exact checkPairs_eq_ok hlifetime hpairs other (List.mem_reverse.mpr hother)
    refine ⟨fun i b' hb' => ?_, ?_, ?_⟩
    · cases i with
      | zero =>
        obtain rfl := Option.some.inj hb'
        exact ⟨hlife, fun harena hnone => hstored ⟨harena, hnone⟩⟩
      | succ i =>
        have hnext := hlives i b' hb'
        rw [List.length_cons] at hnext
        rwa [Nat.add_comm i 1, ← Nat.add_assoc]
    · rw [List.forall_mem_cons]
      exact ⟨hcompatible, fun b' hb' other hother => hearlier b' hb' other (List.mem_cons_of_mem _ hother)⟩
    · exact List.pairwise_cons.mpr ⟨fun b' hb' => hearlier b' hb' b List.mem_cons_self, hpairwise⟩

def PhysicalPlan.lifetimes (p : PhysicalPlan F) : List (Option (Nat × Nat)) := p.buffers.map (·.lifetime)

theorem lives_eq {lives : List (Option (Nat × Nat))} (hlength : lives.length = p.buffers.length)
    (h : ∀ (i : Nat) b, p.buffers[i]? = some b → lives[i]? = some b.lifetime) : lives = p.lifetimes := by
  refine List.ext_getElem? fun i => ?_
  rw [PhysicalPlan.lifetimes, List.getElem?_map]
  cases hb : p.buffers[i]? with
  | none =>
    rw [List.getElem?_eq_none_iff] at hb
    exact List.getElem?_eq_none_iff.mpr (hlength ▸ hb)
  | some b => exact h i b hb

theorem alive_iff {id first last : Nat} :
    Alive p.lifetimes id first last ↔ ∃ b, p.buffers[id]? = some b ∧ b.lifetime = some (first, last) := by
  simp [Alive, PhysicalPlan.lifetimes]

end

section

variable {F : Type} [Float32 F] {p : PhysicalPlan F}

/-! ## Verified plans -/

/-- What the verifier establishes. -/
structure Verified (p : PhysicalPlan F) : Prop where
  arenaBytes : p.arenaBytes % alignment = 0
  stored : ∀ b ∈ p.buffers, Stored p b
  names : (p.buffers.map (·.value.name)).Nodup
  steps : ∀ (i : Nat) step, p.steps[i]? = some step → CheckedStep p p.lifetimes i step
  produced : ∀ id first last, Alive p.lifetimes id first last →
    ∃ step, p.steps[first]? = some step ∧ step.output = id
  placed : ∀ b ∈ p.buffers, b.value.storage = .arena → b.lifetime ≠ none
  updates : ∀ update ∈ p.updates.toList, Updatable p update
  results : ∀ id ∈ p.results, Resulting p p.lifetimes id
  compatible : p.buffers.Pairwise fun other b => Compatible b other

theorem verified (h : verify p = .ok ()) : Verified p := by
  simp only [verify, Outcome.check_bind_eq_ok] at h
  obtain ⟨hheader, hbuffers, h⟩ := h
  obtain ⟨l, hsteps, h⟩ := Outcome.bind_eq_ok.mp h
  split at h
  · exact absurd h invalid_ne_ok
  obtain ⟨hupdates, h⟩ := Outcome.check_bind_eq_ok.mp h
  obtain ⟨lives, hresults, hlifetimes⟩ := Outcome.bind_eq_ok.mp h
  obtain ⟨hstored, hnames, -⟩ := checkBuffers_eq_ok hbuffers
  have hstart : Produced p 0 ⟨∅, List.replicate p.buffers.length none⟩ :=
    ⟨List.length_replicate, fun id j hj => by simp at hj, fun id first last halive => by
      simp [Alive, List.getElem?_replicate] at halive⟩
  obtain ⟨hproduced, hchecked⟩ := checkSteps_eq_ok hstart (Nat.zero_le _) rfl (by simp) hsteps
  obtain ⟨hstretched, hresulting⟩ := checkResults_eq_ok hresults
  have hlater := hstretched.later fun id first last halive => (hproduced.alive id first last halive).2
  obtain ⟨heach, -, hpairwise⟩ := checkLifetimes_eq_ok hlifetimes
  have hlives : lives = p.lifetimes := lives_eq (hstretched.length.trans hproduced.length) fun i b hb => by
    have := (heach i b hb).1
    rwa [List.length_nil, Nat.zero_add] at this
  subst hlives
  exact {
    arenaBytes := by
      simp only [checkHeader] at hheader
      split at hheader
      · exact absurd hheader invalid_ne_ok
      · split at hheader
        · exact absurd hheader invalid_ne_ok
        · rename_i hlimits
          simp only [not_or, not_not] at hlimits
          exact hlimits.2.2.2.1
    stored := hstored
    names := hnames
    steps := fun i step hstep => (hchecked i step hstep).later hlater
    produced := by
      intro id first last halive
      obtain ⟨last', halive', -⟩ := hstretched.back halive
      exact (hproduced.producer id first (hproduced.alive id first last' halive').1).2.1
    placed := by
      intro b hb
      obtain ⟨i, hi⟩ := List.mem_iff_getElem?.mp hb
      exact (heach i b hi).2
    updates := fun update hupdate => checkUpdate_eq_ok (checkUpdates_eq_ok hupdates update hupdate)
    results := hresulting
    compatible := hpairwise }

/-! ## Slots -/

/-- The cells of the arena a buffer has, and the positions it is alive at. -/
structure Slot (p : PhysicalPlan F) (id start n first last : Nat) : Prop where
  buffer : ∃ b offset, p.buffers[id]? = some b ∧ b.value.storage = .arena ∧ b.offset = some offset ∧
    offset / 4 = start ∧ elements b.value.shape = .ok n ∧ b.lifetime = some (first, last)
  bound : start + n ≤ p.arenaBytes / 4

omit [Float32 F] in
theorem Slot.of_buffer {id start n first last : Nat} {b : Buffer F}
    (h : Slot p id start n first last) (hb : p.buffers[id]? = some b) :
    b.value.storage = .arena ∧ b.lifetime = some (first, last) ∧ elements b.value.shape = .ok n ∧
      ∃ offset, b.offset = some offset ∧ offset / 4 = start := by
  obtain ⟨⟨b', offset, hb', harena, hoffset, hstart, hn, hlife⟩, -⟩ := h
  obtain rfl := Option.some.inj (hb.symm.trans hb')
  exact ⟨harena, hlife, hn, offset, hoffset, hstart⟩

theorem Verified.slot (h : Verified p) {id : Nat} {b : Buffer F} (hb : p.buffers[id]? = some b)
    (harena : b.value.storage = .arena) : ∃ start n first last, Slot p id start n first last := by
  have hmem := List.mem_of_getElem? hb
  obtain ⟨-, n, offset, hn, hoffset, halignment, hbound⟩ := (h.stored b hmem).arena harena
  obtain ⟨⟨first, last⟩, hlife⟩ := Option.ne_none_iff_exists'.mp (h.placed b hmem harena)
  refine ⟨offset / 4, n, first, last, ⟨b, offset, hb, harena, hoffset, rfl, hn, hlife⟩, ?_⟩
  simp only [alignment] at halignment
  omega

/-- Two buffers alive at the same time have no cell in common. -/
theorem Verified.disjoint (h : Verified p) {id start n first last id' start' n' first' last' : Nat}
    (hslot : Slot p id start n first last) (hslot' : Slot p id' start' n' first' last') (hne : id ≠ id')
    (hle : first ≤ last') (hle' : first' ≤ last) : start + n ≤ start' ∨ start' + n' ≤ start := by
  obtain ⟨⟨b, offset, hb, harena, hoffset, rfl, hn, hlife⟩, -⟩ := hslot
  obtain ⟨⟨b', offset', hb', harena', hoffset', rfl, hn', hlife'⟩, -⟩ := hslot'
  have hapart : Apart b b' := by
    obtain ⟨hid, rfl⟩ := List.getElem?_eq_some_iff.mp hb
    obtain ⟨hid', rfl⟩ := List.getElem?_eq_some_iff.mp hb'
    have hpairwise := List.pairwise_iff_getElem.mp h.compatible
    rcases Nat.lt_or_gt_of_ne hne with hlt | hlt
    · exact (hpairwise id id' hid hid' hlt _ _ _ _ hlife' hlife hle' hle).symm
    · exact hpairwise id' id hid' hid hlt _ _ _ _ hlife hlife' hle hle'
  have halignment : ∀ b offset, p.buffers[id]? = some b ∨ p.buffers[id']? = some b → b.value.storage = .arena →
      b.offset = some offset → offset % alignment = 0 := by
    intro b offset hb harena hoffset
    obtain ⟨-, n, offset', -, hoffset', halignment, -⟩ :=
      (h.stored b (hb.elim List.mem_of_getElem? List.mem_of_getElem?)).arena harena
    exact Option.some.inj (hoffset.symm.trans hoffset') ▸ halignment
  have h₁ := halignment b offset (.inl hb) harena hoffset
  have h₂ := halignment b' offset' (.inr hb') harena' hoffset'
  simp only [alignment] at h₁ h₂
  have := hapart offset offset' n n' hoffset hoffset' hn hn'
  omega

end

end Inferfabric.Plan
