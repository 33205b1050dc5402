-- SUMMARY: Triples for fallible methods: what holds of the receiver after a call that returns a value, and after one that does not.
import IronPangu.Lib.Method

/-!
# Triples

`Triple P m Q E`: from a receiver that satisfies `P`, a call of `m` that returns `a`
leaves a receiver that satisfies `Q a`, and one that fails or panics leaves one that
satisfies `E`. There is one rule for each way methods are built, so that a proof
follows the method line by line and states what holds between two lines.
-/

namespace Rust.Method

variable {σ ε α β : Type}

def Triple (P : σ → Prop) (m : Method σ ε α) (Q : α → σ → Prop) (E : σ → Prop) : Prop :=
  ∀ s, P s → match m s with
    | (.ok a, t) => Q a t
    | (_, t) => E t

variable {P P' : σ → Prop} {m : Method σ ε α} {Q Q' : α → σ → Prop} {E E' : σ → Prop}

/-! ## Reading a triple -/

theorem Triple.ok (h : Triple P m Q E) {s t : σ} {a : α} (hs : P s) (hrun : m s = (.ok a, t)) :
    Q a t := by
  have := h s hs
  rwa [hrun] at this

theorem Triple.not_ok (h : Triple P m Q E) {s : σ} (hs : P s) (hrun : ∀ a, (m s).1 ≠ .ok a) :
    E (m s).2 := by
  have hpost := h s hs
  rcases hm : m s with ⟨a | e | _, t⟩ <;> rw [hm] at hpost hrun
  · exact absurd rfl (hrun a)
  · exact hpost
  · exact hpost

/-- A condition that holds after every outcome. -/
theorem Triple.final (h : Triple P m (fun _ => E) E) {s : σ} (hs : P s) : E (m s).2 := by
  have hpost := h s hs
  rcases hm : m s with ⟨a | e | _, t⟩ <;> rw [hm] at hpost <;> exact hpost

/-- A call that cannot return a value. -/
theorem Triple.refused (h : Triple P m (fun _ _ => False) E) {s : σ} (hs : P s) (a : α) :
    (m s).1 ≠ .ok a :=
  fun hrun => h.ok hs (Prod.ext hrun rfl)

/-! ## Consequence -/

theorem Triple.mono (h : Triple P m Q E) (hP : ∀ s, P' s → P s) (hQ : ∀ a s, Q a s → Q' a s)
    (hE : ∀ s, E s → E' s) : Triple P' m Q' E' := by
  intro s hs
  have hpost := h s (hP s hs)
  rcases hm : m s with ⟨a | e | _, t⟩ <;> rw [hm] at hpost
  · exact hQ a t hpost
  · exact hE t hpost
  · exact hE t hpost

theorem Triple.pre (h : Triple P m Q E) (hP : ∀ s, P' s → P s) : Triple P' m Q E :=
  h.mono hP (fun _ _ h => h) fun _ h => h

theorem Triple.post (h : Triple P m Q E) (hQ : ∀ a s, Q a s → Q' a s) : Triple P m Q' E :=
  h.mono (fun _ h => h) hQ fun _ h => h

theorem Triple.error (h : Triple P m Q E) (hE : ∀ s, E s → E' s) : Triple P m Q E' :=
  h.mono (fun _ h => h) (fun _ _ h => h) hE

theorem Triple.and (h : Triple P m Q E) (h' : Triple P' m Q' E') :
    Triple (fun s => P s ∧ P' s) m (fun a s => Q a s ∧ Q' a s) (fun s => E s ∧ E' s) := by
  rintro s ⟨hs, hs'⟩
  have hpost := h s hs
  have hpost' := h' s hs'
  rcases hm : m s with ⟨a | e | _, t⟩ <;> rw [hm] at hpost hpost' <;> exact ⟨hpost, hpost'⟩

/-- A fact that does not mention the receiver may be assumed. -/
theorem triple_of_fact {p : Prop} (h : p → Triple P m Q E) : Triple (fun s => P s ∧ p) m Q E :=
  fun s hs => h hs.2 s hs.1

/-- What a value says about where it was returned from. -/
theorem Triple.found {s : σ} {p : Prop} (h : Triple (fun t => t = s) m Q E)
    (hfound : ∀ a t, m s = (.ok a, t) → p) : Triple (fun t => t = s) m (fun a t => Q a t ∧ p) E := by
  rintro s' rfl
  have hpost := h s' rfl
  rcases hrun : m s' with ⟨a | e | _, t⟩ <;> rw [hrun] at hpost
  · exact ⟨hpost, hfound a t hrun⟩
  · exact hpost
  · exact hpost

/-- The receiver may be named. -/
theorem triple_at (h : ∀ s, P s → Triple (fun t => t = s) m Q E) : Triple P m Q E :=
  fun s hs => h s hs s rfl

/-- What every outcome keeps holds after every outcome. -/
theorem Keeps.triple {R : σ → σ → Prop} [Steps R] (h : Keeps R m) (s : σ) :
    Triple (R s) m (fun _ => R s) (R s) := by
  intro t ht
  have hpost := Steps.trans ht (h t)
  rcases hm : m t with ⟨a | e | _, u⟩ <;> rw [hm] at hpost <;> exact hpost

/-! ## One rule for each construct -/

theorem triple_pure (a : α) (h : ∀ s, P s → Q a s) : Triple P (Pure.pure a : Method σ ε α) Q E := h

theorem triple_fail (e : ε) (h : ∀ s, P s → E s) : Triple P (fail e : Method σ ε α) Q E := h

theorem triple_modify {f : σ → σ} {Q : Unit → σ → Prop} (h : ∀ s, P s → Q () (f s)) :
    Triple P (modify f : Method σ ε Unit) Q E := h

theorem triple_read (f : σ → Outcome ε α) (h : ∀ s, P s → E s) :
    Triple P (read f) (fun a s => P s ∧ f s = .ok a) E := by
  intro s hs
  rw [read_run]
  cases hf : f s with
  | ok a => exact ⟨hs, hf⟩
  | err e => exact h s hs
  | panic => exact h s hs

theorem triple_get : Triple P (get : Method σ ε σ) (fun a s => P s ∧ a = s) E :=
  fun _ hs => ⟨hs, rfl⟩

theorem triple_lift (o : Outcome ε α) (h : ∀ s, P s → E s) :
    Triple P (lift o) (fun a s => P s ∧ o = .ok a) E :=
  triple_read (fun _ => o) h

/-- An outcome that is no value. -/
theorem triple_lift_not_ok {o : Outcome ε α} (ho : ∀ a, o ≠ .ok a) (h : ∀ s, P s → E s) :
    Triple P (lift o) Q E :=
  (triple_lift o h).post fun a _ ha => absurd ha.2 (ho a)

theorem triple_require (condition : σ → Bool) (e : ε) (h : ∀ s, P s → E s) :
    Triple P (require condition e) (fun _ s => P s ∧ condition s = true) E := by
  refine (triple_read _ h).post ?_
  rintro _ s ⟨hs, hcondition⟩
  split at hcondition
  · exact ⟨hs, ‹_›⟩
  · cases hcondition

theorem Triple.bind {f : α → Method σ ε β} {R : β → σ → Prop} (hm : Triple P m Q E)
    (hf : ∀ a, Triple (Q a) (f a) R E) : Triple P (m >>= f) R E := by
  intro s hs
  have hpost := hm s hs
  rw [bind_run]
  rcases hrun : m s with ⟨a | e | _, t⟩ <;> rw [hrun] at hpost
  · exact hf a t hpost
  · exact hpost
  · exact hpost

/-- An attempted call keeps its error, but not a panic, for later. -/
theorem Triple.attempt (h : Triple P m Q E) :
    Triple P (attempt m) (fun o s => match o with
      | .ok a => Q a s
      | .err _ => E s
      | .panic => False) E := by
  intro s hs
  have hpost := h s hs
  unfold Method.attempt
  rcases hrun : m s with ⟨a | e | _, t⟩ <;> rw [hrun] at hpost <;> exact hpost

theorem triple_forEach {I : σ → Prop} {as : List α} {body : α → Method σ ε Unit}
    (h : ∀ a ∈ as, Triple I (body a) (fun _ => I) E) :
    Triple I (forEach as body) (fun _ => I) E := by
  induction as with
  | nil => exact triple_pure () fun _ h => h
  | cons a as ih =>
    refine (h a List.mem_cons_self).bind fun _ => ?_
    exact ih fun a' ha' => h a' (List.mem_cons_of_mem _ ha')

/-! ## Steps that keep what is known -/

section Same

variable {f : α → Method σ ε β} {R : β → σ → Prop} (hE : ∀ s, P s → E s)
include hE

theorem triple_read_bind {g : σ → Outcome ε α} (h : ∀ a, Triple P (f a) R E) :
    Triple P (read g >>= f) R E :=
  (triple_read g hE).bind fun a => (h a).pre fun _ hs => hs.1

theorem triple_lift_bind {o : Outcome ε α} (h : ∀ a, o = .ok a → Triple P (f a) R E) :
    Triple P (lift o >>= f) R E :=
  (triple_lift o hE).bind fun a => triple_of_fact (h a)

theorem triple_require_bind {condition : σ → Bool} {e : ε} {f : Unit → Method σ ε β}
    (h : Triple P (f ()) R E) : Triple P (require condition e >>= f) R E :=
  (triple_require condition e hE).bind fun _ => h.pre fun _ hs => hs.1

omit hE in
theorem triple_get_bind {f : σ → Method σ ε β} (h : ∀ a, Triple P (f a) R E) :
    Triple P (get >>= f) R E :=
  fun s hs => h s s hs

end Same

/-! ## From a known receiver -/

section Known

variable {s : σ} {R : β → σ → Prop}

theorem triple_get_at {f : σ → Method σ ε β} (h : Triple (· = s) (f s) R E) :
    Triple (· = s) (get >>= f) R E := by
  rintro t rfl
  exact h t rfl

theorem triple_read_at {g : σ → Outcome ε α} {f : α → Method σ ε β} (hs : E s)
    (h : ∀ a, g s = .ok a → Triple (· = s) (f a) R E) : Triple (· = s) (read g >>= f) R E := by
  rintro t rfl
  rw [bind_run, read_run]
  cases ha : g t with
  | ok a => exact h a ha t rfl
  | err e => exact hs
  | panic => exact hs

theorem triple_lift_at {o : Outcome ε α} {f : α → Method σ ε β} (hs : E s)
    (h : ∀ a, o = .ok a → Triple (· = s) (f a) R E) : Triple (· = s) (lift o >>= f) R E :=
  triple_read_at (g := fun _ => o) hs h

theorem triple_require_at {condition : σ → Bool} {e : ε} {f : Unit → Method σ ε β} (hs : E s)
    (h : condition s = true → Triple (· = s) (f ()) R E) :
    Triple (· = s) (require condition e >>= f) R E := by
  refine triple_read_at hs fun _ hcondition => ?_
  split at hcondition
  · exact h ‹_›
  · cases hcondition

theorem triple_modify_at {g : σ → σ} {f : Unit → Method σ ε β} (h : Triple (· = g s) (f ()) R E) :
    Triple (· = s) (modify g >>= f) R E := by
  rintro t rfl
  exact h (g t) rfl

/-- A call whose outcome is known. -/
theorem triple_run_at {a : α} {t : σ} {f : α → Method σ ε β} (hrun : m s = (.ok a, t)) (h : Triple (· = t) (f a) R E) :
    Triple (· = s) (m >>= f) R E := by
  rintro _ rfl
  rw [bind_ok hrun]
  exact h t rfl

theorem triple_pure_at {a : α} (h : Q a s) : Triple (· = s) (Pure.pure a : Method σ ε α) Q E := by
  rintro t rfl
  exact h

theorem triple_fail_at {e : ε} (h : E s) : Triple (· = s) (fail e : Method σ ε α) Q E := by
  rintro t rfl
  exact h

end Known

/-! ## Calls that do not panic -/

def NoPanic (P : σ → Prop) (m : Method σ ε α) : Prop := ∀ s, P s → (m s).1 ≠ .panic

theorem NoPanic.bind {f : α → Method σ ε β} (h : NoPanic P m) (hm : Triple P m Q E)
    (hf : ∀ a, NoPanic (Q a) (f a)) : NoPanic P (m >>= f) :=
  fun s hs => bind_ne_panic (h s hs) fun a t hrun => hf a t (hm.ok hs hrun)

/-- The rest does not panic wherever the first part leaves the receiver. -/
theorem NoPanic.andThen {f : α → Method σ ε β} (h : NoPanic P m) (hf : ∀ a s, (f a s).1 ≠ .panic) :
    NoPanic P (m >>= f) :=
  fun s hs => bind_ne_panic (h s hs) fun a t _ => hf a t

theorem NoPanic.pre (h : NoPanic P m) (hP : ∀ s, P' s → P s) : NoPanic P' m :=
  fun s hs => h s (hP s hs)

theorem noPanic_pure (a : α) : NoPanic P (Pure.pure a : Method σ ε α) := fun _ _ h => by cases h

theorem noPanic_fail (e : ε) : NoPanic P (fail e : Method σ ε α) := fun _ _ h => by cases h

theorem noPanic_modify (f : σ → σ) : NoPanic P (modify f : Method σ ε Unit) := fun _ _ h => by cases h

theorem noPanic_lift {o : Outcome ε α} (h : o ≠ .panic) : NoPanic P (lift o) := fun _ _ => h

theorem noPanic_get_bind {f : σ → Method σ ε β} (h : ∀ a, NoPanic (fun s => P s ∧ s = a) (f a)) :
    NoPanic P (get >>= f) :=
  fun s hs => h s s ⟨hs, rfl⟩

theorem noPanic_read_bind {g : σ → Outcome ε α} {f : α → Method σ ε β}
    (hg : ∀ s, P s → g s ≠ .panic) (hf : ∀ a, NoPanic P (f a)) : NoPanic P (read g >>= f) :=
  fun s hs => read_bind_ne_panic (hg s hs) fun a _ => hf a s hs

theorem noPanic_lift_bind {o : Outcome ε α} {f : α → Method σ ε β} (ho : o ≠ .panic)
    (hf : ∀ a, NoPanic P (f a)) : NoPanic P (lift o >>= f) :=
  noPanic_read_bind (fun _ _ => ho) hf

theorem noPanic_require_bind {condition : σ → Bool} {e : ε} {f : Unit → Method σ ε β}
    (hf : NoPanic P (f ())) : NoPanic P (require condition e >>= f) :=
  noPanic_read_bind (fun s _ => by split <;> simp) fun _ => hf

/-- An attempted call hands its error on as a value, which is no panic either. -/
theorem NoPanic.attempt (h : NoPanic P m) : NoPanic P (attempt m) := by
  intro s hs hpanic
  have hm := h s hs
  unfold Method.attempt at hpanic
  rcases hrun : m s with ⟨_ | _ | _, t⟩ <;> rw [hrun] at hm hpanic
  · cases hpanic
  · cases hpanic
  · exact hm rfl

end Rust.Method
