-- SUMMARY: Components that answer one call after another: their histories, and induction over a run.
import IronPangu.Lib.Method

/-!
# Machines

A machine answers calls one after another, each on the state the previous one
left. A run from a state is a list of calls; its history records every call with
its reply and the states around it. What holds of every run is proved by
`history_induction`, from one step.
-/

namespace Rust

/-- One answered call. -/
structure Event (σ ε ω ρ : Type) where
  before : σ
  call : ω
  reply : Outcome ε ρ
  after : σ

section

variable {σ ε ω ρ : Type} (step : ω → Method σ ε ρ)

/-- The event of calling `op` in state `s`. -/
def event (s : σ) (op : ω) : Event σ ε ω ρ where
  before := s
  call := op
  reply := (step op s).1
  after := (step op s).2

/-- The state a run ends in. -/
def final (ops : List ω) (s : σ) : σ := ops.foldl (fun s op => (step op s).2) s

/-- The events of a run, in order. -/
def history : List ω → σ → List (Event σ ε ω ρ)
  | [], _ => []
  | op :: ops, s => event step s op :: history ops (step op s).2

/-- The replies of a run, in order. -/
def replies (ops : List ω) (s : σ) : List (Outcome ε ρ) := (history step ops s).map Event.reply

variable {step} {s : σ} {op : ω} {ops ops' : List ω}

@[simp] theorem final_nil : final step [] s = s := rfl
@[simp] theorem final_cons : final step (op :: ops) s = final step ops (step op s).2 := rfl
@[simp] theorem history_nil : history step [] s = [] := rfl
@[simp] theorem history_cons :
    history step (op :: ops) s = event step s op :: history step ops (step op s).2 := rfl

theorem final_append : final step (ops ++ ops') s = final step ops' (final step ops s) :=
  List.foldl_append

theorem final_concat : final step (ops ++ [op]) s = (step op (final step ops s)).2 := by
  rw [final_append, final_cons, final_nil]

theorem history_append :
    history step (ops ++ ops') s = history step ops s ++ history step ops' (final step ops s) := by
  induction ops generalizing s with
  | nil => rfl
  | cons op ops ih =>
    rw [List.cons_append, history_cons, history_cons, final_cons, ih, List.cons_append]

theorem history_concat :
    history step (ops ++ [op]) s = history step ops s ++ [event step (final step ops s) op] := by
  rw [history_append, history_cons, history_nil]

/-- What holds of a fresh machine with no history, and is kept by one more call,
    holds of every run. -/
theorem history_induction {P : List (Event σ ε ω ρ) → σ → Prop} (hnil : P [] s)
    (hstep : ∀ events t op, P events t → P (events ++ [event step t op]) (step op t).2)
    (ops : List ω) : P (history step ops s) (final step ops s) := by
  induction ops using List.reverseRecOn with
  | nil => exact hnil
  | append_singleton ops op ih =>
    rw [history_concat, final_concat]
    exact hstep _ _ op ih

/-- `history_induction` for a property of the state alone. -/
theorem final_induction {P : σ → Prop} (hinit : P s) (hstep : ∀ t op, P t → P (step op t).2)
    (ops : List ω) : P (final step ops s) :=
  history_induction (P := fun _ t => P t) hinit (fun _ t op ht => hstep t op ht) ops

/-- Every event of a run is a call on a state the run passes through. -/
theorem mem_history {ev : Event σ ε ω ρ} (h : ev ∈ history step ops s) :
    ∃ ops₁ op ops₂, ops = ops₁ ++ op :: ops₂ ∧ ev = event step (final step ops₁ s) op := by
  induction ops generalizing s with
  | nil => cases h
  | cons op ops ih =>
    rw [history_cons, List.mem_cons] at h
    rcases h with rfl | h
    · exact ⟨[], op, ops, rfl, rfl⟩
    · obtain ⟨ops₁, op', ops₂, rfl, rfl⟩ := ih h
      exact ⟨op :: ops₁, op', ops₂, rfl, rfl⟩

/-- A part of a history is the history of a part of the run. -/
theorem history_eq_append {events events' : List (Event σ ε ω ρ)} (h : history step ops s = events ++ events') :
    ∃ ops₁ ops₂, ops = ops₁ ++ ops₂ ∧ history step ops₁ s = events ∧
      history step ops₂ (final step ops₁ s) = events' := by
  induction events generalizing ops s with
  | nil => exact ⟨[], ops, rfl, rfl, h⟩
  | cons ev events ih =>
    cases ops with
    | nil => cases h
    | cons op ops =>
      rw [history_cons, List.cons_append, List.cons.injEq] at h
      obtain ⟨rfl, h⟩ := h
      obtain ⟨ops₁, ops₂, rfl, h₁, h₂⟩ := ih h
      exact ⟨op :: ops₁, ops₂, rfl, by rw [history_cons, h₁], h₂⟩

theorem history_eq_cons {ev : Event σ ε ω ρ} {events : List (Event σ ε ω ρ)}
    (h : history step ops s = ev :: events) :
    ∃ op ops', ops = op :: ops' ∧ ev = event step s op ∧ history step ops' (step op s).2 = events := by
  cases ops with
  | nil => cases h
  | cons op ops =>
    rw [history_cons, List.cons.injEq] at h
    exact ⟨op, ops, rfl, h.1.symm, h.2⟩

theorem replies_append :
    replies step (ops ++ ops') s = replies step ops s ++ replies step ops' (final step ops s) := by
  rw [replies, history_append, List.map_append]
  rfl

/-- No call of a run panicked. -/
def Ran (step : ω → Method σ ε ρ) (ops : List ω) (s : σ) : Prop := .panic ∉ replies step ops s

theorem ran_append : Ran step (ops ++ ops') s ↔ Ran step ops s ∧ Ran step ops' (final step ops s) := by
  rw [Ran, replies_append, List.mem_append, not_or]
  rfl

theorem ran_singleton : Ran step [op] s ↔ (step op s).1 ≠ .panic := by
  rw [Ran, replies, history_cons, List.map_cons, history_nil, List.map_nil, List.mem_singleton]
  exact not_congr eq_comm

theorem ran_cons : Ran step (op :: ops) s ↔ Ran step [op] s ∧ Ran step ops (step op s).2 := by
  rw [← List.singleton_append, ran_append]
  rfl

@[simp] theorem replies_nil : replies step [] s = [] := rfl
@[simp] theorem replies_cons :
    replies step (op :: ops) s = (step op s).1 :: replies step ops (step op s).2 := rfl

/-- The calls of a run that did not fail. -/
def unfailed (step : ω → Method σ ε ρ) (ops : List ω) (s : σ) : List ω :=
  ((ops.zip (replies step ops s)).filter fun call => !call.2.isErr).map Prod.fst

theorem unfailed_cons :
    unfailed step (op :: ops) s =
      if (step op s).1.isErr then unfailed step ops (step op s).2
      else op :: unfailed step ops (step op s).2 := by
  cases herr : (step op s).1.isErr <;> simp [unfailed, herr]

/-- Failed calls that change nothing can all be left out of a run. -/
theorem replies_unfailed (hatomic : ∀ op, Method.Atomic (step op)) :
    replies step (unfailed step ops s) s = (replies step ops s).filter (fun reply => !reply.isErr) ∧
      final step (unfailed step ops s) s = final step ops s := by
  induction ops generalizing s with
  | nil => exact ⟨rfl, rfl⟩
  | cons op ops ih =>
    rw [unfailed_cons, replies_cons, final_cons]
    obtain ⟨hreplies, hfinal⟩ := ih (s := (step op s).2)
    rcases hrun : step op s with ⟨value | error | _, t⟩ <;> rw [hrun] at hreplies hfinal
    · simp [Outcome.isErr, hrun, hreplies, hfinal]
    · obtain rfl : t = s := hatomic op s error t hrun
      simp [Outcome.isErr, hreplies, hfinal]
    · simp [Outcome.isErr, hrun, hreplies, hfinal]

/-- Two machines in related states that answer every call alike, and stay related,
    answer every run alike. -/
theorem replies_simulation {τ : Type} {step' : ω → Method τ ε ρ} {R : σ → τ → Prop}
    (hstep : ∀ op s t, R s t → (step op s).1 = (step' op t).1 ∧ R (step op s).2 (step' op t).2)
    {t : τ} (h : R s t) :
    replies step ops s = replies step' ops t ∧ R (final step ops s) (final step' ops t) := by
  induction ops generalizing s t with
  | nil => exact ⟨rfl, h⟩
  | cons op ops ih =>
    obtain ⟨hreply, hnext⟩ := hstep op s t h
    obtain ⟨hreplies, hfinal⟩ := ih hnext
    exact ⟨by rw [replies_cons, replies_cons, hreply, hreplies], hfinal⟩

/-- Runs with the same replies had the same calls fail. -/
theorem unfailed_congr {τ : Type} {step' : ω → Method τ ε ρ} {t : τ}
    (h : replies step ops s = replies step' ops t) : unfailed step ops s = unfailed step' ops t := by
  rw [unfailed, unfailed, h]

/-- A call that fails without changing the state can be left out of a run: the
    later calls are answered as if it had not been made. -/
theorem replies_drop_failed {e : ε} (hatomic : Method.Atomic (step op))
    (hfail : (step op (final step ops s)).1 = .err e) :
    replies step (ops ++ op :: ops') s =
      replies step ops s ++ .err e :: replies step ops' (final step ops s) ∧
    final step (ops ++ op :: ops') s = final step (ops ++ ops') s := by
  have hsame : (step op (final step ops s)).2 = final step ops s :=
    hatomic _ e _ (Prod.ext hfail rfl)
  constructor
  · simp only [replies, history_append, history_cons, List.map_append, List.map_cons, event, hfail,
      hsame]
  · rw [final_append, final_append, final_cons, hsame]

end

end Rust
