-- SUMMARY: Components whose next step is not determined: labelled steps, what is observed of them, and what is reached.
import IronPangu.Lib.Method

/-!
# Traces

A component with several parties takes one labelled step after another; which one
is not determined by its state. What an onlooker sees of the steps is a log. Steps
may be restricted to those `allowed` where they are taken, so that a property can
be stated of the runs whose steps all meet a condition.
-/

namespace Trace

variable {σ ℓ ο : Type}

section

variable (step : σ → ℓ → Option σ) (observe : σ → ℓ → List ο) (allowed : σ → ℓ → Prop)

/-- Allowed steps lead from `s` to a state, and the log is what is observed of them. -/
inductive Reached (s : σ) : List ο → σ → Prop where
  | start : Reached s [] s
  | step {log : List ο} {t u : σ} {label : ℓ} (earlier : Reached s log t) (hallowed : allowed t label)
      (hstep : step t label = some u) : Reached s (log ++ observe t label) u

/-- Take the steps in turn. -/
def walk : List ℓ → σ → Option (List ο × σ)
  | [], s => some ([], s)
  | label :: labels, s =>
    match step s label with
    | none => none
    | some t =>
      match walk labels t with
      | none => none
      | some (log, u) => some (observe s label ++ log, u)

end

variable {step : σ → ℓ → Option σ} {observe : σ → ℓ → List ο} {allowed : σ → ℓ → Prop}
variable {s t u : σ} {log more : List ο}

/-- A condition on the steps may be dropped. -/
theorem Reached.any (h : Reached step observe allowed s log t) :
    Reached step observe (fun _ _ => True) s log t := by
  induction h with
  | start => exact .start
  | step _ _ hstep ih => exact .step ih trivial hstep

/-- Steps that are allowed everywhere can be taken in turn. -/
theorem Reached.walk {labels : List ℓ} (h : Reached step observe allowed s log t)
    (hfree : ∀ label ∈ labels, ∀ v, allowed v label) (hwalk : walk step observe labels t = some (more, u)) :
    Reached step observe allowed s (log ++ more) u := by
  induction labels generalizing log t more with
  | nil =>
    obtain ⟨rfl, rfl⟩ := Prod.mk.inj (Option.some.inj hwalk)
    rwa [List.append_nil]
  | cons label labels ih =>
    simp only [Trace.walk] at hwalk
    split at hwalk
    · cases hwalk
    · rename_i mid hstep
      split at hwalk
      · cases hwalk
      · rename_i rest final hrest
        obtain ⟨rfl, rfl⟩ := Prod.mk.inj (Option.some.inj hwalk)
        rw [← List.append_assoc]
        have hnext := Reached.step h (hfree label List.mem_cons_self t) hstep
        exact ih hnext (fun l hl => hfree l (List.mem_cons_of_mem _ hl)) hrest

/-- Where steps that can be taken in turn lead is reached. -/
theorem reached_of_walk {labels : List ℓ} (h : walk step observe labels s = some (log, t)) :
    Reached step observe (fun _ _ => True) s log t :=
  Reached.walk .start (fun _ _ _ => trivial) h

/-! ## What an observation is preceded by -/

/-- Every observation satisfies `Q` with the log before it. -/
def Preceded (Q : List ο → ο → Prop) (log : List ο) : Prop :=
  ∀ before o after, log = before ++ o :: after → Q before o

theorem preceded_nil {Q : List ο → ο → Prop} : Preceded Q [] := by
  intro before o after h
  cases before <;> cases h

theorem Preceded.concat {Q : List ο → ο → Prop} {o : ο} (h : Preceded Q log) (ho : Q log o) :
    Preceded Q (log ++ [o]) := by
  intro before o' after heq
  rcases List.eq_nil_or_concat after with rfl | ⟨after, last, rfl⟩
  · obtain ⟨rfl, hlast⟩ := List.append_inj' heq rfl
    rwa [← List.singleton_inj.mp hlast]
  · rw [List.concat_eq_append, ← List.cons_append, ← List.append_assoc] at heq
    exact h before o' after (List.append_inj' heq rfl).1

/-- Where every step observes one thing at most. -/
theorem Preceded.append {Q : List ο → ο → Prop} {seen : List ο} (h : Preceded Q log)
    (hone : seen.length ≤ 1) (ho : ∀ o ∈ seen, Q log o) : Preceded Q (log ++ seen) := by
  match seen with
  | [] => rwa [List.append_nil]
  | [o] => exact h.concat (ho o List.mem_cons_self)
  | _ :: _ :: _ => simp at hone

theorem Preceded.mono {Q R : List ο → ο → Prop} (h : Preceded Q log)
    (himp : ∀ before o, Q before o → R before o) : Preceded R log :=
  fun before o after heq => himp before o (h before o after heq)

theorem preceded_concat {Q : List ο → ο → Prop} {o : ο} : Preceded Q (log ++ [o]) ↔ Preceded Q log ∧ Q log o := by
  refine ⟨fun h => ⟨fun before o' after heq => ?_, h log o [] rfl⟩, fun h => h.1.concat h.2⟩
  exact h before o' (after ++ [o]) (by simp [heq])

/-- Leaving out what nothing kept relies on. -/
theorem Preceded.filter {Q R : List ο → ο → Prop} (h : Preceded Q log) (keep : ο → Bool)
    (himp : ∀ before o after, log = before ++ o :: after → keep o = true → Q before o → R (before.filter keep) o) :
    Preceded R (log.filter keep) := by
  induction log using List.reverseRecOn with
  | nil => exact preceded_nil
  | append_singleton log o ih =>
    obtain ⟨hlog, ho⟩ := preceded_concat.mp h
    have hrest : Preceded R (log.filter keep) := ih hlog fun before o' after heq =>
      himp before o' (after ++ [o]) (by simp [heq])
    rw [List.filter_append]
    cases hkeep : keep o with
    | false => simpa [hkeep] using hrest
    | true =>
      rw [List.filter_singleton, hkeep, cond_true]
      exact hrest.concat (himp log o [] rfl hkeep ho)

/-- Replacing observations one by one. -/
theorem Preceded.forall₂ {ο' : Type} {Q : List ο → ο → Prop} {R : List ο' → ο' → Prop} {S : ο → ο' → Prop} {log' : List ο'}
    (h : Preceded Q log) (hlog : List.Forall₂ S log log')
    (himp : ∀ before o before' o', List.Forall₂ S before before' → S o o' → Q before o → R before' o') :
    Preceded R log' := by
  induction log using List.reverseRecOn generalizing log' with
  | nil =>
    obtain rfl := List.forall₂_nil_left_iff.mp hlog
    exact preceded_nil
  | append_singleton log o ih =>
    obtain ⟨hbefore, ho⟩ := preceded_concat.mp h
    have hsame := (List.forall₂_take_append log' log [o] hlog.flip).flip
    have hlast := (List.forall₂_drop_append log' log [o] hlog.flip).flip
    obtain ⟨o', _, hoo, hnil, hdrop⟩ := List.forall₂_cons_left_iff.mp hlast
    obtain rfl := List.forall₂_nil_left_iff.mp hnil
    rw [← List.take_append_drop log.length log', hdrop]
    exact (ih hbefore hsame).concat (himp log o _ o' hsame hoo ho)

end Trace
