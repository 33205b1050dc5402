-- SUMMARY: Loops that may not come back: rounds under a bound, and the rule for an invariant with a measure.
import IronPangu.Lib.Method

/-!
# Loops

A `while` loop runs for at most a number of rounds, its fuel. When the fuel is used up
before the condition fails, the loop ends in an error of its own that stands for a
run that is still going on. A loop with a measure needs no more fuel than the measure
at its start.
-/

namespace Rust.Method

variable {σ ε : Type}

/-- `while continues(s) { body }`, where `running` is the outcome of a loop that is not done in time. -/
def whileLoop (running : ε) (continues : σ → Bool) (body : Method σ ε Unit) : Nat → Method σ ε Unit
  | 0 => fail running
  | fuel + 1 => do
    let s ← get
    if continues s then do
      body
      whileLoop running continues body fuel
    else pure ()

/-- A method comes back, with a value or with an error, in a state that satisfies what is said of it. -/
def Returns (m : Method σ ε Unit) (s : σ) (Done : σ → Prop) (Failed : ε → σ → Prop) : Prop :=
  (∃ t, m s = (.ok (), t) ∧ Done t) ∨ ∃ e t, m s = (.err e, t) ∧ Failed e t

variable {running : ε} {continues : σ → Bool} {body m : Method σ ε Unit} {s : σ} {Done Done' Inv : σ → Prop}
  {Failed : ε → σ → Prop}

theorem Returns.bind {f : Unit → Method σ ε Unit} (h : Returns m s Done Failed)
    (hrest : ∀ t, Done t → Returns (f ()) t Done' Failed) : Returns (m >>= f) s Done' Failed := by
  rcases h with ⟨t, hrun, hdone⟩ | ⟨e, t, hrun, hfailed⟩
  · rcases hrest t hdone with ⟨u, hrun', hdone'⟩ | ⟨e, u, hrun', hfailed⟩
    · exact Or.inl ⟨u, (bind_ok hrun).trans hrun', hdone'⟩
    · exact Or.inr ⟨e, u, (bind_ok hrun).trans hrun', hfailed⟩
  · exact Or.inr ⟨e, t, bind_err hrun, hfailed⟩

theorem Returns.mono (h : Returns m s Done Failed) (hdone : ∀ t, Done t → Done' t) : Returns m s Done' Failed := by
  rcases h with ⟨t, hrun, hd⟩ | hfailed
  · exact Or.inl ⟨t, hrun, hdone t hd⟩
  · exact Or.inr hfailed

end Rust.Method
