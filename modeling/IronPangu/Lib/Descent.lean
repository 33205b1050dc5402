-- SUMMARY: Recursive descent over a list of tokens: what a parser consumes, and that it does not panic.
import IronPangu.Lib.Method

open Rust Method

/-!
# Recursive descent

A parser is a method on a cursor: the tokens and the position of the next one. `At` says
what it does from a position on: it never panics, and where it returns a value it has
not gone back, nor past the end.
-/

namespace Descent

structure Cursor (τ : Type) where
  tokens : List τ
  position : Nat

abbrev Parser (τ ε α : Type) : Type := Method (Cursor τ) ε α

variable {τ ε α β : Type} {tokens : List τ} {p : Nat} {m : Parser τ ε α} {Q Q' : Nat → α → Prop}

/-- From position `p` the parser returns an error, or a value that fits the position it stops at. -/
def At (tokens : List τ) (p : Nat) (m : Parser τ ε α) (Q : Nat → α → Prop) : Prop :=
  match m ⟨tokens, p⟩ with
  | (.ok a, s) => s.tokens = tokens ∧ p ≤ s.position ∧ s.position ≤ tokens.length ∧ Q s.position a
  | (.err _, _) => True
  | (.panic, _) => False

theorem at_iff : At tokens p m Q ↔ (m ⟨tokens, p⟩).1 ≠ .panic ∧ ∀ a s, m ⟨tokens, p⟩ = (.ok a, s) →
    s.tokens = tokens ∧ p ≤ s.position ∧ s.position ≤ tokens.length ∧ Q s.position a := by
  rw [At]
  rcases hrun : m ⟨tokens, p⟩ with ⟨_ | _ | _, s⟩
  · constructor
    · intro h
      refine ⟨by simp, ?_⟩
      rintro _ _ hok
      cases hok
      exact h
    · intro h
      exact h.2 _ _ rfl
  · simp
  · simp

theorem At.ne_panic (h : At tokens p m Q) : (m ⟨tokens, p⟩).1 ≠ .panic := (at_iff.mp h).1

theorem At.ok (h : At tokens p m Q) {a : α} {s : Cursor τ} (hrun : m ⟨tokens, p⟩ = (.ok a, s)) :
    s.tokens = tokens ∧ p ≤ s.position ∧ s.position ≤ tokens.length ∧ Q s.position a :=
  (at_iff.mp h).2 a s hrun

theorem At.mono (h : At tokens p m Q) (hQ : ∀ q a, p ≤ q → Q q a → Q' q a) : At tokens p m Q' := by
  refine at_iff.mpr ⟨h.ne_panic, fun a s hrun => ?_⟩
  obtain ⟨htokens, hle, hlen, hq⟩ := h.ok hrun
  exact ⟨htokens, hle, hlen, hQ _ _ hle hq⟩

theorem At.bind {f : α → Parser τ ε β} {R : Nat → β → Prop} (h : At tokens p m Q)
    (hf : ∀ q a, p ≤ q → q ≤ tokens.length → Q q a → At tokens q (f a) R) : At tokens p (m >>= f) R := by
  refine at_iff.mpr ⟨bind_ne_panic h.ne_panic fun a s hrun => ?_, fun b s hrun => ?_⟩
  · obtain ⟨rfl, hle, hlen, hq⟩ := h.ok hrun
    exact (hf _ a hle hlen hq).ne_panic
  · obtain ⟨a, t, hfirst, hrest⟩ := bind_eq_ok.mp hrun
    obtain ⟨rfl, hle, hlen, hq⟩ := h.ok hfirst
    obtain ⟨htokens, hle', hlen', hr⟩ := (hf _ a hle hlen hq).ok hrest
    exact ⟨htokens, hle.trans hle', hlen', hr⟩

/-- A part that consumes a token, and what follows it. -/
theorem At.next {f : α → Parser τ ε β} {R : Nat → β → Prop} (h : At tokens p m fun q _ => p < q)
    (hf : ∀ q a, p < q → q ≤ tokens.length → At tokens q (f a) R) : At tokens p (m >>= f) R :=
  h.bind fun q a _ hq hlt => hf q a hlt hq

theorem at_pure {a : α} (hp : p ≤ tokens.length) (h : Q p a) : At tokens p (Pure.pure a : Parser τ ε α) Q :=
  ⟨rfl, le_rfl, hp, h⟩

/-- Something about the cursor, which stays where it is. -/
def look (f : Cursor τ → α) : Parser τ ε α := read fun c => .ok (f c)

theorem at_look_bind {f : Cursor τ → α} {k : α → Parser τ ε β} {R : Nat → β → Prop}
    (h : At tokens p (k (f ⟨tokens, p⟩)) R) : At tokens p (look f >>= k) R := h

theorem at_read {f : Cursor τ → Outcome ε α} (hp : p ≤ tokens.length) (hpanic : f ⟨tokens, p⟩ ≠ .panic)
    (h : ∀ a, f ⟨tokens, p⟩ = .ok a → Q p a) : At tokens p (read f) Q := by
  refine at_iff.mpr ⟨hpanic, fun a s hrun => ?_⟩
  obtain ⟨hok, rfl⟩ := Prod.mk.inj hrun
  exact ⟨rfl, le_rfl, hp, h a hok⟩

theorem at_fail {e : ε} : At tokens p (fail e : Parser τ ε α) Q := trivial

/-! ## Loops -/

/-- Items up to a closing token, with a separator after each but perhaps the last. Each
round takes a unit of fuel. -/
def separated (closes continues : Cursor τ → Bool) (separator : Parser τ ε Unit) (item : Parser τ ε α) :
    Nat → Parser τ ε (List α)
  | 0 => lift .panic
  | fuel + 1 => do
    let closed ← look closes
    if closed then Pure.pure []
    else do
      let first ← item
      let more ← look continues
      if more then do
        separator
        let rest ← separated closes continues separator item fuel
        Pure.pure (first :: rest)
      else Pure.pure [first]

/-- A loop whose items consume tokens ends, with enough fuel for every token. What
holds of an item from where it starts to where it stops must hold of every item. -/
theorem at_separated {closes continues : Cursor τ → Bool} {separator : Parser τ ε Unit} {item : Parser τ ε α}
    {R : Nat → Nat → α → Prop} (hitem : ∀ p ≤ tokens.length, At tokens p item fun q a => p < q ∧ R p q a)
    (hseparator : ∀ p ≤ tokens.length, At tokens p separator fun _ _ => True) {fuel : Nat} (hp : p ≤ tokens.length)
    (hfuel : tokens.length - p < fuel) :
    At tokens p (separated closes continues separator item fuel) fun q as =>
      ∀ a ∈ as, ∃ i j, p ≤ i ∧ j ≤ q ∧ R i j a := by
  induction fuel generalizing p with
  | zero => omega
  | succ fuel ih =>
    rw [separated]
    refine at_look_bind ?_
    cases closes ⟨tokens, p⟩ with
    | true => exact at_pure hp (by simp)
    | false =>
      refine (hitem p hp).bind fun q first hle hq hfirst => ?_
      obtain ⟨hlt, hfirst⟩ := hfirst
      refine at_look_bind ?_
      cases continues ⟨tokens, q⟩ with
      | false =>
        refine at_pure hq fun a ha => ?_
        obtain rfl := List.mem_singleton.mp ha
        exact ⟨p, q, le_rfl, le_rfl, hfirst⟩
      | true =>
        refine (hseparator q hq).bind fun r _ hqr hr _ => ?_
        refine (ih hr (by omega)).bind fun t rest hrt ht hrest => ?_
        refine at_pure ht (List.forall_mem_cons.mpr ⟨⟨p, q, le_rfl, by omega, hfirst⟩, fun a ha => ?_⟩)
        obtain ⟨i, j, hi, hj, hR⟩ := hrest a ha
        exact ⟨i, j, by omega, hj, hR⟩

end Descent
