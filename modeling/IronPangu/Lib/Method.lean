-- SUMMARY: Outcomes of calls that may fail or panic, and methods that run on a mutable receiver.
import Mathlib

/-!
# Fallible methods

A call returns a value, returns an error, or panics. A method also runs on a
receiver it may change, and what it has changed stays changed when it returns an
error: nothing here rolls a receiver back. Whether a failed call leaves its
receiver alone is therefore a property of the method, to be proved
(`Method.Atomic`).
-/

namespace Rust

/-! ## Checked arithmetic -/

/-- `u32::MAX`. -/
def u32Max : Nat := 4294967295

/-- `u64::MAX`. -/
def u64Max : Nat := 18446744073709551615

/-- `checked_add` in a type whose largest value is `max`. -/
def checkedAdd (max a b : Nat) : Option Nat :=
  if a + b ≤ max then some (a + b) else none

/-- `checked_mul` in a type whose largest value is `max`. -/
def checkedMul (max a b : Nat) : Option Nat :=
  if a * b ≤ max then some (a * b) else none

/-- `checked_sub` in an unsigned type. -/
def checkedSub (a b : Nat) : Option Nat :=
  if b ≤ a then some (a - b) else none

/-- `try_from` into a type whose largest value is `max`. -/
def tryFrom (max a : Nat) : Option Nat :=
  if a ≤ max then some a else none

@[simp] theorem tryFrom_eq_some {max a b : Nat} : tryFrom max a = some b ↔ a ≤ max ∧ a = b := by
  simp [tryFrom]

@[simp] theorem checkedAdd_eq_some {max a b c : Nat} :
    checkedAdd max a b = some c ↔ a + b ≤ max ∧ a + b = c := by
  simp [checkedAdd]

@[simp] theorem checkedMul_eq_some {max a b c : Nat} :
    checkedMul max a b = some c ↔ a * b ≤ max ∧ a * b = c := by
  simp [checkedMul]

@[simp] theorem checkedSub_eq_some {a b c : Nat} : checkedSub a b = some c ↔ b ≤ a ∧ a - b = c := by
  simp [checkedSub]

@[simp] theorem checkedAdd_eq_none {max a b : Nat} : checkedAdd max a b = none ↔ max < a + b := by
  simp [checkedAdd]

@[simp] theorem checkedMul_eq_none {max a b : Nat} : checkedMul max a b = none ↔ max < a * b := by
  simp [checkedMul]

/-! ## Outcomes -/

/-- What a call comes back with. -/
inductive Outcome (ε α : Type) where
  | ok (value : α)
  | err (error : ε)
  | panic
  deriving DecidableEq, Repr

/-! ## Lists matched one to one -/

section
variable {α β : Type} {R : α → β → Prop} {as : List α} {bs : List β}

theorem mem_of_forall₂ (h : List.Forall₂ R as bs) {b : β} (hb : b ∈ bs) : ∃ a ∈ as, R a b := by
  induction h with
  | nil => cases hb
  | cons hr _ ih =>
    rcases List.mem_cons.mp hb with rfl | hb
    · exact ⟨_, List.mem_cons_self, hr⟩
    · obtain ⟨a, ha, hab⟩ := ih hb
      exact ⟨a, List.mem_cons_of_mem _ ha, hab⟩

theorem pairwise_of_forall₂ {S : α → α → Prop} {T : β → β → Prop} (h : List.Forall₂ R as bs) (hS : as.Pairwise S)
    (hT : ∀ a b a' b', R a b → R a' b' → S a a' → T b b') : bs.Pairwise T := by
  induction h with
  | nil => exact .nil
  | cons hr hrest ih =>
    obtain ⟨hhead, htail⟩ := List.pairwise_cons.mp hS
    refine List.pairwise_cons.mpr ⟨fun b hb => ?_, ih htail⟩
    obtain ⟨a, ha, hab⟩ := mem_of_forall₂ hrest hb
    exact hT _ _ _ _ hr hab (hhead a ha)

end

namespace Outcome

variable {ε α β : Type}

def bind : Outcome ε α → (α → Outcome ε β) → Outcome ε β
  | .ok a, f => f a
  | .err e, _ => .err e
  | .panic, _ => .panic

instance : Monad (Outcome ε) where
  pure := .ok
  bind := bind

@[simp] theorem pure_eq (a : α) : (pure a : Outcome ε α) = .ok a := rfl
@[simp] theorem ok_bind (a : α) (f : α → Outcome ε β) : (Outcome.ok a >>= f) = f a := rfl
@[simp] theorem err_bind (e : ε) (f : α → Outcome ε β) : (Outcome.err e >>= f) = .err e := rfl
@[simp] theorem panic_bind (f : α → Outcome ε β) : ((Outcome.panic : Outcome ε α) >>= f) = .panic := rfl

def isErr : Outcome ε α → Bool
  | .err _ => true
  | .ok _ | .panic => false

/-- `Option::ok_or`. -/
def okOr (o : Option α) (e : ε) : Outcome ε α :=
  match o with
  | some a => .ok a
  | none => .err e

/-- `Option::unwrap`, and indexing a map or a slice. -/
def unwrap (o : Option α) : Outcome ε α :=
  match o with
  | some a => .ok a
  | none => .panic

@[simp] theorem okOr_some (a : α) (e : ε) : okOr (some a) e = .ok a := rfl
@[simp] theorem okOr_none (e : ε) : okOr (none : Option α) e = .err e := rfl
@[simp] theorem unwrap_some (a : α) : (unwrap (some a) : Outcome ε α) = .ok a := rfl
@[simp] theorem unwrap_none : (unwrap (none : Option α) : Outcome ε α) = .panic := rfl

/-- Unsigned subtraction, which panics below zero. -/
def sub (a b : Nat) : Outcome ε Nat :=
  if a < b then .panic else .ok (a - b)

/-- Integer division, which panics on a zero divisor. -/
def div (a b : Nat) : Outcome ε Nat :=
  if b = 0 then .panic else .ok (a / b)

/-- Integer remainder, which panics on a zero divisor. -/
def rem (a b : Nat) : Outcome ε Nat :=
  if b = 0 then .panic else .ok (a % b)

/-- `div_ceil`. -/
def divCeil (a b : Nat) : Outcome ε Nat :=
  if b = 0 then .panic else .ok ((a + b - 1) / b)

theorem sub_of_le {a b : Nat} (h : b ≤ a) : (sub a b : Outcome ε Nat) = .ok (a - b) :=
  if_neg (Nat.not_lt.mpr h)

theorem div_pos {a b : Nat} (hb : 0 < b) : (div a b : Outcome ε Nat) = .ok (a / b) :=
  if_neg hb.ne'

theorem rem_pos {a b : Nat} (hb : 0 < b) : (rem a b : Outcome ε Nat) = .ok (a % b) :=
  if_neg hb.ne'

theorem divCeil_pos {a b : Nat} (hb : 0 < b) :
    (divCeil a b : Outcome ε Nat) = .ok ((a + b - 1) / b) :=
  if_neg hb.ne'

/-- A bind returns a value exactly when both of its parts do. -/
theorem bind_eq_ok {x : Outcome ε α} {f : α → Outcome ε β} {b : β} :
    (x >>= f) = .ok b ↔ ∃ a, x = .ok a ∧ f a = .ok b := by
  cases x <;> simp

/-- A bind panics when a part of it that is reached does. -/
theorem bind_eq_panic {x : Outcome ε α} {f : α → Outcome ε β} :
    (x >>= f) = .panic ↔ x = .panic ∨ ∃ a, x = .ok a ∧ f a = .panic := by
  cases x <;> simp

/-- `bind_eq_ok` for a first part that is only a check. -/
theorem check_bind_eq_ok {x : Outcome ε Unit} {f : Unit → Outcome ε β} {b : β} :
    (x >>= f) = .ok b ↔ x = .ok () ∧ f () = .ok b := by
  cases x <;> simp

theorem check_bind_eq_panic {x : Outcome ε Unit} {f : Unit → Outcome ε β} :
    (x >>= f) = .panic ↔ x = .panic ∨ x = .ok () ∧ f () = .panic := by
  cases x <;> simp

@[simp] theorem unwrap_eq_ok {o : Option α} {a : α} :
    (unwrap o : Outcome ε α) = .ok a ↔ o = some a := by
  cases o <;> simp

@[simp] theorem unwrap_eq_panic {o : Option α} :
    (unwrap o : Outcome ε α) = .panic ↔ o = none := by
  cases o <;> simp

@[simp] theorem okOr_eq_ok {o : Option α} {e : ε} {a : α} : okOr o e = .ok a ↔ o = some a := by
  cases o <;> simp

@[simp] theorem okOr_ne_panic {o : Option α} {e : ε} : okOr o e ≠ .panic := by
  cases o <;> simp

/-- Run a loop that collects one result per element and stops at the first
    error. -/
def collect (f : α → Outcome ε β) : List α → Outcome ε (List β)
  | [] => .ok []
  | a :: as => do
    let b ← f a
    let bs ← collect f as
    .ok (b :: bs)

/-- A completed loop has one result per element, in order. -/
theorem collect_eq_ok {f : α → Outcome ε β} {as : List α} {bs : List β} :
    collect f as = .ok bs ↔ List.Forall₂ (fun a b => f a = .ok b) as bs := by
  induction as generalizing bs with
  | nil =>
    simp only [collect, Outcome.ok.injEq, List.forall₂_nil_left_iff]
    exact eq_comm
  | cons a as ih =>
    simp only [collect, bind_eq_ok, Outcome.ok.injEq, List.forall₂_cons_left_iff, ih]
    constructor
    · rintro ⟨b, hb, bs', hbs, rfl⟩
      exact ⟨b, bs', hb, hbs, rfl⟩
    · rintro ⟨b, bs', hb, hbs, rfl⟩
      exact ⟨b, hb, bs', hbs, rfl⟩

/-- Every element of a completed loop has its result. -/
theorem collect_mem {f : α → Outcome ε β} {as : List α} {bs : List β} (h : collect f as = .ok bs)
    {a : α} (ha : a ∈ as) : ∃ b ∈ bs, f a = .ok b := by
  have hall := collect_eq_ok.mp h
  clear h
  induction hall with
  | nil => cases ha
  | cons hhead _ ih =>
    rcases List.mem_cons.mp ha with rfl | ha
    · exact ⟨_, List.mem_cons_self, hhead⟩
    · obtain ⟨b, hb, hfb⟩ := ih ha
      exact ⟨b, List.mem_cons_of_mem _ hb, hfb⟩

theorem collect_mem_right {f : α → Outcome ε β} {as : List α} {bs : List β} (h : collect f as = .ok bs)
    {b : β} (hb : b ∈ bs) : ∃ a ∈ as, f a = .ok b :=
  mem_of_forall₂ (collect_eq_ok.mp h) hb

/-- A loop whose body always returns maps it. -/
theorem collect_eq_map {f : α → Outcome ε β} {g : α → β} {as : List α}
    (h : ∀ a ∈ as, f a = .ok (g a)) : collect f as = .ok (as.map g) := by
  induction as with
  | nil => rfl
  | cons a as ih =>
    rw [collect, h a List.mem_cons_self, ok_bind, ih fun x hx => h x (List.mem_cons_of_mem _ hx)]
    rfl

/-- Two loops whose bodies return the same values return the same list. -/
theorem collect_both {f g : α → Outcome ε β} {P : β → Prop} {as : List α}
    (h : ∀ a ∈ as, ∃ b, f a = .ok b ∧ g a = .ok b ∧ P b) :
    ∃ bs, collect f as = .ok bs ∧ collect g as = .ok bs ∧ ∀ b ∈ bs, P b := by
  induction as with
  | nil => exact ⟨[], rfl, rfl, by simp⟩
  | cons a as ih =>
    obtain ⟨b, hf, hg, hb⟩ := h a List.mem_cons_self
    obtain ⟨bs, hfs, hgs, hbs⟩ := ih fun x hx => h x (List.mem_cons_of_mem _ hx)
    refine ⟨b :: bs, ?_, ?_, List.forall_mem_cons.mpr ⟨hb, hbs⟩⟩
    · rw [collect, hf, ok_bind, hfs, ok_bind]
    · rw [collect, hg, ok_bind, hgs, ok_bind]

/-- A loop panics only where its body does. -/
theorem collect_ne_panic {f : α → Outcome ε β} {as : List α} (h : ∀ a ∈ as, f a ≠ .panic) :
    collect f as ≠ .panic := by
  induction as with
  | nil => simp [collect]
  | cons a as ih =>
    have htail : collect f as ≠ .panic := ih fun x hx => h x (List.mem_cons_of_mem _ hx)
    intro hpanic
    simp only [collect, bind_eq_panic] at hpanic
    rcases hpanic with hhead | ⟨b, -, hrest | ⟨bs, -, hdone⟩⟩
    · exact h a List.mem_cons_self hhead
    · exact htail hrest
    · cases hdone

/-- Two calls return the same values; their errors may differ. -/
def Agree {ε' : Type} (x : Outcome ε α) (y : Outcome ε' α) : Prop := ∀ a, x = .ok a ↔ y = .ok a

section
variable {ε' : Type} {x : Outcome ε α} {y : Outcome ε' α} {f : α → Outcome ε β} {g : α → Outcome ε' β}

theorem agree_ok (a : α) : Agree (.ok a : Outcome ε α) (.ok a : Outcome ε' α) := fun _ => by simp

theorem Agree.bind (h : Agree x y) (hf : ∀ a, x = .ok a → Agree (f a) (g a)) : Agree (x >>= f) (y >>= g) := by
  intro b
  rw [bind_eq_ok, bind_eq_ok]
  refine exists_congr fun a => ?_
  rw [← h a]
  exact and_congr_right fun ha => hf a ha b

/-- A refusal on both sides, on the same condition. -/
theorem agree_ite {P Q : Prop} [Decidable P] [Decidable Q] {e : ε} {e' : ε'} (hrefuse : P ↔ Q) (h : ¬P → Agree x y) :
    Agree (if P then .err e else x) (if Q then .err e' else y) := by
  intro a
  by_cases hP : P
  · rw [if_pos hP, if_pos (hrefuse.mp hP)]
    simp
  · rw [if_neg hP, if_neg (hrefuse.not.mp hP)]
    exact h hP a

end

end Outcome

/-! ## Methods -/

/-- A method on a receiver of type `σ`. -/
def Method (σ ε α : Type) : Type := σ → Outcome ε α × σ

namespace Method

variable {σ ε α β : Type}

def pure (a : α) : Method σ ε α := fun s => (.ok a, s)

def bind (m : Method σ ε α) (f : α → Method σ ε β) : Method σ ε β := fun s =>
  match m s with
  | (.ok a, s') => f a s'
  | (.err e, s') => (.err e, s')
  | (.panic, s') => (.panic, s')

instance : Monad (Method σ ε) where
  pure := pure
  bind := bind

/-- Evaluate on the receiver without changing it. -/
def read (f : σ → Outcome ε α) : Method σ ε α := fun s => (f s, s)

/-- The receiver itself. -/
def get : Method σ ε σ := read .ok

def modify (f : σ → σ) : Method σ ε Unit := fun s => (.ok (), f s)

def fail (e : ε) : Method σ ε α := fun s => (.err e, s)

/-- Lift an outcome that does not depend on the receiver. -/
def lift (o : Outcome ε α) : Method σ ε α := fun s => (o, s)

/-- A call whose error is kept for later. -/
def attempt (m : Method σ ε α) : Method σ ε (Outcome ε α) := fun s =>
  match m s with
  | (.panic, s') => (.panic, s')
  | (o, s') => (.ok o, s')

/-- `if !condition { return Err(e); }` -/
def require (condition : σ → Bool) (e : ε) : Method σ ε Unit :=
  read fun s => if condition s then .ok () else .err e

/-- `for a in as { body(a)?; }` -/
def forEach : List α → (α → Method σ ε Unit) → Method σ ε Unit
  | [], _ => pure ()
  | a :: as, body => do
    body a
    forEach as body

@[simp] theorem pure_run (a : α) (s : σ) : (Pure.pure a : Method σ ε α) s = (.ok a, s) := rfl

theorem bind_run (m : Method σ ε α) (f : α → Method σ ε β) (s : σ) :
    (m >>= f) s =
      match m s with
      | (.ok a, s') => f a s'
      | (.err e, s') => (.err e, s')
      | (.panic, s') => (.panic, s') := rfl

@[simp] theorem read_run (f : σ → Outcome ε α) (s : σ) : read f s = (f s, s) := rfl
@[simp] theorem get_run (s : σ) : (get : Method σ ε σ) s = (.ok s, s) := rfl
@[simp] theorem modify_run (f : σ → σ) (s : σ) : (modify f : Method σ ε Unit) s = (.ok (), f s) := rfl
@[simp] theorem fail_run (e : ε) (s : σ) : (fail e : Method σ ε α) s = (.err e, s) := rfl
@[simp] theorem lift_run (o : Outcome ε α) (s : σ) : lift o s = (o, s) := rfl

theorem require_run {condition : σ → Bool} {e : ε} {s : σ} (h : condition s = true) :
    require condition e s = (.ok (), s) := by
  rw [require, read_run, if_pos h]

/-- The first part of a bind returns a value: the rest runs from where it left
    the receiver. -/
theorem bind_ok {m : Method σ ε α} {f : α → Method σ ε β} {s s' : σ} {a : α}
    (h : m s = (.ok a, s')) : (m >>= f) s = f a s' := by
  rw [bind_run, h]

/-- The first part of a bind fails: so does the bind. -/
theorem bind_err {m : Method σ ε α} {f : α → Method σ ε β} {s s' : σ} {e : ε}
    (h : m s = (.err e, s')) : (m >>= f) s = (.err e, s') := by
  rw [bind_run, h]

theorem read_bind_ok {g : σ → Outcome ε α} {f : α → Method σ ε β} {s : σ} {a : α} (h : g s = .ok a) :
    (read g >>= f) s = f a s :=
  bind_ok (congrArg (·, s) h)

theorem read_bind_err {g : σ → Outcome ε α} {f : α → Method σ ε β} {s : σ} {e : ε} (h : g s = .err e) :
    (read g >>= f) s = (.err e, s) :=
  bind_err (congrArg (·, s) h)

/-- A bind returns a value exactly when both of its parts do. -/
theorem bind_eq_ok {m : Method σ ε α} {f : α → Method σ ε β} {s t : σ} {b : β} :
    (m >>= f) s = (.ok b, t) ↔ ∃ a u, m s = (.ok a, u) ∧ f a u = (.ok b, t) := by
  rw [bind_run]
  rcases m s with ⟨_ | _ | _, u⟩ <;> simp

/-- A bind panics when a part of it that is reached does. -/
theorem bind_eq_panic {m : Method σ ε α} {f : α → Method σ ε β} {s : σ} :
    ((m >>= f) s).1 = .panic ↔
      (m s).1 = .panic ∨ ∃ a u, m s = (.ok a, u) ∧ (f a u).1 = .panic := by
  rw [bind_run]
  rcases m s with ⟨_ | _ | _, u⟩ <;> simp

theorem read_bind_eq_ok {g : σ → Outcome ε α} {f : α → Method σ ε β} {s t : σ} {b : β} :
    (read g >>= f) s = (.ok b, t) ↔ ∃ a, g s = .ok a ∧ f a s = (.ok b, t) := by
  simp [bind_eq_ok]

theorem get_bind_eq_ok {f : σ → Method σ ε β} {s t : σ} {b : β} :
    (get >>= f) s = (.ok b, t) ↔ f s s = (.ok b, t) := by
  simp [bind_eq_ok]

theorem lift_bind_eq_ok {o : Outcome ε α} {f : α → Method σ ε β} {s t : σ} {b : β} :
    (lift o >>= f) s = (.ok b, t) ↔ ∃ a, o = .ok a ∧ f a s = (.ok b, t) := by
  simp [bind_eq_ok]

theorem modify_bind_eq_ok {g : σ → σ} {f : Unit → Method σ ε β} {s t : σ} {b : β} :
    (modify g >>= f) s = (.ok b, t) ↔ f () (g s) = (.ok b, t) :=
  Iff.rfl

/-- A bind does not panic when its first part does not, nor its second part where
    the first leaves the receiver. -/
theorem bind_ne_panic {m : Method σ ε α} {f : α → Method σ ε β} {s : σ} (hm : (m s).1 ≠ .panic)
    (hf : ∀ a t, m s = (.ok a, t) → (f a t).1 ≠ .panic) : ((m >>= f) s).1 ≠ .panic := by
  intro hpanic
  rcases bind_eq_panic.mp hpanic with hpanic | ⟨a, t, hrun, hpanic⟩
  · exact hm hpanic
  · exact hf a t hrun hpanic

theorem read_bind_ne_panic {g : σ → Outcome ε α} {f : α → Method σ ε β} {s : σ}
    (hg : g s ≠ .panic) (hf : ∀ a, g s = .ok a → (f a s).1 ≠ .panic) :
    ((read g >>= f) s).1 ≠ .panic := by
  refine bind_ne_panic hg fun a t hrun => ?_
  obtain ⟨hga, rfl⟩ := Prod.mk.inj hrun
  exact hf a hga

theorem lift_bind_ne_panic {o : Outcome ε α} {f : α → Method σ ε β} {s : σ}
    (ho : o ≠ .panic) (hf : ∀ a, o = .ok a → (f a s).1 ≠ .panic) :
    ((lift o >>= f) s).1 ≠ .panic :=
  read_bind_ne_panic (g := fun _ => o) ho hf

theorem get_bind_ne_panic {f : σ → Method σ ε β} {s : σ} (hf : (f s s).1 ≠ .panic) :
    ((get >>= f) s).1 ≠ .panic :=
  hf

theorem modify_bind_ne_panic {g : σ → σ} {f : Unit → Method σ ε β} {s : σ}
    (hf : (f () (g s)).1 ≠ .panic) : ((modify g >>= f) s).1 ≠ .panic :=
  hf

/-- Handing on the result of a call adds no panic. -/
theorem bind_pure_ne_panic {m : Method σ ε α} {f : α → β} {s : σ} (hm : (m s).1 ≠ .panic) :
    ((m >>= fun a => Pure.pure (f a)) s).1 ≠ .panic :=
  bind_ne_panic hm fun _ _ _ hpanic => by cases hpanic

theorem fail_ne_panic {e : ε} {s : σ} : ((fail e : Method σ ε α) s).1 ≠ .panic := by
  simp

theorem pure_ne_panic {a : α} {s : σ} : ((Pure.pure a : Method σ ε α) s).1 ≠ .panic := by
  simp

/-- A loop whose body always comes back is a fold over its elements. -/
theorem forEach_run {body : α → Method σ ε Unit} {g : σ → α → σ} {I : σ → List α → Prop}
    (hbody : ∀ a as s, I s (a :: as) → body a s = (.ok (), g s a) ∧ I (g s a) as) :
    ∀ (as : List α) (s : σ), I s as → forEach as body s = (.ok (), as.foldl g s)
  | [], _, _ => rfl
  | a :: as, s, hs => by
    obtain ⟨hrun, hnext⟩ := hbody a as s hs
    have hrest := forEach_run hbody as (g s a) hnext
    rw [forEach, bind_ok hrun, hrest, List.foldl_cons]

/-! ## Failed calls that leave the receiver alone -/

/-- An error leaves the receiver as it was. -/
def Atomic (m : Method σ ε α) : Prop :=
  ∀ s e s', m s = (.err e, s') → s' = s

/-- No outcome changes the receiver. -/
def ReadOnly (m : Method σ ε α) : Prop :=
  ∀ s, (m s).2 = s

/-- No outcome is an error. -/
def Infallible (m : Method σ ε α) : Prop :=
  ∀ s e s', m s ≠ (.err e, s')

theorem ReadOnly.atomic {m : Method σ ε α} (h : ReadOnly m) : Atomic m := by
  intro s e s' hrun
  have := h s
  rwa [hrun] at this

theorem Infallible.atomic {m : Method σ ε α} (h : Infallible m) : Atomic m :=
  fun s e s' hrun => absurd hrun (h s e s')

theorem readOnly_pure (a : α) : ReadOnly (Pure.pure a : Method σ ε α) := fun _ => rfl
theorem readOnly_read (f : σ → Outcome ε α) : ReadOnly (read f) := fun _ => rfl
theorem readOnly_get : ReadOnly (get : Method σ ε σ) := fun _ => rfl
theorem readOnly_fail (e : ε) : ReadOnly (fail e : Method σ ε α) := fun _ => rfl
theorem readOnly_lift (o : Outcome ε α) : ReadOnly (lift o : Method σ ε α) := fun _ => rfl

theorem infallible_pure (a : α) : Infallible (Pure.pure a : Method σ ε α) := by
  intro s e s' h
  simp at h

theorem infallible_modify (f : σ → σ) : Infallible (modify f : Method σ ε Unit) := by
  intro s e s' h
  simp at h

theorem infallible_unwrap (f : σ → Option α) :
    Infallible (read fun s => (Outcome.unwrap (f s) : Outcome ε α)) := by
  intro s e s' h
  simp only [read_run] at h
  cases hf : f s <;> simp [hf] at h

theorem ReadOnly.bind {m : Method σ ε α} {f : α → Method σ ε β}
    (hm : ReadOnly m) (hf : ∀ a, ReadOnly (f a)) : ReadOnly (m >>= f) := by
  intro s
  have hs := hm s
  rw [bind_run]
  rcases h : m s with ⟨_ | _ | _, s'⟩ <;> rw [h] at hs <;> simp only at hs ⊢
  · rw [hf, hs]
  · exact hs
  · exact hs

/-- Checks that change nothing may come before an atomic rest. -/
theorem Atomic.bind {m : Method σ ε α} {f : α → Method σ ε β}
    (hm : ReadOnly m) (hf : ∀ a, Atomic (f a)) : Atomic (m >>= f) := by
  intro s e s' hrun
  have hs := hm s
  rw [bind_run] at hrun
  rcases h : m s with ⟨_ | _ | _, t⟩ <;> rw [h] at hs hrun <;> simp only at hs hrun
  · rw [hf _ _ _ _ hrun, hs]
  · obtain ⟨-, rfl⟩ := Prod.mk.inj hrun
    exact hs
  · cases hrun

/-- Changes may come after the last step that can fail. -/
theorem Atomic.bind_infallible {m : Method σ ε α} {f : α → Method σ ε β}
    (hm : Atomic m) (hf : ∀ a, Infallible (f a)) : Atomic (m >>= f) := by
  intro s e s' hrun
  rw [bind_run] at hrun
  rcases h : m s with ⟨_ | _ | _, t⟩ <;> rw [h] at hrun <;> simp only at hrun
  · exact absurd hrun (hf _ _ _ _)
  · obtain ⟨-, rfl⟩ := Prod.mk.inj hrun
    exact hm _ _ _ h
  · cases hrun

theorem Infallible.bind {m : Method σ ε α} {f : α → Method σ ε β}
    (hm : Infallible m) (hf : ∀ a, Infallible (f a)) : Infallible (m >>= f) := by
  intro s e s' hrun
  rw [bind_run] at hrun
  rcases h : m s with ⟨_ | _ | _, t⟩ <;> rw [h] at hrun <;> simp only at hrun
  · exact hf _ _ _ _ hrun
  · exact hm _ _ _ h
  · cases hrun

theorem Infallible.forEach {body : α → Method σ ε Unit} (h : ∀ a, Infallible (body a)) :
    ∀ as : List α, Infallible (forEach as body)
  | [] => infallible_pure ()
  | a :: as => Infallible.bind (h a) fun _ => Infallible.forEach h as

/-! ## What every outcome keeps -/

/-- A relation between receivers that may be followed step by step. -/
class Steps (R : σ → σ → Prop) : Prop where
  refl : ∀ s, R s s
  trans : ∀ {s t u}, R s t → R t u → R s u

/-- Whatever the outcome, the receiver is left related to where it was. -/
def Keeps (R : σ → σ → Prop) (m : Method σ ε α) : Prop := ∀ s, R s (m s).2

section

variable {R : σ → σ → Prop}

theorem keeps_modify {f : σ → σ} (h : ∀ s, R s (f s)) : Keeps R (modify f : Method σ ε Unit) := h

theorem Keeps.attempt {m : Method σ ε α} (hm : Keeps R m) : Keeps R (attempt m) := by
  intro s
  have hs := hm s
  unfold Method.attempt
  rcases h : m s with ⟨_ | _ | _, t⟩ <;> rw [h] at hs <;> exact hs

theorem Keeps.mono {Q : σ → σ → Prop} {m : Method σ ε α} (h : Keeps R m)
    (hle : ∀ s t, R s t → Q s t) : Keeps Q m := fun s => hle _ _ (h s)

variable [Steps R]

theorem ReadOnly.keeps {m : Method σ ε α} (h : ReadOnly m) : Keeps R m := fun s => by
  rw [h s]
  exact Steps.refl s

theorem keeps_pure (a : α) : Keeps R (Pure.pure a : Method σ ε α) := (readOnly_pure a).keeps
theorem keeps_read (f : σ → Outcome ε α) : Keeps R (read f) := (readOnly_read f).keeps
theorem keeps_get : Keeps R (get : Method σ ε σ) := readOnly_get.keeps
theorem keeps_fail (e : ε) : Keeps R (fail e : Method σ ε α) := (readOnly_fail e).keeps
theorem keeps_lift (o : Outcome ε α) : Keeps R (lift o : Method σ ε α) := (readOnly_lift o).keeps
theorem keeps_require (condition : σ → Bool) (e : ε) : Keeps R (require condition e) := keeps_read _

theorem Keeps.bind {m : Method σ ε α} {f : α → Method σ ε β} (hm : Keeps R m)
    (hf : ∀ a, Keeps R (f a)) : Keeps R (m >>= f) := by
  intro s
  have hs := hm s
  rw [bind_run]
  rcases h : m s with ⟨a | _ | _, t⟩ <;> rw [h] at hs
  · exact Steps.trans hs (hf a t)
  · exact hs
  · exact hs

theorem Keeps.forEach {body : α → Method σ ε Unit} (h : ∀ a, Keeps R (body a)) :
    ∀ as : List α, Keeps R (forEach as body)
  | [] => keeps_pure ()
  | a :: as => (h a).bind fun _ => Keeps.forEach h as

end

end Method

end Rust
