-- SUMMARY: Decoders of byte strings: reading back what was written, and that a frame read cannot be cut short.
import IronPangu.Lib.Method

open Rust Method

/-!
# Decoders

A decoder takes bytes off the front of the input. `Reads` is about the bytes of one
value: the decoder returns it exactly when a condition holds, and leaves the rest.
`Framed` is about any input: what a decoder has taken is enough, and no part of it is.
-/

namespace Decoding

abbrev Decoder (ε α : Type) : Type := Method (List UInt8) ε α

variable {ε α β γ : Type} {m : Decoder ε α} {f : α → Decoder ε β} {bytes bytes' tail rest : List UInt8} {P P' : Prop}
  {a : α} {b : β}

/-- The next byte, or an error at the end. -/
def byte (e : ε) : Decoder ε UInt8 := fun input =>
  match input with
  | [] => (.err e, [])
  | c :: rest => (.ok c, rest)

def times (m : Decoder ε α) : Nat → Decoder ε (List α)
  | 0 => Pure.pure []
  | n + 1 => do
    let a ← m
    let as ← times m n
    Pure.pure (a :: as)

/-- Refuse unless a condition holds. -/
def check (p : Prop) [Decidable p] (e : ε) : Decoder ε Unit := if p then Pure.pure () else fail e

/-! ## Reading back -/

/-- The bytes are those of `a`; they are accepted when `P` holds. -/
structure Reads (m : Decoder ε α) (bytes : List UInt8) (P : Prop) (a : α) : Prop where
  accepts : P → ∀ tail, m (bytes ++ tail) = (.ok a, tail)
  only : ∀ tail a' rest, m (bytes ++ tail) = (.ok a', rest) → P

theorem reads_pure : Reads (Pure.pure a : Decoder ε α) [] True a :=
  ⟨fun _ _ => rfl, fun _ _ _ _ => trivial⟩

theorem Reads.congr (h : Reads m bytes P a) (hP : P ↔ P') : Reads m bytes P' a := by
  rw [← propext hP]
  exact h

theorem Reads.bind (h : Reads m bytes P a) (hf : P → Reads (f a) bytes' P' b) : Reads (m >>= f) (bytes ++ bytes') (P ∧ P') b where
  accepts hP tail := by
    rw [List.append_assoc, bind_ok (h.accepts hP.1 _)]
    exact (hf hP.1).accepts hP.2 tail
  only tail b' rest hrun := by
    rw [List.append_assoc] at hrun
    obtain ⟨a', rest', hfirst, hrest⟩ := bind_eq_ok.mp hrun
    have hP := h.only _ _ _ hfirst
    obtain ⟨ha, hrest'⟩ := Prod.mk.inj ((h.accepts hP _).symm.trans hfirst)
    obtain rfl := Outcome.ok.inj ha
    obtain rfl := hrest'
    exact ⟨hP, (hf hP).only _ _ _ hrest⟩

/-- A last step that only builds the value. -/
theorem Reads.map {g : α → β} (h : Reads m bytes P a) : Reads (m >>= fun a => Pure.pure (g a)) bytes P (g a) := by
  have hbind := h.bind (f := fun a => Pure.pure (g a)) fun _ => reads_pure
  rw [List.append_nil, and_true] at hbind
  exact hbind

theorem reads_check {p : Prop} [Decidable p] {e : ε} : Reads (check p e) [] p () where
  accepts hp _ := by
    rw [check, if_pos hp]
    rfl
  only tail a' rest hrun := by
    rw [check] at hrun
    split at hrun
    · assumption
    · cases hrun

/-- A check, and what follows it. -/
theorem Reads.afterCheck {p : Prop} [Decidable p] {e : ε} {f : Unit → Decoder ε β} (hf : p → Reads (f ()) bytes P b) :
    Reads (check p e >>= f) bytes (p ∧ P) b :=
  reads_check.bind hf

/-- A last step that takes no bytes. -/
theorem Reads.last (h : Reads m bytes P a) (hf : P → Reads (f a) [] P' b) : Reads (m >>= f) bytes (P ∧ P') b := by
  have hbind := h.bind hf
  rwa [List.append_nil] at hbind

theorem reads_byte {e : ε} {c : UInt8} : Reads (byte e) [c] True c :=
  ⟨fun _ _ => rfl, fun _ _ _ _ => trivial⟩

/-- A list of values, one after another. -/
theorem reads_times {as : List γ} {write : γ → List UInt8} {Q : γ → Prop} {value : γ → α}
    (h : ∀ c ∈ as, Reads m (write c) (Q c) (value c)) :
    Reads (times m as.length) (as.flatMap write) (∀ c ∈ as, Q c) (as.map value) := by
  induction as with
  | nil => exact reads_pure.congr (by simp)
  | cons c as ih =>
    rw [List.flatMap_cons, List.map_cons, List.length_cons, times]
    refine ((h c List.mem_cons_self).bind fun _ => ?_).congr List.forall_mem_cons.symm
    exact (ih fun c hc => h c (List.mem_cons_of_mem _ hc)).map

/-! ## The only value of some bytes -/

/-- On these bytes, whatever follows them, the decoder returns no other value, and leaves what follows. -/
def Yields (m : Decoder ε α) (bytes : List UInt8) (a : α) : Prop :=
  ∀ tail a' rest, m (bytes ++ tail) = (.ok a', rest) → a' = a ∧ rest = tail

theorem Reads.yields (h : Reads m bytes P a) : Yields m bytes a := by
  intro tail a' rest hrun
  obtain ⟨ha, hrest⟩ := Prod.mk.inj ((h.accepts (h.only tail a' rest hrun) tail).symm.trans hrun)
  exact ⟨(Outcome.ok.inj ha).symm, hrest.symm⟩

theorem yields_pure : Yields (Pure.pure a : Decoder ε α) [] a := reads_pure.yields

theorem Yields.bind (h : Yields m bytes a) (hf : Yields (f a) bytes' b) : Yields (m >>= f) (bytes ++ bytes') b := by
  intro tail b' rest hrun
  rw [List.append_assoc] at hrun
  obtain ⟨a', rest', hfirst, hrest⟩ := bind_eq_ok.mp hrun
  obtain ⟨rfl, rfl⟩ := h _ _ _ hfirst
  exact hf _ _ _ hrest

/-- A last step that takes no bytes. -/
theorem Yields.last (h : Yields m bytes a) (hf : Yields (f a) [] b) : Yields (m >>= f) bytes b := by
  have hbind := h.bind hf
  rwa [List.append_nil] at hbind

/-- A check, and what follows it. -/
theorem Yields.afterCheck {p : Prop} [Decidable p] {e : ε} {f : Unit → Decoder ε β} (hf : p → Yields (f ()) bytes b) :
    Yields (check p e >>= f) bytes b := by
  intro tail b' rest hrun
  obtain ⟨⟨⟩, rest', hcheck, hrest⟩ := bind_eq_ok.mp hrun
  rw [check] at hcheck
  split at hcheck
  · rename_i hp
    obtain ⟨-, rfl⟩ := Prod.mk.inj hcheck
    exact hf hp _ _ _ hrest
  · cases hcheck

theorem yields_times {as : List γ} {write : γ → List UInt8} {value : γ → α}
    (h : ∀ c ∈ as, Yields m (write c) (value c)) : Yields (times m as.length) (as.flatMap write) (as.map value) := by
  induction as with
  | nil => exact yields_pure
  | cons c as ih =>
    rw [List.flatMap_cons, List.map_cons, List.length_cons, times]
    refine (h c List.mem_cons_self).bind ?_
    exact (ih fun c hc => h c (List.mem_cons_of_mem _ hc)).last yields_pure

/-! ## Writers that mark their own end -/

/-- Two written values of the domain that start the same bytes are equal, and end at the same place. -/
def Delimits (write : γ → List UInt8) (dom : γ → Prop) : Prop :=
  ∀ c c' tail tail', dom c → dom c' → write c ++ tail = write c' ++ tail' → c = c' ∧ tail = tail'

theorem Delimits.list {write : γ → List UInt8} {dom : γ → Prop} (h : Delimits write dom) {cs cs' : List γ}
    (hcs : ∀ c ∈ cs, dom c) (hcs' : ∀ c ∈ cs', dom c) (hlength : cs.length = cs'.length)
    (hsame : cs.flatMap write ++ tail = cs'.flatMap write ++ rest) : cs = cs' ∧ tail = rest := by
  induction cs generalizing cs' with
  | nil =>
    obtain rfl := List.length_eq_zero_iff.mp hlength.symm
    exact ⟨rfl, hsame⟩
  | cons c cs ih =>
    cases cs' with
    | nil => cases hlength
    | cons c' cs' =>
      obtain ⟨hc, hrest⟩ := List.forall_mem_cons.mp hcs
      obtain ⟨hc', hrest'⟩ := List.forall_mem_cons.mp hcs'
      rw [List.flatMap_cons, List.flatMap_cons, List.append_assoc, List.append_assoc] at hsame
      obtain ⟨rfl, hnext⟩ := h _ _ _ _ hc hc' hsame
      obtain ⟨rfl, rfl⟩ := ih hrest hrest' (Nat.succ.inj hlength) hnext
      exact ⟨rfl, rfl⟩

theorem delimits_of_reads {write : γ → List UInt8} {dom : γ → Prop} {value : γ → α} (hvalue : Function.Injective value)
    (h : ∀ c, dom c → Reads m (write c) True (value c)) : Delimits write dom := by
  intro c c' tail tail' hc hc' hsame
  have hrun := (h c hc).accepts trivial tail
  rw [hsame, (h c' hc').accepts trivial tail'] at hrun
  obtain ⟨hsame, htail⟩ := Prod.mk.inj hrun
  exact ⟨(hvalue (Outcome.ok.inj hsame)).symm, htail.symm⟩

/-! ## Frames -/

/-- Where the decoder returns a value, the bytes it has taken give the value whatever
follows them, and no shorter part of them gives any. -/
def Framed (m : Decoder ε α) : Prop :=
  ∀ input a rest, m input = (.ok a, rest) → ∃ used, input = used ++ rest ∧ (∀ tail, m (used ++ tail) = (.ok a, tail)) ∧
    ∀ first second, used = first ++ second → second ≠ [] → ∀ b rest, m first ≠ (.ok b, rest)

theorem framed_pure : Framed (Pure.pure a : Decoder ε α) := by
  intro input a' rest hrun
  obtain ⟨ha, rfl⟩ := Prod.mk.inj hrun
  cases ha
  refine ⟨[], rfl, fun _ => rfl, fun first second happend hne => ?_⟩
  exact absurd (List.append_eq_nil_iff.mp happend.symm).2 hne

theorem framed_fail {e : ε} : Framed (fail e : Decoder ε α) := by
  intro input a rest hrun
  cases hrun

theorem Framed.bind (h : Framed m) (hf : ∀ a, Framed (f a)) : Framed (m >>= f) := by
  intro input b rest hrun
  obtain ⟨a, middle, hfirst, hsecond⟩ := bind_eq_ok.mp hrun
  obtain ⟨used, rfl, hused, hshort⟩ := h input a middle hfirst
  obtain ⟨used', rfl, hused', hshort'⟩ := hf a middle b rest hsecond
  refine ⟨used ++ used', (List.append_assoc _ _ _).symm, fun tail => ?_, fun first second happend hne b' rest' hcut => ?_⟩
  · rw [List.append_assoc, bind_ok (hused _), hused']
  · obtain ⟨a', rest'', hcut, hcut'⟩ := bind_eq_ok.mp hcut
    -- The cut is in what the first part takes, or in what the second does.
    rcases List.append_eq_append_iff.mp happend with ⟨more, rfl, rfl⟩ | ⟨more, rfl, rfl⟩
    · rw [hused] at hcut
      obtain ⟨ha, rfl⟩ := Prod.mk.inj hcut
      cases ha
      exact hshort' _ _ rfl hne _ _ hcut'
    · by_cases hmore : more = []
      · subst hmore
        rw [List.append_nil] at hused
        have hempty := hused []
        rw [List.append_nil] at hempty
        rw [hempty] at hcut
        obtain ⟨ha, rfl⟩ := Prod.mk.inj hcut
        cases ha
        exact hshort' [] _ rfl hne _ _ hcut'
      · exact hshort _ _ rfl hmore _ _ hcut

/-- What a framed decoder takes whole it does not take shortened, nor with bytes behind it. -/
theorem Framed.whole (h : Framed m) {input : List UInt8} (hrun : m input = (.ok a, [])) :
    (∀ first second b, input = first ++ second → second ≠ [] → m first ≠ (.ok b, [])) ∧
      ∀ tail b, tail ≠ [] → m (input ++ tail) ≠ (.ok b, []) := by
  obtain ⟨used, hinput, hused, hshort⟩ := h input a [] hrun
  rw [List.append_nil] at hinput
  subst hinput
  refine ⟨fun first second b happend hne => hshort first second happend hne b [], fun tail b hne hmore => ?_⟩
  exact hne (Prod.mk.inj ((hused tail).symm.trans hmore)).2

theorem framed_byte {e : ε} : Framed (byte e) := by
  intro input a rest hrun
  cases input with
  | nil => cases hrun
  | cons c input =>
    obtain ⟨ha, rfl⟩ := Prod.mk.inj hrun
    cases ha
    refine ⟨[a], rfl, fun _ => rfl, fun first second happend hne b rest hcut => ?_⟩
    cases first with
    | nil => cases hcut
    | cons _ first => exact hne (List.append_eq_nil_iff.mp (List.cons.inj happend).2.symm).2

theorem framed_check {p : Prop} [Decidable p] {e : ε} : Framed (check p e) := by
  rw [check]
  split
  · exact framed_pure
  · exact framed_fail

theorem framed_times (h : Framed m) (n : Nat) : Framed (times m n) := by
  induction n with
  | zero => exact framed_pure
  | succ n ih => exact h.bind fun _ => ih.bind fun _ => framed_pure

/-! ## Little-endian numbers -/

def leBytes : Nat → Nat → List UInt8
  | 0, _ => []
  | width + 1, n => UInt8.ofNat (n % 256) :: leBytes width (n / 256)

/-- A number of so many bytes, the lowest first. -/
def number (e : ε) : Nat → Decoder ε Nat
  | 0 => Pure.pure 0
  | width + 1 => do
    let c ← byte e
    let n ← number e width
    Pure.pure (c.toNat + 256 * n)

theorem reads_number {e : ε} {width n : Nat} (hn : n < 256 ^ width) : Reads (number e width) (leBytes width n) True n := by
  induction width generalizing n with
  | zero =>
    obtain rfl : n = 0 := by simpa using hn
    exact reads_pure
  | succ width ih =>
    have hrest : n / 256 < 256 ^ width := by
      rw [pow_succ] at hn
      exact Nat.div_lt_of_lt_mul (by rwa [Nat.mul_comm])
    have hvalue : (UInt8.ofNat (n % 256)).toNat + 256 * (n / 256) = n := by
      rw [UInt8.toNat_ofNat', Nat.mod_mod, Nat.mod_add_div]
    have hreads : Reads (number e (width + 1)) ([UInt8.ofNat (n % 256)] ++ leBytes width (n / 256)) (True ∧ True)
        ((UInt8.ofNat (n % 256)).toNat + 256 * (n / 256)) := reads_byte.bind fun _ => (ih hrest).map
    rw [hvalue, and_true] at hreads
    exact hreads

/-- `to_le_bytes` of a `u32`, after a cast. -/
def u32Bytes (n : Nat) : List UInt8 := leBytes 4 (n % 4294967296)

theorem reads_u32Bytes {e : ε} {n : Nat} (hn : n < 4294967296) : Reads (number e 4) (u32Bytes n) True n := by
  rw [u32Bytes, Nat.mod_eq_of_lt hn]
  exact reads_number hn

theorem framed_number {e : ε} (width : Nat) : Framed (number e width) := by
  induction width with
  | zero => exact framed_pure
  | succ width ih => exact framed_byte.bind fun _ => ih.bind fun _ => framed_pure

end Decoding
