-- SUMMARY: Run-length encoding of a list: pushing at the end, unrolling, uniqueness of the canonical encoding, and prefixes.
import Mathlib

/-!
# Run lengths

A list is written as runs of equal elements. Runs are canonical when each is
nonempty and neighbours differ; a list has exactly one canonical encoding, so an
encoder, and whatever cuts encodings, is determined by what it unrolls to.
-/

namespace RunLength

variable {α : Type} {rs ss : List (α × Nat)} {a b : α} {n k : Nat}

/-- The list that runs stand for. -/
def unroll (rs : List (α × Nat)) : List α := rs.flatMap fun r => List.replicate r.2 r.1

/-- Runs that are nonempty and as long as they can be. -/
structure Canonical (rs : List (α × Nat)) : Prop where
  positive : ∀ r ∈ rs, 0 < r.2
  maximal : rs.IsChain fun r s => r.1 ≠ s.1

@[simp] theorem unroll_nil : unroll ([] : List (α × Nat)) = [] := rfl

@[simp] theorem unroll_cons : unroll ((a, n) :: rs) = List.replicate n a ++ unroll rs := rfl

theorem unroll_append : unroll (rs ++ ss) = unroll rs ++ unroll ss := List.flatMap_append

theorem canonical_nil : Canonical ([] : List (α × Nat)) := ⟨by simp, .nil⟩

theorem Canonical.tail (h : Canonical ((a, n) :: rs)) : Canonical rs :=
  ⟨fun r hr => h.positive r (List.mem_cons_of_mem _ hr), h.maximal.tail⟩

/-- What follows a maximal run does not continue it. -/
theorem Canonical.head?_unroll_ne (h : Canonical ((a, n) :: rs)) : (unroll rs).head? ≠ some a := by
  cases rs with
  | nil => simp
  | cons r rs =>
    obtain ⟨b, m⟩ := r
    have hm : 0 < m := h.positive (b, m) (by simp)
    have hne : a ≠ b := by simpa using (List.isChain_cons_cons.mp h.maximal).1
    obtain ⟨m, rfl⟩ := Nat.exists_eq_add_of_lt hm
    simpa [List.replicate_succ] using Ne.symm hne

/-- Where a block of equal elements ends is determined when nothing continues
    it. -/
theorem replicate_append_inj {m : Nat} {xs ys : List α} (hx : xs.head? ≠ some a)
    (hy : ys.head? ≠ some a) (h : List.replicate n a ++ xs = List.replicate m a ++ ys) :
    n = m ∧ xs = ys := by
  induction n generalizing m with
  | zero =>
    cases m with
    | zero => exact ⟨rfl, h⟩
    | succ m =>
      simp only [List.replicate_zero, List.nil_append, List.replicate_succ, List.cons_append] at h
      simp [h] at hx
  | succ n ih =>
    cases m with
    | zero =>
      simp only [List.replicate_zero, List.nil_append, List.replicate_succ, List.cons_append] at h
      simp [← h] at hy
    | succ m =>
      simp only [List.replicate_succ, List.cons_append, List.cons.injEq, true_and] at h
      obtain ⟨rfl, rfl⟩ := ih h
      exact ⟨rfl, rfl⟩

/-- A list has one canonical encoding. -/
theorem unroll_injective (hr : Canonical rs) (hs : Canonical ss) (h : unroll rs = unroll ss) :
    rs = ss := by
  induction rs generalizing ss with
  | nil =>
    cases ss with
    | nil => rfl
    | cons s ss =>
      have hpos := hs.positive s List.mem_cons_self
      have hlen := congrArg List.length h
      simp [unroll] at hlen
      omega
  | cons r rs ih =>
    obtain ⟨a, n⟩ := r
    have hn : 0 < n := hr.positive (a, n) List.mem_cons_self
    cases ss with
    | nil =>
      have hlen := congrArg List.length h
      simp [unroll] at hlen
      omega
    | cons s ss =>
      obtain ⟨b, m⟩ := s
      have hm : 0 < m := hs.positive (b, m) List.mem_cons_self
      -- The first runs begin with the same element, so they are the same run.
      have hhead : a = b := by
        have := congrArg List.head? h
        obtain ⟨n, rfl⟩ := Nat.exists_eq_add_of_lt hn
        obtain ⟨m, rfl⟩ := Nat.exists_eq_add_of_lt hm
        simpa [List.replicate_succ] using this
      subst hhead
      obtain ⟨rfl, hrest⟩ := replicate_append_inj hr.head?_unroll_ne hs.head?_unroll_ne h
      rw [ih hr.tail hs.tail hrest]

/-! ## Encoding -/

section

variable [DecidableEq α]

/-- Add an element at the end. -/
def push (rs : List (α × Nat)) (a : α) : List (α × Nat) :=
  match rs.getLast? with
  | some (b, n) => if b = a then rs.dropLast ++ [(b, n + 1)] else rs ++ [(a, 1)]
  | none => [(a, 1)]

def encode (as : List α) : List (α × Nat) := as.foldl push []

theorem push_nil : push [] a = [(a, 1)] := rfl

theorem push_concat :
    push (rs ++ [(b, n)]) a = if b = a then rs ++ [(b, n + 1)] else rs ++ [(b, n)] ++ [(a, 1)] := by
  simp [push]

theorem unroll_push : unroll (push rs a) = unroll rs ++ [a] := by
  cases rs using List.reverseRecOn with
  | nil => rfl
  | append_singleton rs r =>
    obtain ⟨b, n⟩ := r
    rw [push_concat]
    split
    · rename_i hrun
      subst hrun
      simp [unroll_append, List.replicate_succ']
    · simp [unroll_append]

theorem canonical_push (h : Canonical rs) : Canonical (push rs a) := by
  cases rs using List.reverseRecOn with
  | nil => exact ⟨by simp [push_nil], .singleton _⟩
  | append_singleton rs r =>
    obtain ⟨b, n⟩ := r
    rw [push_concat]
    split
    · refine ⟨?_, ?_⟩
      · intro r hr
        rcases List.mem_append.mp hr with hr | hr
        · exact h.positive r (List.mem_append_left _ hr)
        · obtain rfl := List.mem_singleton.mp hr
          exact Nat.succ_pos n
      · rw [List.isChain_append]
        have hchain := List.isChain_append.mp h.maximal
        exact ⟨hchain.1, .singleton _, fun x hx y hy => by
          obtain rfl := by simpa using hy
          exact hchain.2.2 x hx (b, n) rfl⟩
    · rename_i hne
      refine ⟨?_, ?_⟩
      · intro r hr
        rcases List.mem_append.mp hr with hr | hr
        · exact h.positive r hr
        · obtain rfl := List.mem_singleton.mp hr
          exact Nat.one_pos
      · rw [List.isChain_append]
        refine ⟨h.maximal, .singleton _, fun x hx y hy => ?_⟩
        obtain rfl : (b, n) = x := by simpa using hx
        obtain rfl : (a, 1) = y := by simpa using hy
        exact hne

theorem unroll_encode_append (as : List α) :
    unroll (as.foldl push rs) = unroll rs ++ as := by
  induction as generalizing rs with
  | nil => simp
  | cons a as ih => rw [List.foldl_cons, ih, unroll_push, List.append_assoc]; rfl

theorem unroll_encode (as : List α) : unroll (encode as) = as := by
  rw [encode, unroll_encode_append as]
  rfl

theorem canonical_encode (as : List α) : Canonical (encode as) := by
  induction as using List.reverseRecOn with
  | nil => exact canonical_nil
  | append_singleton as a ih =>
    rw [encode, List.foldl_append]
    exact canonical_push ih

/-- Encoding loses nothing. -/
theorem encode_injective {as bs : List α} (h : encode as = encode bs) : as = bs := by
  rw [← unroll_encode as, h, unroll_encode]

theorem encode_concat (as : List α) (a : α) : encode (as ++ [a]) = push (encode as) a := by
  rw [encode, List.foldl_append]
  rfl

end

/-! ## Prefixes -/

/-- The runs of the first `k` elements. -/
def takeRuns : Nat → List (α × Nat) → List (α × Nat)
  | 0, _ => []
  | _, [] => []
  | k + 1, (a, n) :: rs => if k + 1 ≤ n then [(a, k + 1)] else (a, n) :: takeRuns (k + 1 - n) rs

@[simp] theorem takeRuns_zero : takeRuns 0 rs = [] := by
  cases rs <;> rfl

@[simp] theorem takeRuns_nil : takeRuns k ([] : List (α × Nat)) = [] := by
  cases k <;> rfl

/-- The cut falls within the first run. -/
theorem takeRuns_cut (hk : 0 < k) (h : k ≤ n) : takeRuns k ((a, n) :: rs) = [(a, k)] := by
  obtain ⟨k, rfl⟩ := Nat.exists_eq_add_of_lt hk
  simp only [Nat.zero_add] at h ⊢
  rw [takeRuns, if_pos h]

/-- The cut falls after the first run. -/
theorem takeRuns_past (h : n < k) : takeRuns k ((a, n) :: rs) = (a, n) :: takeRuns (k - n) rs := by
  obtain ⟨k, rfl⟩ := Nat.exists_eq_add_of_lt (Nat.lt_of_le_of_lt (Nat.zero_le _) h)
  simp only [Nat.zero_add] at h ⊢
  rw [takeRuns, if_neg (Nat.not_le.mpr h)]

theorem unroll_takeRuns (k : Nat) (rs : List (α × Nat)) : unroll (takeRuns k rs) = (unroll rs).take k := by
  induction rs generalizing k with
  | nil => simp
  | cons r rs ih =>
    obtain ⟨a, n⟩ := r
    rcases Nat.eq_zero_or_pos k with rfl | hk
    · simp
    · rcases Nat.lt_or_ge n k with h | h
      · have hall : (List.replicate n a).take k = List.replicate n a :=
          List.take_of_length_le (by simpa using h.le)
        rw [takeRuns_past h, unroll_cons, unroll_cons, ih, List.take_append, List.length_replicate, hall]
      · rw [takeRuns_cut hk h, unroll_cons, unroll_cons, unroll_nil, List.append_nil,
          List.take_append_of_le_length (by simpa using h), List.take_replicate, Nat.min_eq_left h]

theorem head?_takeRuns {r : α × Nat} (h : (takeRuns k rs).head? = some r) :
    ∃ m, rs.head? = some (r.1, m) := by
  cases rs with
  | nil => simp at h
  | cons s rs =>
    obtain ⟨a, n⟩ := s
    rcases Nat.eq_zero_or_pos k with rfl | hk
    · simp at h
    · rcases Nat.lt_or_ge n k with hlt | hle
      · rw [takeRuns_past hlt] at h
        obtain rfl := by simpa using h
        exact ⟨n, rfl⟩
      · rw [takeRuns_cut hk hle] at h
        obtain rfl := by simpa using h
        exact ⟨n, rfl⟩

theorem canonical_takeRuns (h : Canonical rs) (k : Nat) : Canonical (takeRuns k rs) := by
  induction rs generalizing k with
  | nil => simpa using h
  | cons r rs ih =>
    obtain ⟨a, n⟩ := r
    rcases Nat.eq_zero_or_pos k with rfl | hk
    · simpa using canonical_nil
    · rcases Nat.lt_or_ge n k with hlt | hle
      · rw [takeRuns_past hlt]
        have htail := ih h.tail (k - n)
        refine ⟨?_, ?_⟩
        · rw [List.forall_mem_cons]
          exact ⟨h.positive (a, n) List.mem_cons_self, htail.positive⟩
        · rw [List.isChain_cons]
          refine ⟨fun r hr => ?_, htail.maximal⟩
          obtain ⟨m, hm⟩ := head?_takeRuns hr
          exact (List.isChain_cons.mp h.maximal).1 (r.1, m) hm
      · rw [takeRuns_cut hk hle]
        exact ⟨by simpa using hk, .singleton _⟩

/-- Cutting an encoding is encoding the cut list. -/
theorem encode_take [DecidableEq α] (as : List α) (k : Nat) :
    encode (as.take k) = takeRuns k (encode as) := by
  refine unroll_injective (canonical_encode _) (canonical_takeRuns (canonical_encode as) k) ?_
  rw [unroll_encode, unroll_takeRuns, unroll_encode]

end RunLength
