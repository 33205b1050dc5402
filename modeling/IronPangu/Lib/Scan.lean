-- SUMMARY: Linear scans: the common prefix of two lists, and taking the element with a given key out of a list.
import Mathlib

/-!
# Scans

The number of leading elements two lists share, as code counts it and as a
statement about prefixes; and lists of elements that are told apart by a key.
-/

namespace Scan

variable {α : Type} [DecidableEq α] {as bs pre : List α} {a b : α} {k : Nat}

/-- `a.iter().zip(b).take_while(|(a, b)| a == b).count()` -/
def common (as bs : List α) : Nat := ((as.zip bs).takeWhile fun p => p.1 == p.2).length

@[simp] theorem common_nil : common [] bs = 0 := rfl

@[simp] theorem common_nil_right : common as [] = 0 := by
  simp [common]

@[simp] theorem common_cons_self : common (a :: as) (a :: bs) = common as bs + 1 := by
  simp [common]

theorem common_cons_ne (h : a ≠ b) : common (a :: as) (b :: bs) = 0 := by
  simp [common, h]

theorem common_append (pre as bs : List α) :
    common (pre ++ as) (pre ++ bs) = pre.length + common as bs := by
  induction pre with
  | nil => simp
  | cons a pre ih =>
    rw [List.cons_append, List.cons_append, common_cons_self, ih, List.length_cons]
    omega

/-- The lists split at their common prefix. -/
theorem common_split (as bs : List α) :
    ∃ pre as' bs' : List α, as = pre ++ as' ∧ bs = pre ++ bs' ∧ pre.length = common as bs ∧
      ∀ a b, as'.head? = some a → bs'.head? = some b → a ≠ b := by
  induction as generalizing bs with
  | nil => exact ⟨[], [], bs, rfl, rfl, rfl, by simp⟩
  | cons a as ih =>
    cases bs with
    | nil => exact ⟨[], a :: as, [], rfl, rfl, by simp, by simp⟩
    | cons b bs =>
      by_cases hab : a = b
      · subst hab
        obtain ⟨pre, as', bs', has, hbs, hlen, hne⟩ := ih bs
        exact ⟨a :: pre, as', bs', by rw [has]; rfl, by rw [hbs]; rfl, by simp [hlen], hne⟩
      · refine ⟨[], a :: as, b :: bs, rfl, rfl, (common_cons_ne hab).symm, ?_⟩
        simpa using hab

/-- The lists share a prefix of just the lengths up to their common prefix. -/
theorem le_common_iff :
    k ≤ common as bs ↔ ∃ pre : List α, pre.length = k ∧ pre <+: as ∧ pre <+: bs := by
  constructor
  · intro hk
    obtain ⟨pre, as', bs', rfl, rfl, hlen, -⟩ := common_split as bs
    have hpre : pre.take k <+: pre := List.take_prefix k pre
    exact ⟨pre.take k, by rw [List.length_take]; omega, hpre.trans (List.prefix_append _ _),
      hpre.trans (List.prefix_append _ _)⟩
  · rintro ⟨pre, rfl, ⟨as', rfl⟩, ⟨bs', rfl⟩⟩
    rw [common_append]
    exact Nat.le_add_right _ _

theorem common_le_left : common as bs ≤ as.length := by
  obtain ⟨pre, hlen, hpre, -⟩ := le_common_iff.mp (Nat.le_refl (common as bs))
  exact hlen ▸ hpre.length_le

/-- The lists part within the first one, so what comes after it does not matter. -/
theorem common_append_left (h : common as bs < as.length) (cs : List α) :
    common (as ++ cs) bs = common as bs := by
  induction as generalizing bs with
  | nil => cases h
  | cons a as ih =>
    cases bs with
    | nil => simp
    | cons b bs =>
      by_cases hab : a = b
      · subst hab
        rw [common_cons_self, List.length_cons] at h
        rw [List.cons_append, common_cons_self, common_cons_self, ih (Nat.lt_of_succ_lt_succ h)]
      · rw [List.cons_append, common_cons_ne hab, common_cons_ne hab]

/-- The whole of the first list is shared exactly when it is a prefix. -/
theorem common_eq_length_iff : common as bs = as.length ↔ as <+: bs := by
  constructor
  · intro h
    obtain ⟨pre, hlen, has, hbs⟩ := le_common_iff.mp (Nat.le_refl (common as bs))
    rwa [has.eq_of_length (hlen.trans h)] at hbs
  · rintro h
    exact Nat.le_antisymm common_le_left (le_common_iff.mpr ⟨as, rfl, List.prefix_refl as, h⟩)

/-! ## Keyed elements -/

section

variable {β κ : Type} [DecidableEq κ] {f : β → κ} {bs : List β} {b : β}

/-- Scanning a key out of a list takes out its one element. -/
theorem perm_cons_filter_ne (hnodup : (bs.map f).Nodup) (hb : b ∈ bs) :
    bs.Perm (b :: bs.filter fun x => f x ≠ f b) := by
  induction bs with
  | nil => cases hb
  | cons x xs ih =>
    obtain ⟨hx, hxs⟩ := List.nodup_cons.mp hnodup
    rcases List.mem_cons.mp hb with rfl | hmem
    · have hrest : xs.filter (fun x => f x ≠ f b) = xs :=
        List.filter_eq_self.mpr fun x hmem => by
          have hne : f x ≠ f b := fun heq => hx (heq ▸ List.mem_map_of_mem hmem)
          simpa using hne
      rw [List.filter_cons_of_neg (by simp), hrest]
    · have hne : f x ≠ f b := fun heq => hx (heq ▸ List.mem_map_of_mem hmem)
      rw [List.filter_cons_of_pos (by simpa using hne)]
      exact ((ih hxs hmem).cons x).trans (List.Perm.swap _ _ _)

end

end Scan
