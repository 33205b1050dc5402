-- SUMMARY: Association lists kept in the order of their keys: lookup, insertion, and extensionality.
import Mathlib

/-!
# Sorted association lists

An ordered map as the list of its entries. It serves where the values are trees
that hold such maps themselves, which a map type cannot be nested in. Sorted lists
with the same entries are equal.
-/

namespace SortedAssoc

variable {κ ν : Type} [LinearOrder κ] {k k' : κ} {v v' : ν} {kv : κ × ν} {l l' : List (κ × ν)}

/-- The keys increase. -/
def Sorted (l : List (κ × ν)) : Prop := l.Pairwise fun a b => a.1 < b.1

def find (k : κ) : List (κ × ν) → Option ν
  | [] => none
  | (k', v) :: l => if k' = k then some v else find k l

/-- Add an entry at its place, or replace the one that has its key. -/
def insert (k : κ) (v : ν) : List (κ × ν) → List (κ × ν)
  | [] => [(k, v)]
  | (k', v') :: l =>
    if k < k' then (k, v) :: (k', v') :: l
    else if k = k' then (k, v) :: l
    else (k', v') :: insert k v l

/-! ## Lookup -/

theorem mem_of_find (h : find k l = some v) : (k, v) ∈ l := by
  induction l with
  | nil => cases h
  | cons kv l ih =>
    obtain ⟨k', v'⟩ := kv
    rw [find] at h
    split at h
    · rename_i hkey
      subst hkey
      obtain rfl := Option.some.inj h
      exact List.mem_cons_self
    · exact List.mem_cons_of_mem _ (ih h)

theorem find_eq_none : find k l = none ↔ ∀ v, (k, v) ∉ l := by
  induction l with
  | nil => simp [find]
  | cons kv l ih =>
    obtain ⟨k', v'⟩ := kv
    rw [find]
    split
    · rename_i hkey
      subst hkey
      simp only [reduceCtorEq, false_iff, not_forall, not_not]
      exact ⟨v', List.mem_cons_self⟩
    · rename_i hkey
      simp [ih, Ne.symm hkey]

/-- A key has one entry. -/
theorem Sorted.eq_of_mem (hl : Sorted l) (h : (k, v) ∈ l) (h' : (k, v') ∈ l) : v = v' := by
  induction l with
  | nil => cases h
  | cons kv l ih =>
    obtain ⟨hhead, htail⟩ := List.pairwise_cons.mp hl
    rcases List.mem_cons.mp h with hkv | hmem
    · rcases List.mem_cons.mp h' with hkv' | hmem'
      · exact (Prod.mk.inj (hkv.trans hkv'.symm)).2
      · subst hkv
        exact absurd (hhead (k, v') hmem') (lt_irrefl k)
    · rcases List.mem_cons.mp h' with hkv' | hmem'
      · subst hkv'
        exact absurd (hhead (k, v) hmem) (lt_irrefl k)
      · exact ih htail hmem hmem'

theorem Sorted.find_eq_some (hl : Sorted l) : find k l = some v ↔ (k, v) ∈ l := by
  refine ⟨mem_of_find, fun h => ?_⟩
  cases hfind : find k l with
  | none => exact absurd h (find_eq_none.mp hfind v)
  | some v' => rw [hl.eq_of_mem h (mem_of_find hfind)]

/-! ## Insertion -/

theorem Sorted.mem_insert (hl : Sorted l) :
    kv ∈ insert k v l ↔ kv = (k, v) ∨ kv.1 ≠ k ∧ kv ∈ l := by
  induction l with
  | nil => simp [insert]
  | cons entry l ih =>
    obtain ⟨k', v'⟩ := entry
    obtain ⟨hhead, htail⟩ := List.pairwise_cons.mp hl
    rw [insert]
    split
    · -- Every key here is above the new one.
      rename_i hlt
      have hne : kv ∈ (k', v') :: l → kv.1 ≠ k := by
        intro hkv
        rcases List.mem_cons.mp hkv with rfl | hkv
        · exact hlt.ne'
        · exact (hlt.trans (hhead kv hkv)).ne'
      rw [List.mem_cons]
      exact or_congr_right ⟨fun hkv => ⟨hne hkv, hkv⟩, And.right⟩
    · split
      · rename_i hkey
        subst hkey
        have hne : kv ∈ l → kv.1 ≠ k := fun hkv => (hhead kv hkv).ne'
        rw [List.mem_cons, List.mem_cons]
        constructor
        · rintro (rfl | hkv)
          · exact .inl rfl
          · exact .inr ⟨hne hkv, .inr hkv⟩
        · rintro (rfl | ⟨hkv, rfl | hmem⟩)
          · exact .inl rfl
          · exact absurd rfl hkv
          · exact .inr hmem
      · rename_i hkey
        rw [List.mem_cons, ih htail, List.mem_cons]
        constructor
        · rintro (rfl | rfl | ⟨hkv, hmem⟩)
          · exact .inr ⟨Ne.symm hkey, .inl rfl⟩
          · exact .inl rfl
          · exact .inr ⟨hkv, .inr hmem⟩
        · rintro (rfl | ⟨hkv, rfl | hmem⟩)
          · exact .inr (.inl rfl)
          · exact .inl rfl
          · exact .inr (.inr ⟨hkv, hmem⟩)

theorem Sorted.insert (hl : Sorted l) (k : κ) (v : ν) : Sorted (insert k v l) := by
  induction l with
  | nil => exact List.pairwise_singleton _ _
  | cons entry l ih =>
    obtain ⟨k', v'⟩ := entry
    obtain ⟨hhead, htail⟩ := List.pairwise_cons.mp hl
    rw [SortedAssoc.insert]
    split
    · rename_i hlt
      refine List.pairwise_cons.mpr ⟨fun kv hkv => ?_, hl⟩
      rcases List.mem_cons.mp hkv with rfl | hkv
      · exact hlt
      · exact hlt.trans (hhead kv hkv)
    · split
      · rename_i hkey
        subst hkey
        exact List.pairwise_cons.mpr ⟨hhead, htail⟩
      · rename_i hge hkey
        refine List.pairwise_cons.mpr ⟨fun kv hkv => ?_, ih htail⟩
        rcases (Sorted.mem_insert htail).mp hkv with rfl | ⟨-, hkv⟩
        · exact lt_of_le_of_ne (not_lt.mp hge) (Ne.symm hkey)
        · exact hhead kv hkv

/-- A sum over the values gains the new one and loses the one it replaces. -/
theorem Sorted.sum_insert (hl : Sorted l) (f : ν → Nat) :
    ((SortedAssoc.insert k v l).map fun kv => f kv.2).sum + ((find k l).map f).getD 0 =
      (l.map fun kv => f kv.2).sum + f v := by
  induction l with
  | nil => simp [SortedAssoc.insert, find]
  | cons entry l ih =>
    obtain ⟨k', v'⟩ := entry
    obtain ⟨hhead, htail⟩ := List.pairwise_cons.mp hl
    rw [SortedAssoc.insert]
    split
    · rename_i hlt
      have hnone : find k ((k', v') :: l) = none := by
        rw [find_eq_none]
        intro v hv
        rcases List.mem_cons.mp hv with hkv | hv
        · exact absurd (Prod.mk.inj hkv).1 hlt.ne
        · exact absurd (hlt.trans (hhead _ hv)) (lt_irrefl _)
      rw [hnone]
      simp only [Option.map_none, Option.getD_none, List.map_cons, List.sum_cons]
      omega
    · split
      · rename_i hkey
        subst hkey
        simp only [find, if_true, Option.map_some, Option.getD_some, List.map_cons, List.sum_cons]
        omega
      · rename_i hkey
        have hrest := ih htail
        simp only [find, if_neg (Ne.symm hkey), List.map_cons, List.sum_cons]
        omega

/-- Sorted lists with the same entries are equal. -/
theorem Sorted.ext (hl : Sorted l) (hl' : Sorted l') (h : ∀ kv, kv ∈ l ↔ kv ∈ l') : l = l' := by
  have hperm : l.Perm l' :=
    (List.perm_ext_iff_of_nodup (hl.imp fun hlt heq => hlt.ne (congrArg Prod.fst heq))
      (hl'.imp fun hlt heq => hlt.ne (congrArg Prod.fst heq))).mpr h
  exact hperm.eq_of_pairwise (fun a b _ _ hab hba => absurd (hab.trans hba) (lt_irrefl _)) hl hl'

end SortedAssoc
