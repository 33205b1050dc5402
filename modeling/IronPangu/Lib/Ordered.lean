-- SUMMARY: What an insertion, an update or a removal does to the entry list of an ordered map or set.
import Mathlib

/-!
# Entry lists of ordered maps and sets

Sums and partitions over a container are stated over its entry list. The lemmas
here say, up to reordering, how each update changes that list, so that a proof
about an update never has to look at where in the order the entry stands.
-/

namespace Std

/-- Comparing by two fields, one after the other, is lawful when the two fields
    determine the value. -/
theorem lawfulEqCmp_compareLex {α β γ : Type} [Ord β] [Ord γ] [LawfulEqOrd β] [LawfulEqOrd γ]
    {f : α → β} {g : α → γ} (h : ∀ a b, f a = f b → g a = g b → a = b) :
    LawfulEqCmp (compareLex (compareOn f) (compareOn g)) where
  compare_self := by
    intro a
    simp [compareLex, compareOn]
  eq_of_compare := by
    intro a b hab
    simp only [compareLex, compareOn, Ordering.then_eq_eq, LawfulEqCmp.compare_eq_iff_eq] at hab
    exact h a b hab.1 hab.2

end Std

namespace Std.ExtTreeMap

variable {κ β γ : Type} {cmp : κ → κ → Ordering} [TransCmp cmp] [LawfulEqCmp cmp]
variable {t : ExtTreeMap κ β cmp} {k : κ} {v w : β}

theorem nodup_toList (t : ExtTreeMap κ β cmp) : t.toList.Nodup := by
  refine List.Pairwise.imp ?_ t.distinct_keys_toList
  rintro a b hne rfl
  exact hne ReflCmp.compare_self

theorem toList_perm_iff {l : List (κ × β)} (hl : l.Nodup) :
    t.toList.Perm l ↔ ∀ k v, t[k]? = some v ↔ (k, v) ∈ l := by
  rw [List.perm_ext_iff_of_nodup t.nodup_toList hl]
  simp only [Prod.forall, mem_toList_iff_getElem?_eq_some]

/-- A new entry joins the list. -/
theorem toList_insert_perm (h : t[k]? = none) : (t.insert k v).toList.Perm ((k, v) :: t.toList) := by
  have hnew : ∀ v', (k, v') ∉ t.toList := by
    intro v' hmem
    rw [mem_toList_iff_getElem?_eq_some, h] at hmem
    cases hmem
  rw [toList_perm_iff (List.nodup_cons.mpr ⟨hnew v, t.nodup_toList⟩)]
  intro k' v'
  rw [List.mem_cons, mem_toList_iff_getElem?_eq_some, getElem?_insert]
  by_cases hk : cmp k k' = .eq
  · obtain rfl := LawfulEqCmp.eq_of_compare hk
    rw [if_pos hk, h]
    simp [eq_comm]
  · rw [if_neg hk]
    have hne : k' ≠ k := fun heq => hk (heq ▸ ReflCmp.compare_self)
    simp [hne]

/-- A removed entry leaves the list. -/
theorem toList_erase_perm (h : t[k]? = some v) : t.toList.Perm ((k, v) :: (t.erase k).toList) := by
  have hgone : (k, v) ∉ (t.erase k).toList := by
    rw [mem_toList_iff_getElem?_eq_some, getElem?_erase_self]
    simp
  rw [toList_perm_iff (List.nodup_cons.mpr ⟨hgone, (t.erase k).nodup_toList⟩)]
  intro k' v'
  rw [List.mem_cons, mem_toList_iff_getElem?_eq_some, getElem?_erase]
  by_cases hk : cmp k k' = .eq
  · obtain rfl := LawfulEqCmp.eq_of_compare hk
    rw [if_pos hk, h]
    simp [eq_comm]
  · rw [if_neg hk]
    have hne : k' ≠ k := fun heq => hk (heq ▸ ReflCmp.compare_self)
    simp [hne]

theorem size_insert_of_none (h : t[k]? = none) : (t.insert k v).size = t.size + 1 := by
  rw [← length_toList, (toList_insert_perm h).length_eq, List.length_cons, length_toList]

theorem size_erase_of_some (h : t[k]? = some v) : t.size = (t.erase k).size + 1 := by
  rw [← length_toList, (toList_erase_perm h).length_eq, List.length_cons, length_toList]

theorem getElem?_insert_ne {k' : κ} (h : k ≠ k') : (t.insert k v)[k']? = t[k']? := by
  rw [getElem?_insert, if_neg]
  exact fun heq => h (LawfulEqCmp.eq_of_compare heq)

theorem getElem?_erase_ne {k' : κ} (h : k ≠ k') : (t.erase k)[k']? = t[k']? := by
  rw [getElem?_erase, if_neg]
  exact fun heq => h (LawfulEqCmp.eq_of_compare heq)

theorem getElem?_erase_eq_some {k' : κ} :
    (t.erase k)[k']? = some v ↔ k ≠ k' ∧ t[k']? = some v := by
  by_cases h : k = k'
  · subst h
    simp
  · rw [getElem?_erase_ne h]
    simp [h]

theorem getElem?_insert_eq_some {k' : κ} :
    (t.insert k v)[k']? = some w ↔ (k = k' ∧ v = w) ∨ (k ≠ k' ∧ t[k']? = some w) := by
  by_cases h : k = k'
  · subst h
    simp
  · rw [getElem?_insert_ne h]
    simp [h]

/-- What is found in a map made from a list stands in the list. -/
theorem mem_of_getElem?_ofList {l : List (κ × β)} (h : (ExtTreeMap.ofList l cmp)[k]? = some v) :
    (k, v) ∈ l := by
  rw [ExtTreeMap.ofList_eq_insertMany_empty] at h
  have hinsert : ∀ (l : List (κ × β)) (t : ExtTreeMap κ β cmp), (t.insertMany l)[k]? = some v →
      t[k]? = some v ∨ (k, v) ∈ l := by
    intro l
    induction l with
    | nil => exact fun t h => .inl h
    | cons e l ih =>
      intro t h
      rw [ExtTreeMap.insertMany_cons] at h
      rcases ih _ h with h | h
      · rcases getElem?_insert_eq_some.mp h with ⟨hk, hv⟩ | ⟨-, h⟩
        · exact .inr (by rw [← hk, ← hv]; exact List.mem_cons_self)
        · exact .inl h
      · exact .inr (List.mem_cons_of_mem _ h)
  rcases hinsert l ∅ h with h | h
  · simp at h
  · exact h

theorem getElem?_modify_ne {f : β → β} {k' : κ} (h : k ≠ k') : (t.modify k f)[k']? = t[k']? := by
  rw [getElem?_modify, if_neg]
  exact fun heq => h (LawfulEqCmp.eq_of_compare heq)

theorem getElem?_modify_eq_some {f : β → β} {k' : κ} :
    (t.modify k f)[k']? = some w ↔
      (k = k' ∧ ∃ v, t[k]? = some v ∧ f v = w) ∨ (k ≠ k' ∧ t[k']? = some w) := by
  by_cases h : k = k'
  · subst h
    simp [getElem?_modify_self, Option.map_eq_some_iff]
  · rw [getElem?_modify_ne h]
    simp [h]

/-- Updating the other fields of an entry does not change what is projected from
    the entries. -/
theorem toList_map_modify {f : β → β} {g : β → γ} (h : ∀ b, g (f b) = g b) :
    (t.modify k f).toList.map (fun e => (e.1, g e.2)) = t.toList.map (fun e => (e.1, g e.2)) := by
  have hmap : (t.modify k f).map (fun _ b => g b) = t.map (fun _ b => g b) := by
    refine ext_getElem? fun k' => ?_
    rw [getElem?_map, getElem?_map]
    by_cases hk : k = k'
    · subst hk
      rw [getElem?_modify_self, Option.map_map]
      exact congrArg (Option.map · _) (funext h)
    · rw [getElem?_modify_ne hk]
  simpa only [toList_map] using congrArg toList hmap

/-- Two maps whose entries project to the same lookups project to the same
    list. -/
theorem toList_map_congr {t u : ExtTreeMap κ β cmp} {g : β → γ}
    (h : ∀ k : κ, (t[k]?).map g = (u[k]?).map g) :
    t.toList.map (fun e => (e.1, g e.2)) = u.toList.map (fun e => (e.1, g e.2)) := by
  have hmap : t.map (fun _ b => g b) = u.map (fun _ b => g b) := by
    refine ext_getElem? fun k => ?_
    rw [getElem?_map, getElem?_map, h]
  simpa only [toList_map] using congrArg toList hmap

/-- Update the entries of a list of keys, one after the other. -/
def modifyAll (t : ExtTreeMap κ β cmp) (ks : List κ) (f : β → β) : ExtTreeMap κ β cmp :=
  ks.foldl (fun t k => t.modify k f) t

theorem getElem?_modifyAll_of_notMem {f : β → β} {ks : List κ} {k' : κ} (h : k' ∉ ks) :
    (t.modifyAll ks f)[k']? = t[k']? := by
  induction ks generalizing t with
  | nil => rfl
  | cons k ks ih =>
    rw [List.mem_cons, not_or] at h
    have hstep : t.modifyAll (k :: ks) f = (t.modify k f).modifyAll ks f := rfl
    rw [hstep, ih h.2, getElem?_modify_ne (Ne.symm h.1)]

theorem getElem?_modifyAll_of_mem {f : β → β} {ks : List κ} {k' : κ} (hks : ks.Nodup)
    (h : k' ∈ ks) : (t.modifyAll ks f)[k']? = (t[k']?).map f := by
  induction ks generalizing t with
  | nil => cases h
  | cons k ks ih =>
    rw [List.nodup_cons] at hks
    have hstep : t.modifyAll (k :: ks) f = (t.modify k f).modifyAll ks f := rfl
    rw [hstep]
    rcases List.mem_cons.mp h with rfl | hmem
    · rw [getElem?_modifyAll_of_notMem hks.1, getElem?_modify_self]
    · have hne : k ≠ k' := fun heq => hks.1 (heq ▸ hmem)
      rw [ih hks.2 hmem, getElem?_modify_ne hne]

theorem getElem?_modifyAll_eq_some {f : β → β} {ks : List κ} {k' : κ} (hks : ks.Nodup) :
    (t.modifyAll ks f)[k']? = some w ↔
      (k' ∈ ks ∧ ∃ v, t[k']? = some v ∧ f v = w) ∨ (k' ∉ ks ∧ t[k']? = some w) := by
  by_cases h : k' ∈ ks
  · simp [getElem?_modifyAll_of_mem hks h, h, Option.map_eq_some_iff]
  · simp [getElem?_modifyAll_of_notMem h, h]

/-- Updating the other fields of entries does not change what is projected from
    the entries. -/
theorem toList_map_modifyAll {f : β → β} {g : β → γ} (h : ∀ b, g (f b) = g b) (ks : List κ) :
    (t.modifyAll ks f).toList.map (fun e => (e.1, g e.2)) =
      t.toList.map (fun e => (e.1, g e.2)) := by
  induction ks generalizing t with
  | nil => rfl
  | cons k ks ih => exact ih.trans (toList_map_modify h)

/-- Some entry at a key satisfies `P` after an update when the updated entry
    does. -/
theorem exists_modify {f : β → β} {k' : κ} {P : β → Prop} [Decidable (k = k')] :
    (∃ w, (t.modify k f)[k']? = some w ∧ P w) ↔
      ∃ v, t[k']? = some v ∧ P (if k = k' then f v else v) := by
  by_cases h : k = k'
  · subst h
    simp [getElem?_modify_self, Option.map_eq_some_iff]
  · simp [getElem?_modify_ne h, h]

theorem exists_modifyAll {f : β → β} {ks : List κ} (hks : ks.Nodup) {k' : κ} {P : β → Prop}
    [Decidable (k' ∈ ks)] :
    (∃ w, (t.modifyAll ks f)[k']? = some w ∧ P w) ↔
      ∃ v, t[k']? = some v ∧ P (if k' ∈ ks then f v else v) := by
  by_cases h : k' ∈ ks
  · simp [getElem?_modifyAll_of_mem hks h, h, Option.map_eq_some_iff]
  · simp [getElem?_modifyAll_of_notMem h, h]

/-- What stands at a key after an update. -/
theorem getElem?_modify_of_some {f : β → β} {k' : κ} [Decidable (k = k')] (h : t[k']? = some v) :
    (t.modify k f)[k']? = some (if k = k' then f v else v) := by
  by_cases hk : k = k'
  · subst hk
    simp [getElem?_modify_self, h]
  · simp [getElem?_modify_ne hk, hk, h]

theorem getElem?_modifyAll_of_some {f : β → β} {ks : List κ} (hks : ks.Nodup) {k' : κ}
    [Decidable (k' ∈ ks)] (h : t[k']? = some v) :
    (t.modifyAll ks f)[k']? = some (if k' ∈ ks then f v else v) := by
  by_cases hk : k' ∈ ks
  · simp [getElem?_modifyAll_of_mem hks hk, hk, h]
  · simp [getElem?_modifyAll_of_notMem hk, hk, h]

/-- An update that `P` does not see. -/
theorem exists_modify_congr {f : β → β} {k' : κ} {P : β → Prop} (h : ∀ v, P (f v) ↔ P v) :
    (∃ w, (t.modify k f)[k']? = some w ∧ P w) ↔ ∃ v, t[k']? = some v ∧ P v := by
  classical
  rw [exists_modify]
  refine exists_congr fun v => and_congr_right fun _ => ?_
  split
  · exact h v
  · rfl

theorem exists_modifyAll_congr {f : β → β} {ks : List κ} {k' : κ} {P : β → Prop}
    (h : ∀ v, P (f v) ↔ P v) :
    (∃ w, (t.modifyAll ks f)[k']? = some w ∧ P w) ↔ ∃ v, t[k']? = some v ∧ P v := by
  induction ks generalizing t with
  | nil => rfl
  | cons k ks ih => exact ih.trans (exists_modify_congr h)

theorem exists_insert_fresh {k' : κ} {P : β → Prop} (h : t[k]? = none) :
    (∃ w, (t.insert k v)[k']? = some w ∧ P w) ↔
      (k = k' ∧ P v) ∨ ∃ w, t[k']? = some w ∧ P w := by
  by_cases hk : k = k'
  · subst hk
    simp [h]
  · simp [getElem?_insert_ne hk, hk]

theorem exists_erase {k' : κ} {P : β → Prop} :
    (∃ w, (t.erase k)[k']? = some w ∧ P w) ↔ k ≠ k' ∧ ∃ w, t[k']? = some w ∧ P w := by
  simp only [getElem?_erase_eq_some, and_assoc, exists_and_left]

/-- An entry that is removed anyway need not be updated first. -/
theorem erase_modify {f : β → β} : (t.modify k f).erase k = t.erase k := by
  refine ext_getElem? fun k' => ?_
  by_cases h : k = k'
  · subst h
    simp
  · rw [getElem?_erase_ne h, getElem?_erase_ne h, getElem?_modify_ne h]

/-- Updating an entry is inserting what it becomes. -/
theorem modify_eq_insert {f : β → β} (h : t[k]? = some v) : t.modify k f = t.insert k (f v) := by
  refine ext_getElem? fun k' => ?_
  by_cases hk : k = k'
  · subst hk
    simp [getElem?_modify_self, h]
  · rw [getElem?_modify_ne hk, getElem?_insert_ne hk]

theorem insert_eq_self (h : t[k]? = some v) : t.insert k v = t := by
  refine ext_getElem? fun k' => ?_
  by_cases hk : k = k'
  · subst hk
    simp [h]
  · rw [getElem?_insert_ne hk]

theorem insert_insert : (t.insert k v).insert k w = t.insert k w := by
  refine ext_getElem? fun k' => ?_
  by_cases hk : k = k'
  · subst hk
    simp
  · rw [getElem?_insert_ne hk, getElem?_insert_ne hk, getElem?_insert_ne hk]

theorem insert_erase : (t.erase k).insert k v = t.insert k v := by
  refine ext_getElem? fun k' => ?_
  by_cases hk : k = k'
  · subst hk
    simp
  · rw [getElem?_insert_ne hk, getElem?_insert_ne hk, getElem?_erase_ne hk]

/-- The entries after one of them was replaced. -/
theorem toList_replace_perm : (t.insert k v).toList.Perm ((k, v) :: (t.erase k).toList) := by
  rw [← insert_erase]
  exact toList_insert_perm getElem?_erase_self

end Std.ExtTreeMap

namespace Std.ExtTreeSet

variable {κ : Type} {cmp : κ → κ → Ordering} [TransCmp cmp] [LawfulEqCmp cmp]
variable {s : ExtTreeSet κ cmp} {k : κ}

theorem nodup_toList (s : ExtTreeSet κ cmp) : s.toList.Nodup := by
  refine List.Pairwise.imp ?_ s.distinct_toList
  rintro a b hne rfl
  exact hne ReflCmp.compare_self

theorem mem_insert_iff {k' : κ} : k' ∈ s.insert k ↔ k = k' ∨ k' ∈ s := by
  rw [mem_insert, LawfulEqCmp.compare_eq_iff_eq]

theorem mem_erase_iff {k' : κ} : k' ∈ s.erase k ↔ k ≠ k' ∧ k' ∈ s := by
  rw [mem_erase, ne_eq, LawfulEqCmp.compare_eq_iff_eq]

theorem isEmpty_iff_forall : s.isEmpty ↔ ∀ k, k ∉ s := by
  constructor
  · intro h k
    rw [isEmpty_iff] at h
    simp [h]
  · intro h
    rw [isEmpty_iff]
    exact ext_mem fun k => by simp [h k]

theorem toList_insert_perm (h : k ∉ s) : (s.insert k).toList.Perm (k :: s.toList) := by
  have hnew : k ∉ s.toList := by rwa [mem_toList]
  rw [List.perm_ext_iff_of_nodup (nodup_toList _) (List.nodup_cons.mpr ⟨hnew, s.nodup_toList⟩)]
  intro k'
  rw [mem_toList, mem_insert_iff, List.mem_cons, mem_toList, eq_comm]

theorem toList_erase_perm (h : k ∈ s) : s.toList.Perm (k :: (s.erase k).toList) := by
  have hgone : k ∉ (s.erase k).toList := by simp
  rw [List.perm_ext_iff_of_nodup s.nodup_toList
    (List.nodup_cons.mpr ⟨hgone, (s.erase k).nodup_toList⟩)]
  intro k'
  rw [mem_toList, List.mem_cons, mem_toList, mem_erase_iff]
  by_cases hk : k' = k
  · subst hk
    simpa using h
  · simp [hk, Ne.symm hk]

theorem size_erase_of_mem (h : k ∈ s) : s.size = (s.erase k).size + 1 := by
  have hperm := (toList_erase_perm h).length_eq
  rwa [length_toList, List.length_cons, length_toList] at hperm

/-- The least element of a set that is not empty. -/
theorem exists_head (h : 0 < s.size) : ∃ k ∈ s, s.toList.head? = some k := by
  rw [← length_toList] at h
  cases hlist : s.toList with
  | nil => simp [hlist] at h
  | cons k rest => exact ⟨k, by rw [← mem_toList, hlist]; exact List.mem_cons_self, rfl⟩

/-- Remove a list of elements, one after the other. -/
def eraseAll (s : ExtTreeSet κ cmp) (ks : List κ) : ExtTreeSet κ cmp :=
  ks.foldl (fun s k => s.erase k) s

theorem mem_eraseAll {ks : List κ} {k' : κ} : k' ∈ s.eraseAll ks ↔ k' ∈ s ∧ k' ∉ ks := by
  induction ks generalizing s with
  | nil => simp [eraseAll]
  | cons k ks ih =>
    have hstep : s.eraseAll (k :: ks) = (s.erase k).eraseAll ks := rfl
    rw [hstep, ih, mem_erase_iff, List.mem_cons, not_or]
    constructor
    · rintro ⟨⟨hne, hmem⟩, hks⟩
      exact ⟨hmem, Ne.symm hne, hks⟩
    · rintro ⟨hmem, hne, hks⟩
      exact ⟨⟨Ne.symm hne, hmem⟩, hks⟩

theorem toList_eraseAll_perm {ks : List κ} (hks : ks.Nodup) (hmem : ∀ k ∈ ks, k ∈ s) :
    s.toList.Perm (ks ++ (s.eraseAll ks).toList) := by
  have hdisj : ks.Disjoint (s.eraseAll ks).toList := by
    intro k hk hk'
    rw [mem_toList, mem_eraseAll] at hk'
    exact hk'.2 hk
  rw [List.perm_ext_iff_of_nodup s.nodup_toList
    (List.nodup_append'.mpr ⟨hks, nodup_toList _, hdisj⟩)]
  intro k
  rw [List.mem_append, mem_toList, mem_toList, mem_eraseAll]
  by_cases hk : k ∈ ks
  · simp [hk, hmem k hk]
  · simp [hk]

theorem mem_insertMany {ks : List κ} {k' : κ} : k' ∈ s.insertMany ks ↔ k' ∈ s ∨ k' ∈ ks := by
  induction ks generalizing s with
  | nil => simp
  | cons k ks ih =>
    rw [insertMany_cons, ih, mem_insert_iff, List.mem_cons]
    constructor
    · rintro ((rfl | h) | h)
      · exact .inr (.inl rfl)
      · exact .inl h
      · exact .inr (.inr h)
    · rintro (h | rfl | h)
      · exact .inl (.inr h)
      · exact .inl (.inl rfl)
      · exact .inr h

theorem toList_insertMany_perm {ks : List κ} (hks : ks.Nodup) (hnew : ∀ k ∈ ks, k ∉ s) :
    (s.insertMany ks).toList.Perm (ks ++ s.toList) := by
  have hdisj : ks.Disjoint s.toList := by
    intro k hk hk'
    exact hnew k hk (mem_toList.mp hk')
  rw [List.perm_ext_iff_of_nodup (nodup_toList _)
    (List.nodup_append'.mpr ⟨hks, nodup_toList _, hdisj⟩)]
  intro k
  rw [List.mem_append, mem_toList, mem_toList, mem_insertMany, or_comm]

theorem mem_ofList_iff {ks : List κ} : k ∈ ofList ks cmp ↔ k ∈ ks := by
  have hinsert : ofList ks cmp = insertMany ∅ ks := by
    exact ofList_eq_insertMany_empty
  rw [hinsert, mem_insertMany]
  simp

theorem toList_ofList_perm {ks : List κ} (hks : ks.Nodup) : (ofList ks cmp).toList.Perm ks := by
  rw [List.perm_ext_iff_of_nodup (nodup_toList _) hks]
  intro k
  rw [mem_toList, mem_ofList_iff]

end Std.ExtTreeSet
