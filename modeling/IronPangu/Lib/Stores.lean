-- SUMMARY: Lists of stores into a memory: what is left alone, and what is found where each store goes to a place of its own.
import Mathlib.Data.List.Nodup
import Mathlib.Logic.Function.Basic

/-!
# Stores

Stores to different addresses do not depend on their order.
-/

namespace Stores

variable {β : Type} {stores stores' : List (Nat × β)} {memory : Nat → β} {a : Nat} {b : β}

/-- Make the stores one after another. -/
def storeAll (stores : List (Nat × β)) (memory : Nat → β) : Nat → β :=
  stores.foldl (fun memory store => Function.update memory store.1 store.2) memory

@[simp] theorem storeAll_nil : storeAll [] memory = memory := rfl

@[simp] theorem storeAll_cons {store : Nat × β} :
    storeAll (store :: stores) memory = storeAll stores (Function.update memory store.1 store.2) := rfl

theorem storeAll_other (h : ∀ store ∈ stores, store.1 ≠ a) : storeAll stores memory a = memory a := by
  induction stores generalizing memory with
  | nil => rfl
  | cons store stores ih =>
    rw [storeAll_cons, ih fun s hs => h s (List.mem_cons_of_mem _ hs)]
    exact Function.update_of_ne (h store List.mem_cons_self).symm _ _

/-- A store is found where no other store goes. -/
theorem storeAll_mem (hdistinct : (stores.map Prod.fst).Nodup) (h : (a, b) ∈ stores) :
    storeAll stores memory a = b := by
  induction stores generalizing memory with
  | nil => cases h
  | cons store stores ih =>
    rw [List.map_cons, List.nodup_cons] at hdistinct
    rw [storeAll_cons]
    rcases List.mem_cons.mp h with rfl | h
    · rw [storeAll_other fun s hs heq => hdistinct.1 (List.mem_map.mpr ⟨s, hs, heq⟩), Function.update_self]
    · exact ih hdistinct.2 h

end Stores
