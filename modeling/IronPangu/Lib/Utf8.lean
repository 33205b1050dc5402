-- SUMMARY: Texts as characters and as the bytes of their UTF-8 form: boundaries between characters, and slices.
import Mathlib

/-!
# UTF-8 texts

A text is a list of characters, indexed by the bytes of its UTF-8 form. A byte below 128
is a character by itself, so both sides of it are boundaries between characters.
-/

namespace Utf8

def encode (text : List Char) : List UInt8 := text.flatMap String.utf8EncodeChar

/-- A byte index between two characters, or at an end of the text. -/
def Boundary (text : List Char) (i : Nat) : Prop :=
  ∃ before after, text = before ++ after ∧ i = (encode before).length

def Ascii (b : UInt8) : Prop := b.toNat < 128

instance (b : UInt8) : Decidable (Ascii b) := inferInstanceAs (Decidable (b.toNat < 128))

variable {text before after : List Char} {i start stop : Nat} {b : UInt8} {c : Char}

@[simp] theorem encode_nil : encode [] = [] := rfl

@[simp] theorem encode_cons : encode (c :: text) = String.utf8EncodeChar c ++ encode text := rfl

@[simp] theorem encode_append : encode (before ++ after) = encode before ++ encode after := List.flatMap_append

theorem boundary_zero : Boundary text 0 := ⟨[], text, rfl, rfl⟩

theorem boundary_cons (h : Boundary text i) : Boundary (c :: text) ((String.utf8EncodeChar c).length + i) := by
  obtain ⟨before, after, rfl, rfl⟩ := h
  exact ⟨c :: before, after, rfl, by rw [encode_cons, List.length_append]⟩

theorem Boundary.le (h : Boundary text i) : i ≤ (encode text).length := by
  obtain ⟨before, after, rfl, rfl⟩ := h
  simp

/-! ## ASCII -/

/-- The bytes of a longer character are 128 and above. -/
theorem encodeChar_eq_singleton (hb : b ∈ String.utf8EncodeChar c) (hascii : Ascii b) : String.utf8EncodeChar c = [b] := by
  have hhigh : ∀ n, 128 ≤ n → n < 256 → b ≠ UInt8.ofNat n := by
    rintro n hle hlt rfl
    rw [Ascii, UInt8.toNat_ofNat', Nat.mod_eq_of_lt hlt] at hascii
    omega
  rw [String.utf8EncodeChar] at hb ⊢
  split at hb
  · rename_i hone
    rw [if_pos hone]
    rw [List.mem_singleton.mp hb]
  · exfalso
    split at hb
    · simp only [List.mem_cons, List.not_mem_nil, or_false] at hb
      rcases hb with hb | hb
      · exact hhigh _ (by omega) (by omega) hb
      · exact hhigh _ (by omega) (by omega) hb
    · split at hb
      · simp only [List.mem_cons, List.not_mem_nil, or_false] at hb
        rcases hb with hb | hb | hb
        · exact hhigh _ (by omega) (by omega) hb
        · exact hhigh _ (by omega) (by omega) hb
        · exact hhigh _ (by omega) (by omega) hb
      · simp only [List.mem_cons, List.not_mem_nil, or_false] at hb
        rcases hb with hb | hb | hb | hb
        · exact hhigh _ (by omega) (by omega) hb
        · exact hhigh _ (by omega) (by omega) hb
        · exact hhigh _ (by omega) (by omega) hb
        · exact hhigh _ (by omega) (by omega) hb

/-- Both sides of an ASCII byte are boundaries. -/
theorem boundary_of_ascii (hb : (encode text)[i]? = some b) (hascii : Ascii b) : Boundary text i ∧ Boundary text (i + 1) := by
  induction text generalizing i with
  | nil => cases hb
  | cons c text ih =>
    rw [encode_cons] at hb
    rcases Nat.lt_or_ge i (String.utf8EncodeChar c).length with hfirst | hlater
    · rw [List.getElem?_append_left hfirst] at hb
      have hsingle := encodeChar_eq_singleton (List.mem_of_getElem? hb) hascii
      rw [hsingle] at hfirst
      obtain rfl : i = 0 := Nat.lt_one_iff.mp hfirst
      refine ⟨boundary_zero, ?_⟩
      have hafter : Boundary (c :: text) ((String.utf8EncodeChar c).length + 0) := boundary_cons boundary_zero
      rwa [hsingle] at hafter
    · rw [List.getElem?_append_right hlater] at hb
      obtain ⟨hbefore, hafter⟩ := ih hb
      have hsum : (String.utf8EncodeChar c).length + (i - (String.utf8EncodeChar c).length) = i := Nat.add_sub_of_le hlater
      refine ⟨hsum ▸ boundary_cons hbefore, ?_⟩
      have := boundary_cons (c := c) hafter
      rwa [← Nat.add_assoc, hsum] at this

/-- Different texts have different bytes. -/
theorem encode_injective (h : encode before = encode after) : before = after := by
  have hbytes : before.utf8Encode = after.utf8Encode := by
    rw [List.utf8Encode, List.utf8Encode]
    exact congrArg List.toByteArray h
  have hdecode := congrArg ByteArray.utf8Decode? hbytes
  rw [List.utf8Decode?_utf8Encode, List.utf8Decode?_utf8Encode] at hdecode
  simpa using hdecode

theorem encodeChar_eq (h : c.toNat < 128) : String.utf8EncodeChar c = [UInt8.ofNat c.toNat] := by
  have hone : c.val.toNat ≤ 0x7f := by
    have : c.val.toNat = c.toNat := rfl
    omega
  rw [String.utf8EncodeChar, if_pos hone]
  rfl

/-- An ASCII character is in a text where its byte is. -/
theorem mem_encode (hc : c.toNat < 128) : UInt8.ofNat c.toNat ∈ encode text ↔ c ∈ text := by
  have hascii : Ascii (UInt8.ofNat c.toNat) := by
    rw [Ascii, UInt8.toNat_ofNat']
    omega
  rw [encode, List.mem_flatMap]
  constructor
  · rintro ⟨d, hd, hmem⟩
    have hsame : encode [d] = encode [c] := by
      rw [encode_cons, encode_cons, encodeChar_eq_singleton hmem hascii, encodeChar_eq hc]
    obtain rfl := List.singleton_inj.mp (encode_injective hsame)
    exact hd
  · intro hmem
    refine ⟨c, hmem, ?_⟩
    rw [encodeChar_eq hc]
    exact List.mem_singleton_self _

/-! ## Strings -/

/-- The bytes of a string. -/
def utf8 (s : String) : List UInt8 := encode s.toList

/-- The character of code 0. -/
def nul : Char := Char.ofNat 0

section

variable {s : String}

theorem utf8_injective : Function.Injective utf8 := by
  intro s t h
  exact String.toList_inj.mp (encode_injective h)

theorem mem_utf8 (hc : c.toNat < 128) : UInt8.ofNat c.toNat ∈ utf8 s ↔ c ∈ s.toList := mem_encode hc

theorem utf8_eq_nil : utf8 s = [] ↔ s = "" := utf8_injective.eq_iff' rfl

theorem zero_mem_utf8 : 0 ∈ utf8 s ↔ nul ∈ s.toList := mem_utf8 (c := nul) (by decide)

end

/-! ## Slices -/

/-- The text before and after a boundary. -/
def splitAt? : List Char → Nat → Option (List Char × List Char)
  | text, 0 => some ([], text)
  | [], _ + 1 => none
  | c :: text, i => do
    let size := (String.utf8EncodeChar c).length
    if size ≤ i then
      let (before, after) ← splitAt? text (i - size)
      some (c :: before, after)
    else none

/-- The text between two boundaries. -/
def slice? (text : List Char) (start stop : Nat) : Option (List Char) := do
  let (_, after) ← splitAt? text start
  if start ≤ stop then
    let (between, _) ← splitAt? after (stop - start)
    some between
  else none

theorem splitAt?_cons : splitAt? (c :: text) ((String.utf8EncodeChar c).length + i) =
    (splitAt? text i).map fun (before, after) => (c :: before, after) := by
  have hpos : 0 < (String.utf8EncodeChar c).length := List.length_pos_iff.mpr String.utf8EncodeChar_ne_nil
  obtain ⟨k, hk⟩ := Nat.exists_eq_add_of_lt hpos
  have hsucc : (String.utf8EncodeChar c).length + i = k + i + 1 := by omega
  rw [hsucc, splitAt?, ← hsucc, if_pos (Nat.le_add_right _ _), Nat.add_sub_cancel_left]
  · cases splitAt? text i <;> rfl
  · exact Nat.succ_ne_zero _

theorem splitAt?_append : splitAt? (before ++ after) (encode before).length = some (before, after) := by
  induction before with
  | nil => cases after <;> rfl
  | cons c before ih =>
    rw [encode_cons, List.length_append, List.cons_append, splitAt?_cons, ih]
    rfl

/-- Boundaries of a text are comparable prefixes of it. -/
theorem Boundary.between (hstart : Boundary text start) (hstop : Boundary text stop) (h : start ≤ stop) :
    ∃ before middle after, text = before ++ (middle ++ after) ∧ start = (encode before).length ∧
      stop = start + (encode middle).length := by
  obtain ⟨before, rest, rfl, rfl⟩ := hstart
  obtain ⟨before', rest', heq, rfl⟩ := hstop
  rcases List.append_eq_append_iff.mp heq with ⟨middle, rfl, rfl⟩ | ⟨middle, rfl, rfl⟩
  · exact ⟨before, middle, rest', rfl, rfl, by rw [encode_append, List.length_append]⟩
  · refine ⟨before' ++ middle, [], rest, by simp, rfl, ?_⟩
    rw [encode_append, List.length_append] at h ⊢
    rw [encode_nil, List.length_nil]
    omega

/-- A slice between two boundaries is never refused. -/
theorem exists_slice? (hstart : Boundary text start) (hstop : Boundary text stop) (h : start < stop) :
    ∃ between, slice? text start stop = some between ∧ between ≠ [] := by
  obtain ⟨before, middle, after, rfl, rfl, rfl⟩ := hstart.between hstop h.le
  refine ⟨middle, ?_, ?_⟩
  · rw [slice?, splitAt?_append, Option.bind_eq_bind, Option.bind_some]
    dsimp only
    rw [if_pos h.le, Nat.add_sub_cancel_left, splitAt?_append]
    rfl
  · rintro rfl
    simp at h

end Utf8
