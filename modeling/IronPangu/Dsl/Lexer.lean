-- SUMMARY: The lexer of the DSL: bytes of the source into tokens with their places, and that it never panics.
import IronPangu.Lib.Method
import IronPangu.Lib.Utf8

open Rust Outcome Utf8

/-!
# Lexer

The lexer works on the bytes of the source and cuts token texts out of it. It stops at
the first byte that begins no token. Escapes in a string skip two bytes, whatever they are.
-/

namespace Inferfabric.Dsl

structure Token where
  text : String
  start : Nat
  stop : Nat
  deriving DecidableEq, Repr

/-! ## Bytes -/

def newline : UInt8 := 0x0a
def quote : UInt8 := 0x22
def hash : UInt8 := 0x23
def minus : UInt8 := 0x2d
def dot : UInt8 := 0x2e
def slash : UInt8 := 0x2f
def backslash : UInt8 := 0x5c
def underscore : UInt8 := 0x5f

/-- `is_ascii_whitespace` -/
def isWhitespace (b : UInt8) : Bool := b ∈ [0x20, 0x09, newline, 0x0c, 0x0d]

/-- `is_ascii_digit` -/
def isDigit (b : UInt8) : Bool := 0x30 ≤ b && b ≤ 0x39

/-- `is_ascii_alphabetic` -/
def isAlphabetic (b : UInt8) : Bool := 0x41 ≤ b && b ≤ 0x5a || 0x61 ≤ b && b ≤ 0x7a

def isNameStart (b : UInt8) : Bool := isAlphabetic b || b == underscore

def isNameByte (b : UInt8) : Bool := isAlphabetic b || isDigit b || b == underscore || b == dot

def isNumberStart (b : UInt8) : Bool := isDigit b || b == minus

/-- A digit, or one of `.eE+-`. -/
def isNumberByte (b : UInt8) : Bool := isDigit b || b ∈ [dot, 0x65, 0x45, 0x2b, minus]

/-- Brackets of four kinds, and `=,:;`. -/
def isPunctuation (b : UInt8) : Bool :=
  b ∈ [0x7b, 0x7d, 0x5b, 0x5d, 0x28, 0x29, 0x3c, 0x3e, 0x3d, 0x2c, 0x3a, 0x3b]

/-! ## Tokens -/

/-- Where a string ends whose bytes go on from position `i`. -/
def closing : List UInt8 → Nat → Option Nat
  | [], _ => none
  | b :: rest, i =>
    if b = backslash then
      match rest with
      | [] => none
      | _ :: rest => closing rest (i + 2)
    else if b = quote then some (i + 1)
    else closing rest (i + 1)

/-- Where the token ends that begins with byte `b` at position `i`. -/
def tokenEnd (i : Nat) (b : UInt8) (rest : List UInt8) : Outcome String Nat :=
  if b = quote then okOr (closing rest (i + 1)) s!"byte {i}: unterminated string"
  else if isNameStart b then .ok (i + 1 + (rest.takeWhile isNameByte).length)
  else if isNumberStart b then .ok (i + 1 + (rest.takeWhile isNumberByte).length)
  else if isPunctuation b then .ok (i + 1)
  else .err s!"byte {i}: unsupported character"

/-- `source[start..stop]`, which panics unless both are boundaries. -/
def cut (source : String) (start stop : Nat) : Outcome String String := do
  let text ← unwrap (slice? source.toList start stop)
  .ok (String.ofList text)

def bytes (source : String) : List UInt8 := encode source.toList

/-- The tokens from position `i` on, after those found before. Each round takes a unit of fuel. -/
def lexFrom (source : String) : Nat → Nat → List Token → Outcome String (List Token)
  | 0, _, _ => .panic
  | fuel + 1, i, tokens =>
    match (bytes source).drop i with
    | [] => .ok tokens
    | b :: rest =>
      if isWhitespace b then lexFrom source fuel (i + 1) tokens
      else if b = hash ∨ b = slash ∧ rest.head? = some slash then
        lexFrom source fuel (i + ((b :: rest).takeWhile (· != newline)).length) tokens
      else do
        let stop ← tokenEnd i b rest
        let text ← cut source i stop
        let tokens := tokens ++ [⟨text, i, stop⟩]
        if tokens.length > 100000 then .err "DSL token limit" else lexFrom source fuel stop tokens

def lex (source : String) : Outcome String (List Token) :=
  if (bytes source).length > 1024 * 1024 then .err "DSL source exceeds 1 MiB"
  else lexFrom source ((bytes source).length + 1) 0 []

/-! ## Places -/

/-- A range of bytes of the source, not empty, between two characters. -/
structure Placed (source : String) (start stop : Nat) : Prop where
  lt : start < stop
  start : Boundary source.toList start
  stop : Boundary source.toList stop

/-- Tokens in the order of the source, apart from each other, each of the text at its place. -/
structure Lexed (source : String) (tokens : List Token) : Prop where
  placed : ∀ t ∈ tokens, Placed source t.start t.stop ∧ t.text ≠ ""
  ordered : tokens.Pairwise fun t u => t.stop ≤ u.start

variable {source : String} {tokens : List Token} {b : UInt8} {rest : List UInt8} {i stop fuel : Nat}

theorem closing_eq_some (h : closing rest i = some stop) : i < stop ∧ rest[stop - 1 - i]? = some quote := by
  induction rest, i using closing.induct with
  | case1 i => cases h
  | case2 i => cases h
  | case3 i next rest ih =>
    obtain ⟨hlt, hquote⟩ := ih h
    have hindex : stop - 1 - i = stop - 1 - (i + 2) + 2 := by omega
    exact ⟨by omega, by rw [hindex]; exact hquote⟩
  | case4 rest i hescape =>
    rw [closing.eq_def] at h
    simp only [if_neg hescape, if_true, Option.some.injEq] at h
    subst h
    exact ⟨Nat.lt_succ_self _, by simp⟩
  | case5 b rest i hescape hquote ih =>
    rw [closing.eq_def] at h
    simp only [if_neg hescape, if_neg hquote] at h
    obtain ⟨hlt, hquote⟩ := ih h
    have hindex : stop - 1 - i = stop - 1 - (i + 1) + 1 := by omega
    exact ⟨by omega, by rw [hindex]; exact hquote⟩

theorem ascii_of_le {n : UInt8} (h : b ≤ n) (hn : Ascii n) : Ascii b :=
  Nat.lt_of_le_of_lt (UInt8.le_iff_toNat_le.mp h) hn

theorem isDigit.ascii (h : isDigit b) : Ascii b := by
  simp only [isDigit, Bool.and_eq_true, decide_eq_true_eq] at h
  exact ascii_of_le h.2 (by decide)

theorem isAlphabetic.ascii (h : isAlphabetic b) : Ascii b := by
  simp only [isAlphabetic, Bool.or_eq_true, Bool.and_eq_true, decide_eq_true_eq] at h
  rcases h with ⟨-, h⟩ | ⟨-, h⟩
  · exact ascii_of_le h (by decide)
  · exact ascii_of_le h (by decide)

theorem isNameByte.ascii (h : isNameByte b) : Ascii b := by
  simp only [isNameByte, Bool.or_eq_true, beq_iff_eq] at h
  rcases h with ((h | h) | rfl) | rfl
  · exact isAlphabetic.ascii h
  · exact isDigit.ascii h
  · decide
  · decide

theorem isNameStart.ascii (h : isNameStart b) : Ascii b := by
  simp only [isNameStart, Bool.or_eq_true, beq_iff_eq] at h
  rcases h with h | rfl
  · exact isAlphabetic.ascii h
  · decide

theorem isNumberByte.ascii (h : isNumberByte b) : Ascii b := by
  simp only [isNumberByte, Bool.or_eq_true, decide_eq_true_eq] at h
  rcases h with h | h
  · exact isDigit.ascii h
  · have hall : ∀ c ∈ [dot, 0x65, 0x45, 0x2b, minus], Ascii c := by simp [Ascii, dot, minus]
    exact hall b h

theorem isNumberStart.ascii (h : isNumberStart b) : Ascii b := by
  simp only [isNumberStart, Bool.or_eq_true, beq_iff_eq] at h
  rcases h with h | rfl
  · exact isDigit.ascii h
  · decide

theorem isPunctuation.ascii (h : isPunctuation b) : Ascii b := by
  have hall : ∀ c ∈ ([0x7b, 0x7d, 0x5b, 0x5d, 0x28, 0x29, 0x3c, 0x3e, 0x3d, 0x2c, 0x3a, 0x3b] : List UInt8), Ascii c := by
    simp [Ascii]
  exact hall b (of_decide_eq_true h)

theorem getElem?_of_drop (hdrop : (bytes source).drop i = b :: rest) :
    (bytes source)[i]? = some b ∧ ∀ k : Nat, (bytes source)[i + 1 + k]? = rest[k]? := by
  constructor
  · have hget : ((bytes source).drop i)[0]? = (bytes source)[i + 0]? := List.getElem?_drop
    rw [hdrop] at hget
    exact hget.symm
  · intro k
    have hget : ((bytes source).drop i)[k + 1]? = (bytes source)[i + (k + 1)]? := List.getElem?_drop
    rw [hdrop, List.getElem?_cons_succ] at hget
    rw [hget, Nat.add_assoc, Nat.add_comm 1 k]

/-- After a first byte and the bytes that go on with it. -/
theorem boundary_takeWhile {p : UInt8 → Bool} (hdrop : (bytes source).drop i = b :: rest) (hb : Ascii b)
    (hp : ∀ c, p c → Ascii c) : Boundary source.toList (i + 1 + (rest.takeWhile p).length) := by
  obtain ⟨hfirst, hrest⟩ := getElem?_of_drop hdrop
  cases hk : (rest.takeWhile p).length with
  | zero => exact (boundary_of_ascii hfirst hb).2
  | succ k =>
    have hlt : k < (rest.takeWhile p).length := by omega
    have hmem : (rest.takeWhile p)[k] ∈ rest.takeWhile p := List.getElem_mem hlt
    have hinitial : rest.takeWhile p <+: rest := List.takeWhile_prefix p
    have hget : rest[k]? = some (rest.takeWhile p)[k] :=
      List.getElem?_eq_some_iff.mpr ⟨hlt.trans_le hinitial.length_le, (hinitial.getElem hlt).symm⟩
    rw [← hrest] at hget
    exact (boundary_of_ascii hget (hp _ (List.mem_takeWhile_imp hmem))).2

theorem tokenEnd_spec (hdrop : (bytes source).drop i = b :: rest) :
    tokenEnd i b rest ≠ .panic ∧ ∀ stop, tokenEnd i b rest = .ok stop → Placed source i stop := by
  obtain ⟨hfirst, hrest⟩ := getElem?_of_drop hdrop
  rw [tokenEnd]
  split
  · rename_i hquote
    subst hquote
    have hbefore : Boundary source.toList i := (boundary_of_ascii hfirst (by decide)).1
    refine ⟨okOr_ne_panic, fun stop h => ?_⟩
    obtain ⟨hlt, hclosed⟩ := closing_eq_some (okOr_eq_ok.mp h)
    rw [← hrest] at hclosed
    have hstop : i + 1 + (stop - 1 - (i + 1)) + 1 = stop := by omega
    exact ⟨by omega, hbefore, hstop ▸ (boundary_of_ascii hclosed (by decide)).2⟩
  · split
    · rename_i hname
      have hb := isNameStart.ascii hname
      refine ⟨by simp, fun stop h => ?_⟩
      cases h
      exact ⟨by omega, (boundary_of_ascii hfirst hb).1, boundary_takeWhile hdrop hb fun _ => isNameByte.ascii⟩
    · split
      · rename_i hnumber
        have hb := isNumberStart.ascii hnumber
        refine ⟨by simp, fun stop h => ?_⟩
        cases h
        exact ⟨by omega, (boundary_of_ascii hfirst hb).1, boundary_takeWhile hdrop hb fun _ => isNumberByte.ascii⟩
      · split
        · rename_i hpunctuation
          have hb := boundary_of_ascii hfirst (isPunctuation.ascii hpunctuation)
          refine ⟨by simp, fun stop h => ?_⟩
          cases h
          exact ⟨Nat.lt_succ_self i, hb.1, hb.2⟩
        · exact ⟨by simp, by simp⟩

theorem Placed.cut (h : Placed source i stop) : ∃ text, cut source i stop = .ok text ∧ text ≠ "" := by
  obtain ⟨text, htext, hne⟩ := exists_slice? h.start h.stop h.lt
  refine ⟨String.ofList text, ?_, ?_⟩
  · rw [Dsl.cut, htext]
    rfl
  · intro hempty
    exact hne (String.ofList_eq_empty_iff.mp hempty)

/-- One more token, behind the others. -/
theorem Lexed.push (h : Lexed source tokens) (hbefore : ∀ t ∈ tokens, t.stop ≤ i) (hplaced : Placed source i stop)
    {text : String} (htext : text ≠ "") : Lexed source (tokens ++ [⟨text, i, stop⟩]) where
  placed := by
    simp only [List.forall_mem_append, List.forall_mem_singleton]
    exact ⟨h.placed, hplaced, htext⟩
  ordered := List.pairwise_append.mpr ⟨h.ordered, List.pairwise_singleton _ _, fun t ht u hu => by
    obtain rfl := List.mem_singleton.mp hu
    exact hbefore t ht⟩

/-- From any position on, the lexer comes to an end with the tokens in place. -/
theorem lexFrom_spec (hfuel : (bytes source).length - i < fuel) (h : Lexed source tokens)
    (hbefore : ∀ t ∈ tokens, t.stop ≤ i) :
    lexFrom source fuel i tokens ≠ .panic ∧ ∀ tokens', lexFrom source fuel i tokens = .ok tokens' → Lexed source tokens' := by
  induction fuel generalizing i tokens with
  | zero => omega
  | succ fuel ih =>
    rw [lexFrom]
    cases hdrop : (bytes source).drop i with
    | nil =>
      refine ⟨by simp, fun tokens' hok => ?_⟩
      cases hok
      exact h
    | cons b rest =>
      have hlen : (bytes source).length - i = rest.length + 1 := by rw [← List.length_drop, hdrop, List.length_cons]
      dsimp only
      split
      · exact ih (by omega) h fun t ht => (hbefore t ht).trans (Nat.le_succ i)
      · split
        · rename_i hcomment
          have hb : (b != newline) = true := by
            rcases hcomment with rfl | ⟨rfl, -⟩
            · rfl
            · rfl
          rw [List.takeWhile_cons, if_pos hb, List.length_cons]
          exact ih (by omega) h fun t ht => (hbefore t ht).trans (Nat.le_add_right i _)
        · obtain ⟨hend, hplaced⟩ := tokenEnd_spec hdrop
          cases htoken : tokenEnd i b rest with
          | panic => exact absurd htoken hend
          | err e => simp
          | ok stop =>
            have hplaced := hplaced stop htoken
            obtain ⟨text, hcut, htext⟩ := hplaced.cut
            rw [ok_bind, hcut, ok_bind]
            split
            · simp
            · refine ih ?_ (h.push hbefore hplaced htext) ?_
              · have := hplaced.lt
                omega
              · simp only [List.forall_mem_append, List.forall_mem_singleton]
                exact ⟨fun t ht => (hbefore t ht).trans hplaced.lt.le, le_rfl⟩

theorem lex_spec (source : String) :
    lex source ≠ .panic ∧ ∀ tokens, lex source = .ok tokens → Lexed source tokens := by
  rw [lex]
  split
  · exact ⟨by simp, by simp⟩
  · exact lexFrom_spec (by omega) ⟨by simp, .nil⟩ (by simp)

end Inferfabric.Dsl
