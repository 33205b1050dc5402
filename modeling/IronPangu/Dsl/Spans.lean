-- SUMMARY: The parser of the DSL never panics, and the members it returns are placed in the source, in order and nested.
import IronPangu.Dsl.Parser

open Rust Method Descent Utf8

/-!
# Spans

The specification of every part of the parser is the same: from any position on it does
not panic, it consumes a token, and what it returns lies within any bytes that hold the
tokens it has consumed. The recursion needs one level of fuel for each level of nesting
up to the limit, whatever the source is.
-/

namespace Inferfabric.Dsl

variable {F α : Type}

def SpannedMember.start : SpannedMember F → Nat
  | .mk start _ _ => start

def SpannedMember.stop : SpannedMember F → Nat
  | .mk _ stop _ => stop

def SpannedMember.member : SpannedMember F → Member F
  | .mk _ _ member => member

/-- The expressions a member is given. -/
def Member.exprs : Member F → List (Expr F)
  | .field _ value | .let _ value => [value]
  | .input .. | .constant .. | .state .. | .yield .. | .update .. => []

mutual

/-- The members in the folds of an expression lie between two bytes. -/
inductive Within (source : String) : Nat → Nat → Expr F → Prop where
  | name {lo hi : Nat} {n : String} : Within source lo hi (.name n)
  | string {lo hi : Nat} {s : String} : Within source lo hi (.string s)
  | number {lo hi : Nat} {n : String} : Within source lo hi (.number n)
  | list {lo hi : Nat} {values : List (Expr F)} (h : ∀ v ∈ values, Within source lo hi v) : Within source lo hi (.list values)
  | call {lo hi : Nat} {callee : String} {args : List (Option String × Expr F)} (h : ∀ a ∈ args, Within source lo hi a.2) :
    Within source lo hi (.call callee args)
  | fold {lo hi : Nat} {index carry : String} {start stop initial : Expr F} {body : List (SpannedMember F)}
    (hstart : Within source lo hi start) (hstop : Within source lo hi stop) (hinitial : Within source lo hi initial)
    (hbody : Spanned source lo hi body) : Within source lo hi (.fold index start stop carry initial body)

/-- Members between two bytes: each at a range of characters that is not empty, in order and apart,
and around the members in its own folds. -/
inductive Spanned (source : String) : Nat → Nat → List (SpannedMember F) → Prop where
  | intro {lo hi : Nat} {members : List (SpannedMember F)}
    (placed : ∀ m ∈ members, Placed source m.start m.stop ∧ lo ≤ m.start ∧ m.stop ≤ hi)
    (ordered : members.Pairwise fun m m' => m.stop ≤ m'.start)
    (nested : ∀ m ∈ members, ∀ e ∈ m.member.exprs, Within source m.start m.stop e) : Spanned source lo hi members

end

/-- The members of every part of a document are spanned by the source. -/
def PlacedDocument (source : String) (d : Document F) : Prop :=
  (∀ m ∈ d.modules, Spanned source 0 (bytes source).length m.body) ∧
    Spanned source 0 (bytes source).length d.model ∧ Spanned source 0 (bytes source).length d.plan

/-- The bytes from `lo` to `hi` hold the tokens from `p` to `q`. -/
def Holds (tokens : List Token) (p q lo hi : Nat) : Prop :=
  ∀ i t, p ≤ i → i < q → tokens[i]? = some t → lo ≤ t.start ∧ t.stop ≤ hi

/-- An expression parsed from the tokens from `p` to `q`. -/
def ExprAt (source : String) (tokens : List Token) (p q : Nat) (e : Expr F) : Prop :=
  p < q ∧ ∀ lo hi, Holds tokens p q lo hi → Within source lo hi e

def MembersAt (source : String) (tokens : List Token) (p q : Nat) (members : List (SpannedMember F)) : Prop :=
  p < q ∧ ∀ lo hi, Holds tokens p q lo hi → Spanned source lo hi members

/-- The parts do what they should from a depth on. -/
structure Good (source : String) (tokens : List Token) (parts : Parser.Parts F) (depth : Nat) : Prop where
  expr : ∀ d ≥ depth, ∀ p ≤ tokens.length, At tokens p (parts.expr d) (ExprAt source tokens p)
  members : ∀ allowed, ∀ d ≥ depth, ∀ p ≤ tokens.length, At tokens p (parts.members allowed d) (MembersAt source tokens p)

variable {source : String} {tokens : List Token} {p q lo hi depth : Nat} {parts : Parser.Parts F} {literals : Literals F}

theorem Holds.sub {p' q' : Nat} (h : Holds tokens p q lo hi) (hp : p ≤ p') (hq : q' ≤ q) : Holds tokens p' q' lo hi :=
  fun i t hi hlt ht => h i t (hp.trans hi) (hlt.trans_le hq) ht

theorem Good.mono {d : Nat} (h : Good source tokens parts depth) (hd : depth ≤ d) : Good source tokens parts d where
  expr d' hd' := h.expr d' (hd.trans hd')
  members allowed d' hd' := h.members allowed d' (hd.trans hd')

/-! ## Tokens -/

/-- The bytes of the whole source hold all its tokens. -/
theorem Lexed.holds_all (h : Lexed source tokens) : Holds tokens p q 0 (bytes source).length := by
  intro i t _ _ ht
  exact ⟨Nat.zero_le _, (h.placed t (List.mem_of_getElem? ht)).1.stop.le⟩

theorem Lexed.stop_le {i j : Nat} {t u : Token} (h : Lexed source tokens) (hlt : i < j) (ht : tokens[i]? = some t)
    (hu : tokens[j]? = some u) : t.stop ≤ u.start := by
  obtain ⟨hi, rfl⟩ := List.getElem?_eq_some_iff.mp ht
  obtain ⟨hj, rfl⟩ := List.getElem?_eq_some_iff.mp hu
  exact List.pairwise_iff_getElem.mp h.ordered i j hi hj hlt

/-- The bytes from the start of one token to the end of another. -/
theorem Lexed.between {t u : Token} (h : Lexed source tokens) (hlt : p < q) (ht : tokens[p]? = some t)
    (hu : tokens[q - 1]? = some u) : Placed source t.start u.stop ∧ Holds tokens p q t.start u.stop := by
  have hplaced : ∀ {i : Nat} {v : Token}, tokens[i]? = some v → Placed source v.start v.stop :=
    fun hv => (h.placed _ (List.mem_of_getElem? hv)).1
  have hfrom : ∀ {i : Nat} {v : Token}, p ≤ i → tokens[i]? = some v → t.start ≤ v.start := by
    intro i v hi hv
    rcases Nat.lt_or_eq_of_le hi with hlt | rfl
    · exact (hplaced ht).lt.le.trans (h.stop_le hlt ht hv)
    · cases ht.symm.trans hv
      exact le_rfl
  have hto : ∀ {i : Nat} {v : Token}, i < q → tokens[i]? = some v → v.stop ≤ u.stop := by
    intro i v hi hv
    rcases Nat.lt_or_eq_of_le (Nat.le_sub_one_of_lt hi) with hlt | rfl
    · exact (h.stop_le hlt hv hu).trans (hplaced hu).lt.le
    · cases hu.symm.trans hv
      exact le_rfl
  refine ⟨⟨?_, (hplaced ht).start, (hplaced hu).stop⟩, fun i v hi hq hv => ⟨hfrom hi hv, hto hq hv⟩⟩
  exact (hplaced ht).lt.trans_le (hto hlt ht)

namespace Parser

theorem at_error {message : String} {Q : Nat → α → Prop} : At tokens p (error message : Parser α) Q := trivial

theorem at_advance (hp : p < tokens.length) : At tokens p advance fun q _ => q = p + 1 :=
  ⟨rfl, Nat.le_succ p, hp, rfl⟩

theorem at_take (h : Lexed source tokens) : At tokens p take fun q value => p < q ∧ value ≠ "" := by
  refine at_look_bind ?_
  dsimp only [textAt]
  cases ht : tokens[p]? with
  | none => exact at_error
  | some t =>
    obtain ⟨hp, rfl⟩ := List.getElem?_eq_some_iff.mp ht
    refine (at_advance hp).bind fun q _ _ hq hnext => ?_
    exact at_pure hq ⟨by omega, (h.placed _ (List.getElem_mem hp)).2⟩

theorem at_expect {text : String} (htext : text ≠ "") : At tokens p (expect text) fun q _ => p < q := by
  refine at_look_bind ?_
  split
  · exact at_error
  · rename_i heq
    have hp : p < tokens.length := by
      by_contra hend
      rw [not_not, peek, textAt, List.getElem?_eq_none (Nat.not_lt.mp hend)] at heq
      exact htext heq.symm
    refine (at_advance hp).mono fun q _ _ hq => ?_
    omega

theorem at_expect_bind {text : String} {f : Unit → Parser α} {R : Nat → α → Prop} (htext : text ≠ "")
    (hf : ∀ q, p < q → q ≤ tokens.length → At tokens q (f ()) R) : At tokens p (expect text >>= f) R :=
  (at_expect htext).next fun q _ => hf q

theorem at_name (h : Lexed source tokens) : At tokens p name fun q _ => p < q := by
  refine (at_take h).bind fun q value _ hq hvalue => ?_
  split
  · exact at_pure hq hvalue.1
  · exact at_error

theorem at_commas (h : Lexed source tokens) {close : String} {item : Parser α} {R : Nat → Nat → α → Prop}
    (hitem : ∀ p ≤ tokens.length, At tokens p item fun q a => p < q ∧ R p q a) (hp : p ≤ tokens.length) :
    At tokens p (commas close item) fun q as => ∀ a ∈ as, ∃ i j, p ≤ i ∧ j ≤ q ∧ R i j a := by
  refine at_look_bind (at_separated hitem (fun p hp => ?_) hp (by simp))
  exact (at_take h).bind fun q _ _ hq _ => at_pure hq trivial

/-! ## Expressions -/

theorem at_fold (h : Lexed source tokens) (hparts : Good source tokens parts (depth + 1)) :
    At tokens p (fold parts depth) (ExprAt source tokens p) := by
  refine (at_take h).bind fun p₁ _ _ hp₁ h₁ => ?_
  refine (at_name h).next fun p₂ index h₂ hp₂ => ?_
  refine at_expect_bind (by decide) fun p₃ h₃ hp₃ => ?_
  refine at_expect_bind (by decide) fun p₄ h₄ hp₄ => ?_
  refine at_expect_bind (by decide) fun p₅ h₅ hp₅ => ?_
  refine (hparts.expr _ le_rfl p₅ hp₅).bind fun p₆ start _ hp₆ hstart => ?_
  refine at_expect_bind (by decide) fun p₇ h₇ hp₇ => ?_
  refine (hparts.expr _ le_rfl p₇ hp₇).bind fun p₈ stop _ hp₈ hstop => ?_
  refine at_expect_bind (by decide) fun p₉ h₉ hp₉ => ?_
  refine at_expect_bind (by decide) fun q₁ g₁ hq₁ => ?_
  refine at_expect_bind (by decide) fun q₂ g₂ hq₂ => ?_
  refine (at_name h).next fun q₃ carry g₃ hq₃ => ?_
  refine at_expect_bind (by decide) fun q₄ g₄ hq₄ => ?_
  refine (hparts.expr _ le_rfl q₄ hq₄).bind fun q₅ initial _ hq₅ hinitial => ?_
  refine at_expect_bind (by decide) fun q₆ g₆ hq₆ => ?_
  refine (hparts.members true _ le_rfl q₆ hq₆).bind fun q₇ body _ hq₇ hbody => ?_
  obtain ⟨h₆, hstart⟩ := hstart
  obtain ⟨h₈, hstop⟩ := hstop
  obtain ⟨g₅, hinitial⟩ := hinitial
  obtain ⟨g₇, hbody⟩ := hbody
  refine at_pure hq₇ ⟨by omega, fun lo hi hholds => ?_⟩
  exact .fold (hstart lo hi (hholds.sub (by omega) (by omega))) (hstop lo hi (hholds.sub (by omega) (by omega)))
    (hinitial lo hi (hholds.sub (by omega) (by omega))) (hbody lo hi (hholds.sub (by omega) (by omega)))

theorem at_list (h : Lexed source tokens) (hparts : Good source tokens parts (depth + 1)) :
    At tokens p (list parts depth) (ExprAt source tokens p) := by
  refine (at_take h).bind fun p₁ _ _ hp₁ h₁ => ?_
  refine (at_commas h (hparts.expr _ le_rfl) hp₁).bind fun p₂ values h₂ hp₂ hvalues => ?_
  refine at_expect_bind (by decide) fun p₃ h₃ hp₃ => ?_
  refine at_pure hp₃ ⟨by omega, fun lo hi hholds => .list fun v hv => ?_⟩
  obtain ⟨i, j, hi, hj, hvalue⟩ := hvalues v hv
  exact hvalue lo _ (hholds.sub (by omega) (by omega))

theorem at_argument (h : Lexed source tokens) (hparts : Good source tokens parts (depth + 1)) (hp : p ≤ tokens.length) :
    At tokens p (argument parts depth) fun q a => p < q ∧ ∀ lo hi, Holds tokens p q lo hi → Within source lo hi a.2 := by
  refine at_look_bind ?_
  split
  · refine (at_name h).next fun p₁ key h₁ hp₁ => ?_
    refine at_expect_bind (by decide) fun p₂ h₂ hp₂ => ?_
    refine (hparts.expr _ le_rfl p₂ hp₂).bind fun p₃ value _ hp₃ hvalue => ?_
    obtain ⟨h₃, hvalue⟩ := hvalue
    exact at_pure hp₃ ⟨by omega, fun lo hi hholds => hvalue lo hi (hholds.sub (by omega) le_rfl)⟩
  · refine (hparts.expr _ le_rfl p hp).bind fun p₁ value _ hp₁ hvalue => ?_
    exact at_pure hp₁ hvalue

theorem firstByte_isSome {text : String} (htext : text ≠ "") : ∃ b, firstByte text = some b := by
  have hchars : text.toList ≠ [] := fun hnil => htext (String.toList_eq_nil_iff.mp hnil)
  obtain ⟨c, cs, hcs⟩ := List.exists_cons_of_ne_nil hchars
  obtain ⟨b, bs, hbs⟩ := List.exists_cons_of_ne_nil (String.utf8EncodeChar_ne_nil (c := c))
  refine ⟨b, ?_⟩
  rw [firstByte, Dsl.bytes, hcs, encode_cons, hbs]
  rfl

theorem at_atom (h : Lexed source tokens) (hparts : Good source tokens parts (depth + 1)) :
    At tokens p (atom literals parts depth) (ExprAt source tokens p) := by
  refine (at_take h).bind fun p₁ value _ hp₁ hvalue => ?_
  obtain ⟨h₁, hne⟩ := hvalue
  obtain ⟨b, hb⟩ := firstByte_isSome hne
  split
  · split
    · exact at_pure hp₁ ⟨h₁, fun _ _ _ => .string⟩
    · exact at_error
  · rw [hb]
    refine (at_read (Q := fun q _ => q = p₁) hp₁ (by simp) fun _ _ => rfl).bind fun p₂ first _ hp₂ hsame => ?_
    subst hsame
    split
    · exact at_pure hp₂ ⟨h₁, fun _ _ _ => .number⟩
    · split
      · exact at_error
      · refine at_look_bind ?_
        split
        · exact at_pure hp₂ ⟨h₁, fun _ _ _ => .name⟩
        · refine (at_take h).bind fun p₃ _ _ hp₃ h₃ => ?_
          refine (at_commas h (fun p hp => at_argument h hparts hp) hp₃).bind fun p₄ args h₄ hp₄ hargs => ?_
          refine at_expect_bind (by decide) fun p₅ h₅ hp₅ => ?_
          refine at_pure hp₅ ⟨by omega, fun lo hi hholds => .call fun a ha => ?_⟩
          obtain ⟨i, j, hi, hj, harg⟩ := hargs a ha
          exact harg lo _ (hholds.sub (by omega) (by omega))

theorem at_exprWith (h : Lexed source tokens) (hparts : depth ≤ 64 → Good source tokens parts (depth + 1)) :
    At tokens p (exprWith literals parts depth) (ExprAt source tokens p) := by
  rw [exprWith]
  split
  · exact at_error
  · rename_i hdepth
    have hparts := hparts (Nat.not_lt.mp hdepth)
    refine at_look_bind ?_
    split
    · exact at_fold h hparts
    · split
      · exact at_list h hparts
      · exact at_atom h hparts

/-! ## Declarations -/

theorem at_numbers {read : String → Option α} {unreadable unexpected : String} {values : List (Expr F)}
    (hp : p ≤ tokens.length) : At tokens p (numbers read unreadable unexpected values) fun _ _ => True := by
  induction values with
  | nil => exact at_pure hp trivial
  | cons v values ih =>
    cases v with
    | number n =>
      rw [numbers]
      split
      · exact at_error
      · exact ih.bind fun q rest _ hq _ => at_pure hq trivial
    | _ => exact at_error

theorem at_listOf {expr : Parser (Expr F)} {message : String} (h : At tokens p expr (ExprAt source tokens p)) :
    At tokens p (listOf expr message) fun q _ => p < q := by
  refine h.bind fun q e _ hq he => ?_
  split
  · exact at_pure hq he.1
  · exact at_error

theorem at_shape (hparts : Good source tokens parts (depth + 1)) :
    At tokens p (shape parts depth) fun q _ => p < q := by
  refine at_expect_bind (by decide) fun p₁ h₁ hp₁ => ?_
  refine at_expect_bind (by decide) fun p₂ h₂ hp₂ => ?_
  refine at_expect_bind (by decide) fun p₃ h₃ hp₃ => ?_
  refine at_expect_bind (by decide) fun p₄ h₄ hp₄ => ?_
  refine at_expect_bind (by decide) fun p₅ h₅ hp₅ => ?_
  refine (at_listOf (hparts.expr _ le_rfl p₅ hp₅)).next fun p₆ values h₆ hp₆ => ?_
  exact (at_numbers hp₆).mono fun q _ hle _ => by omega

theorem at_initialized (h : Lexed source tokens) (hparts : Good source tokens parts (depth + 1)) :
    At tokens p (initialized literals parts depth) fun q _ => p < q := by
  refine (at_name h).next fun p₁ n h₁ hp₁ => ?_
  refine (at_shape (hparts.mono (Nat.le_succ _))).next fun p₂ dims h₂ hp₂ => ?_
  refine at_expect_bind (by decide) fun p₃ h₃ hp₃ => ?_
  refine (at_listOf (hparts.expr _ le_rfl p₃ hp₃)).next fun p₄ values h₄ hp₄ => ?_
  exact (at_numbers hp₄).bind fun p₅ values _ hp₅ _ => at_pure hp₅ (by omega)

/-- The expressions of a member lie in the bytes of its tokens. -/
theorem at_member (h : Lexed source tokens) (hparts : Good source tokens parts (depth + 1)) {allowed : Bool} :
    At tokens p (member literals parts allowed depth) fun q m =>
      p < q ∧ ∀ lo hi, Holds tokens p q lo hi → ∀ e ∈ m.exprs, Within source lo hi e := by
  refine (at_name h).next fun p₁ key h₁ hp₁ => ?_
  split
  · refine (at_name h).next fun p₂ n h₂ hp₂ => ?_
    refine (at_shape (hparts.mono (Nat.le_succ _))).next fun p₃ dims h₃ hp₃ => ?_
    exact at_pure hp₃ ⟨by omega, by simp [Member.exprs]⟩
  · split
    · refine (at_initialized h hparts).next fun p₂ parsed h₂ hp₂ => ?_
      exact at_pure hp₂ ⟨by omega, by simp [Member.exprs]⟩
    · split
      · refine (at_initialized h hparts).next fun p₂ parsed h₂ hp₂ => ?_
        exact at_pure hp₂ ⟨by omega, by simp [Member.exprs]⟩
      · split
        · refine (at_name h).next fun p₂ n h₂ hp₂ => ?_
          refine at_expect_bind (by decide) fun p₃ h₃ hp₃ => ?_
          refine (hparts.expr _ le_rfl p₃ hp₃).bind fun p₄ value _ hp₄ hvalue => ?_
          obtain ⟨h₄, hvalue⟩ := hvalue
          refine at_pure hp₄ ⟨by omega, fun lo hi hholds e he => ?_⟩
          obtain rfl := List.mem_singleton.mp he
          exact hvalue lo hi (hholds.sub (by omega) le_rfl)
        · split
          · refine (at_name h).next fun p₂ n h₂ hp₂ => ?_
            exact at_pure hp₂ ⟨by omega, by simp [Member.exprs]⟩
          · split
            · refine (at_name h).next fun p₂ n h₂ hp₂ => ?_
              refine at_expect_bind (by decide) fun p₃ h₃ hp₃ => ?_
              refine (at_name h).next fun p₄ value h₄ hp₄ => ?_
              exact at_pure hp₄ ⟨by omega, by simp [Member.exprs]⟩
            · refine at_expect_bind (by decide) fun p₂ h₂ hp₂ => ?_
              refine (hparts.expr _ le_rfl p₂ hp₂).bind fun p₃ value _ hp₃ hvalue => ?_
              obtain ⟨h₃, hvalue⟩ := hvalue
              refine at_pure hp₃ ⟨by omega, fun lo hi hholds e he => ?_⟩
              obtain rfl := List.mem_singleton.mp he
              exact hvalue lo hi (hholds.sub (by omega) le_rfl)

/-- A member parsed from the tokens from `p` to `q`. -/
structure MemberAt (source : String) (tokens : List Token) (p q : Nat) (m : SpannedMember F) : Prop where
  lt : p < q
  first : ∃ t, tokens[p]? = some t ∧ m.start = t.start
  last : ∃ t, tokens[q - 1]? = some t ∧ m.stop = t.stop
  nested : ∀ e ∈ m.member.exprs, Within source m.start m.stop e

theorem at_lastStop (hpos : 0 < p) (hp : p ≤ tokens.length) :
    At tokens p lastStop fun q stop => q = p ∧ ∃ t, tokens[p - 1]? = some t ∧ stop = t.stop := by
  have hlast : p - 1 < tokens.length := by omega
  have hread : (do
      let i ← Outcome.sub p 1
      let t ← Outcome.unwrap tokens[i]?
      .ok t.stop : Outcome String Nat) = .ok tokens[p - 1].stop := by
    rw [Outcome.sub_of_le hpos, Outcome.ok_bind, List.getElem?_eq_getElem hlast]
    rfl
  refine at_read hp (fun hpanic => ?_) fun stop hok => ?_
  · cases hread.symm.trans hpanic
  · cases hread.symm.trans hok
    exact ⟨rfl, tokens[p - 1], List.getElem?_eq_getElem hlast, rfl⟩

theorem at_spanned (h : Lexed source tokens) (hparts : Good source tokens parts (depth + 1)) {allowed : Bool} :
    At tokens p (spanned literals parts allowed depth) (MemberAt source tokens p) := by
  refine at_look_bind ?_
  dsimp only
  cases ht : tokens[p]? with
  | none => exact at_error
  | some t =>
    refine (at_member h hparts).bind fun p₁ m _ hp₁ hm => ?_
    obtain ⟨h₁, hm⟩ := hm
    refine at_expect_bind (by decide) fun p₂ h₂ hp₂ => ?_
    refine (at_lastStop (by omega) hp₂).bind fun p₃ stop _ hp₃ hstop => ?_
    obtain ⟨rfl, u, hu, rfl⟩ := hstop
    have hlt : p < p₃ := by omega
    obtain ⟨-, hholds⟩ := h.between hlt ht hu
    exact at_pure hp₃ ⟨hlt, ⟨t, ht, rfl⟩, ⟨u, hu, rfl⟩, hm _ _ (hholds.sub le_rfl (by omega))⟩

/-- A member before others. -/
theorem spanned_cons (h : Lexed source tokens) {r : Nat} {m : SpannedMember F} {members : List (SpannedMember F)}
    (hm : MemberAt source tokens p q m) (hqr : q ≤ r) (hmembers : ∀ lo hi, Holds tokens q r lo hi → Spanned source lo hi members)
    (hholds : Holds tokens p r lo hi) : Spanned source lo hi (m :: members) := by
  obtain ⟨t, ht, hstart⟩ := hm.first
  obtain ⟨u, hu, hstop⟩ := hm.last
  have hlt := hm.lt
  obtain ⟨hplaced, -⟩ := h.between hlt ht hu
  have hlo := (hholds p t le_rfl (by omega) ht).1
  have hhi := (hholds (q - 1) u (by omega) (by omega) hu).2
  obtain ⟨hplaces, hordered, hnested⟩ := hmembers lo hi (hholds.sub hlt.le le_rfl)
  -- The tokens of the other members come after the last one of this.
  have hafter : Holds tokens q r m.stop hi := fun i v hi hr hv =>
    ⟨hstop ▸ h.stop_le (by omega) hu hv, (hholds i v (by omega) hr hv).2⟩
  obtain ⟨hlater, -, -⟩ := hmembers m.stop hi hafter
  refine ⟨List.forall_mem_cons.mpr ⟨⟨?_, ?_, ?_⟩, hplaces⟩, List.pairwise_cons.mpr ⟨fun m' hm' => (hlater m' hm').2.1, hordered⟩,
    List.forall_mem_cons.mpr ⟨hm.nested, hnested⟩⟩
  · rw [hstart, hstop]
    exact hplaced
  · rw [hstart]
    exact hlo
  · rw [hstop]
    exact hhi

theorem at_memberLoop (h : Lexed source tokens) {item : Parser (SpannedMember F)}
    (hitem : ∀ p, At tokens p item (MemberAt source tokens p)) {fuel : Nat} (hp : p ≤ tokens.length)
    (hfuel : tokens.length - p < fuel) :
    At tokens p (memberLoop item fuel) fun q members => ∀ lo hi, Holds tokens p q lo hi → Spanned source lo hi members := by
  induction fuel generalizing p with
  | zero => omega
  | succ fuel ih =>
    rw [memberLoop]
    refine at_look_bind ?_
    split
    · exact at_pure hp fun lo hi _ => ⟨by simp, .nil, by simp⟩
    · refine (hitem p).bind fun q m _ hq hm => ?_
      have hlt := hm.lt
      refine (ih hq (by omega)).bind fun r members hqr hr hmembers => ?_
      exact at_pure hr fun lo hi hholds => spanned_cons h hm hqr hmembers hholds

theorem at_membersWith (h : Lexed source tokens) (hparts : depth ≤ 64 → Good source tokens parts (depth + 1)) {allowed : Bool} :
    At tokens p (membersWith literals parts allowed depth) (MembersAt source tokens p) := by
  rw [membersWith]
  split
  · exact at_error
  · rename_i hdepth
    have hparts := hparts (Nat.not_lt.mp hdepth)
    refine at_expect_bind (by decide) fun p₁ h₁ hp₁ => ?_
    refine at_look_bind ?_
    refine (at_memberLoop h (fun p => at_spanned h hparts) hp₁ (by simp)).bind fun p₂ members h₂ hp₂ hmembers => ?_
    refine at_expect_bind (by decide) fun p₃ h₃ hp₃ => ?_
    exact at_pure hp₃ ⟨by omega, fun lo hi hholds => hmembers lo hi (hholds.sub (by omega) (by omega))⟩

/-- Fuel for the levels left up to the limit is enough. -/
theorem good_parts (h : Lexed source tokens) (literals : Literals F) {fuel : Nat} (hpos : 0 < fuel)
    (hfuel : levels ≤ fuel + depth) : Good source tokens (Parser.parts literals fuel) depth := by
  induction fuel generalizing depth with
  | zero => omega
  | succ fuel ih =>
    have hrest : ∀ d ≥ depth, d ≤ 64 → Good source tokens (Parser.parts literals fuel) (d + 1) := by
      intro d hd hlimit
      rw [levels] at hfuel
      refine ih (by omega) ?_
      rw [levels]
      omega
    exact ⟨fun d hd p _ => at_exprWith h (hrest d hd), fun allowed d hd p _ => at_membersWith h (hrest d hd)⟩

/-! ## Documents -/

theorem at_module (h : Lexed source tokens) {members : Parser (List (SpannedMember F))}
    (hmembers : ∀ p ≤ tokens.length, At tokens p members (MembersAt source tokens p)) :
    At tokens p (module members) fun q m => p < q ∧ Spanned source 0 (bytes source).length m.body := by
  refine (at_take h).bind fun p₁ _ _ hp₁ h₁ => ?_
  refine (at_name h).next fun p₂ n h₂ hp₂ => ?_
  refine at_expect_bind (by decide) fun p₃ h₃ hp₃ => ?_
  refine (at_commas (R := fun _ _ _ => True) h (fun p _ => ?_) hp₃).bind fun p₄ parameters h₄ hp₄ _ => ?_
  · exact (at_name h).mono fun q _ _ hlt => ⟨hlt, trivial⟩
  · refine at_expect_bind (by decide) fun p₅ h₅ hp₅ => ?_
    refine (hmembers p₅ hp₅).bind fun p₆ body _ hp₆ hbody => ?_
    obtain ⟨h₆, hbody⟩ := hbody
    exact at_pure hp₆ ⟨by omega, hbody _ _ h.holds_all⟩

theorem at_moduleLoop (h : Lexed source tokens) {members : Parser (List (SpannedMember F))}
    (hmembers : ∀ p ≤ tokens.length, At tokens p members (MembersAt source tokens p)) {fuel : Nat}
    (hp : p ≤ tokens.length) (hfuel : tokens.length - p < fuel) {modules : List (Module F)}
    (hmodules : ∀ m ∈ modules, Spanned source 0 (bytes source).length m.body) :
    At tokens p (moduleLoop members fuel modules) fun _ modules =>
      ∀ m ∈ modules, Spanned source 0 (bytes source).length m.body := by
  induction fuel generalizing p modules with
  | zero => omega
  | succ fuel ih =>
    rw [moduleLoop]
    refine at_look_bind ?_
    split
    · exact at_pure hp hmodules
    · refine (at_module h hmembers).bind fun q m _ hq hm => ?_
      obtain ⟨hlt, hbody⟩ := hm
      dsimp only
      split
      · exact at_error
      · exact ih hq (by omega) (List.forall_mem_append.mpr ⟨hmodules, by simpa using hbody⟩)

theorem at_document (h : Lexed source tokens) (hparts : Good source tokens parts 0) :
    At tokens p (document parts) fun _ d => PlacedDocument source d := by
  have hmembers := fun allowed => hparts.members allowed 0 le_rfl
  refine at_look_bind ?_
  split
  · exact at_fail
  · refine at_expect_bind (by decide) fun p₁ h₁ hp₁ => ?_
    refine at_expect_bind (by decide) fun p₂ h₂ hp₂ => ?_
    refine at_expect_bind (by decide) fun p₃ h₃ hp₃ => ?_
    refine at_expect_bind (by decide) fun p₄ h₄ hp₄ => ?_
    refine at_look_bind ?_
    refine (at_moduleLoop h (hmembers true) hp₄ (by simp) (by simp)).bind fun p₅ modules _ hp₅ hmodules => ?_
    refine at_expect_bind (by decide) fun p₆ h₆ hp₆ => ?_
    refine (at_name h).next fun p₇ modelName h₇ hp₇ => ?_
    refine (hmembers true p₇ hp₇).bind fun p₈ model _ hp₈ hmodel => ?_
    refine at_expect_bind (by decide) fun p₉ h₉ hp₉ => ?_
    refine (at_name h).next fun q₁ planName g₁ hq₁ => ?_
    refine at_expect_bind (by decide) fun q₂ g₂ hq₂ => ?_
    refine (at_name h).next fun q₃ target g₃ hq₃ => ?_
    split
    · exact at_error
    · refine (hmembers false q₃ hq₃).bind fun q₄ plan _ hq₄ hplan => ?_
      refine at_look_bind ?_
      split
      · exact at_error
      · exact at_pure hq₄ ⟨hmodules, hmodel.2 _ _ h.holds_all, hplan.2 _ _ h.holds_all⟩

end Parser

/-- The lexer and the parser come to an end without a panic on every source, with fuel
for the levels up to the nesting limit alone. Every member of a document they return is
at a range of whole characters, in order with its neighbours and around its own folds. -/
theorem parse_total_spanned (literals : Literals F) (source : String) :
    lex source ≠ .panic ∧ parse literals source ≠ .panic ∧
      ∀ d, parse literals source = .ok d → PlacedDocument source d := by
  obtain ⟨hlex, hlexed⟩ := lex_spec source
  cases htokens : lex source with
  | panic => exact absurd htokens hlex
  | err e =>
    refine ⟨by simp, ?_⟩
    rw [parse, htokens]
    simp
  | ok tokens =>
    have hgood : Good source tokens (Parser.parts literals levels) 0 :=
      Parser.good_parts (hlexed tokens htokens) literals (by decide) le_rfl
    have hdocument := Parser.at_document (p := 0) (hlexed tokens htokens) hgood
    refine ⟨by simp, ?_⟩
    rw [parse, htokens, Outcome.ok_bind]
    exact ⟨hdocument.ne_panic, fun d hd => (hdocument.ok (Prod.ext hd rfl)).2.2.2⟩

end Inferfabric.Dsl
