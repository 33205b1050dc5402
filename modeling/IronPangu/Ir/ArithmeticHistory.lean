-- SUMMARY: The arithmetic history of a resident: its spans, the checked append, prefixes, and the proof that it is a run-length encoding of the completed invocations.
import IronPangu.Ir.Serving
import IronPangu.Lib.Machine
import IronPangu.Lib.RunLength

/-!
# Arithmetic history

The spans coalesce adjacent equal invocations. They are laid out from the
canonical run-length encoding of the invocation list, so a history, its prefixes
and the comparison of two prefixes are determined by the invocations alone.
-/

open Rust

namespace Inferfabric.Ir

structure Span where
  start : Nat
  end_ : Nat
  queryTokens : Nat
  numericalClass : String
  deriving DecidableEq, Repr

structure ArithmeticHistory where
  version : Nat
  spans : List Span
  deriving DecidableEq, Repr

/-- `ArithmeticHistory::default`. -/
def ArithmeticHistory.default : ArithmeticHistory where
  version := 1
  spans := []

namespace ArithmeticHistory

def tokens (h : ArithmeticHistory) : Nat := (h.spans.getLast?.map Span.end_).getD 0

def checkAppend (h : ArithmeticHistory) (variant : Variant) (position count : Nat) : Result Unit :=
  if position ≠ h.tokens ∨ count = 0 ∨ variant.numericalClass = "" ∨
      !variant.acceptsQueryTokens count ∨
      -- An end that does not fit in `u32` is beyond every context.
      (checkedAdd u32Max position count).all fun end_ => decide (end_ > variant.maxContext) then
    invalid "noncontiguous or unsupported arithmetic history invocation"
  else
    .ok ()

/-- The spans once an invocation that passed its checks is recorded. -/
def record (spans : List Span) (numericalClass : String) (position count : Nat) : List Span :=
  let span : Span := ⟨position, position + count, count, numericalClass⟩
  match spans.getLast? with
  | some last =>
    if last.queryTokens = count ∧ last.numericalClass = numericalClass then
      spans.dropLast ++ [{ last with end_ := position + count }]
    else
      spans ++ [span]
  | none => spans ++ [span]

def appendCompleted (variant : Variant) (position count : Nat) :
    Method ArithmeticHistory Error Unit := do
  Method.read fun h => h.checkAppend variant position count
  Method.modify fun h => { h with spans := record h.spans variant.numericalClass position count }

/-- The loop of `prefix_`. -/
def prefixSpans (boundary : Nat) : List Span → Result (List Span)
  | [] => .ok []
  | span :: spans =>
    if span.start ≥ boundary then
      .ok []
    else do
      let part := { span with end_ := min span.end_ boundary }
      let width ← Outcome.sub part.end_ part.start
      let cut ← Outcome.rem width part.queryTokens
      if cut ≠ 0 then
        invalid "arithmetic prefix splits a packed invocation"
      else do
        let parts ← prefixSpans boundary spans
        .ok (part :: parts)

def prefix_ (h : ArithmeticHistory) (boundary : Nat) : Result ArithmeticHistory :=
  if boundary > h.tokens then
    invalid "arithmetic prefix exceeds completed history"
  else do
    let spans ← prefixSpans boundary h.spans
    .ok { default with spans := spans }

def samePrefix (h other : ArithmeticHistory) (boundary : Nat) : Result Bool :=
  match h.prefix_ boundary, other.prefix_ boundary with
  | .ok a, .ok b => .ok (a = b)
  | .panic, _ => .panic
  | _, .panic => .panic
  | _, _ => .ok false

end ArithmeticHistory

/-! ## Invocations -/

/-- What a completed invocation leaves in a history. -/
structure Invocation where
  numericalClass : String
  queryTokens : Nat
  deriving DecidableEq, Repr

namespace Invocation

/-- The tokens of consecutive invocations. -/
def total (invs : List Invocation) : Nat := (invs.map queryTokens).sum

/-- Some of the invocations, from the first on, take exactly `boundary` tokens. -/
def IsBoundary (boundary : Nat) (invs : List Invocation) : Prop :=
  ∃ pre : List Invocation, pre <+: invs ∧ total pre = boundary

/-- The invocations that end within the first `boundary` tokens. -/
def upTo : Nat → List Invocation → List Invocation
  | _, [] => []
  | boundary, inv :: invs =>
    if inv.queryTokens ≤ boundary then inv :: upTo (boundary - inv.queryTokens) invs else []

variable {invs pre : List Invocation} {inv : Invocation} {boundary : Nat}

@[simp] theorem total_nil : total [] = 0 := rfl

@[simp] theorem total_cons : total (inv :: invs) = inv.queryTokens + total invs := by
  simp [total]

@[simp] theorem total_append {invs' : List Invocation} :
    total (invs ++ invs') = total invs + total invs' := by
  simp [total]

@[simp] theorem total_replicate {n : Nat} :
    total (List.replicate n inv) = n * inv.queryTokens := by
  simp [total]

/-- Counts are positive, so a boundary determines the invocations before it. -/
theorem upTo_eq_of_initial (hpos : ∀ inv ∈ invs, 0 < inv.queryTokens) (hpre : pre <+: invs) :
    upTo (total pre) invs = pre := by
  induction invs generalizing pre with
  | nil =>
    obtain rfl := List.prefix_nil.mp hpre
    rfl
  | cons inv invs ih =>
    have hinv := hpos inv List.mem_cons_self
    cases pre with
    | nil =>
      rw [upTo, if_neg]
      simpa using hinv.ne'
    | cons first pre =>
      obtain ⟨rfl, htail⟩ := List.cons_prefix_cons.mp hpre
      rw [upTo, if_pos (by simp), total_cons, Nat.add_sub_cancel_left,
        ih (fun i hi => hpos i (List.mem_cons_of_mem _ hi)) htail]

theorem upTo_prefix (boundary : Nat) (invs : List Invocation) : upTo boundary invs <+: invs := by
  induction invs generalizing boundary with
  | nil => exact List.prefix_refl _
  | cons inv invs ih =>
    rw [upTo]
    split
    · exact List.cons_prefix_cons.mpr ⟨rfl, ih _⟩
    · exact List.nil_prefix

end Invocation

/-! ## Layout -/

section

open Invocation RunLength

variable {invs : List Invocation} {rs ss : List (Invocation × Nat)} {inv : Invocation}
  {n p boundary : Nat}

/-- Spans of consecutive runs of invocations. -/
def layout (p : Nat) : List (Invocation × Nat) → List Span
  | [] => []
  | (inv, n) :: rs =>
    ⟨p, p + n * inv.queryTokens, inv.queryTokens, inv.numericalClass⟩ ::
      layout (p + n * inv.queryTokens) rs

/-- The history of an invocation list. -/
def ofInvocations (invs : List Invocation) : ArithmeticHistory :=
  ⟨1, layout 0 (encode invs)⟩

theorem layout_append :
    layout p (rs ++ ss) = layout p rs ++ layout (p + total (unroll rs)) ss := by
  induction rs generalizing p with
  | nil => simp [layout]
  | cons r rs ih =>
    obtain ⟨inv, n⟩ := r
    simp only [List.cons_append, layout, ih, unroll_cons, total_append, total_replicate,
      Nat.add_assoc]

theorem getLast?_layout_concat :
    (layout p (rs ++ [(inv, n)])).getLast? =
      some ⟨p + total (unroll rs), p + total (unroll rs) + n * inv.queryTokens, inv.queryTokens,
        inv.numericalClass⟩ := by
  simp [layout_append, layout]

theorem tokens_ofInvocations (invs : List Invocation) :
    (ofInvocations invs).tokens = total invs := by
  conv_rhs => rw [← unroll_encode invs]
  rw [ofInvocations, ArithmeticHistory.tokens]
  cases encode invs using List.reverseRecOn with
  | nil => rfl
  | append_singleton rs r =>
    obtain ⟨inv, n⟩ := r
    simp [getLast?_layout_concat, unroll_append]

/-- Recording one more invocation lays out one more push. -/
theorem record_layout (rs : List (Invocation × Nat)) (inv : Invocation) :
    ArithmeticHistory.record (layout 0 rs) inv.numericalClass (total (unroll rs)) inv.queryTokens =
      layout 0 (push rs inv) := by
  cases rs using List.reverseRecOn with
  | nil => simp [ArithmeticHistory.record, layout, push_nil]
  | append_singleton rs r =>
    obtain ⟨last, n⟩ := r
    rw [ArithmeticHistory.record, getLast?_layout_concat, push_concat]
    simp only [Nat.zero_add]
    have hlast : (last.queryTokens = inv.queryTokens ∧ last.numericalClass = inv.numericalClass) ↔
        last = inv := by
      cases last
      cases inv
      simp [and_comm]
    by_cases hrun : last = inv
    · rw [if_pos (hlast.mpr hrun), if_pos hrun]
      subst hrun
      simp [layout_append, layout, unroll_append, Nat.succ_mul, Nat.add_assoc]
    · rw [if_neg (mt hlast.mp hrun), if_neg hrun]
      simp [layout_append, layout, unroll_append]

/-! ## Prefixes -/

/-- The loop stops at the first span that starts at or after the boundary. -/
theorem prefixSpans_past (h : boundary ≤ p) :
    ArithmeticHistory.prefixSpans boundary (layout p rs) = .ok [] := by
  cases rs with
  | nil => rfl
  | cons r rs => exact if_pos h

/-- One turn of the loop, on a run that starts before the boundary. -/
theorem prefixSpans_cons (hquery : 0 < inv.queryTokens) (hstart : p < boundary) :
    ArithmeticHistory.prefixSpans boundary (layout p ((inv, n) :: rs)) =
      if min (n * inv.queryTokens) (boundary - p) % inv.queryTokens ≠ 0 then
        invalid "arithmetic prefix splits a packed invocation"
      else
        ArithmeticHistory.prefixSpans boundary (layout (p + n * inv.queryTokens) rs) >>= fun parts =>
          .ok (⟨p, min (p + n * inv.queryTokens) boundary, inv.queryTokens, inv.numericalClass⟩ ::
            parts) := by
  have hwidth : min (p + n * inv.queryTokens) boundary - p =
      min (n * inv.queryTokens) (boundary - p) := by
    omega
  have hnonneg : p ≤ min (p + n * inv.queryTokens) boundary := by omega
  rw [layout, ArithmeticHistory.prefixSpans, if_neg (Nat.not_le.mpr hstart)]
  simp only [Outcome.sub_of_le hnonneg, Outcome.rem_pos hquery, Outcome.ok_bind, hwidth]

/-- Nonempty runs of nonempty invocations. -/
def Positive (rs : List (Invocation × Nat)) : Prop := ∀ r ∈ rs, 0 < r.2 ∧ 0 < r.1.queryTokens

theorem Positive.tail (h : Positive ((inv, n) :: rs)) : Positive rs :=
  fun r hr => h r (List.mem_cons_of_mem _ hr)

/-- The loop never panics: spans do not end before they start, and no span has
    empty invocations. -/
theorem prefixSpans_ne_panic (hpos : Positive rs) :
    ArithmeticHistory.prefixSpans boundary (layout p rs) ≠ .panic := by
  induction rs generalizing p with
  | nil => simp [layout, ArithmeticHistory.prefixSpans]
  | cons r rs ih =>
    obtain ⟨inv, n⟩ := r
    rcases Nat.lt_or_ge p boundary with hstart | hpast
    · rw [prefixSpans_cons (hpos _ List.mem_cons_self).2 hstart]
      split
      · exact invalid_ne_panic
      · intro hpanic
        rcases Outcome.bind_eq_panic.mp hpanic with hrest | ⟨parts, -, hdone⟩
        · exact ih hpos.tail hrest
        · cases hdone
    · simp [prefixSpans_past hpast]

/-- A boundary between invocations cuts the runs there. -/
theorem prefixSpans_boundary (hpos : Positive rs) {k : Nat}
    (hk : k ≤ (unroll rs).length) :
    ArithmeticHistory.prefixSpans (p + total ((unroll rs).take k)) (layout p rs) =
      .ok (layout p (takeRuns k rs)) := by
  induction rs generalizing p k with
  | nil => simp [layout, ArithmeticHistory.prefixSpans]
  | cons r rs ih =>
    obtain ⟨inv, n⟩ := r
    obtain ⟨hn, hinv⟩ : 0 < n ∧ 0 < inv.queryTokens := hpos (inv, n) List.mem_cons_self
    rcases Nat.eq_zero_or_pos k with rfl | hkpos
    · rw [takeRuns_zero, List.take_zero, total_nil, Nat.add_zero]
      exact prefixSpans_past (Nat.le_refl p)
    · rcases Nat.lt_or_ge n k with hpast | hcut
      · -- The whole run is kept and the loop goes on.
        have hrest : k - n ≤ (unroll rs).length := by
          simp only [unroll_cons, List.length_append, List.length_replicate] at hk
          omega
        have htake : (unroll ((inv, n) :: rs)).take k =
            List.replicate n inv ++ (unroll rs).take (k - n) := by
          rw [unroll_cons, List.take_append, List.length_replicate,
            List.take_of_length_le (by simpa using hpast.le)]
        have hnext := ih (p := p + n * inv.queryTokens)
          hpos.tail hrest
        rw [Nat.add_assoc] at hnext
        have hsome : 0 < n * inv.queryTokens := Nat.mul_pos hn hinv
        rw [takeRuns_past hpast, htake, total_append, total_replicate,
          prefixSpans_cons hinv (by omega), hnext, Nat.add_sub_cancel_left,
          Nat.min_eq_left (Nat.le_add_right _ _), Nat.min_eq_left (by omega)]
        simp [layout]
      · -- The boundary falls within this run.
        have htake : (unroll ((inv, n) :: rs)).take k = List.replicate k inv := by
          rw [unroll_cons, List.take_append_of_le_length (by simpa using hcut), List.take_replicate,
            Nat.min_eq_left hcut]
        have hle : k * inv.queryTokens ≤ n * inv.queryTokens := Nat.mul_le_mul_right _ hcut
        have hsome : 0 < k * inv.queryTokens := Nat.mul_pos hkpos hinv
        rw [takeRuns_cut hkpos hcut, htake, total_replicate, prefixSpans_cons hinv (by omega),
          prefixSpans_past (by omega), Nat.add_sub_cancel_left, Nat.min_eq_right hle]
        simp [layout, hle]

/-- A boundary the loop accepts lies between invocations. -/
theorem boundary_of_prefixSpans {parts : List Span} (hpos : Positive rs) (hp : p ≤ boundary)
    (hb : boundary ≤ p + total (unroll rs))
    (hok : ArithmeticHistory.prefixSpans boundary (layout p rs) = .ok parts) :
    ∃ k, k ≤ (unroll rs).length ∧ boundary = p + total ((unroll rs).take k) := by
  induction rs generalizing p parts with
  | nil =>
    refine ⟨0, Nat.zero_le _, ?_⟩
    simp only [unroll_nil, total_nil, List.take_zero] at hb ⊢
    omega
  | cons r rs ih =>
    obtain ⟨inv, n⟩ := r
    obtain ⟨-, hinv⟩ : 0 < n ∧ 0 < inv.queryTokens := hpos (inv, n) List.mem_cons_self
    rw [unroll_cons, total_append, total_replicate] at hb
    rcases Nat.eq_or_lt_of_le hp with rfl | hstart
    · exact ⟨0, Nat.zero_le _, by simp⟩
    · rw [prefixSpans_cons hinv hstart] at hok
      split at hok
      · exact absurd hok invalid_ne_ok
      · rename_i hdivides
        rw [not_not] at hdivides
        obtain ⟨rest, hrest, -⟩ := Outcome.bind_eq_ok.mp hok
        rcases Nat.lt_or_ge boundary (p + n * inv.queryTokens) with hcut | hpast
        · -- The boundary is within this run, at a multiple of its invocations.
          rw [Nat.min_eq_right (by omega)] at hdivides
          obtain ⟨k, hk⟩ := Nat.dvd_of_mod_eq_zero hdivides
          rw [Nat.mul_comm] at hk
          have hkn : k ≤ n := by
            have : k * inv.queryTokens < n * inv.queryTokens := by omega
            exact (Nat.lt_of_mul_lt_mul_right this).le
          refine ⟨k, by simp; omega, ?_⟩
          rw [unroll_cons, List.take_append_of_le_length (by simpa using hkn), List.take_replicate,
            Nat.min_eq_left hkn, total_replicate]
          omega
        · obtain ⟨k, hk, hboundary⟩ := ih hpos.tail hpast (by omega) hrest
          refine ⟨n + k, by simpa using hk, ?_⟩
          rw [unroll_cons, List.take_append, List.length_replicate, Nat.add_sub_cancel_left,
            List.take_of_length_le (by simp), total_append, total_replicate, hboundary, Nat.add_assoc]

end

/-! ## Histories of invocation lists -/

section

open Invocation RunLength

variable {invs pre : List Invocation} {boundary : Nat}

theorem positive_encode (hpos : ∀ inv ∈ invs, 0 < inv.queryTokens) : Positive (encode invs) := by
  intro r hr
  have hn := (canonical_encode invs).positive r hr
  refine ⟨hn, hpos r.1 ?_⟩
  rw [← unroll_encode invs, unroll, List.mem_flatMap]
  exact ⟨r, hr, List.mem_replicate.mpr ⟨hn.ne', rfl⟩⟩

/-- A prefix at the end of some of the invocations is the history of those. -/
theorem prefix_ofInvocations (hpos : ∀ inv ∈ invs, 0 < inv.queryTokens) (hpre : pre <+: invs) :
    (ofInvocations invs).prefix_ (total pre) = .ok (ofInvocations pre) := by
  have htake : pre = invs.take pre.length := List.prefix_iff_eq_take.mp hpre
  have hle : total pre ≤ total invs := by
    obtain ⟨rest, rfl⟩ := hpre
    simp
  have hspans := prefixSpans_boundary (p := 0) (positive_encode hpos) (k := pre.length)
    (by rw [unroll_encode]; exact hpre.length_le)
  rw [Nat.zero_add, unroll_encode, ← htake, ← encode_take, ← htake] at hspans
  rw [ArithmeticHistory.prefix_, tokens_ofInvocations, if_neg (Nat.not_lt.mpr hle), ofInvocations,
    hspans]
  rfl

/-- No other boundary has a prefix. -/
theorem boundary_of_prefix {h : ArithmeticHistory} (hpos : ∀ inv ∈ invs, 0 < inv.queryTokens)
    (hok : (ofInvocations invs).prefix_ boundary = .ok h) : IsBoundary boundary invs := by
  rw [ArithmeticHistory.prefix_, tokens_ofInvocations] at hok
  split at hok
  · exact absurd hok invalid_ne_ok
  · rename_i hle
    obtain ⟨parts, hparts, -⟩ := Outcome.bind_eq_ok.mp hok
    obtain ⟨k, -, hboundary⟩ := boundary_of_prefixSpans (positive_encode hpos) (Nat.zero_le _)
      (by rw [unroll_encode]; omega) hparts
    rw [unroll_encode, Nat.zero_add] at hboundary
    exact ⟨invs.take k, List.take_prefix k invs, hboundary.symm⟩

theorem prefix_eq_ok_iff {h : ArithmeticHistory} (hpos : ∀ inv ∈ invs, 0 < inv.queryTokens) :
    (ofInvocations invs).prefix_ boundary = .ok h ↔
      ∃ pre : List Invocation, pre <+: invs ∧ total pre = boundary ∧ h = ofInvocations pre := by
  constructor
  · intro hok
    obtain ⟨pre, hpre, rfl⟩ := boundary_of_prefix hpos hok
    rw [prefix_ofInvocations hpos hpre] at hok
    exact ⟨pre, hpre, rfl, (Outcome.ok.inj hok).symm⟩
  · rintro ⟨pre, hpre, rfl, rfl⟩
    exact prefix_ofInvocations hpos hpre

theorem prefix_ne_panic (hpos : ∀ inv ∈ invs, 0 < inv.queryTokens) :
    (ofInvocations invs).prefix_ boundary ≠ .panic := by
  rw [ArithmeticHistory.prefix_]
  split
  · exact invalid_ne_panic
  · intro hpanic
    rcases Outcome.bind_eq_panic.mp hpanic with hspans | ⟨parts, -, hdone⟩
    · exact prefixSpans_ne_panic (positive_encode hpos) hspans
    · cases hdone

/-- The invocations a span stands for. -/
def Span.invocations (span : Span) : List Invocation :=
  List.replicate ((span.end_ - span.start) / span.queryTokens)
    ⟨span.numericalClass, span.queryTokens⟩

theorem invocations_layout {rs : List (Invocation × Nat)} {p : Nat} (hpos : Positive rs) :
    (layout p rs).flatMap Span.invocations = unroll rs := by
  induction rs generalizing p with
  | nil => rfl
  | cons r rs ih =>
    obtain ⟨inv, n⟩ := r
    have hinv : 0 < inv.queryTokens := (hpos (inv, n) List.mem_cons_self).2
    rw [layout, List.flatMap_cons, ih hpos.tail, unroll_cons, Span.invocations]
    simp only [Nat.add_sub_cancel_left, Nat.mul_div_cancel _ hinv]

theorem invocations_ofInvocations (hpos : ∀ inv ∈ invs, 0 < inv.queryTokens) :
    (ofInvocations invs).spans.flatMap Span.invocations = invs := by
  rw [ofInvocations, invocations_layout (positive_encode hpos), unroll_encode]

/-- Different invocation lists have different histories. -/
theorem ofInvocations_injective {invs' : List Invocation} (hpos : ∀ inv ∈ invs, 0 < inv.queryTokens)
    (hpos' : ∀ inv ∈ invs', 0 < inv.queryTokens) (h : ofInvocations invs = ofInvocations invs') :
    invs = invs' := by
  rw [← invocations_ofInvocations hpos, h, invocations_ofInvocations hpos']

/-- Two histories share a prefix exactly when their invocations do. -/
theorem samePrefix_ofInvocations {invs' : List Invocation}
    (hpos : ∀ inv ∈ invs, 0 < inv.queryTokens) (hpos' : ∀ inv ∈ invs', 0 < inv.queryTokens) :
    ∃ same, (ofInvocations invs).samePrefix (ofInvocations invs') boundary = .ok same ∧
      (same = true ↔ IsBoundary boundary invs ∧ IsBoundary boundary invs' ∧
        upTo boundary invs = upTo boundary invs') := by
  rw [ArithmeticHistory.samePrefix]
  rcases hleft : (ofInvocations invs).prefix_ boundary with a | e | -
  · obtain ⟨pre, hpre, hboundary, rfl⟩ := (prefix_eq_ok_iff hpos).mp hleft
    rcases hright : (ofInvocations invs').prefix_ boundary with b | e | -
    · obtain ⟨pre', hpre', hboundary', rfl⟩ := (prefix_eq_ok_iff hpos').mp hright
      refine ⟨_, rfl, ?_⟩
      have hupTo : upTo boundary invs = pre := hboundary ▸ upTo_eq_of_initial hpos hpre
      have hupTo' : upTo boundary invs' = pre' := hboundary' ▸ upTo_eq_of_initial hpos' hpre'
      rw [decide_eq_true_iff, hupTo, hupTo']
      constructor
      · intro hsame
        refine ⟨⟨pre, hpre, hboundary⟩, ⟨pre', hpre', hboundary'⟩, ?_⟩
        exact ofInvocations_injective (fun i hi => hpos i (hpre.subset hi))
          (fun i hi => hpos' i (hpre'.subset hi)) hsame
      · rintro ⟨-, -, rfl⟩
        rfl
    · refine ⟨_, rfl, ?_⟩
      simp only [Bool.false_eq_true, false_iff]
      rintro ⟨-, ⟨pre', hpre', rfl⟩, -⟩
      rw [prefix_ofInvocations hpos' hpre'] at hright
      cases hright
    · exact absurd hright (prefix_ne_panic hpos')
  · have hfalse : ¬IsBoundary boundary invs := by
      rintro ⟨pre, hpre, rfl⟩
      rw [prefix_ofInvocations hpos hpre] at hleft
      cases hleft
    rcases hright : (ofInvocations invs').prefix_ boundary with b | e | -
    · exact ⟨_, rfl, by simp [hfalse]⟩
    · exact ⟨_, rfl, by simp [hfalse]⟩
    · exact absurd hright (prefix_ne_panic hpos')
  · exact absurd hleft (prefix_ne_panic hpos)

end

/-! ## Runs -/

/-- One call of `append_completed`. -/
structure Append where
  variant : Variant
  position : Nat
  count : Nat
  deriving DecidableEq, Repr

namespace ArithmeticHistory

open Invocation

def step (op : Append) : Method ArithmeticHistory Error Unit :=
  appendCompleted op.variant op.position op.count

/-- The invocation a call completes, when it is accepted. -/
def completedBy (ev : Event ArithmeticHistory Error Append Unit) : Option Invocation :=
  match ev.reply with
  | .ok () => some ⟨ev.call.variant.numericalClass, ev.call.count⟩
  | _ => none

/-- The history a list of calls builds, from the empty one. -/
def built (ops : List Append) : ArithmeticHistory := final step ops default

/-- The invocations of the accepted calls, in order. -/
def completed (ops : List Append) : List Invocation :=
  (history step ops default).filterMap completedBy

/-- The history records these invocations. -/
structure Completed (h : ArithmeticHistory) (invs : List Invocation) : Prop where
  eq : h = ofInvocations invs
  positive : ∀ inv ∈ invs, 0 < inv.queryTokens

end ArithmeticHistory

/-- The type as its users have it: histories are built by checked appends only,
    and record the invocations of those. -/
structure CompletedHistory where
  value : ArithmeticHistory
  invocations : List Invocation
  completed : value.Completed invocations

namespace ArithmeticHistory

open Invocation

variable {h h' : ArithmeticHistory} {invs : List Invocation} {op : Append}

theorem completed_default : Completed default [] := ⟨rfl, by simp⟩

theorem checkAppend_eq_ok {variant : Variant} {position count : Nat} :
    h.checkAppend variant position count = .ok () ↔
      position = h.tokens ∧ 0 < count ∧ variant.numericalClass ≠ "" ∧
        variant.acceptsQueryTokens count = true ∧
        position + count ≤ u32Max ∧ position + count ≤ variant.maxContext := by
  have hend : (checkedAdd u32Max position count).all (fun end_ => decide (end_ > variant.maxContext)) =
      false ↔ position + count ≤ u32Max ∧ position + count ≤ variant.maxContext := by
    rw [checkedAdd]
    split <;> simp_all
  rw [← hend, checkAppend]
  split
  · rename_i hbad
    simp only [invalid_ne_ok, false_iff]
    rintro ⟨rfl, hcount, hclass, haccepts, hrange⟩
    simp [hcount.ne', hclass, haccepts, hrange] at hbad
  · rename_i hgood
    simpa [Nat.pos_iff_ne_zero] using hgood

theorem checkAppend_err {variant : Variant} {position count : Nat}
    (h' : h.checkAppend variant position count ≠ .ok ()) :
    ∃ e, h.checkAppend variant position count = .err e := by
  rw [checkAppend] at h' ⊢
  split at h'
  · rename_i hbad
    rw [if_pos hbad]
    exact ⟨_, rfl⟩
  · exact absurd rfl h'

/-- A call is answered by the check alone; an accepted one completes its
    invocation, a rejected one changes nothing. -/
theorem Completed.step (hc : Completed h invs) (op : Append) :
    (∃ e, ArithmeticHistory.step op h = (.err e, h)) ∨
      ∃ h', ArithmeticHistory.step op h = (.ok (), h') ∧
        Completed h' (invs ++ [⟨op.variant.numericalClass, op.count⟩]) := by
  by_cases hcheck : h.checkAppend op.variant op.position op.count = .ok ()
  · right
    obtain ⟨hposition, hcount, -⟩ := checkAppend_eq_ok.mp hcheck
    refine ⟨{ h with spans := record h.spans op.variant.numericalClass op.position op.count }, ?_, ?_, ?_⟩
    · exact Method.bind_ok (by rw [Method.read_run, hcheck])
    · have htokens : op.position = total (RunLength.unroll (RunLength.encode invs)) := by
        rw [hposition, hc.eq, tokens_ofInvocations, RunLength.unroll_encode]
      rw [hc.eq, ofInvocations, ofInvocations, RunLength.encode_concat, htokens]
      exact congrArg _ (record_layout _ ⟨_, op.count⟩)
    · intro inv hinv
      rcases List.mem_append.mp hinv with hinv | hinv
      · exact hc.positive inv hinv
      · obtain rfl := List.mem_singleton.mp hinv
        exact hcount
  · left
    obtain ⟨e, he⟩ := checkAppend_err hcheck
    exact ⟨e, Method.bind_err (by rw [Method.read_run, he])⟩

theorem built_concat (ops : List Append) (op : Append) :
    built (ops ++ [op]) = (ArithmeticHistory.step op (built ops)).2 :=
  final_concat

theorem completed_concat (ops : List Append) (op : Append) :
    completed (ops ++ [op]) =
      completed ops ++ (completedBy (event ArithmeticHistory.step (built ops) op)).toList := by
  rw [completed, history_concat, List.filterMap_append]
  cases hev : completedBy (event ArithmeticHistory.step (built ops) op) with
  | none => exact congrArg _ (List.filterMap_cons_none hev)
  | some inv => exact congrArg _ (List.filterMap_cons_some hev)

theorem completed_built (ops : List Append) : Completed (built ops) (completed ops) := by
  induction ops using List.reverseRecOn with
  | nil => exact completed_default
  | append_singleton ops op ih =>
    rw [completed_concat, built_concat, completedBy, event]
    rcases ih.step op with ⟨e, hrun⟩ | ⟨h', hrun, hc'⟩
    · rw [hrun]
      simpa using ih
    · rw [hrun]
      exact hc'

/-- Some calls, from the first on, complete any prefix of the invocations. -/
theorem exists_calls {ops : List Append} {pre : List Invocation} (h : pre <+: completed ops) :
    ∃ calls : List Append, calls <+: ops ∧ completed calls = pre := by
  induction ops using List.reverseRecOn with
  | nil => exact ⟨[], List.prefix_refl _, (List.prefix_nil.mp h).symm⟩
  | append_singleton ops op ih =>
    have hsplit : pre <+: completed ops ∨ pre = completed (ops ++ [op]) := by
      rw [completed_concat] at h ⊢
      cases hev : completedBy (event ArithmeticHistory.step (built ops) op) with
      | none =>
        rw [hev, Option.toList_none, List.append_nil] at h
        exact .inl h
      | some inv =>
        rw [hev] at h
        exact (List.prefix_concat_iff.mp h).symm
    rcases hsplit with hpre | rfl
    · obtain ⟨calls, hcalls, hpre⟩ := ih hpre
      exact ⟨calls, hcalls.trans (List.prefix_append ops [op]), hpre⟩
    · exact ⟨ops ++ [op], List.prefix_refl _, rfl⟩

theorem completed_prefix {calls ops : List Append} (h : calls <+: ops) :
    completed calls <+: completed ops := by
  obtain ⟨rest, rfl⟩ := h
  rw [completed, completed, history_append, List.filterMap_append]
  exact List.prefix_append _ _

/-- Spans that follow one another from `p` on. -/
def Contiguous : Nat → List Span → Prop
  | _, [] => True
  | p, span :: spans => span.start = p ∧ Contiguous span.end_ spans

/-- A positive number of equal invocations. -/
def Whole (span : Span) : Prop :=
  0 < span.queryTokens ∧ ∃ n, 0 < n ∧ span.end_ = span.start + n * span.queryTokens

theorem contiguous_layout (p : Nat) (rs : List (Invocation × Nat)) : Contiguous p (layout p rs) := by
  induction rs generalizing p with
  | nil => trivial
  | cons r rs ih => exact ⟨rfl, ih _⟩

theorem whole_layout {rs : List (Invocation × Nat)} {p : Nat} (hpos : Positive rs) :
    ∀ span ∈ layout p rs, Whole span := by
  induction rs generalizing p with
  | nil => simp [layout]
  | cons r rs ih =>
    obtain ⟨inv, n⟩ := r
    rw [layout, List.forall_mem_cons]
    have hhead := hpos (inv, n) List.mem_cons_self
    exact ⟨⟨hhead.2, n, hhead.1, rfl⟩, ih hpos.tail⟩

/-- A history is a faithful run-length encoding of the invocations of its
    accepted calls. -/
theorem run_length_faithful (ops ops' : List Append) (boundary : Nat) :
    Contiguous 0 (built ops).spans ∧
    (∀ span ∈ (built ops).spans, Whole span) ∧
    (built ops).spans.flatMap Span.invocations = completed ops ∧
    (built ops).tokens = total (completed ops) ∧
    (built ops).prefix_ boundary ≠ .panic ∧
    ((∃ h, (built ops).prefix_ boundary = .ok h) ↔ IsBoundary boundary (completed ops)) ∧
    (∀ h, (built ops).prefix_ boundary = .ok h ↔
      ∃ calls, calls <+: ops ∧ total (completed calls) = boundary ∧ h = built calls) ∧
    ∃ same, (built ops).samePrefix (built ops') boundary = .ok same ∧
      (same = true ↔
        IsBoundary boundary (completed ops) ∧ IsBoundary boundary (completed ops') ∧
          upTo boundary (completed ops) = upTo boundary (completed ops')) := by
  obtain ⟨heq, hpos⟩ := completed_built ops
  obtain ⟨heq', hpos'⟩ := completed_built ops'
  refine ⟨?_, ?_, ?_, ?_, ?_, ?_, ?_, ?_⟩
  · rw [heq]
    exact contiguous_layout 0 _
  · rw [heq]
    exact whole_layout (positive_encode hpos)
  · rw [heq]
    exact invocations_ofInvocations hpos
  · rw [heq]
    exact tokens_ofInvocations _
  · rw [heq]
    exact prefix_ne_panic hpos
  · rw [heq]
    constructor
    · rintro ⟨h, hok⟩
      exact boundary_of_prefix hpos hok
    · rintro ⟨pre, hpre, rfl⟩
      exact ⟨_, prefix_ofInvocations hpos hpre⟩
  · intro h
    rw [heq, prefix_eq_ok_iff hpos]
    constructor
    · rintro ⟨pre, hpre, htotal, rfl⟩
      obtain ⟨calls, hcalls, rfl⟩ := exists_calls hpre
      exact ⟨calls, hcalls, htotal, (completed_built calls).eq.symm⟩
    · rintro ⟨calls, hcalls, htotal, rfl⟩
      exact ⟨completed calls, completed_prefix hcalls, htotal, (completed_built calls).eq⟩
  · rw [heq, heq']
    exact samePrefix_ofInvocations hpos hpos'

end ArithmeticHistory

namespace CompletedHistory

open Invocation

/-- The history of a list of calls. -/
def of (ops : List Append) : CompletedHistory :=
  ⟨ArithmeticHistory.built ops, ArithmeticHistory.completed ops, ArithmeticHistory.completed_built ops⟩

/-- A history determines its invocations. -/
theorem ext_value {h h' : CompletedHistory} (hvalue : h.value = h'.value) : h = h' := by
  obtain ⟨value, invs, hc⟩ := h
  obtain ⟨value', invs', hc'⟩ := h'
  obtain rfl : value = value' := hvalue
  obtain rfl := ofInvocations_injective hc.positive hc'.positive (hc.eq.symm.trans hc'.eq)
  rfl

/-- `ArithmeticHistory::default`. -/
def default : CompletedHistory := ⟨ArithmeticHistory.default, [], ArithmeticHistory.completed_default⟩

theorem completed_of_prefix {h : CompletedHistory} {boundary : Nat} {value : ArithmeticHistory}
    (hok : h.value.prefix_ boundary = .ok value) : value.Completed (upTo boundary h.invocations) := by
  rw [h.completed.eq] at hok
  obtain ⟨pre, hpre, rfl, rfl⟩ := (prefix_eq_ok_iff h.completed.positive).mp hok
  rw [upTo_eq_of_initial h.completed.positive hpre]
  exact ⟨rfl, fun inv hinv => h.completed.positive inv (hpre.subset hinv)⟩

/-- `ArithmeticHistory::prefix`. -/
def prefix_ (h : CompletedHistory) (boundary : Nat) : Result CompletedHistory :=
  match hok : h.value.prefix_ boundary with
  | .ok value => .ok ⟨value, upTo boundary h.invocations, completed_of_prefix hok⟩
  | .err e => .err e
  | .panic => .panic

/-- `ArithmeticHistory::append_completed`. -/
def appendCompleted (variant : Variant) (position count : Nat) : Method CompletedHistory Error Unit :=
  fun h =>
    match hrun : ArithmeticHistory.step ⟨variant, position, count⟩ h.value with
    | (.ok (), value) =>
      (.ok (), ⟨value, h.invocations ++ [⟨variant.numericalClass, count⟩], by
        rcases h.completed.step ⟨variant, position, count⟩ with ⟨e, herr⟩ | ⟨value', hok, hc⟩
        · rw [herr] at hrun
          cases hrun
        · rw [hok] at hrun
          obtain ⟨-, rfl⟩ := Prod.mk.inj hrun
          exact hc⟩)
    | (.err e, _) => (.err e, h)
    | (.panic, _) => (.panic, h)

theorem tokens_eq (h : CompletedHistory) : h.value.tokens = total h.invocations := by
  rw [h.completed.eq, tokens_ofInvocations]

/-- An append that passes its check completes one invocation. -/
theorem appendCompleted_ok {h : CompletedHistory} {variant : Variant} {position count : Nat}
    (hcheck : h.value.checkAppend variant position count = .ok ()) :
    ∃ h', appendCompleted variant position count h = (.ok (), h') ∧
      h'.invocations = h.invocations ++ [⟨variant.numericalClass, count⟩] ∧
      h'.value.tokens = position + count := by
  have hrun : ArithmeticHistory.step ⟨variant, position, count⟩ h.value =
      (.ok (), { h.value with spans :=
        ArithmeticHistory.record h.value.spans variant.numericalClass position count }) :=
    Method.bind_ok (by rw [Method.read_run, hcheck])
  rw [appendCompleted]
  split
  · refine ⟨_, rfl, rfl, ?_⟩
    rw [tokens_eq, total_append, ← tokens_eq, (ArithmeticHistory.checkAppend_eq_ok.mp hcheck).1]
    simp [total]
  · rename_i herr
    rw [hrun] at herr
    cases herr
  · rename_i hpanic
    rw [hrun] at hpanic
    cases hpanic

/-- Any other append changes nothing. -/
theorem appendCompleted_err {h : CompletedHistory} {variant : Variant} {position count : Nat}
    (hcheck : h.value.checkAppend variant position count ≠ .ok ()) :
    ∃ e, appendCompleted variant position count h = (.err e, h) := by
  obtain ⟨e, he⟩ := ArithmeticHistory.checkAppend_err hcheck
  have hrun : ArithmeticHistory.step ⟨variant, position, count⟩ h.value = (.err e, h.value) :=
    Method.bind_err (by rw [Method.read_run, he])
  refine ⟨e, ?_⟩
  rw [appendCompleted]
  split
  · rename_i hok
    rw [hrun] at hok
    cases hok
  · rename_i e' _ herr
    obtain ⟨heq, -⟩ := Prod.mk.inj (hrun.symm.trans herr)
    rw [heq]
  · rename_i hpanic
    rw [hrun] at hpanic
    cases hpanic

theorem prefix_tokens_eq {h h' : CompletedHistory} {boundary : Nat}
    (hok : h.prefix_ boundary = .ok h') : h'.value.tokens = boundary := by
  rw [prefix_] at hok
  split at hok
  · rename_i value hvalue
    obtain rfl := Outcome.ok.inj hok
    rw [h.completed.eq] at hvalue
    obtain ⟨pre, -, htotal, rfl⟩ := (prefix_eq_ok_iff h.completed.positive).mp hvalue
    exact (tokens_ofInvocations pre).trans htotal
  · cases hok
  · cases hok

/-- The whole history is a prefix of itself. -/
theorem prefix_tokens {h h' : CompletedHistory} (hok : h.prefix_ h.value.tokens = .ok h') : h' = h := by
  have hself : h.value.prefix_ h.value.tokens = .ok h.value := by
    have := prefix_ofInvocations h.completed.positive (List.prefix_refl h.invocations)
    rwa [← tokens_eq, ← h.completed.eq] at this
  rw [prefix_] at hok
  split at hok
  · rename_i value hvalue
    obtain rfl := Outcome.ok.inj hok
    exact ext_value (Outcome.ok.inj (hvalue.symm.trans hself))
  · cases hok
  · cases hok

/-- Both complete an invocation at the boundary, and the same ones up to it. -/
def Agree (h h' : CompletedHistory) (boundary : Nat) : Prop :=
  IsBoundary boundary h.invocations ∧ IsBoundary boundary h'.invocations ∧
    upTo boundary h.invocations = upTo boundary h'.invocations

/-- Comparing histories comes back, and tells whether they agree. -/
theorem samePrefix (h h' : CompletedHistory) (boundary : Nat) :
    ∃ same, h.value.samePrefix h'.value boundary = .ok same ∧ (same = true ↔ h.Agree h' boundary) := by
  rw [h.completed.eq, h'.completed.eq]
  exact samePrefix_ofInvocations h.completed.positive h'.completed.positive

end CompletedHistory

end Inferfabric.Ir
