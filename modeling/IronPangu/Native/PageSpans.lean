-- SUMMARY: The spans that clear a resident's pages: physically contiguous pages joined, and nothing else covered.
import IronPangu.Lib.Paging
import IronPangu.Lib.Spans
import IronPangu.Native.Ownership

open Rust Method Spans

/-!
# Page spans

A reset clears the pages that a slot owns, in physical order and joined where they
touch. Sizes and offsets are computed in 64 bits.
-/

namespace Inferfabric.Native.State

abbrev PageSpan := Spans.Span

/-- A `uint64_t`. -/
def u64 (n : Nat) : Nat := n % 18446744073709551616

/-- Whether a page is out of bounds, or the same as the one before it. -/
def rejectsPage (count : Nat) : Option Int → List Int → Bool
  | _, [] => false
  | previous, page :: pages =>
    page < 0 || page.toNat ≥ count || previous == some page || rejectsPage count (some page) pages

/-- Add a page to the spans, the latest first. -/
def addPage (pageBytes : Nat) : List PageSpan → Int → List PageSpan
  | [], page => [⟨u64 (page.toNat * pageBytes), pageBytes⟩]
  | last :: spans, page =>
    let offset := u64 (page.toNat * pageBytes)
    if u64 (last.offset + last.bytes) = offset then { last with bytes := u64 (last.bytes + pageBytes) } :: spans
    else ⟨offset, pageBytes⟩ :: last :: spans

def pageSpans (pages : List Int) (pageBytes fieldBytes : Nat) : Outcome String (List PageSpan) :=
  if pageBytes = 0 ∨ fieldBytes = 0 ∨ fieldBytes % pageBytes ≠ 0 then .err "page span field layout"
  else
    let ordered := pages.insertionSort (· ≤ ·)
    if rejectsPage (fieldBytes / pageBytes) none ordered then .err "page span bounds/alias"
    else .ok (ordered.foldl (addPage pageBytes) []).reverse

variable {pages : List Int} {page : Int} {pageBytes fieldBytes count : Nat}

/-! ## Checks -/

/-- A field of one or more pages. -/
def WholePages (pageBytes fieldBytes : Nat) : Prop := ∃ n, 0 < n ∧ 0 < pageBytes ∧ fieldBytes = n * pageBytes

theorem not_wholePages : ¬WholePages pageBytes fieldBytes ↔ pageBytes = 0 ∨ fieldBytes = 0 ∨ fieldBytes % pageBytes ≠ 0 := by
  constructor
  · intro hnot
    by_contra! hlayout
    obtain ⟨hpage, hfield, hwhole⟩ := hlayout
    have hle := Nat.le_of_dvd (Nat.pos_of_ne_zero hfield) (Nat.dvd_of_mod_eq_zero hwhole)
    exact hnot ⟨fieldBytes / pageBytes, Nat.div_pos hle (Nat.pos_of_ne_zero hpage), Nat.pos_of_ne_zero hpage,
      (Nat.div_mul_cancel (Nat.dvd_of_mod_eq_zero hwhole)).symm⟩
  · rintro hlayout ⟨n, hn, hpage, rfl⟩
    rcases hlayout with h | h | h
    · exact hpage.ne' h
    · exact (Nat.mul_pos hn hpage).ne' h
    · exact h (Nat.mul_mod_left n pageBytes)

/-- In an ordered list it is enough to look at neighbours. -/
theorem rejectsPage_eq_false {previous : Option Int} (hordered : (previous.toList ++ pages).Pairwise (· ≤ ·)) :
    rejectsPage count previous pages = false ↔
      (∀ page ∈ pages, 0 ≤ page ∧ page.toNat < count) ∧ (previous.toList ++ pages).Pairwise (· < ·) := by
  induction pages generalizing previous with
  | nil => cases previous <;> simp [rejectsPage]
  | cons page pages ih =>
    have htail : ((some page).toList ++ pages).Pairwise (· ≤ ·) :=
      hordered.sublist (List.sublist_append_right previous.toList (page :: pages))
    have hneighbour : (previous.toList ++ page :: pages).Pairwise (· < ·) ↔
        previous ≠ some page ∧ (page :: pages).Pairwise (· < ·) := by
      cases previous with
      | none => simp
      | some last =>
        have hle := (List.pairwise_cons.mp hordered).1 page List.mem_cons_self
        simp only [Option.toList_some, List.singleton_append, ne_eq, Option.some.injEq]
        rw [List.pairwise_cons]
        refine and_congr_left fun hpages => ⟨fun hlt => (hlt page List.mem_cons_self).ne, fun hne => ?_⟩
        have hlast := lt_of_le_of_ne hle hne
        exact List.forall_mem_cons.mpr ⟨hlast, fun q hq => hlast.trans ((List.pairwise_cons.mp hpages).1 q hq)⟩
    rw [rejectsPage, Bool.or_eq_false_iff, Bool.or_eq_false_iff, Bool.or_eq_false_iff, ih htail, hneighbour,
      List.forall_mem_cons, decide_eq_false_iff_not, decide_eq_false_iff_not, beq_eq_false_iff_ne, not_lt, not_le]
    simp only [Option.toList_some, List.singleton_append]
    tauto

theorem rejectsPage_insertionSort : rejectsPage count none (pages.insertionSort (· ≤ ·)) = false ↔
    (∀ page ∈ pages, 0 ≤ page ∧ page.toNat < count) ∧ pages.Nodup := by
  have hsorted := List.pairwise_insertionSort (· ≤ ·) pages
  have hperm := List.perm_insertionSort (· ≤ ·) pages
  rw [rejectsPage_eq_false hsorted]
  simp only [Option.toList_none, List.nil_append, hperm.mem_iff]
  refine and_congr_right fun _ => ⟨fun hlt => ?_, fun hnodup => ?_⟩
  · exact hperm.nodup_iff.mp (hlt.imp fun h => h.ne)
  · exact (hsorted.and (hperm.nodup_iff.mpr hnodup)).imp fun ⟨hle, hne⟩ => lt_of_le_of_ne hle hne

/-! ## Spans -/

/-- The bytes of one page. -/
def pageSpan (pageBytes : Nat) (page : Int) : PageSpan := ⟨page.toNat * pageBytes, pageBytes⟩

theorem stop_pageSpan : (pageSpan pageBytes page).stop = (page.toNat + 1) * pageBytes :=
  (Nat.succ_mul _ _).symm

theorem pageSpan_stop_le {page' : Int} (hpage : 0 ≤ page) (hlt : page < page') :
    (pageSpan pageBytes page).stop ≤ (pageSpan pageBytes page').offset := by
  rw [stop_pageSpan]
  exact Nat.mul_le_mul_right _ (by omega)

/-- Within a field of 64 bits nothing wraps. -/
theorem addPage_eq_push {spans : List PageSpan} (hfield : fieldBytes ≤ u64Max) (hspans : ∀ s ∈ spans, s.stop ≤ fieldBytes)
    (hpage : (pageSpan pageBytes page).stop ≤ fieldBytes) : addPage pageBytes spans page = push spans (pageSpan pageBytes page) := by
  have hfits : ∀ n ≤ fieldBytes, u64 n = n := fun n hn => Nat.mod_eq_of_lt (Nat.lt_succ_of_le (hn.trans hfield))
  have hoffset : u64 (page.toNat * pageBytes) = page.toNat * pageBytes :=
    hfits _ ((Nat.le_add_right _ _).trans hpage)
  cases spans with
  | nil => rw [addPage, push, hoffset, pageSpan]
  | cons last spans =>
    have hlast : last.offset + last.bytes ≤ fieldBytes := hspans last List.mem_cons_self
    rw [addPage, push, hoffset, hfits _ hlast]
    change _ = if last.offset + last.bytes = page.toNat * pageBytes then _ else _
    by_cases htouch : last.offset + last.bytes = page.toNat * pageBytes
    · have hbytes : last.bytes + pageBytes ≤ fieldBytes := by
        rw [stop_pageSpan, Nat.succ_mul] at hpage
        omega
      rw [if_pos htouch, if_pos htouch, hfits _ hbytes]
      rfl
    · rw [if_neg htouch, if_neg htouch]
      rfl

theorem foldl_addPage (hfield : fieldBytes ≤ u64Max) (hpages : ∀ page ∈ pages, (pageSpan pageBytes page).stop ≤ fieldBytes) :
    (pages.foldl (addPage pageBytes) []).reverse = join (pages.map (pageSpan pageBytes)) := by
  have hfold : ∀ spans : List PageSpan, (∀ s ∈ spans, s.stop ≤ fieldBytes) →
      pages.foldl (addPage pageBytes) spans = (pages.map (pageSpan pageBytes)).foldl push spans := by
    induction pages with
    | nil => exact fun _ _ => rfl
    | cons page pages ih =>
      intro spans hspans
      obtain ⟨hpage, hrest⟩ := List.forall_mem_cons.mp hpages
      rw [List.foldl_cons, List.map_cons, List.foldl_cons, addPage_eq_push hfield hspans hpage]
      exact ih hrest _ (stops_push hspans hpage)
  rw [join, hfold [] (by simp)]

/-- What `pageSpans` returns for pages that pass its checks. -/
theorem pageSpans_eq_ok (hfield : fieldBytes ≤ u64Max) (hlayout : WholePages pageBytes fieldBytes)
    (hpages : ∀ page ∈ pages, 0 ≤ page ∧ page.toNat < fieldBytes / pageBytes) (hnodup : pages.Nodup) :
    pageSpans pages pageBytes fieldBytes = .ok (join ((pages.insertionSort (· ≤ ·)).map (pageSpan pageBytes))) := by
  have hchecked : rejectsPage (fieldBytes / pageBytes) none (pages.insertionSort (· ≤ ·)) = false :=
    rejectsPage_insertionSort.mpr ⟨hpages, hnodup⟩
  have hstops : ∀ page ∈ pages.insertionSort (· ≤ ·), (pageSpan pageBytes page).stop ≤ fieldBytes := by
    intro page hpage
    rw [stop_pageSpan]
    calc (page.toNat + 1) * pageBytes ≤ fieldBytes / pageBytes * pageBytes :=
          Nat.mul_le_mul_right _ (hpages page (List.mem_insertionSort _ |>.mp hpage)).2
      _ ≤ fieldBytes := Nat.div_mul_le_self _ _
  rw [pageSpans, if_neg fun hnot => not_wholePages.mpr hnot hlayout]
  dsimp only
  rw [hchecked, foldl_addPage hfield hstops]
  rfl

theorem pageSpans_cases (pages : List Int) (pageBytes fieldBytes : Nat) :
    ((¬WholePages pageBytes fieldBytes ∨ (∃ page ∈ pages, page < 0 ∨ fieldBytes / pageBytes ≤ page.toNat) ∨ ¬pages.Nodup) ∧
      ∃ e, pageSpans pages pageBytes fieldBytes = .err e) ∨
    (WholePages pageBytes fieldBytes ∧ (∀ page ∈ pages, 0 ≤ page ∧ page.toNat < fieldBytes / pageBytes) ∧ pages.Nodup) := by
  by_cases hlayout : WholePages pageBytes fieldBytes
  swap
  · exact .inl ⟨.inl hlayout, _, if_pos (not_wholePages.mp hlayout)⟩
  by_cases hchecks : (∀ page ∈ pages, 0 ≤ page ∧ page.toNat < fieldBytes / pageBytes) ∧ pages.Nodup
  · exact .inr ⟨hlayout, hchecks⟩
  refine .inl ⟨.inr ?_, "page span bounds/alias", ?_⟩
  · rw [not_and_or] at hchecks
    refine hchecks.imp_left fun hpage => ?_
    push Not at hpage
    obtain ⟨page, hmem, hbad⟩ := hpage
    refine ⟨page, hmem, ?_⟩
    by_cases hnonneg : 0 ≤ page
    · exact .inr (hbad hnonneg)
    · exact .inl (not_le.mp hnonneg)
  · have hrejected : rejectsPage (fieldBytes / pageBytes) none (pages.insertionSort (· ≤ ·)) = true := by
      rw [← rejectsPage_insertionSort] at hchecks
      simpa using hchecks
    rw [pageSpans, if_neg fun hnot => not_wholePages.mpr hnot hlayout]
    dsimp only
    rw [hrejected]
    rfl

/-- Spans of listed pages: increasing with gaps, and covering the bytes of these pages alone. -/
structure SpansOf (pages : List Int) (pageBytes fieldBytes : Nat) (spans : List PageSpan) : Prop where
  gaps : spans.Pairwise Span.Before
  inside : ∀ s ∈ spans, 0 < s.bytes ∧ s.stop ≤ fieldBytes
  covered : ∀ a, Covered spans a ↔ ∃ page ∈ pages, page.toNat * pageBytes ≤ a ∧ a < (page.toNat + 1) * pageBytes

theorem spansOf_join (hlayout : WholePages pageBytes fieldBytes)
    (hpages : ∀ page ∈ pages, 0 ≤ page ∧ page.toNat < fieldBytes / pageBytes) (hnodup : pages.Nodup) :
    SpansOf pages pageBytes fieldBytes (join ((pages.insertionSort (· ≤ ·)).map (pageSpan pageBytes))) := by
  have hperm := List.perm_insertionSort (· ≤ ·) pages
  have hbounds : ∀ page ∈ pages.insertionSort (· ≤ ·), 0 ≤ page ∧ page.toNat < fieldBytes / pageBytes :=
    fun page hpage => hpages page (hperm.mem_iff.mp hpage)
  have hordered : (pages.insertionSort (· ≤ ·)).Pairwise (· < ·) :=
    ((List.pairwise_insertionSort (· ≤ ·) pages).and (hperm.nodup_iff.mpr hnodup)).imp
      fun ⟨hle, hne⟩ => lt_of_le_of_ne hle hne
  have hcovers : ∀ a, Covered (join ((pages.insertionSort (· ≤ ·)).map (pageSpan pageBytes))) a ↔
      ∃ page ∈ pages, page.toNat * pageBytes ≤ a ∧ a < (page.toNat + 1) * pageBytes := by
    intro a
    rw [covered_join, Covered]
    simp only [List.mem_map, exists_exists_and_eq_and, hperm.mem_iff, Span.Covers, stop_pageSpan]
    rfl
  have hpositive : ∀ s ∈ join ((pages.insertionSort (· ≤ ·)).map (pageSpan pageBytes)), 0 < s.bytes := by
    refine positive_join fun s hs => ?_
    obtain ⟨page, -, rfl⟩ := List.mem_map.mp hs
    obtain ⟨-, -, hpage, -⟩ := hlayout
    exact hpage
  refine ⟨gaps_join ?_, fun s hs => ⟨hpositive s hs, ?_⟩, hcovers⟩
  · refine List.pairwise_map.mpr (hordered.imp_of_mem fun {page page'} hpage _ hlt => ?_)
    exact pageSpan_stop_le (hbounds page hpage).1 hlt
  · -- The last byte of a span belongs to a page of the field.
    have hlast : Covered _ (s.stop - 1) := ⟨s, hs, by
      have := hpositive s hs
      simp only [Span.Covers, Span.stop]
      omega⟩
    obtain ⟨page, hpage, -, hlt⟩ := (hcovers _).mp hlast
    have hfield : (page.toNat + 1) * pageBytes ≤ fieldBytes :=
      (Nat.mul_le_mul_right _ (hpages page hpage).2).trans (Nat.div_mul_le_self _ _)
    omega

/-- `pageSpans` rejects exactly the bad layouts and lists, and its spans cover exactly the listed pages. -/
theorem page_spans_exact (pages : List Int) (pageBytes fieldBytes : Nat) (hfield : fieldBytes ≤ u64Max) :
    ((∃ e, pageSpans pages pageBytes fieldBytes = .err e) ↔
      ¬WholePages pageBytes fieldBytes ∨ (∃ page ∈ pages, page < 0 ∨ fieldBytes / pageBytes ≤ page.toNat) ∨
        ¬pages.Nodup) ∧
    ((∀ e, pageSpans pages pageBytes fieldBytes ≠ .err e) →
      ∃ spans, pageSpans pages pageBytes fieldBytes = .ok spans ∧ SpansOf pages pageBytes fieldBytes spans) := by
  rcases pageSpans_cases pages pageBytes fieldBytes with ⟨hbad, e, herr⟩ | ⟨hlayout, hpages, hnodup⟩
  · exact ⟨⟨fun _ => hbad, fun _ => ⟨e, herr⟩⟩, fun hnone => absurd herr (hnone e)⟩
  have hok := pageSpans_eq_ok hfield hlayout hpages hnodup
  refine ⟨⟨?_, ?_⟩, fun _ => ⟨_, hok, spansOf_join hlayout hpages hnodup⟩⟩
  · rintro ⟨e, herr⟩
    cases hok.symm.trans herr
  · rintro (hnot | ⟨page, hpage, hout⟩ | hrepeated)
    · exact absurd hlayout hnot
    · have := hpages page hpage
      omega
    · exact absurd hnodup hrepeated

theorem page_spans_exact_five :
    ∃ spans, pageSpans [4, 0, 3, 1, 8] 656 6560 = .ok spans ∧ SpansOf [4, 0, 3, 1, 8] 656 6560 spans :=
  (page_spans_exact [4, 0, 3, 1, 8] 656 6560 (by decide)).2 fun _ h => by cases h

example : pageSpans [4, 0, 3, 1, 8] 656 6560 = .ok [⟨0, 1312⟩, ⟨1968, 1312⟩, ⟨5248, 656⟩] := by decide

/-- The order of the list is of no account. -/
theorem pageSpans_perm {pages' : List Int} (h : pages.Perm pages') :
    pageSpans pages pageBytes fieldBytes = pageSpans pages' pageBytes fieldBytes := by
  have hsorted : pages.insertionSort (· ≤ ·) = pages'.insertionSort (· ≤ ·) :=
    List.Perm.eq_of_sortedLE List.sortedLE_insertionSort List.sortedLE_insertionSort
      ((List.perm_insertionSort _ _).trans (h.trans (List.perm_insertionSort _ _).symm))
  rw [pageSpans, pageSpans, hsorted]

/-! ## Resetting a resident -/

namespace ResidentPages

variable {r : ResidentPages} {slot : Nat}

/-- `reset_resident`, for one field of shared pages: its pages are zeroed and released. -/
def resetField (r : ResidentPages) (slot fieldBytes : Nat) (field : Nat → UInt8) :
    Outcome String ((Nat → UInt8) × ResidentPages) := do
  let pageBytes ← Outcome.div fieldBytes (r.pagesPerSlot * r.slots.length)
  let owned ← r.pages slot
  let spans ← pageSpans owned pageBytes fieldBytes
  let released := release slot r
  released.1
  .ok (clear 0 spans field, released.2)

/-- A reset zeroes every byte of the pages that the slot owns and no byte of any other. -/
theorem Exclusive.resetField (h : Exclusive r) (hshared : r.shared = true) (hslot : slot < r.slots.length)
    (howners : r.owners.length = r.pagesPerSlot * r.slots.length) {pageBytes : Nat} (hpage : 0 < pageBytes)
    (hpages : 0 < r.pagesPerSlot) (hfield : r.owners.length * pageBytes ≤ u64Max) (field : Nat → UInt8) :
    ∃ field' r', r.resetField slot (r.owners.length * pageBytes) field = .ok (field', r') ∧ Exclusive r' ∧
      (∀ page, ¬Owns r' slot page) ∧
      ∀ n < r.owners.length, ∀ k < pageBytes,
        field' (n * pageBytes + k) = if r.owners[n]? = some (slot : Int) then 0 else field (n * pageBytes + k) := by
  obtain ⟨owned, owners, howned, hgiven, hrelease⟩ := release_spec h hshared hslot
  have hcount : 0 < r.pagesPerSlot * r.slots.length := Nat.mul_pos hpages (Nat.zero_lt_of_lt hslot)
  have hbytes : r.owners.length * pageBytes / (r.pagesPerSlot * r.slots.length) = pageBytes := by
    rw [howners, Nat.mul_div_cancel_left _ hcount]
  have hlayout : WholePages pageBytes (r.owners.length * pageBytes) := ⟨r.owners.length, howners ▸ hcount, hpage, rfl⟩
  have hbounds : ∀ page ∈ owned, 0 ≤ page ∧ page.toNat < r.owners.length * pageBytes / pageBytes := by
    rw [Nat.mul_div_cancel _ hpage]
    exact h.inRange howned
  have hnodup := h.nodup slot owned howned
  have hspans := spansOf_join hlayout hbounds hnodup
  have hpagesOk : r.pages slot = .ok owned := by
    rw [pages, if_neg (not_le.mpr hslot), if_pos hshared, howned]
    rfl
  have hkept := release_kept h slot
  rw [hrelease] at hkept
  refine ⟨clear 0 (join ((owned.insertionSort (· ≤ ·)).map (pageSpan pageBytes))) field,
    { r with owners := owners, sharedPages := r.sharedPages.set slot [] }, ?_, hkept.exclusive, ?_, ?_⟩
  · rw [ResidentPages.resetField, Outcome.div_pos hcount, Outcome.ok_bind, hbytes, hpagesOk, Outcome.ok_bind,
      pageSpans_eq_ok hfield hlayout hbounds hnodup, Outcome.ok_bind, hrelease]
    rfl
  · rintro page ⟨hnonneg, howner⟩
    rw [if_pos hshared] at howner
    dsimp only at howner
    have hmem := (hkept.exclusive.owned slot [] (by simp [h.reserved, hslot]) page).mpr ⟨hnonneg, howner⟩
    cases hmem
  · intro n hn k hk
    have hcell : Covered (join ((owned.insertionSort (· ≤ ·)).map (pageSpan pageBytes))) (n * pageBytes + k) ↔ r.owners[n]? = some (slot : Int) := by
      rw [hspans.covered]
      constructor
      · rintro ⟨page, hmem, hle, hlt⟩
        obtain ⟨-, howner⟩ := (h.owned slot owned howned page).mp hmem
        have heq : page.toNat = n := by
          obtain ⟨k', hk'⟩ := Nat.exists_eq_add_of_le hle
          rw [hk', Nat.succ_mul, Nat.add_lt_add_iff_left] at hlt
          exact (Paging.flat_injective hk hlt hk').1.symm
        rwa [heq] at howner
      · intro howner
        refine ⟨n, (h.owned slot owned howned n).mpr ⟨Int.natCast_nonneg n, howner⟩, Nat.le_add_right _ _, ?_⟩
        rw [Int.toNat_natCast, Nat.succ_mul]
        exact Nat.add_lt_add_left hk _
    split
    · rename_i howner
      exact clear_covered (hcell.mpr howner)
    · rename_i hother
      exact clear_other fun hcovered => hother (hcell.mp hcovered)

end ResidentPages

end Inferfabric.Native.State
