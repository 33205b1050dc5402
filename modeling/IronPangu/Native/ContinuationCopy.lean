-- SUMMARY: Copying a resident's live pages to another resident, and that the copy reads the same rows.
import IronPangu.Lib.Copying
import IronPangu.Lib.Paging
import IronPangu.Native.Ownership

open Rust Method Copying

/-!
# Continuation copies

A continuation starts in another slot from the state that a slot has completed.
`copyPlan` names the byte ranges of one field; the executor checks each range against
the storage and copies it. Both slots keep their own pages, so only the content of
the pages moves, page by page in the order of the page maps.
-/

namespace Inferfabric.Native.State

/-- A range within one registered field of the device state. -/
abbrev StateCopyRange := Copying.Range

/-! ## Executing ranges -/

/-- The check of a range against live frozen storage of some capacity, outside a graph capture. -/
def validateStateCopy (capacity : Nat) (r : StateCopyRange) : Outcome String Unit :=
  if r.bytes = 0 then .err "state copy requires live frozen storage outside graph capture"
  else if r.source > capacity ∨ r.bytes > capacity - r.source ∨ r.destination > capacity ∨
      r.bytes > capacity - r.destination ∨
      (r.source < r.destination + r.bytes ∧ r.destination < r.source + r.bytes) then
    .err "state copy field range bounds/overlap"
  else .ok ()

/-- Copy the ranges of a plan one after another within the bytes of a field. -/
def executeContinuationCopy (capacity : Nat) : List StateCopyRange → (Nat → UInt8) → Outcome String (Nat → UInt8)
  | [], field => .ok field
  | r :: ranges, field => do
    validateStateCopy capacity r
    executeContinuationCopy capacity ranges (copy r field)

namespace ResidentPages

/-! ## Planning -/

/-- One page, from its place in the source to its place in the destination. -/
def pageRange (pageBytes : Nat) (p : Int × Int) : StateCopyRange :=
  ⟨p.1.toNat * pageBytes, p.2.toNat * pageBytes, pageBytes⟩

def copyPlan (r : ResidentPages) (source destination completedTokens : Nat) (windowed : Bool) (fieldBytes : Nat) :
    Outcome String (List StateCopyRange) :=
  if source = destination ∨ completedTokens = 0 ∨ completedTokens % r.pageTokens ≠ 0 ∨
      (windowed = false ∧ completedTokens > r.logicalTokens) then
    .err "state copy requires distinct slots and a complete page boundary"
  else do
    let src ← r.pages source
    let dst ← r.pages destination
    let physicalPages := r.pagesPerSlot * r.slots.length
    if fieldBytes = 0 ∨ fieldBytes % physicalPages ≠ 0 then
      .err "state copy field disagrees with physical page layout"
    else
      let pageBytes := fieldBytes / physicalPages
      let count := min (completedTokens / r.pageTokens) r.pagesPerSlot
      if src.length < count ∨ dst.length < count then
        .err "state copy exceeds reserved source/destination pages"
      -- Ring ordinals, not chronological order: all retained pages after a wrap.
      else .ok (coalesce (((src.zip dst).take count).map (pageRange pageBytes)))

/-! ## What a plan promises -/

/-- Where a slot keeps a position: a window wraps, and a full context does not. -/
def rowOf (r : ResidentPages) (slot : Nat) (windowed : Bool) (position : Nat) : Outcome String Nat :=
  r.append slot (if windowed then position % r.logicalTokens else position)

/-- The pages that hold the completed tokens of a slot. -/
def retained (r : ResidentPages) (completedTokens : Nat) : Nat :=
  min (completedTokens / r.pageTokens) r.pagesPerSlot

/-- After the copy the destination has the content of the source at every completed position. -/
structure SameRow (r : ResidentPages) (source destination : Nat) (windowed : Bool) (rowBytes position : Nat)
    (before after : Nat → UInt8) : Prop where
  rows : ∃ s d, r.rowOf source windowed position = .ok s ∧ r.rowOf destination windowed position = .ok d ∧
    ∀ k < rowBytes, after (d * rowBytes + k) = before (s * rowBytes + k) ∧
      after (s * rowBytes + k) = before (s * rowBytes + k)
  /-- Block tables name the pages of these rows. -/
  tables : ∀ slot ∈ [source, destination], ∀ entries table, position / r.pageTokens < entries →
    r.table slot entries windowed = .ok table → ∃ page, table[position / r.pageTokens]? = some page ∧
      r.rowOf slot windowed position = .ok (page.toNat * r.pageTokens + position % r.pageTokens)

structure Continues (r : ResidentPages) (source destination completedTokens : Nat) (windowed : Bool)
    (fieldBytes : Nat) (ranges : List StateCopyRange) : Prop where
  /-- The ranges are the page-wise map, ordinal by ordinal. -/
  pagewise : ∃ src dst, r.pages source = .ok src ∧ r.pages destination = .ok dst ∧
    r.retained completedTokens ≤ src.length ∧ r.retained completedTokens ≤ dst.length ∧
    pairs ranges = ((src.zip dst).take (r.retained completedTokens)).flatMap fun p =>
      (pageRange (fieldBytes / (r.pagesPerSlot * r.slots.length)) p).pairs
  once : (((pairs ranges).map Prod.fst).Nodup ∧ ((pairs ranges).map Prod.snd).Nodup)
  inside : ∀ a ∈ ranges, a.source + a.bytes ≤ fieldBytes ∧ a.destination + a.bytes ≤ fieldBytes
  apart : ∀ a ∈ ranges, ∀ b ∈ ranges, a.source + a.bytes ≤ b.destination ∨ b.destination + b.bytes ≤ a.source
  /-- In storage that holds the field all ranges are copied, and then the completed positions read alike. -/
  copies : ∀ capacity ≥ fieldBytes, ∀ before, ∃ after,
    executeContinuationCopy capacity ranges before = .ok after ∧
      ∀ rowBytes, fieldBytes = r.pagesPerSlot * r.slots.length * (r.pageTokens * rowBytes) →
        ∀ position < completedTokens, SameRow r source destination windowed rowBytes position before after

/-! ## Physical pages -/

/-- Calls move pages between slots, and nothing else. -/
structure SameExtent (r r' : ResidentPages) : Prop where
  pagesPerSlot : r'.pagesPerSlot = r.pagesPerSlot
  pageTokens : r'.pageTokens = r.pageTokens
  logicalTokens : r'.logicalTokens = r.logicalTokens
  slots : r'.slots.length = r.slots.length
  owners : r'.owners.length = r.owners.length

instance : Steps SameExtent where
  refl _ := ⟨rfl, rfl, rfl, rfl, rfl⟩
  trans h h' := ⟨h'.1.trans h.1, h'.2.trans h.2, h'.3.trans h.3, h'.4.trans h.4, h'.5.trans h.5⟩

theorem extent_setOwner (owner page : Int) : Keeps SameExtent (setOwner owner page) := by
  refine keeps_get.bind fun r => ?_
  split
  · exact keeps_modify fun r => ⟨rfl, rfl, rfl, rfl, List.length_set⟩
  · exact keeps_lift _

theorem extent_setShared (slot : Nat) (pages : List Int) : Keeps SameExtent (setShared slot pages) := by
  refine keeps_get.bind fun r => ?_
  split
  · exact keeps_modify fun r => ⟨rfl, rfl, rfl, rfl, rfl⟩
  · exact keeps_lift _

theorem extent_release (slot : Nat) : Keeps SameExtent (release slot) := by
  refine keeps_get.bind fun r => ?_
  split
  · exact keeps_fail _
  · refine (keeps_lift _).bind fun pages => ?_
    exact (Keeps.forEach (extent_setOwner (-1)) pages).bind fun _ => extent_setShared slot []

theorem extent_bindShared (pages : List Int) : Keeps SameExtent (bindShared pages) := by
  refine keeps_get.bind fun r => ?_
  split
  · exact keeps_fail _
  split
  · exact keeps_fail _
  · refine (extent_release r.active).bind fun _ => (extent_setShared r.active pages).bind fun _ => ?_
    exact Keeps.forEach (extent_setOwner r.active) pages

theorem extent_bindSlot (pages : List Int) : Keeps SameExtent (bindSlot pages) := by
  refine keeps_get.bind fun r => (keeps_lift _).bind fun b => ?_
  refine (keeps_modify ?_).bind fun _ => keeps_lift _
  exact fun r => ⟨rfl, rfl, rfl, List.length_set, rfl⟩

theorem extent_bind (pages : List Int) : Keeps SameExtent (bind pages) := by
  refine keeps_get.bind fun r => ?_
  split
  · exact extent_bindShared pages
  split
  · exact keeps_fail _
  · exact extent_bindSlot pages

theorem extent_select (slot : Nat) : Keeps SameExtent (select slot) := by
  refine keeps_get.bind fun r => ?_
  split
  · exact keeps_fail _
  · exact keeps_modify fun r => ⟨rfl, rfl, rfl, rfl, rfl⟩

theorem extent_step (call : Call) : Keeps SameExtent (step call) :=
  match call with
  | .select slot => extent_select slot
  | .bind pages => extent_bind pages
  | .release slot => extent_release slot

/-- Every physical page has an owner entry, and every slot has room for a page. -/
structure Physical (r : ResidentPages) : Prop where
  pages : r.owners.length = r.pagesPerSlot * r.slots.length
  room : 0 < r.pagesPerSlot

theorem new_physical {pageTokens logicalTokens slots : Nat} {shared : Bool} {r : ResidentPages}
    (h : new pageTokens logicalTokens slots shared = .ok r) : Physical r := by
  rcases Nat.eq_zero_or_pos pageTokens with rfl | htokens
  · simp [new] at h
  simp only [new, if_neg htokens.ne'] at h
  split at h
  · cases h
  rename_i hchecks
  simp only [not_or, not_not] at hchecks
  obtain ⟨-, -, -, hrows, hwhole, -⟩ := hchecks
  obtain ⟨bindings, hbindings, h⟩ := Outcome.bind_eq_ok.mp h
  have hlength : bindings.length = slots := by simpa using (Outcome.collect_eq_ok.mp hbindings).length_eq.symm
  obtain rfl := Outcome.ok.inj h
  constructor
  · simp [List.length_flatMap, hlength, Nat.mul_comm]
  · exact Nat.div_pos (Nat.le_of_dvd (Nat.pos_of_ne_zero hrows) (Nat.dvd_of_mod_eq_zero hwhole)) htokens

theorem Physical.extent {r r' : ResidentPages} (h : Physical r) (hsame : SameExtent r r') : Physical r' where
  pages := by rw [hsame.owners, hsame.pagesPerSlot, hsame.slots, h.pages]
  room := hsame.pagesPerSlot ▸ h.room

theorem physical_final {r : ResidentPages} (h : Physical r) (calls : List Call) : Physical (final step calls r) :=
  final_induction h (fun r call hr => hr.extent (extent_step call r)) calls

variable {r : ResidentPages} {source destination slot completedTokens fieldBytes pageBytes : Nat} {windowed : Bool}
  {ranges : List StateCopyRange} {owned pages : List Int}

theorem pages_shared (hshared : r.shared = true) (hpages : r.pages slot = .ok owned) :
    slot < r.slots.length ∧ r.sharedPages[slot]? = some owned := by
  rw [ResidentPages.pages] at hpages
  split at hpages
  · cases hpages
  · rename_i hslot
    exact ⟨Nat.not_le.mp hslot, Outcome.unwrap_eq_ok.mp hpages⟩

/-- A slot's pages are physical pages. -/
theorem Physical.inRange (hp : Physical r) (h : Exclusive r) (hshared : r.shared = true)
    (hpages : r.pages slot = .ok owned) :
    ∀ page ∈ owned, 0 ≤ page ∧ page.toNat < r.pagesPerSlot * r.slots.length := by
  intro page hpage
  have hrange := h.inRange (pages_shared hshared hpages).2 page hpage
  exact ⟨hrange.1, hp.pages ▸ hrange.2⟩

theorem append_shared (hshared : r.shared = true) (hpages : r.pages slot = .ok owned) {position : Nat}
    (hposition : position < r.logicalTokens) {page : Int} (hpage : owned[position / r.pageTokens]? = some page) :
    r.append slot position = .ok (page.toNat * r.pageTokens + position % r.pageTokens) := by
  obtain ⟨hslot, howned⟩ := pages_shared hshared hpages
  have hlength : position / r.pageTokens < owned.length := (List.getElem?_eq_some_iff.mp hpage).1
  have hbound : ¬(position ≥ r.logicalTokens ∨ position / r.pageTokens ≥ owned.length) :=
    not_or.mpr ⟨Nat.not_le.mpr hposition, Nat.not_le.mpr hlength⟩
  rw [append, if_neg (Nat.not_le.mpr hslot), if_neg (by simp [hshared]), howned, Outcome.unwrap_some, Outcome.ok_bind,
    if_neg hbound, hpage, Outcome.unwrap_some, Outcome.ok_bind]

theorem table_entry (hpages : r.pages slot = .ok owned) {entries i : Nat} {ring : Bool} {table : List Int}
    (htable : r.table slot entries ring = .ok table) (hi : i < entries) {page : Int}
    (hpage : owned[r.ordinal ring i]? = some page) : table[i]? = some page := by
  rw [ResidentPages.table, hpages, Outcome.ok_bind] at htable
  split at htable
  · cases htable
  · obtain rfl := Outcome.ok.inj htable
    have hentry : owned.getD (r.ordinal ring i) 0 = page := by
      rw [List.getD_eq_getElem?_getD, hpage, Option.getD_some]
    rw [List.getElem?_map, List.getElem?_range hi, Option.map_some]
    exact congrArg some hentry

/-! ## The cells of pages -/

/-- The bytes of a page. -/
def cells (pageBytes : Nat) (page : Int) : List Nat :=
  (List.range pageBytes).map fun k => page.toNat * pageBytes + k

theorem mem_cells {page : Int} {a : Nat} : a ∈ cells pageBytes page ↔ ∃ k < pageBytes, page.toNat * pageBytes + k = a := by
  simp [cells]

theorem cells_eq {page page' : Int} {a : Nat} (h : a ∈ cells pageBytes page) (h' : a ∈ cells pageBytes page') :
    page.toNat = page'.toNat := by
  obtain ⟨k, hk, hcell⟩ := mem_cells.mp h
  obtain ⟨k', hk', hcell'⟩ := mem_cells.mp h'
  exact (Paging.flat_injective hk hk' (hcell.trans hcell'.symm)).1

/-- Distinct pages have distinct bytes. -/
theorem nodup_cells (hpages : pages.Nodup) (hnonneg : ∀ page ∈ pages, 0 ≤ page) :
    (pages.flatMap (cells pageBytes)).Nodup := by
  rw [List.nodup_flatMap]
  constructor
  · intro page _
    exact List.nodup_range.map fun _ _ => Nat.add_left_cancel
  · refine hpages.imp_of_mem fun {page page'} hpage hpage' hne a ha ha' => hne ?_
    have heq := cells_eq ha ha'
    have h := hnonneg page hpage
    have h' := hnonneg page' hpage'
    omega

theorem pairs_pageRange (p : Int × Int) :
    (pageRange pageBytes p).pairs.map Prod.fst = cells pageBytes p.1 ∧
      (pageRange pageBytes p).pairs.map Prod.snd = cells pageBytes p.2 := by
  simp only [Range.pairs, List.map_map]
  exact ⟨rfl, rfl⟩

/-- The pages of two slots, paired by ordinal. -/
structure Matched (r : ResidentPages) (source destination : Nat) (src dst : List Int) (count : Nat) : Prop where
  distinct : source ≠ destination
  source : r.pages source = .ok src
  destination : r.pages destination = .ok dst
  covered : count ≤ src.length ∧ count ≤ dst.length

theorem take_zip {src dst : List Int} {count : Nat} :
    (src.zip dst).take count = (src.take count).zip (dst.take count) :=
  List.take_zipWith

namespace Matched

variable {src dst : List Int} {count : Nat}

theorem fst (h : Matched r source destination src dst count) :
    ((src.zip dst).take count).map Prod.fst = src.take count := by
  rw [take_zip, List.map_fst_zip (by simp [h.covered])]

theorem snd (h : Matched r source destination src dst count) :
    ((src.zip dst).take count).map Prod.snd = dst.take count := by
  rw [take_zip, List.map_snd_zip (by simp [h.covered])]

theorem sources (h : Matched r source destination src dst count) :
    (pairs (((src.zip dst).take count).map (pageRange pageBytes))).map Prod.fst =
      (src.take count).flatMap (cells pageBytes) := by
  rw [← h.fst, pairs, List.flatMap_map, List.map_flatMap, List.flatMap_map]
  exact List.flatMap_congr fun p _ => (pairs_pageRange p).1

theorem destinations (h : Matched r source destination src dst count) :
    (pairs (((src.zip dst).take count).map (pageRange pageBytes))).map Prod.snd =
      (dst.take count).flatMap (cells pageBytes) := by
  rw [← h.snd, pairs, List.flatMap_map, List.map_flatMap, List.flatMap_map]
  exact List.flatMap_congr fun p _ => (pairs_pageRange p).2

/-- The ordinal's pages are among the pairs. -/
theorem mem (h : Matched r source destination src dst count) {i : Nat} (hi : i < count) :
    ∃ f t, src[i]? = some f ∧ dst[i]? = some t ∧ (f, t) ∈ (src.zip dst).take count := by
  have hsrc : i < src.length := hi.trans_le h.covered.1
  have hdst : i < dst.length := hi.trans_le h.covered.2
  refine ⟨src[i], dst[i], List.getElem?_eq_getElem hsrc, List.getElem?_eq_getElem hdst, ?_⟩
  apply List.mem_of_getElem? (i := i)
  rw [List.getElem?_take_of_lt hi, List.getElem?_zip_eq_some]
  exact ⟨List.getElem?_eq_getElem hsrc, List.getElem?_eq_getElem hdst⟩

theorem apart (h : Matched r source destination src dst count) (hex : Exclusive r) (hshared : r.shared = true) :
    Apart (((src.zip dst).take count).map (pageRange pageBytes)) where
  distinct := by
    rw [h.destinations]
    have hnodup : dst.Nodup := hex.nodup destination dst (pages_shared hshared h.destination).2
    apply nodup_cells (hnodup.sublist (List.take_sublist count dst))
    intro page hpage
    exact (hex.pages_owned h.destination page (List.mem_of_mem_take hpage)).1
  unread := by
    intro p hp q hq heq
    have hread : p.1 ∈ (src.take count).flatMap (cells pageBytes) := h.sources ▸ List.mem_map_of_mem hp
    have hwritten : q.2 ∈ (dst.take count).flatMap (cells pageBytes) := h.destinations ▸ List.mem_map_of_mem hq
    obtain ⟨f, hf, hcell⟩ := List.mem_flatMap.mp hread
    obtain ⟨t, ht, hcell'⟩ := List.mem_flatMap.mp hwritten
    -- One cell would make one page belong to both slots.
    have hsame : f.toNat = t.toNat := cells_eq hcell (heq ▸ hcell')
    have hf' := hex.pages_owned h.source f (List.mem_of_mem_take hf)
    have ht' := hex.pages_owned h.destination t (List.mem_of_mem_take ht)
    exact h.distinct (hf'.unique ht' hsame)

theorem within (h : Matched r source destination src dst count) (hex : Exclusive r) (hp : Physical r)
    (hshared : r.shared = true) :
    ∀ p ∈ pairs (((src.zip dst).take count).map (pageRange pageBytes)),
      p.1 < r.pagesPerSlot * r.slots.length * pageBytes ∧ p.2 < r.pagesPerSlot * r.slots.length * pageBytes := by
  have hcell : ∀ slot owned, r.pages slot = .ok owned → ∀ a ∈ (owned.take count).flatMap (cells pageBytes),
      a < r.pagesPerSlot * r.slots.length * pageBytes := by
    intro slot owned hpages a ha
    obtain ⟨page, hpage, hcell⟩ := List.mem_flatMap.mp ha
    obtain ⟨k, hk, rfl⟩ := mem_cells.mp hcell
    have hrange := (hp.inRange hex hshared hpages page (List.mem_of_mem_take hpage)).2
    calc page.toNat * pageBytes + k < page.toNat * pageBytes + pageBytes := Nat.add_lt_add_left hk _
      _ = (page.toNat + 1) * pageBytes := (Nat.succ_mul _ _).symm
      _ ≤ r.pagesPerSlot * r.slots.length * pageBytes := Nat.mul_le_mul_right _ hrange
  intro p hmem
  exact ⟨hcell source src h.source p.1 (h.sources ▸ List.mem_map_of_mem hmem),
    hcell destination dst h.destination p.2 (h.destinations ▸ List.mem_map_of_mem hmem)⟩

end Matched

/-! ## Copied rows -/

/-- What a plan is made from. -/
structure Planned (r : ResidentPages) (source destination completedTokens : Nat) (windowed : Bool) (fieldBytes : Nat)
    (src dst : List Int) (ranges : List StateCopyRange) : Prop where
  matched : Matched r source destination src dst (r.retained completedTokens)
  whole : completedTokens % r.pageTokens = 0
  bounded : windowed = false → completedTokens ≤ r.logicalTokens
  positive : 0 < fieldBytes
  layout : r.pagesPerSlot * r.slots.length * (fieldBytes / (r.pagesPerSlot * r.slots.length)) = fieldBytes
  ranges : ranges = coalesce (((src.zip dst).take (r.retained completedTokens)).map
    (pageRange (fieldBytes / (r.pagesPerSlot * r.slots.length))))

theorem copyPlan_eq_ok (h : r.copyPlan source destination completedTokens windowed fieldBytes = .ok ranges) :
    ∃ src dst, Planned r source destination completedTokens windowed fieldBytes src dst ranges := by
  unfold copyPlan at h
  split at h
  · cases h
  rename_i hboundary
  simp only [not_or, not_and, not_not, Nat.not_lt] at hboundary
  obtain ⟨hdistinct, -, hwhole, hbounded⟩ := hboundary
  obtain ⟨src, hsrc, h⟩ := Outcome.bind_eq_ok.mp h
  obtain ⟨dst, hdst, h⟩ := Outcome.bind_eq_ok.mp h
  dsimp only at h
  split at h
  · cases h
  rename_i hfield
  simp only [not_or, not_not] at hfield
  split at h
  · cases h
  rename_i hcovered
  simp only [not_or, Nat.not_lt] at hcovered
  exact ⟨src, dst, ⟨hdistinct, hsrc, hdst, hcovered⟩, hwhole, hbounded, Nat.pos_of_ne_zero hfield.1,
    Nat.mul_div_cancel' (Nat.dvd_of_mod_eq_zero hfield.2), (Outcome.ok.inj h).symm⟩

/-- The position in the ring or in the full context. -/
def wrapped (r : ResidentPages) (windowed : Bool) (position : Nat) : Nat :=
  if windowed then position % r.logicalTokens else position

/-- A completed position is in one of the retained pages, at the same row of the page. -/
theorem Planned.position {src dst : List Int}
    (h : Planned r source destination completedTokens windowed fieldBytes src dst ranges) (hex : Exclusive r)
    (hp : Physical r) {position : Nat} (hposition : position < completedTokens) :
    r.wrapped windowed position < r.logicalTokens ∧
      r.wrapped windowed position / r.pageTokens = r.ordinal windowed (position / r.pageTokens) ∧
      r.ordinal windowed (position / r.pageTokens) < r.retained completedTokens ∧
      r.wrapped windowed position % r.pageTokens = position % r.pageTokens := by
  have hlogical : 0 < r.logicalTokens := hex.logicalTokens ▸ Nat.mul_pos hp.room hex.pageTokens
  have hdvd : r.pageTokens ∣ r.logicalTokens := hex.logicalTokens ▸ Nat.dvd_mul_left _ _
  have hpages : r.logicalTokens / r.pageTokens = r.pagesPerSlot := by
    rw [hex.logicalTokens, Nat.mul_div_cancel _ hex.pageTokens]
  have hcompleted : position / r.pageTokens < completedTokens / r.pageTokens :=
    Nat.div_lt_div_of_lt_of_dvd (Nat.dvd_of_mod_eq_zero h.whole) hposition
  cases windowed with
  | true =>
    refine ⟨Nat.mod_lt _ hlogical, ?_, ?_, Paging.row_of_wrapped hdvd position⟩
    · exact (Paging.page_of_wrapped hdvd position).trans (by rw [hpages]; rfl)
    · have hring : position / r.pageTokens % r.pagesPerSlot < r.pagesPerSlot := Nat.mod_lt _ hp.room
      exact lt_min ((Nat.mod_le _ _).trans_lt hcompleted) hring
  | false =>
    have hlt : position < r.logicalTokens := hposition.trans_le (h.bounded rfl)
    refine ⟨hlt, rfl, lt_min hcompleted ?_, rfl⟩
    exact hpages ▸ Nat.div_lt_div_of_lt_of_dvd hdvd hlt

theorem execute_ok {capacity : Nat} (hvalid : ∀ a ∈ ranges, validateStateCopy capacity a = .ok ()) (field : Nat → UInt8) :
    executeContinuationCopy capacity ranges field = .ok (copyAll ranges field) := by
  induction ranges generalizing field with
  | nil => rfl
  | cons a ranges ih =>
    rw [List.forall_mem_cons] at hvalid
    rw [executeContinuationCopy, hvalid.1]
    exact ih hvalid.2 (copy a field)

theorem Planned.sameRow {src dst : List Int}
    (h : Planned r source destination completedTokens windowed fieldBytes src dst ranges) (hex : Exclusive r)
    (hp : Physical r) (hshared : r.shared = true) (hapart : Apart ranges) {rowBytes : Nat}
    (hfield : fieldBytes = r.pagesPerSlot * r.slots.length * (r.pageTokens * rowBytes)) {position : Nat}
    (hposition : position < completedTokens) (before : Nat → UInt8) :
    SameRow r source destination windowed rowBytes position before (copyAll ranges before) := by
  obtain ⟨hlogical, hordinal, hretained, hrow⟩ := h.position hex hp hposition
  obtain ⟨f, t, hf, ht, hmem⟩ := h.matched.mem hretained
  have hphysical : 0 < r.pagesPerSlot * r.slots.length :=
    Nat.mul_pos hp.room (Nat.zero_lt_of_lt (pages_shared hshared h.matched.source).1)
  have hpage : fieldBytes / (r.pagesPerSlot * r.slots.length) = r.pageTokens * rowBytes := by
    rw [hfield, Nat.mul_div_cancel_left _ hphysical]
  have happend : ∀ slot owned page, r.pages slot = .ok owned →
      owned[r.ordinal windowed (position / r.pageTokens)]? = some page →
      r.rowOf slot windowed position = .ok (page.toNat * r.pageTokens + position % r.pageTokens) := by
    intro slot owned page hpages hpage
    rw [← hordinal] at hpage
    rw [← hrow]
    exact append_shared hshared hpages hlogical hpage
  constructor
  · refine ⟨_, _, happend source src f h.matched.source hf, happend destination dst t h.matched.destination ht, ?_⟩
    intro k hk
    have hcell : position % r.pageTokens * rowBytes + k < r.pageTokens * rowBytes :=
      calc position % r.pageTokens * rowBytes + k < position % r.pageTokens * rowBytes + rowBytes :=
            Nat.add_lt_add_left hk _
        _ = (position % r.pageTokens + 1) * rowBytes := (Nat.succ_mul _ _).symm
        _ ≤ r.pageTokens * rowBytes := Nat.mul_le_mul_right _ (Nat.mod_lt _ hex.pageTokens)
    have haddress : ∀ page : Nat, (page * r.pageTokens + position % r.pageTokens) * rowBytes + k =
        page * (r.pageTokens * rowBytes) + (position % r.pageTokens * rowBytes + k) := by
      intro page
      rw [Nat.add_mul, Nat.mul_assoc, Nat.add_assoc]
    have hpair : (f.toNat * (r.pageTokens * rowBytes) + (position % r.pageTokens * rowBytes + k),
        t.toNat * (r.pageTokens * rowBytes) + (position % r.pageTokens * rowBytes + k)) ∈ pairs ranges := by
      rw [h.ranges, pairs_coalesce, hpage]
      exact List.mem_flatMap.mpr ⟨_, List.mem_map_of_mem hmem, mem_range_pairs.mpr ⟨_, hcell, rfl, rfl⟩⟩
    rw [haddress, haddress]
    exact ⟨copyAll_pair hapart hpair, copyAll_source hapart hpair⟩
  · intro slot hslot entries table hentries htable
    have hpages : ∃ owned page, r.pages slot = .ok owned ∧
        owned[r.ordinal windowed (position / r.pageTokens)]? = some page := by
      rcases List.mem_cons.mp hslot with rfl | hslot
      · exact ⟨src, f, h.matched.source, hf⟩
      · obtain rfl := List.mem_singleton.mp hslot
        exact ⟨dst, t, h.matched.destination, ht⟩
    obtain ⟨owned, page, howned, hentry⟩ := hpages
    exact ⟨page, table_entry howned htable hentries hentry, happend slot owned page howned hentry⟩

theorem Planned.continues {src dst : List Int}
    (h : Planned r source destination completedTokens windowed fieldBytes src dst ranges) (hex : Exclusive r)
    (hp : Physical r) (hshared : r.shared = true) :
    Continues r source destination completedTokens windowed fieldBytes ranges := by
  have hpairs : pairs ranges = pairs (((src.zip dst).take (r.retained completedTokens)).map
      (pageRange (fieldBytes / (r.pagesPerSlot * r.slots.length)))) := by
    rw [h.ranges, pairs_coalesce]
  have hapart : Apart ranges := h.ranges ▸ (h.matched.apart hex hshared).coalesce
  have hpageBytes : 0 < fieldBytes / (r.pagesPerSlot * r.slots.length) := by
    apply Nat.pos_of_ne_zero
    intro hzero
    have hlayout := h.layout
    rw [hzero, Nat.mul_zero] at hlayout
    exact h.positive.ne hlayout
  have hpositive : ∀ a ∈ ranges, 0 < a.bytes := by
    rw [h.ranges]
    apply positive_coalesce
    intro a ha
    obtain ⟨p, -, rfl⟩ := List.mem_map.mp ha
    exact hpageBytes
  have hwithin : ∀ p ∈ pairs ranges, p.1 < fieldBytes ∧ p.2 < fieldBytes := by
    have hphysical : ∀ p ∈ pairs ranges,
        p.1 < r.pagesPerSlot * r.slots.length * (fieldBytes / (r.pagesPerSlot * r.slots.length)) ∧
          p.2 < r.pagesPerSlot * r.slots.length * (fieldBytes / (r.pagesPerSlot * r.slots.length)) :=
      hpairs ▸ h.matched.within hex hp hshared
    rwa [h.layout] at hphysical
  have hinside : ∀ a ∈ ranges, a.source + a.bytes ≤ fieldBytes ∧ a.destination + a.bytes ≤ fieldBytes :=
    fun a ha => range_within hwithin ha (hpositive a ha)
  refine ⟨⟨src, dst, h.matched.source, h.matched.destination, h.matched.covered.1, h.matched.covered.2, ?_⟩, ⟨?_, ?_⟩,
    hinside, fun a ha b hb => hapart.ranges hpositive ha hb, ?_⟩
  · rw [hpairs, pairs, List.flatMap_map]
  · rw [hpairs, h.matched.sources]
    have hnodup : src.Nodup := hex.nodup source src (pages_shared hshared h.matched.source).2
    apply nodup_cells (hnodup.sublist (List.take_sublist _ src))
    intro page hpage
    exact (hex.pages_owned h.matched.source page (List.mem_of_mem_take hpage)).1
  · exact hapart.distinct
  · intro capacity hcapacity before
    refine ⟨copyAll ranges before, execute_ok ?_ before, ?_⟩
    · intro a ha
      have ha' := hinside a ha
      have hself := hapart.ranges hpositive ha ha
      have hbytes := hpositive a ha
      rw [validateStateCopy, if_neg hbytes.ne', if_neg (by omega)]
    · intro rowBytes hfield position hposition
      exact h.sameRow hex hp hshared hapart hfield hposition before

/-- A plan for two slots of shared pages copies exactly the completed pages, and afterwards the destination
reads every completed position of the source; in a window the positions still in the ring are among them. -/
theorem continuation_copied {pageTokens logicalTokens slots : Nat} {r₀ : ResidentPages}
    (hnew : new pageTokens logicalTokens slots true = .ok r₀) (calls : List Call)
    (hplan : (final step calls r₀).copyPlan source destination completedTokens windowed fieldBytes = .ok ranges) :
    Continues (final step calls r₀) source destination completedTokens windowed fieldBytes ranges := by
  obtain ⟨hex, hshared⟩ := new_exclusive hnew
  obtain ⟨hfinal, hkept, -⟩ := run_kept hex calls
  obtain ⟨src, dst, h⟩ := copyPlan_eq_ok hplan
  exact h.continues hfinal (physical_final (new_physical hnew) calls) (hkept.trans hshared)

/-- Both slots with three pages, two of which follow each other on both sides. -/
def scattered : List Call := [.release 0, .release 1, .bind [3, 4, 0], .select 1, .bind [1, 2, 5]]

theorem continuation_copied_sample :
    ∃ r₀, new 16 48 2 true = .ok r₀ ∧
      (final step scattered r₀).copyPlan 0 1 160 true 192 = .ok [⟨96, 32, 64⟩, ⟨0, 160, 32⟩] ∧
      Continues (final step scattered r₀) 0 1 160 true 192 [⟨96, 32, 64⟩, ⟨0, 160, 32⟩] :=
  ⟨_, rfl, rfl, @continuation_copied 0 1 160 192 true _ 16 48 2 _ rfl scattered rfl⟩

end ResidentPages

end Inferfabric.Native.State
