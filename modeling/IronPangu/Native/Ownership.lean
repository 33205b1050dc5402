-- SUMMARY: Physical pages belong to one resident at a time, under every sequence of selections, bindings and releases.
import IronPangu.Native.PageBinding

open Rust Method

/-!
# Page ownership

`owners` and `sharedPages` are two views of one relation between slots and pages.
They agree after every call, so a page has one owner, and what a slot's table or
append names is its own.
-/

namespace Inferfabric.Native.State

theorem allDistinct_eq_true {fits : Int → Bool} {seen pages : List Int} :
    allDistinct fits seen pages = true ↔
      (∀ page ∈ pages, fits page = true ∧ page ∉ seen) ∧ pages.Nodup := by
  induction pages generalizing seen with
  | nil => simp [allDistinct]
  | cons page pages ih =>
    simp only [allDistinct, Bool.and_eq_true, Bool.not_eq_true', List.contains_eq_mem, decide_eq_false_iff_not, ih,
      List.mem_cons, not_or, forall_eq_or_imp, List.nodup_cons]
    constructor
    · rintro ⟨⟨hfits, hseen⟩, hall, hnodup⟩
      exact ⟨⟨⟨hfits, hseen⟩, fun other hother => ⟨(hall other hother).1, (hall other hother).2.2⟩⟩,
        fun hmem => (hall page hmem).2.1 rfl, hnodup⟩
    · rintro ⟨⟨⟨hfits, hseen⟩, hall⟩, hnew, hnodup⟩
      exact ⟨⟨hfits, hseen⟩, fun other hother => ⟨(hall other hother).1,
        fun heq => hnew (heq ▸ hother), (hall other hother).2⟩, hnodup⟩

namespace ResidentPages

variable {r : ResidentPages}

/-! ## The invariant -/

/-- The binding of one slot stays inside its partition. -/
structure Partitioned (pageTokens pagesPerSlot slot : Nat) (b : PageBinding) : Prop where
  tokens : b.pageTokens = pageTokens
  rows : b.logicalTokens = pagesPerSlot * pageTokens
  length : b.pages.length = pagesPerSlot
  nodup : b.pages.Nodup
  own : ∀ page ∈ b.pages, 0 ≤ page ∧ page.toNat / pagesPerSlot = slot

/-- Owners and reservations agree. -/
structure Exclusive (r : ResidentPages) : Prop where
  pageTokens : 0 < r.pageTokens
  logicalTokens : r.logicalTokens = r.pagesPerSlot * r.pageTokens
  active : r.active < r.slots.length
  reserved : r.sharedPages.length = r.slots.length
  partitioned : ∀ (slot : Nat) b, r.slots[slot]? = some b → Partitioned r.pageTokens r.pagesPerSlot slot b
  owned : ∀ (slot : Nat) pages, r.sharedPages[slot]? = some pages →
    ∀ page : Int, page ∈ pages ↔ 0 ≤ page ∧ r.owners[page.toNat]? = some (slot : Int)
  nodup : ∀ (slot : Nat) pages, r.sharedPages[slot]? = some pages → pages.Nodup

/-! ## Changing owners -/

/-- The owners after some pages were given to `owner`. -/
structure Given (owner : Int) (pages owners owners' : List Int) : Prop where
  length : owners'.length = owners.length
  given : ∀ page ∈ pages, owners'[page.toNat]? = some owner
  kept : ∀ n : Nat, (n : Int) ∉ pages → owners'[n]? = owners[n]?

theorem forEach_setOwner {owner : Int} {pages : List Int} (r : ResidentPages)
    (hpages : ∀ page ∈ pages, 0 ≤ page ∧ page.toNat < r.owners.length) :
    ∃ owners, forEach pages (setOwner owner) r = (.ok (), { r with owners := owners }) ∧
      Given owner pages r.owners owners := by
  induction pages generalizing r with
  | nil => exact ⟨r.owners, rfl, rfl, by simp, fun _ _ => rfl⟩
  | cons page pages ih =>
    obtain ⟨hnonneg, hrange⟩ := hpages page List.mem_cons_self
    have hrun : setOwner owner page r = (.ok (), { r with owners := r.owners.set page.toNat owner }) := by
      rw [setOwner, bind_ok (get_run r), if_pos ⟨hnonneg, hrange⟩, modify_run]
    obtain ⟨owners, hrest, hgiven⟩ := ih { r with owners := r.owners.set page.toNat owner } fun other hother => by
      simpa using hpages other (List.mem_cons_of_mem _ hother)
    refine ⟨owners, by rw [forEach, bind_ok hrun, hrest], by simpa using hgiven.length, ?_, ?_⟩
    · intro other hother
      by_cases hlater : other ∈ pages
      · exact hgiven.given other hlater
      obtain rfl := (List.mem_cons.mp hother).resolve_right hlater
      rw [hgiven.kept _ (by rwa [Int.toNat_of_nonneg hnonneg])]
      exact List.getElem?_set_self hrange
    · intro n hn
      obtain ⟨hne, hn⟩ := not_or.mp (List.mem_cons.not.mp hn)
      rw [hgiven.kept n hn]
      exact List.getElem?_set_ne fun heq => hne (by omega)

/-- A page that was not given keeps its owner, seen as an `int32_t`. -/
theorem Given.other {owner : Int} {pages owners owners' : List Int} (h : Given owner pages owners owners') {page : Int}
    (hnonneg : 0 ≤ page) (hpage : page ∉ pages) : owners'[page.toNat]? = owners[page.toNat]? :=
  h.kept _ (by rwa [Int.toNat_of_nonneg hnonneg])

theorem Exclusive.inRange (h : Exclusive r) {slot : Nat} {pages : List Int} (hslot : r.sharedPages[slot]? = some pages) :
    ∀ page ∈ pages, 0 ≤ page ∧ page.toNat < r.owners.length := by
  intro page hpage
  obtain ⟨hnonneg, howner⟩ := (h.owned slot pages hslot page).mp hpage
  exact ⟨hnonneg, (List.getElem?_eq_some_iff.mp howner).1⟩

/-- After a release the slot owns nothing, and all other pages have the same owner. -/
theorem release_spec (h : Exclusive r) (hshared : r.shared = true) {slot : Nat} (hslot : slot < r.slots.length) :
    ∃ pages owners, r.sharedPages[slot]? = some pages ∧ Given (-1) pages r.owners owners ∧
      release slot r = (.ok (), { r with owners := owners, sharedPages := r.sharedPages.set slot [] }) := by
  have hreserved : slot < r.sharedPages.length := h.reserved ▸ hslot
  have hpages : r.sharedPages[slot]? = some r.sharedPages[slot] := List.getElem?_eq_getElem hreserved
  obtain ⟨owners, hrun, hgiven⟩ : ∃ owners, forEach r.sharedPages[slot] (setOwner (-1)) r = (.ok (), { r with owners := owners }) ∧
      Given (-1) r.sharedPages[slot] r.owners owners := forEach_setOwner r (h.inRange hpages)
  refine ⟨_, owners, hpages, hgiven, ?_⟩
  rw [release, bind_ok (get_run r), if_neg (by simp [hshared, hslot]), hpages, Outcome.unwrap_some,
    bind_ok (lift_run _ r), bind_ok hrun, setShared, bind_ok (get_run _), if_pos hreserved, modify_run]

theorem Exclusive.released (h : Exclusive r) {slot : Nat} {pages owners : List Int}
    (hslot : r.sharedPages[slot]? = some pages) (hgiven : Given (-1) pages r.owners owners) :
    Exclusive { r with owners := owners, sharedPages := r.sharedPages.set slot [] } := by
  have hrange := (List.getElem?_eq_some_iff.mp hslot).1
  refine ⟨h.pageTokens, h.logicalTokens, h.active, by simpa using h.reserved, h.partitioned, ?_, ?_⟩
  · intro other pages' hother page
    by_cases hsame : slot = other
    · subst hsame
      obtain rfl : [] = pages' := Option.some.inj ((List.getElem?_set_self hrange).symm.trans hother)
      refine iff_of_false List.not_mem_nil fun ⟨hnonneg, howner⟩ => ?_
      dsimp only at howner
      by_cases hpage : page ∈ pages
      · have := Option.some.inj ((hgiven.given page hpage).symm.trans howner)
        omega
      · rw [hgiven.other hnonneg hpage] at howner
        exact hpage ((h.owned slot pages hslot page).mpr ⟨hnonneg, howner⟩)
    · have hother' : r.sharedPages[other]? = some pages' := (List.getElem?_set_ne hsame).symm.trans hother
      rw [h.owned other pages' hother' page]
      refine and_congr_right fun hnonneg => ?_
      dsimp only
      by_cases hpage : page ∈ pages
      · have howner := ((h.owned slot pages hslot page).mp hpage).2
        rw [hgiven.given page hpage, howner, Option.some.injEq, Option.some.injEq]
        omega
      · rw [hgiven.other hnonneg hpage]
  · intro other pages' hother
    by_cases hsame : slot = other
    · subst hsame
      obtain rfl : [] = pages' := Option.some.inj ((List.getElem?_set_self hrange).symm.trans hother)
      exact List.nodup_nil
    · exact h.nodup other pages' ((List.getElem?_set_ne hsame).symm.trans hother)

theorem Exclusive.claimed (h : Exclusive r) {slot : Nat} {pages owners : List Int}
    (hempty : r.sharedPages[slot]? = some []) (hnodup : pages.Nodup)
    (hfree : ∀ page ∈ pages, 0 ≤ page ∧ r.owners[page.toNat]? = some (-1)) (hgiven : Given slot pages r.owners owners) :
    Exclusive { r with owners := owners, sharedPages := r.sharedPages.set slot pages } := by
  have hrange := (List.getElem?_eq_some_iff.mp hempty).1
  refine ⟨h.pageTokens, h.logicalTokens, h.active, by simpa using h.reserved, h.partitioned, ?_, ?_⟩
  · intro other pages' hother page
    by_cases hsame : slot = other
    · subst hsame
      obtain rfl : pages = pages' := Option.some.inj ((List.getElem?_set_self hrange).symm.trans hother)
      refine ⟨fun hpage => ⟨(hfree page hpage).1, hgiven.given page hpage⟩, fun ⟨hnonneg, howner⟩ => ?_⟩
      by_contra hpage
      dsimp only at howner
      rw [hgiven.other hnonneg hpage] at howner
      exact List.not_mem_nil ((h.owned slot [] hempty page).mpr ⟨hnonneg, howner⟩)
    · have hother' : r.sharedPages[other]? = some pages' := (List.getElem?_set_ne hsame).symm.trans hother
      rw [h.owned other pages' hother' page]
      refine and_congr_right fun hnonneg => ?_
      dsimp only
      by_cases hpage : page ∈ pages
      · rw [hgiven.given page hpage, (hfree page hpage).2, Option.some.injEq, Option.some.injEq]
        omega
      · rw [hgiven.other hnonneg hpage]
  · intro other pages' hother
    by_cases hsame : slot = other
    · subst hsame
      obtain rfl : pages = pages' := Option.some.inj ((List.getElem?_set_self hrange).symm.trans hother)
      exact hnodup
    · exact h.nodup other pages' ((List.getElem?_set_ne hsame).symm.trans hother)

theorem claimable_eq_true {page : Int} :
    r.claimable page = true ↔
      0 ≤ page ∧ (r.owners[page.toNat]? = some (-1) ∨ r.owners[page.toNat]? = some (r.active : Int)) := by
  unfold claimable
  cases r.owners[page.toNat]? with
  | none => simp
  | some owner => simp

/-! ## One call -/

/-- A call answers, keeps the invariant and the layout, and changes nothing when it
    throws. -/
structure Kept (r : ResidentPages) (result : Outcome String Unit × ResidentPages) : Prop where
  exclusive : Exclusive result.2
  shared : result.2.shared = r.shared
  slots : result.2.slots.length = r.slots.length
  ne_panic : result.1 ≠ .panic
  unchanged : ∀ e, result.1 = .err e → result.2 = r

theorem kept_err (h : Exclusive r) (e : String) : Kept r (.err e, r) :=
  ⟨h, rfl, rfl, by simp, fun _ _ => rfl⟩

theorem kept_ok {r' : ResidentPages} (h : Exclusive r') (hshared : r'.shared = r.shared)
    (hslots : r'.slots.length = r.slots.length) : Kept r (.ok (), r') :=
  ⟨h, hshared, hslots, by simp, by simp⟩

theorem select_kept (h : Exclusive r) (slot : Nat) : Kept r (select slot r) := by
  rw [select, bind_ok (get_run r)]
  split
  · exact kept_err h _
  · rename_i hslot
    exact kept_ok ⟨h.pageTokens, h.logicalTokens, Nat.lt_of_not_ge hslot, h.reserved, h.partitioned, h.owned, h.nodup⟩
      rfl rfl

theorem release_kept (h : Exclusive r) (slot : Nat) : Kept r (release slot r) := by
  by_cases hfail : r.shared = false ∨ slot ≥ r.slots.length
  · rw [release, bind_ok (get_run r), if_pos hfail]
    exact kept_err h _
  · obtain ⟨hshared, hslot⟩ := not_or.mp hfail
    obtain ⟨pages, owners, hpages, hgiven, hrun⟩ :=
      release_spec h (Bool.not_eq_false _ ▸ hshared) (Nat.lt_of_not_ge hslot)
    rw [hrun]
    exact kept_ok (h.released hpages hgiven) rfl rfl

theorem bindShared_kept (h : Exclusive r) (hshared : r.shared = true) (pages : List Int) :
    Kept r (bindShared pages r) := by
  rw [bindShared, bind_ok (get_run r)]
  split
  · exact kept_err h _
  split
  · exact kept_err h _
  rename_i hdistinct
  obtain ⟨hclaimable, hnodup⟩ := allDistinct_eq_true.mp (Bool.not_eq_false _ ▸ hdistinct)
  -- The active slot gives its pages back, then takes the new ones.
  obtain ⟨old, owners, hold, hgiven, hrelease⟩ := release_spec h hshared h.active
  have hreleased := h.released hold hgiven
  have hrange := (List.getElem?_eq_some_iff.mp hold).1
  have hfree : ∀ page ∈ pages, 0 ≤ page ∧ owners[page.toNat]? = some (-1) := by
    intro page hpage
    obtain ⟨hnonneg, howner⟩ := claimable_eq_true.mp (hclaimable page hpage).1
    refine ⟨hnonneg, ?_⟩
    by_cases hmine : page ∈ old
    · exact hgiven.given page hmine
    · rw [hgiven.other hnonneg hmine]
      exact howner.resolve_right fun hactive => hmine ((h.owned _ old hold page).mpr ⟨hnonneg, hactive⟩)
  have hempty : (r.sharedPages.set r.active [])[r.active]? = some [] := List.getElem?_set_self hrange
  obtain ⟨owners', hrun, hgiven'⟩ := @forEach_setOwner r.active pages
    { r with owners := owners, sharedPages := (r.sharedPages.set r.active []).set r.active pages }
    fun page hpage => ⟨(hfree page hpage).1, (List.getElem?_eq_some_iff.mp (hfree page hpage).2).1⟩
  have hset : setShared r.active pages { r with owners := owners, sharedPages := r.sharedPages.set r.active [] } =
      (.ok (), { r with owners := owners, sharedPages := (r.sharedPages.set r.active []).set r.active pages }) := by
    rw [setShared, bind_ok (get_run _), if_pos (by simpa using hrange), modify_run]
  rw [bind_ok hrelease, bind_ok hset, hrun]
  exact kept_ok (hreleased.claimed hempty hnodup hfree hgiven') rfl rfl

/-- A slot's binding after it was given pages. -/
theorem bindSlot_kept (h : Exclusive r) {pages : List Int}
    (hpages : ∀ page ∈ pages, 0 ≤ page ∧ page.toNat / r.pagesPerSlot = r.active) : Kept r (bindSlot pages r) := by
  obtain ⟨b, hb⟩ : ∃ b, r.slots[r.active]? = some b := ⟨_, List.getElem?_eq_getElem h.active⟩
  have hpartitioned := h.partitioned _ _ hb
  have hread : (Method.lift (Outcome.unwrap r.slots[r.active]?) : Method ResidentPages String PageBinding) r =
      (.ok b, r) := by
    rw [lift_run, hb, Outcome.unwrap_some]
  rw [bindSlot, bind_ok (get_run r), bind_ok hread, bind_ok (modify_run _ r), lift_run]
  have hsame : r.slots.set r.active b = r.slots := by
    obtain ⟨hrange, rfl⟩ := List.getElem?_eq_some_iff.mp hb
    exact List.set_getElem_self hrange
  rw [PageBinding.bind, bind_ok (get_run b)]
  split
  · rw [fail_run, hsame]
    exact kept_err h _
  rename_i hlength
  split
  · rw [fail_run, hsame]
    exact kept_err h _
  rename_i hdistinct
  obtain ⟨-, hnodup⟩ := allDistinct_eq_true.mp (Bool.not_eq_false _ ▸ hdistinct)
  rw [modify_run]
  refine kept_ok ⟨h.pageTokens, h.logicalTokens, by simpa using h.active, by simpa using h.reserved, ?_, h.owned, h.nodup⟩
    rfl (by simp)
  intro slot b' hb'
  dsimp only at hb'
  by_cases hslot : r.active = slot
  · subst hslot
    obtain rfl := Option.some.inj ((List.getElem?_set_self h.active).symm.trans hb')
    exact ⟨hpartitioned.tokens, hpartitioned.rows, (not_not.mp hlength).trans hpartitioned.length, hnodup, hpages⟩
  · exact h.partitioned slot b' ((List.getElem?_set_ne hslot).symm.trans hb')

theorem bind_kept (h : Exclusive r) (pages : List Int) : Kept r (bind pages r) := by
  rw [bind, bind_ok (get_run r)]
  split
  · rename_i hshared
    exact bindShared_kept h hshared pages
  split
  · exact kept_err h _
  rename_i hcross
  refine bindSlot_kept h fun page hpage => ?_
  simp only [List.any_eq_true, not_exists, not_and, Bool.or_eq_true, decide_eq_true_eq, bne_iff_ne, not_or, not_lt,
    not_not] at hcross
  exact hcross page hpage

theorem step_kept (h : Exclusive r) (call : Call) : Kept r (step call r) :=
  match call with
  | .select slot => select_kept h slot
  | .bind pages => bind_kept h pages
  | .release slot => release_kept h slot

/-! ## Construction -/

theorem mem_partition {pagesPerSlot slot : Nat} (hpositive : 0 < pagesPerSlot) {page : Int} :
    page ∈ partition pagesPerSlot slot ↔ 0 ≤ page ∧ page.toNat / pagesPerSlot = slot := by
  simp only [partition, List.mem_map, List.mem_range]
  constructor
  · rintro ⟨i, hi, rfl⟩
    refine ⟨Int.natCast_nonneg _, ?_⟩
    rw [Int.toNat_natCast, Nat.add_comm, Nat.add_mul_div_right _ _ hpositive, Nat.div_eq_of_lt hi, Nat.zero_add]
  · rintro ⟨hnonneg, rfl⟩
    refine ⟨page.toNat % pagesPerSlot, Nat.mod_lt _ hpositive, ?_⟩
    rw [Nat.div_add_mod', Int.toNat_of_nonneg hnonneg]

theorem nodup_partition {pagesPerSlot slot : Nat} : (partition pagesPerSlot slot).Nodup := by
  refine List.nodup_range.map fun i j hij => ?_
  simpa using hij

/-- Initially page `n` belongs to the slot in whose partition it lies. -/
theorem owners_new {pagesPerSlot slots n : Nat} (hpositive : 0 < pagesPerSlot) :
    ((List.range slots).flatMap fun slot : Nat => List.replicate pagesPerSlot (slot : Int))[n]? =
      if n < slots * pagesPerSlot then some ((n / pagesPerSlot : Nat) : Int) else none := by
  induction slots with
  | zero => simp
  | succ slots ih =>
    have hlength : ((List.range slots).flatMap fun slot : Nat => List.replicate pagesPerSlot (slot : Int)).length =
        slots * pagesPerSlot := by
      simp [List.length_flatMap]
    rw [List.range_succ, List.flatMap_append, Nat.succ_mul]
    by_cases hn : n < slots * pagesPerSlot
    · rw [List.getElem?_append_left (by rwa [hlength]), ih, if_pos hn, if_pos (by omega)]
    · rw [List.getElem?_append_right (by omega), hlength, List.flatMap_singleton, List.getElem?_replicate]
      by_cases hlast : n < slots * pagesPerSlot + pagesPerSlot
      · have hdiv : n / pagesPerSlot = slots := by
          rw [Nat.div_eq_of_lt_le] <;> [skip; rw [Nat.succ_mul]] <;> omega
        rw [if_pos (by omega), if_pos hlast, hdiv]
      · rw [if_neg (by omega), if_neg hlast]

theorem newSlot_eq_ok {pageTokens logicalTokens slots slot : Nat} {b : PageBinding}
    (hpositive : 0 < logicalTokens / pageTokens) (hwhole : logicalTokens % pageTokens = 0)
    (h : newSlot pageTokens logicalTokens (logicalTokens / pageTokens) slots slot = .ok b) :
    Partitioned pageTokens (logicalTokens / pageTokens) slot b := by
  obtain ⟨b₀, hnew, h⟩ := Outcome.bind_eq_ok.mp h
  obtain ⟨hbind, h⟩ := Outcome.check_bind_eq_ok.mp h
  obtain rfl := Outcome.ok.inj h
  rw [PageBinding.new] at hnew
  split at hnew
  · cases hnew
  obtain rfl := Outcome.ok.inj hnew
  -- Whatever the binding answered, it was accepted.
  have hpages : ∀ b₀ : PageBinding, (PageBinding.bind (partition (logicalTokens / pageTokens) slot) b₀).1 = .ok () →
      (PageBinding.bind (partition (logicalTokens / pageTokens) slot) b₀).2 =
        { b₀ with pages := partition (logicalTokens / pageTokens) slot } := by
    intro b₀ hbind
    rw [PageBinding.bind, bind_ok (get_run b₀)] at hbind ⊢
    split at hbind
    · cases hbind
    rename_i hlength
    rw [if_neg hlength]
    split at hbind
    · cases hbind
    rename_i hdistinct
    rw [if_neg hdistinct, modify_run]
  rw [hpages _ hbind]
  refine ⟨rfl, ?_, ?_, nodup_partition, fun page hpage => (mem_partition hpositive).mp hpage⟩
  · exact (Nat.div_mul_cancel (Nat.dvd_of_mod_eq_zero hwhole)).symm
  · simp [partition]

/-- The complete partition is exclusive. -/
theorem new_exclusive {pageTokens logicalTokens slots : Nat} {shared : Bool}
    (h : new pageTokens logicalTokens slots shared = .ok r) : Exclusive r ∧ r.shared = shared := by
  rcases Nat.eq_zero_or_pos pageTokens with rfl | htokens
  · simp [new] at h
  simp only [new, if_neg htokens.ne'] at h
  split at h
  · cases h
  rename_i hchecks
  simp only [not_or, not_not] at hchecks
  obtain ⟨hslots, -, -, hrows, hwhole, -⟩ := hchecks
  have hpositive : 0 < logicalTokens / pageTokens :=
    Nat.div_pos (Nat.le_of_dvd (Nat.pos_of_ne_zero hrows) (Nat.dvd_of_mod_eq_zero hwhole)) htokens
  obtain ⟨bindings, hbindings, h⟩ := Outcome.bind_eq_ok.mp h
  obtain rfl := Outcome.ok.inj h
  have hall := Outcome.collect_eq_ok.mp hbindings
  have hlength : bindings.length = slots := by simpa using hall.length_eq.symm
  refine ⟨⟨htokens, (Nat.div_mul_cancel (Nat.dvd_of_mod_eq_zero hwhole)).symm, ?_, ?_, ?_, ?_, ?_⟩, rfl⟩
  · show 0 < bindings.length
    omega
  · simp [hlength]
  · intro slot b hb
    have hslot := (List.getElem?_eq_some_iff.mp hb).1
    have hnew := hall.get (by simpa [hlength] using hslot) hslot
    simp only [List.get_eq_getElem, List.getElem_range] at hnew
    obtain ⟨-, rfl⟩ := List.getElem?_eq_some_iff.mp hb
    exact newSlot_eq_ok hpositive hwhole hnew
  · intro slot pages hpages page
    simp only [List.getElem?_map, Option.map_eq_some_iff] at hpages
    obtain ⟨i, hi, rfl⟩ := hpages
    obtain ⟨hslot, rfl⟩ := List.getElem?_eq_some_iff.mp hi
    rw [List.getElem_range, mem_partition hpositive, owners_new hpositive]
    refine and_congr_right fun hnonneg => ?_
    have hslot : slot < slots := by simpa using hslot
    constructor
    · rintro hdiv
      rw [if_pos ((Nat.div_lt_iff_lt_mul hpositive).mp (hdiv ▸ hslot)), hdiv]
    · intro howner
      split at howner
      · exact Int.ofNat_inj.mp (Option.some.inj howner)
      · cases howner
  · intro slot pages hpages
    simp only [List.getElem?_map, Option.map_eq_some_iff] at hpages
    obtain ⟨i, -, rfl⟩ := hpages
    exact nodup_partition

/-! ## What a slot names -/

/-- A page of the slot: by ownership where pages are shared, else by partition. -/
def Owns (r : ResidentPages) (slot : Nat) (page : Int) : Prop :=
  0 ≤ page ∧
    if r.shared then r.owners[page.toNat]? = some (slot : Int) else page.toNat / r.pagesPerSlot = slot

/-- Where a table looks for entry `i`. -/
def ordinal (r : ResidentPages) (ring : Bool) (i : Nat) : Nat := if ring then i % r.pagesPerSlot else i

/-- A row of a block table: the slot's own pages, and the filler beyond them. -/
structure TableOf (r : ResidentPages) (slot entries : Nat) (ring : Bool) (row : List Int) : Prop where
  length : row.length = entries
  entry : ∀ i < entries, ∃ owned, r.pages slot = .ok owned ∧
    ((∃ page, owned[r.ordinal ring i]? = some page ∧ row[i]? = some page ∧ Owns r slot page) ∨
      (owned.length ≤ r.ordinal ring i ∧ row[i]? = some 0))

/-- Exclusive ownership, as the callers see it. -/
structure Separated (r : ResidentPages) : Prop where
  owner : r.shared = true → ∀ (slot : Nat) pages, r.sharedPages[slot]? = some pages →
    ∀ page : Int, page ∈ pages ↔ 0 ≤ page ∧ r.owners[page.toNat]? = some (slot : Int)
  once : r.sharedPages.flatten.Nodup
  append : ∀ slot position row, r.append slot position = .ok row →
    ∃ page, Owns r slot page ∧ row = page.toNat * r.pageTokens + position % r.pageTokens
  table : ∀ slot entries ring row, r.table slot entries ring = .ok row → TableOf r slot entries ring row
  batch : ∀ residents entries ring rows, r.batchTable residents entries ring = .ok rows →
    ∃ tables, rows = tables.flatten ∧
      List.Forall₂ (fun slot row => 0 ≤ slot ∧ TableOf r slot.toNat entries ring row) residents tables
  apart : ∀ slot slot' position position' row row', slot ≠ slot' →
    r.append slot position = .ok row → r.append slot' position' = .ok row' → row ≠ row'

theorem Owns.unique {slot slot' : Nat} {page page' : Int} (h : Owns r slot page) (h' : Owns r slot' page')
    (hsame : page.toNat = page'.toNat) : slot = slot' := by
  obtain ⟨hnonneg, howner⟩ := h
  obtain ⟨hnonneg', howner'⟩ := h'
  rw [hsame] at howner
  split at howner
  · rename_i hshared
    rw [if_pos hshared] at howner'
    exact Int.ofNat_inj.mp (Option.some.inj (howner.symm.trans howner'))
  · rename_i hfixed
    rw [if_neg hfixed] at howner'
    exact howner.symm.trans howner'

theorem Exclusive.pages_owned (h : Exclusive r) {slot : Nat} {owned : List Int} (hpages : r.pages slot = .ok owned) :
    ∀ page ∈ owned, Owns r slot page := by
  intro page hpage
  rw [pages] at hpages
  split at hpages
  · cases hpages
  split at hpages
  · rename_i hshared
    have howned := (h.owned slot owned (Outcome.unwrap_eq_ok.mp hpages) page).mp hpage
    exact ⟨howned.1, by rw [if_pos hshared]; exact howned.2⟩
  · rename_i hfixed
    obtain ⟨b, hb, hpages⟩ := Outcome.bind_eq_ok.mp hpages
    obtain rfl := Outcome.ok.inj hpages
    have howned := (h.partitioned slot b (Outcome.unwrap_eq_ok.mp hb)).own page hpage
    exact ⟨howned.1, by rw [if_neg hfixed]; exact howned.2⟩

theorem Exclusive.append_owned (h : Exclusive r) {slot position row : Nat} (happend : r.append slot position = .ok row) :
    ∃ page, Owns r slot page ∧ row = page.toNat * r.pageTokens + position % r.pageTokens := by
  rw [append] at happend
  split at happend
  · cases happend
  rename_i hslot
  split at happend
  · rename_i hfixed
    obtain ⟨b, hb, happend⟩ := Outcome.bind_eq_ok.mp happend
    rw [PageBinding.append] at happend
    split at happend
    · cases happend
    obtain ⟨page, hpage, happend⟩ := Outcome.bind_eq_ok.mp happend
    have hpages : r.pages slot = .ok b.pages := by
      rw [pages, if_neg hslot, if_neg (by simp [hfixed]), hb, Outcome.ok_bind]
    obtain rfl := Outcome.ok.inj happend
    rw [(h.partitioned slot b (Outcome.unwrap_eq_ok.mp hb)).tokens] at hpage ⊢
    exact ⟨page, h.pages_owned hpages page (List.mem_of_getElem? (Outcome.unwrap_eq_ok.mp hpage)), rfl⟩
  · rename_i hshared
    obtain ⟨owned, howned, happend⟩ := Outcome.bind_eq_ok.mp happend
    split at happend
    · cases happend
    obtain ⟨page, hpage, happend⟩ := Outcome.bind_eq_ok.mp happend
    have hpages : r.pages slot = .ok owned := by
      rw [pages, if_neg hslot, if_pos (Bool.not_eq_false _ ▸ hshared), howned]
    obtain rfl := Outcome.ok.inj happend
    exact ⟨page, h.pages_owned hpages page (List.mem_of_getElem? (Outcome.unwrap_eq_ok.mp hpage)), rfl⟩

theorem Exclusive.table_owned (h : Exclusive r) {slot entries : Nat} {ring : Bool} {row : List Int}
    (htable : r.table slot entries ring = .ok row) : TableOf r slot entries ring row := by
  obtain ⟨owned, hpages, htable⟩ := Outcome.bind_eq_ok.mp htable
  split at htable
  · cases htable
  obtain rfl := Outcome.ok.inj htable
  refine ⟨by simp, fun i hi => ⟨owned, hpages, ?_⟩⟩
  have hentry : ((List.range entries).map fun i => owned.getD (r.ordinal ring i) 0)[i]? =
      some (owned.getD (r.ordinal ring i) 0) := by
    rw [List.getElem?_map, List.getElem?_range hi, Option.map_some]
  cases hpage : owned[r.ordinal ring i]? with
  | none =>
    refine .inr ⟨List.getElem?_eq_none_iff.mp hpage, hentry.trans ?_⟩
    rw [List.getD_eq_getElem?_getD, hpage, Option.getD_none]
  | some page =>
    refine .inl ⟨page, rfl, hentry.trans ?_, h.pages_owned hpages page (List.mem_of_getElem? hpage)⟩
    rw [List.getD_eq_getElem?_getD, hpage, Option.getD_some]

theorem Exclusive.once (h : Exclusive r) : r.sharedPages.flatten.Nodup := by
  rw [List.nodup_flatten]
  constructor
  · intro pages hpages
    obtain ⟨slot, hslot⟩ := List.mem_iff_getElem?.mp hpages
    exact h.nodup slot pages hslot
  · rw [List.pairwise_iff_getElem]
    intro slot slot' hslot hslot' hlt page hpage hpage'
    have howner := ((h.owned slot _ (List.getElem?_eq_getElem hslot) page).mp hpage).2
    have howner' := ((h.owned slot' _ (List.getElem?_eq_getElem hslot') page).mp hpage').2
    have := Int.ofNat_inj.mp (Option.some.inj (howner.symm.trans howner'))
    omega

theorem Exclusive.batch_owned (h : Exclusive r) {residents rows : List Int} {entries : Nat} {ring : Bool}
    (hbatch : r.batchTable residents entries ring = .ok rows) :
    ∃ tables, rows = tables.flatten ∧
      List.Forall₂ (fun slot row => 0 ≤ slot ∧ TableOf r slot.toNat entries ring row) residents tables := by
  rw [batchTable] at hbatch
  split at hbatch
  · cases hbatch
  split at hbatch
  · cases hbatch
  rename_i hdistinct
  obtain ⟨hresidents, -⟩ := allDistinct_eq_true.mp (Bool.not_eq_false _ ▸ hdistinct)
  obtain ⟨tables, htables, hbatch⟩ := Outcome.bind_eq_ok.mp hbatch
  refine ⟨tables, (Outcome.ok.inj hbatch).symm, ?_⟩
  have hall := Outcome.collect_eq_ok.mp htables
  refine List.forall₂_iff_zip.mpr ⟨hall.length_eq, fun {slot row} hmem => ?_⟩
  have hfits := (hresidents slot (List.of_mem_zip hmem).1).1
  simp only [Bool.and_eq_true, decide_eq_true_eq] at hfits
  exact ⟨hfits.1, h.table_owned ((List.forall₂_iff_zip.mp hall).2 hmem)⟩

theorem Exclusive.separated (h : Exclusive r) : Separated r where
  owner _ := h.owned
  once := h.once
  append _ _ _ := h.append_owned
  table _ _ _ _ := h.table_owned
  batch _ _ _ _ := h.batch_owned
  apart := by
    rintro slot slot' position position' row row' hne happend happend' rfl
    obtain ⟨page, howns, hrow⟩ := h.append_owned happend
    obtain ⟨page', howns', hrow'⟩ := h.append_owned happend'
    -- A row determines its page.
    have hpage : ∀ page : Int, ∀ position,
        (page.toNat * r.pageTokens + position % r.pageTokens) / r.pageTokens = page.toNat := by
      intro page position
      rw [Nat.add_comm, Nat.add_mul_div_right _ _ h.pageTokens, Nat.div_eq_of_lt (Nat.mod_lt _ h.pageTokens),
        Nat.zero_add]
    refine hne (howns.unique howns' ?_)
    rw [← hpage page position, ← hpage page' position', ← hrow, ← hrow']

/-! ## Every run -/

theorem run_kept {r₀ : ResidentPages} (h : Exclusive r₀) (calls : List Call) :
    Exclusive (final step calls r₀) ∧ (final step calls r₀).shared = r₀.shared ∧ Ran step calls r₀ := by
  induction calls generalizing r₀ with
  | nil => exact ⟨h, rfl, by simp [Ran]⟩
  | cons call calls ih =>
    have hkept := step_kept h call
    obtain ⟨hexclusive, hshared, hran⟩ := ih hkept.exclusive
    rw [ran_cons, ran_singleton]
    exact ⟨hexclusive, hshared.trans hkept.shared, hkept.ne_panic, hran⟩

/-- Whatever is selected, bound and released, slots stay separated, no call goes out
    of range, and a rejected one changes nothing. -/
theorem page_ownership {pageTokens logicalTokens slots : Nat} {shared : Bool}
    (h : new pageTokens logicalTokens slots shared = .ok r) (calls : List Call) :
    Separated (final step calls r) ∧ (final step calls r).shared = shared ∧ Ran step calls r ∧
      ∀ ev ∈ history step calls r, ∀ e, ev.reply = .err e → ev.after = ev.before := by
  obtain ⟨hexclusive, rfl⟩ := new_exclusive h
  obtain ⟨hfinal, hshared, hran⟩ := run_kept hexclusive calls
  refine ⟨hfinal.separated, hshared, hran, fun ev hev e herr => ?_⟩
  obtain ⟨before, call, -, -, rfl⟩ := mem_history hev
  exact (step_kept (run_kept hexclusive before).1 call).unchanged e herr

/-- The last binding asks for a page of the other slot. -/
def sampleCalls : List Call := [.release 0, .release 1, .bind [5, 0], .select 1, .bind [4], .bind [5]]

theorem page_ownership_sample :
    ∃ r, new 16 48 2 true = .ok r ∧ (final step sampleCalls r).owners = [0, -1, -1, -1, 1, 0] ∧
      Separated (final step sampleCalls r) :=
  ⟨_, rfl, rfl, (@page_ownership _ 16 48 2 true rfl sampleCalls).1⟩

end ResidentPages

end Inferfabric.Native.State
