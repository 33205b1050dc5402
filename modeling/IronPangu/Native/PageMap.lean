-- SUMMARY: The page map of one paged state on one rank, as the calls of the host engine move it, and which page lists it takes.
import IronPangu.Native.Engine.Open
import IronPangu.Native.Ownership

open Rust Method Std

/-!
# Page maps under the host's calls

Every rank has one map for each paged state. Preparation leaves it with nothing
reserved; afterwards the host's calls alone move it. A call that does not come back
with status 0 was refused before it reached the ranks, or has ended the worker
group, whose maps nothing reads again.
-/

namespace Inferfabric.Native

namespace State.ResidentPages

variable {r r' : ResidentPages} {slot : Nat} {pages : List Int}

/-! ## Maps with shared pages -/

/-- Every shared page is free or some resident's. -/
structure Settled (r : ResidentPages) : Prop extends Exclusive r where
  shared : r.shared = true
  count : r.owners.length = r.pagesPerSlot * r.slots.length
  owner : ∀ {n : Nat} {o : Int}, r.owners[n]? = some o → o = -1 ∨ ∃ slot < r.slots.length, o = (slot : Int)

/-- What no call changes. -/
structure SameLayout (r r' : ResidentPages) : Prop where
  pagesPerSlot : r'.pagesPerSlot = r.pagesPerSlot
  pageTokens : r'.pageTokens = r.pageTokens
  logicalTokens : r'.logicalTokens = r.logicalTokens
  slots : r'.slots = r.slots

theorem SameLayout.refl (r : ResidentPages) : SameLayout r r := ⟨rfl, rfl, rfl, rfl⟩

theorem SameLayout.trans {r'' : ResidentPages} (h : SameLayout r r') (h' : SameLayout r' r'') : SameLayout r r'' :=
  ⟨h'.pagesPerSlot.trans h.pagesPerSlot, h'.pageTokens.trans h.pageTokens, h'.logicalTokens.trans h.logicalTokens,
    h'.slots.trans h.slots⟩

/-- One slot has been given other pages. -/
structure Rebound (slot : Nat) (pages : List Int) (r r' : ResidentPages) : Prop where
  settled : Settled r'
  layout : SameLayout r r'
  active : r'.active = r.active
  reserved : r'.sharedPages = r.sharedPages.set slot pages

theorem select_settled (h : Settled r) (hslot : slot < r.slots.length) :
    select slot r = (.ok (), { r with active := slot }) ∧ Settled { r with active := slot } := by
  have hkept := select_kept h.toExclusive slot
  have hrun : select slot r = (.ok (), { r with active := slot }) := by
    rw [select, bind_ok (get_run r), if_neg (Nat.not_le.mpr hslot), modify_run]
  rw [hrun] at hkept
  exact ⟨hrun, hkept.exclusive, h.shared, h.count, h.owner⟩

theorem select_refused (hslot : ¬slot < r.slots.length) : select slot r = (.err "resident page slot", r) := by
  rw [select, bind_ok (get_run r), if_pos (Nat.not_lt.mp hslot), fail_run]

theorem Given.settled {owner : Int} {owners owners' : List Int} (h : Given owner pages owners owners') {n : Nat}
    {o : Int} (ho : owners'[n]? = some o) : o = owner ∨ owners[n]? = some o := by
  by_cases hpage : (n : Int) ∈ pages
  · have hgiven := h.given _ hpage
    rw [Int.toNat_natCast] at hgiven
    exact .inl (Option.some.inj (ho.symm.trans hgiven))
  · exact .inr ((h.kept n hpage).symm.trans ho)

theorem release_settled (h : Settled r) (hslot : slot < r.slots.length) :
    ∃ r', release slot r = (.ok (), r') ∧ Rebound slot [] r r' := by
  obtain ⟨old, owners, hold, hgiven, hrun⟩ := release_spec h.toExclusive h.shared hslot
  refine ⟨_, hrun, ⟨h.released hold hgiven, h.shared, hgiven.length.trans h.count, fun ho => ?_⟩, ⟨rfl, rfl, rfl, rfl⟩, rfl, rfl⟩
  exact (hgiven.settled ho).elim .inl h.owner

/-- A list of the right length whose pages may be claimed is bound. -/
theorem bind_claimed (h : Settled r) (hsome : pages ≠ []) (hlength : pages.length ≤ r.pagesPerSlot)
    (hclaimed : allDistinct r.claimable [] pages = true) :
    ∃ r', bind pages r = (.ok (), r') ∧ Rebound r.active pages r r' := by
  obtain ⟨hclaimable, -⟩ := allDistinct_eq_true.mp hclaimed
  obtain ⟨old, owners, hold, hgiven, hrelease⟩ := release_spec h.toExclusive h.shared h.active
  have hrange : r.active < r.sharedPages.length := h.reserved.symm ▸ h.active
  let released : ResidentPages := { r with owners := owners, sharedPages := r.sharedPages.set r.active [] }
  let listed : ResidentPages := { released with sharedPages := (r.sharedPages.set r.active []).set r.active pages }
  have hlist : setShared r.active pages released = (.ok (), listed) := by
    rw [setShared, bind_ok (get_run _), if_pos (by simpa [released] using hrange), modify_run]
  have hinRange : ∀ page ∈ pages, 0 ≤ page ∧ page.toNat < listed.owners.length := by
    intro page hpage
    obtain ⟨hnonneg, howner⟩ := claimable_eq_true.mp (hclaimable page hpage).1
    refine ⟨hnonneg, hgiven.length.symm ▸ ?_⟩
    exact howner.elim (fun h => (List.getElem?_eq_some_iff.mp h).1) fun h => (List.getElem?_eq_some_iff.mp h).1
  obtain ⟨owners', hown, hgiven'⟩ := @forEach_setOwner r.active pages listed hinRange
  have hrun : bindShared pages r = (.ok (), { listed with owners := owners' }) := by
    rw [bindShared, bind_ok (get_run r), if_neg (not_or.mpr ⟨hsome, Nat.not_lt.mpr hlength⟩),
      if_neg (by simp [hclaimed]), bind_ok hrelease, bind_ok hlist, hown]
  have hkept := bindShared_kept h.toExclusive h.shared pages
  rw [hrun] at hkept
  refine ⟨_, ?_, ⟨hkept.exclusive, h.shared, ?_, fun ho => ?_⟩, ⟨rfl, rfl, rfl, rfl⟩, rfl, List.set_set ..⟩
  · rw [bind, bind_ok (get_run r), if_pos h.shared, hrun]
  · exact (hgiven'.length.trans hgiven.length).trans h.count
  · rcases hgiven'.settled ho with rfl | ho
    · exact .inr ⟨r.active, h.active, rfl⟩
    · exact (hgiven.settled ho).elim .inl h.owner

/-- Pages that are in range and no other resident's are bound. -/
theorem bind_settled (h : Settled r) (hsome : pages ≠ []) (hlength : pages.length ≤ r.pagesPerSlot) (hnodup : pages.Nodup)
    (hrange : ∀ page ∈ pages, 0 ≤ page ∧ page.toNat < r.owners.length)
    (hfree : ∀ (slot : Nat) others, slot ≠ r.active → r.sharedPages[slot]? = some others → pages.Disjoint others) :
    ∃ r', bind pages r = (.ok (), r') ∧ Rebound r.active pages r r' := by
  refine bind_claimed h hsome hlength (allDistinct_eq_true.mpr ⟨fun page hpage => ⟨?_, List.not_mem_nil⟩, hnodup⟩)
  obtain ⟨hnonneg, hlt⟩ := hrange page hpage
  have howner : r.owners[page.toNat]? = some r.owners[page.toNat] := List.getElem?_eq_getElem hlt
  refine claimable_eq_true.mpr ⟨hnonneg, ?_⟩
  rcases h.owner howner with hnone | ⟨slot, hslot, hsome⟩
  · exact .inl (howner.trans (congrArg some hnone))
  · refine .inr ?_
    rw [howner, hsome]
    obtain ⟨others, hothers⟩ : ∃ others, r.sharedPages[slot]? = some others :=
      ⟨_, List.getElem?_eq_getElem (h.reserved.symm ▸ hslot)⟩
    have hmem : page ∈ others := (h.owned slot others hothers page).mpr ⟨hnonneg, howner.trans (congrArg some hsome)⟩
    by_cases hactive : slot = r.active
    · rw [hactive]
    · exact absurd hmem (hfree slot _ hactive hothers hpage)

/-! ## Rows -/

theorem Settled.slot_lt (h : Settled r) (hreserved : r.sharedPages[slot]? = some pages) : slot < r.slots.length := by
  rw [← h.reserved]
  exact (List.getElem?_eq_some_iff.mp hreserved).1

theorem Settled.append_eq {position : Nat} {page : Int} (h : Settled r) (hreserved : r.sharedPages[slot]? = some pages)
    (hposition : position < r.logicalTokens) (hpage : pages[position / r.pageTokens]? = some page) :
    r.append slot position = .ok (page.toNat * r.pageTokens + position % r.pageTokens) := by
  have hrange : position / r.pageTokens < pages.length := (List.getElem?_eq_some_iff.mp hpage).1
  rw [append, if_neg (Nat.not_le.mpr (h.slot_lt hreserved)), if_neg (by simp [h.shared]), hreserved, Outcome.unwrap_some,
    Outcome.ok_bind, if_neg (not_or.mpr ⟨Nat.not_le.mpr hposition, Nat.not_le.mpr hrange⟩), hpage, Outcome.unwrap_some,
    Outcome.ok_bind]

theorem Settled.table_eq {entries i : Nat} {ring : Bool} {row : List Int} {page : Int} (h : Settled r)
    (hreserved : r.sharedPages[slot]? = some pages) (htable : r.table slot entries ring = .ok row) (hi : i < entries)
    (hpage : pages[r.ordinal ring i]? = some page) : row[i]? = some page := by
  obtain ⟨owned, howned, hcases⟩ := (h.toExclusive.table_owned htable).entry i hi
  rw [ResidentPages.pages, if_neg (Nat.not_le.mpr (h.slot_lt hreserved)), if_pos h.shared, hreserved,
    Outcome.unwrap_some] at howned
  obtain rfl := Outcome.ok.inj howned
  rcases hcases with ⟨page', hpage', hrow, -⟩ | ⟨hbeyond, -⟩
  · exact hrow.trans (hpage'.symm.trans hpage)
  · exact absurd (List.getElem?_eq_some_iff.mp hpage).1 (Nat.not_lt.mpr hbeyond)

/-! ## After preparation -/

/-- `release_preparation_pages`: serving starts with nothing reserved. -/
def releasePreparation (r : ResidentPages) : ResidentPages :=
  (forEach (List.range r.slots.length) release r).2

theorem new_settled {pageTokens logicalTokens slots : Nat} (hnew : new pageTokens logicalTokens slots true = .ok r) :
    Settled r ∧ r.slots.length = slots ∧ r.pageTokens = pageTokens ∧ r.logicalTokens = logicalTokens ∧
      r.pagesPerSlot = logicalTokens / pageTokens ∧ r.pagesPerSlot * slots ≤ int32Max := by
  obtain ⟨hexclusive, hshared⟩ := new_exclusive hnew
  rcases Nat.eq_zero_or_pos pageTokens with rfl | htokens
  · simp [new] at hnew
  simp only [new, if_neg htokens.ne'] at hnew
  split at hnew
  · cases hnew
  rename_i hchecks
  simp only [not_or, not_not] at hchecks
  obtain ⟨-, -, -, hrows, hwhole, hcount⟩ := hchecks
  have hpositive : 0 < logicalTokens / pageTokens :=
    Nat.div_pos (Nat.le_of_dvd (Nat.pos_of_ne_zero hrows) (Nat.dvd_of_mod_eq_zero hwhole)) htokens
  obtain ⟨bindings, hbindings, hnew⟩ := Outcome.bind_eq_ok.mp hnew
  obtain rfl := Outcome.ok.inj hnew
  have hlength : bindings.length = slots := by simpa using (Outcome.collect_eq_ok.mp hbindings).length_eq.symm
  refine ⟨⟨hexclusive, hshared, ?_, fun {n o} ho => .inr ?_⟩, hlength, rfl, rfl, rfl, Nat.not_lt.mp hcount⟩
  · simp [List.length_flatMap, hlength, Nat.mul_comm]
  · simp only [owners_new hpositive] at ho
    split at ho
    · rename_i hlt
      exact ⟨_, by rw [hlength]; exact (Nat.div_lt_iff_lt_mul hpositive).mpr hlt, (Option.some.inj ho).symm⟩
    · cases ho

theorem releaseAll_settled (h : Settled r) {slots : List Nat} (hslots : ∀ slot ∈ slots, slot < r.slots.length) :
    ∃ r', forEach slots release r = (.ok (), r') ∧ Settled r' ∧ SameLayout r r' ∧ r'.active = r.active ∧
      ∀ slot : Nat, r'.sharedPages[slot]? = if slot ∈ slots then some [] else r.sharedPages[slot]? := by
  induction slots generalizing r with
  | nil => exact ⟨r, rfl, h, .refl r, rfl, fun slot => by simp⟩
  | cons first slots ih =>
    obtain ⟨hfirst, hrest⟩ := List.forall_mem_cons.mp hslots
    obtain ⟨r₁, hrun, hbound⟩ := release_settled h hfirst
    obtain ⟨r', hruns, hsettled, hlayout, hactive, hpages⟩ :=
      ih hbound.settled fun slot hslot => hbound.layout.slots.symm ▸ hrest slot hslot
    refine ⟨r', by rw [forEach, bind_ok hrun, hruns], hsettled, hbound.layout.trans hlayout,
      hactive.trans hbound.active, fun slot => ?_⟩
    rw [hpages, hbound.reserved, List.getElem?_set]
    have hreserved : first < r.sharedPages.length := h.reserved.symm ▸ hfirst
    grind

theorem releasePreparation_settled (h : Settled r) :
    Settled r.releasePreparation ∧ SameLayout r r.releasePreparation ∧
      ∀ slot < r.slots.length, r.releasePreparation.sharedPages[slot]? = some [] := by
  obtain ⟨r', hrun, hsettled, hlayout, -, hpages⟩ := releaseAll_settled h fun slot => List.mem_range.mp
  rw [releasePreparation, hrun]
  exact ⟨hsettled, hlayout, fun slot hslot => by rw [hpages, if_pos (List.mem_range.mpr hslot)]⟩

end State.ResidentPages

/-! ## Calls -/

open State (ResidentPages)

/-- The map of one paged state on one rank. -/
structure PageMap where
  rank : Nat
  /-- The logical node the state is bound by, and its name in the program. -/
  node : Nat
  component : String

/-- What a call that came back with status 0 has done to the map. -/
def PageMap.run (map : PageMap) : Foreign → Method ResidentPages String Unit
  | .reset => ResidentPages.select 0
  | .selectResident slot => ResidentPages.select slot
  | .resetResident slot => ResidentPages.release slot
  | .bindState rank node pages =>
    if rank = map.rank ∧ node = map.node then ResidentPages.bind (pages.map Int.ofNat) else Pure.pure ()
  | .bindPages rank component pages =>
    if rank = map.rank ∧ component = map.component then ResidentPages.bind (pages.map Int.ofNat) else Pure.pure ()
  | .token .. | .prefill .. | .batch .. | .copyResident .. | .audit .. => Pure.pure ()

namespace PageMap

variable {map : PageMap} {w : World} {r : ResidentPages} {call : Foreign} {calls : List Foreign}

/-- The map after the calls, the latest first. -/
def after (map : PageMap) (w : World) (r : ResidentPages) : List Foreign → ResidentPages
  | [] => r
  | call :: calls =>
    if (w.answer (call :: calls)).status = 0 then (map.run call (map.after w r calls)).2 else map.after w r calls

/-- The calls that give pages away or take them back. -/
def reassigns : Foreign → Bool
  | .resetResident _ | .bindState .. => true
  | _ => false

/-- The map has refused no release and no page list that reached it. -/
def Unrefused (map : PageMap) (w : World) (r : ResidentPages) : List Foreign → Prop
  | [] => True
  | call :: calls =>
    (reassigns call = true → (map.run call (map.after w r calls)).1 = .ok ()) ∧ map.Unrefused w r calls

/-- A call that does not concern the map. -/
theorem after_skip (hrun : map.run call = Pure.pure ()) : map.after w r (call :: calls) = map.after w r calls := by
  rw [after, hrun]
  exact ite_self _

theorem after_refused (hstatus : (w.answer (call :: calls)).status ≠ 0) :
    map.after w r (call :: calls) = map.after w r calls :=
  if_neg hstatus

theorem after_answered {r' : ResidentPages} {reply : Outcome String Unit} (hstatus : (w.answer (call :: calls)).status = 0)
    (hrun : map.run call (map.after w r calls) = (reply, r')) : map.after w r (call :: calls) = r' := by
  rw [after, if_pos hstatus, hrun]

end PageMap

end Inferfabric.Native
