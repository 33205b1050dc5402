-- SUMMARY: The masks of the fixed-lane engine match its frontiers: what each call does to them, and what the graph is fed.
import IronPangu.Lib.Paging
import IronPangu.Lib.Triple
import IronPangu.Native.FixedLane

open Rust Method

/-!
# Masks and frontiers

A batch opens its columns in the mask before its first library call, and moves the
frontiers after the last one. A call that fails in between leaves the lanes of the
batch torn: their column at the frontier is open already.
-/

namespace Inferfabric.Native.FixedLane

open Engine

variable {α : Type} {e e' : Engine} {tokens done : List (Nat × Nat)} {masks : List MaskValue}

/-! ## Slices -/

theorem updateAt_eq_ok {i : Nat} {f : α → α} {xs : List α} {a : α} (h : xs[i]? = some a) :
    updateAt i f xs = .ok (xs.set i (f a)) := by
  rw [updateAt, h]
  rfl

theorem getElem?_set_ne {i j : Nat} {a : α} {xs : List α} (h : j ≠ i) : (xs.set i a)[j]? = xs[j]? :=
  List.getElem?_set_ne h.symm

theorem getElem?_set_self {i : Nat} {a b : α} {xs : List α} (h : xs[i]? = some b) : (xs.set i a)[i]? = some a := by
  rw [List.getElem?_set_self (List.getElem?_eq_some_iff.mp h).1]

/-- A filled range is the new value, and the rest is as it was. -/
theorem fill_eq_ok {first stop : Nat} {a : α} {xs : List α} (hle : first ≤ stop) (hstop : stop ≤ xs.length) :
    ∃ ys, fill first stop a xs = .ok ys ∧ ys.length = xs.length ∧
      ∀ i < xs.length, ys[i]? = if first ≤ i ∧ i < stop then some a else xs[i]? := by
  refine ⟨_, if_pos ⟨hle, hstop⟩, by simp; omega, fun i hi => ?_⟩
  have htake : (xs.take first).length = first := by simp; omega
  rw [List.append_assoc]
  by_cases hbefore : i < first
  · rw [if_neg (by omega), List.getElem?_append_left (by omega), List.getElem?_take_of_lt hbefore]
  · rw [List.getElem?_append_right (by omega), htake]
    by_cases hinside : i < stop
    · rw [if_pos (by omega), List.getElem?_append_left (by simp; omega), List.getElem?_replicate, if_pos (by omega)]
    · rw [if_neg (by omega), List.getElem?_append_right (by simp; omega), List.length_replicate, List.getElem?_drop]
      congr 1
      omega

/-! ## Library calls -/

/-- A part of a method that makes library calls and nothing else: all of `made`, or some up to one that fails. -/
def Sends (m : Call Unit) (made : List Foreign) : Prop :=
  ∀ e, m e = (.ok (), { e with calls := made.reverse ++ e.calls }) ∨
    ∃ error calls, calls ≠ [] ∧ m e = (.err error, { e with calls := calls ++ e.calls })

theorem sends_foreign (call : Foreign) : Sends (foreign call) [call] := by
  intro e
  rcases hfailure : e.world.failure (call :: e.calls) with _ | message
  · exact .inl (by simp [foreign, hfailure])
  · exact .inr ⟨_, [call], List.cons_ne_nil _ _, by simp [foreign, hfailure]; rfl⟩

theorem Sends.andThen {m m' : Call Unit} {made made' : List Foreign} (h : Sends m made) (h' : Sends m' made') :
    Sends (m >>= fun _ => m') (made ++ made') := by
  intro e
  rcases h e with hok | ⟨error, calls, hcalls, herr⟩
  · rw [bind_ok hok]
    rcases h' { e with calls := made.reverse ++ e.calls } with hok' | ⟨error, calls, hcalls, herr⟩
    · exact .inl (by rw [hok', List.reverse_append, List.append_assoc])
    · exact .inr ⟨error, calls ++ made.reverse, by simp [hcalls], by rw [herr, List.append_assoc]⟩
  · exact .inr ⟨error, calls, hcalls, bind_err herr⟩

theorem Sends.forEach {β : Type} {body : β → Call Unit} {made : β → List Foreign} (h : ∀ b, Sends (body b) (made b)) :
    ∀ bs : List β, Sends (Method.forEach bs body) (bs.flatMap made)
  | [] => fun _ => .inl rfl
  | b :: bs => (h b).andThen (Sends.forEach h bs)

/-! ## Sizes -/

/-- The sizes an engine is assembled with. The last row of a lane is behind its whole context. -/
structure Sized (e : Engine) : Prop where
  frontiers : e.frontiers.length = e.batch
  masks : e.maskValues.length = e.batch * e.context
  context : 0 < e.context
  slots : e.context < e.slotsPerLane

theorem Sized.frontier (h : Sized e) {lane : Nat} (hlane : lane < e.batch) : ∃ f, e.frontiers[lane]? = some f :=
  ⟨_, List.getElem?_eq_getElem (h.frontiers ▸ hlane)⟩

theorem Sized.lane_lt (h : Sized e) {lane f : Nat} (hf : e.frontiers[lane]? = some f) : lane < e.batch :=
  h.frontiers ▸ (List.getElem?_eq_some_iff.mp hf).1

theorem cell_lt {lane column batch context : Nat} (hlane : lane < batch) (hcolumn : column < context) :
    lane * context + column < batch * context :=
  calc lane * context + column < lane * context + context := Nat.add_lt_add_left hcolumn _
    _ = (lane + 1) * context := (Nat.succ_mul _ _).symm
    _ ≤ batch * context := Nat.mul_le_mul_right _ hlane

/-! ## Selecting lanes -/

/-- The inputs after some tokens: their lanes are entered, and the others are idle. -/
structure Chosen (e : Engine) (done : List (Nat × Nat)) (b : Inputs) : Prop where
  active : b.active.length = e.batch
  ids : b.ids.length = e.batch
  positions : b.positions.length = e.batch
  append : b.append.length = e.batch
  distinct : (done.map Prod.fst).Nodup
  chosen : ∀ t ∈ done, t.2 < 248320 ∧ ∃ f < e.context, e.frontiers[t.1]? = some f ∧ b.active[t.1]? = some 1 ∧
    b.ids[t.1]? = some (t.2 : Int) ∧ b.positions[t.1]? = some (f : Int) ∧
    b.append[t.1]? = some ((t.1 * e.slotsPerLane + f : Nat) : Int)
  idle : ∀ lane < e.batch, lane ∉ done.map Prod.fst → b.active[lane]? = some 0 ∧ b.ids[lane]? = some 1 ∧
    b.positions[lane]? = some 0 ∧ b.append[lane]? = some (((lane + 1) * e.slotsPerLane - 1 : Nat) : Int)

theorem chosen_idle (e : Engine) : Chosen e [] e.idle where
  active := by simp [Engine.idle]
  ids := by simp [Engine.idle]
  positions := by simp [Engine.idle]
  append := by simp [Engine.idle]
  distinct := List.nodup_nil
  chosen := by simp
  idle lane hlane _ := by simp [Engine.idle, hlane]

/-- One more lane is entered. -/
theorem Chosen.add {b : Inputs} (h : Chosen e done b) {lane token f : Nat} (hnew : lane ∉ done.map Prod.fst)
    (hlane : lane < e.batch) (htoken : token < 248320) (hfrontier : e.frontiers[lane]? = some f) (hf : f < e.context) :
    Chosen e (done ++ [(lane, token)]) ⟨b.active.set lane 1, b.ids.set lane token, b.positions.set lane f,
      b.append.set lane ((lane * e.slotsPerLane + f : Nat) : Int)⟩ := by
  obtain ⟨hactive, hids, hpositions, happend⟩ := h.idle lane hlane hnew
  refine ⟨by simpa using h.active, by simpa using h.ids, by simpa using h.positions, by simpa using h.append, ?_, ?_, ?_⟩
  · rw [List.map_append]
    exact List.nodup_append'.mpr ⟨h.distinct, List.nodup_singleton _, by simpa using hnew⟩
  · intro t ht
    rcases List.mem_append.mp ht with hold | hlast
    · have hne : t.1 ≠ lane := fun heq => hnew (heq ▸ List.mem_map_of_mem hold)
      simpa only [getElem?_set_ne hne] using h.chosen t hold
    · obtain rfl := List.mem_singleton.mp hlast
      exact ⟨htoken, f, hf, hfrontier, getElem?_set_self hactive, getElem?_set_self hids,
        getElem?_set_self hpositions, getElem?_set_self happend⟩
  · intro other hother hnot
    simp only [List.map_append, List.map_cons, List.map_nil, List.mem_append, List.mem_singleton, not_or] at hnot
    simpa only [getElem?_set_ne hnot.2] using h.idle other hother hnot.1

/-- The checks accept the tokens one by one, or refuse the batch. -/
theorem select_cases (hsized : Sized e) (tokens : List (Nat × Nat)) {b : Inputs} (h : Chosen e done b) :
    (∃ b', e.select tokens b = .ok b' ∧ Chosen e (done ++ tokens) b') ∨ ∃ error, e.select tokens b = .err error := by
  induction tokens generalizing done b with
  | nil => exact .inl ⟨b, rfl, by rwa [List.append_nil]⟩
  | cons t tokens ih =>
    obtain ⟨lane, token⟩ := t
    rw [select]
    split
    · exact .inr ⟨_, rfl⟩
    rename_i hlane
    obtain ⟨f, hf⟩ := hsized.frontier (not_le.mp hlane)
    by_cases hold : lane ∈ done.map Prod.fst
    · obtain ⟨t, ht, rfl⟩ := List.mem_map.mp hold
      obtain ⟨-, f', -, -, hactive, -⟩ := h.chosen t ht
      exact .inr ⟨_, by rw [hactive, Outcome.unwrap_some, Outcome.ok_bind, if_pos (.inl Nat.one_ne_zero)]; rfl⟩
    obtain ⟨hactive, hids, hpositions, happend⟩ := h.idle lane (not_le.mp hlane) hold
    rw [hactive, Outcome.unwrap_some, Outcome.ok_bind]
    split
    · exact .inr ⟨_, rfl⟩
    rename_i htoken
    rw [hf, Outcome.unwrap_some, Outcome.ok_bind]
    split
    · exact .inr ⟨_, rfl⟩
    rename_i hroom
    simp only [updateAt_eq_ok hactive, updateAt_eq_ok hids, updateAt_eq_ok hpositions, updateAt_eq_ok happend,
      Outcome.ok_bind]
    have hadd := h.add hold (not_le.mp hlane) (not_le.mp fun hge => htoken (.inr hge)) hf (not_le.mp hroom)
    rw [List.append_cons]
    exact ih hadd

/-! ## The mask of a batch -/

/-- The column is open in a mask. -/
def Open (masks : List MaskValue) (cell : Nat) : Prop := masks[cell]? = some .zero

theorem open_set {masks : List MaskValue} {cell other : Nat} (hcell : cell < masks.length) :
    Open (masks.set cell .zero) other ↔ Open masks other ∨ other = cell := by
  rw [Open, Open, List.getElem?_set]
  split
  · rename_i heq
    simp [heq, heq ▸ hcell]
  · rename_i hne
    simp [Ne.symm hne]

theorem openColumns_eq_ok (hsized : Sized e) (hmasks : masks.length = e.batch * e.context)
    (htokens : ∀ t ∈ tokens, ∃ f < e.context, e.frontiers[t.1]? = some f) :
    ∃ opened, e.openColumns tokens masks = .ok opened ∧ opened.length = masks.length ∧
      ∀ cell, Open opened cell ↔ Open masks cell ∨
        ∃ t ∈ tokens, ∃ f, e.frontiers[t.1]? = some f ∧ cell = t.1 * e.context + f := by
  induction tokens generalizing masks with
  | nil => exact ⟨masks, rfl, rfl, by simp⟩
  | cons t tokens ih =>
    obtain ⟨f, hf, hfrontier⟩ := htokens t List.mem_cons_self
    have hcell : t.1 * e.context + f < masks.length := hmasks ▸ cell_lt (hsized.lane_lt hfrontier) hf
    have hset : (masks.set (t.1 * e.context + f) .zero).length = e.batch * e.context := by simpa using hmasks
    obtain ⟨opened, hopened, hlength, hopen⟩ := ih hset fun t' ht' => htokens t' (List.mem_cons_of_mem _ ht')
    refine ⟨opened, ?_, by simpa using hlength, fun cell => ?_⟩
    · rw [openColumns, hfrontier, Outcome.unwrap_some, Outcome.ok_bind,
        updateAt_eq_ok (List.getElem?_eq_getElem hcell), Outcome.ok_bind, hopened]
    · rw [hopen, open_set hcell, or_assoc, List.exists_mem_cons_iff]
      simp [hfrontier]

theorem pad_eq_ok (hsized : Sized e) {active : List Nat} (hactive : active.length = e.batch)
    (hmasks : masks.length = e.batch * e.context) {lanes : List Nat} (hlanes : ∀ lane ∈ lanes, lane < e.batch) :
    ∃ padded, e.pad active lanes masks = .ok padded ∧ padded.length = masks.length ∧
      ∀ cell, Open padded cell ↔ Open masks cell ∨
        ∃ lane ∈ lanes, e.frontiers[lane]? = some 0 ∧ active[lane]? = some 0 ∧ cell = lane * e.context := by
  induction lanes generalizing masks with
  | nil => exact ⟨masks, rfl, rfl, by simp⟩
  | cons lane lanes ih =>
    have hlane := hlanes lane List.mem_cons_self
    obtain ⟨f, hf⟩ := hsized.frontier hlane
    have hused : active[lane]? = some active[lane] := List.getElem?_eq_getElem (hactive ▸ hlane)
    rw [pad, hf, hused, Outcome.unwrap_some, Outcome.unwrap_some, Outcome.ok_bind, Outcome.ok_bind]
    have hrest : ∀ lane' ∈ lanes, lane' < e.batch := fun lane' h' => hlanes lane' (List.mem_cons_of_mem _ h')
    split
    · rename_i hempty
      have hcell : lane * e.context < masks.length := by
        have hlt := cell_lt hlane hsized.context
        omega
      have hset : (masks.set (lane * e.context) .zero).length = e.batch * e.context := by simpa using hmasks
      obtain ⟨padded, hpadded, hlength, hopen⟩ := ih hset hrest
      refine ⟨padded, ?_, by simpa using hlength, fun cell => ?_⟩
      · rw [updateAt_eq_ok (List.getElem?_eq_getElem hcell), Outcome.ok_bind]
        exact hpadded
      · rw [hopen, open_set hcell, or_assoc, List.exists_mem_cons_iff]
        simp [hf, hused, hempty]
    · rename_i hfull
      obtain ⟨padded, hpadded, hlength, hopen⟩ := ih hmasks hrest
      refine ⟨padded, hpadded, hlength, fun cell => ?_⟩
      rw [hopen, List.exists_mem_cons_iff]
      simp only [hf, hused, Option.some.injEq]
      tauto

theorem advance_eq_ok {frontiers : List Nat} (hdistinct : (tokens.map Prod.fst).Nodup)
    (hlanes : ∀ t ∈ tokens, t.1 < frontiers.length) :
    ∃ moved, advance tokens frontiers = .ok moved ∧ moved.length = frontiers.length ∧
      ∀ lane, moved[lane]? = if lane ∈ tokens.map Prod.fst then frontiers[lane]?.map (· + 1) else frontiers[lane]? := by
  induction tokens generalizing frontiers with
  | nil => exact ⟨frontiers, rfl, rfl, by simp⟩
  | cons t tokens ih =>
    obtain ⟨hnew, hdistinct⟩ := List.nodup_cons.mp hdistinct
    have hlane := hlanes t List.mem_cons_self
    have hrest : ∀ t' ∈ tokens, t'.1 < (frontiers.set t.1 (frontiers[t.1] + 1)).length := fun t' ht' => by
      simpa using hlanes t' (List.mem_cons_of_mem _ ht')
    obtain ⟨moved, hmoved, hlength, hget⟩ := ih hdistinct hrest
    refine ⟨moved, ?_, by simpa using hlength, fun lane => ?_⟩
    · rw [advance, updateAt_eq_ok (List.getElem?_eq_getElem hlane), Outcome.ok_bind, hmoved]
    · rw [hget, List.map_cons]
      by_cases heq : lane = t.1
      · obtain rfl := heq
        rw [if_neg hnew, if_pos List.mem_cons_self, List.getElem?_set_self hlane, List.getElem?_eq_getElem hlane]
        rfl
      · simp only [getElem?_set_ne heq, List.mem_cons, heq, false_or]

/-! ## Aligned engines -/

/-- The mask of a lane is open exactly below its frontier, and that of a torn lane at its frontier as well. -/
structure Aligned (e : Engine) (torn : Finset Nat) : Prop where
  sized : Sized e
  bounded : ∀ (lane : Nat) f, e.frontiers[lane]? = some f → f ≤ e.context
  columns : ∀ (lane : Nat) f, e.frontiers[lane]? = some f → ∀ column < e.context,
    Open e.maskValues (lane * e.context + column) ↔ column < f ∨ column = f ∧ lane ∈ torn

theorem Aligned.called {torn : Finset Nat} (h : Aligned e torn) (calls : List Foreign) :
    Aligned { e with calls := calls } torn :=
  ⟨⟨h.sized.frontiers, h.sized.masks, h.sized.context, h.sized.slots⟩, h.bounded, h.columns⟩

/-- The lanes of some tokens. -/
def lanes (tokens : List (Nat × Nat)) : Finset Nat := (tokens.map Prod.fst).toFinset

theorem mem_lanes {lane : Nat} : lane ∈ lanes tokens ↔ lane ∈ tokens.map Prod.fst := List.mem_toFinset

/-! ## Resetting a lane -/

theorem sends_zeroRegion {batch : Nat} (hbatch : 0 < batch) (lane : Nat) (r : Region × Nat) :
    Sends (zeroRegion lane batch r) [.writeState r.2 (lane * (r.1.bytes / batch)) (r.1.bytes / batch)] := by
  intro e
  rw [zeroRegion, Outcome.div_pos hbatch]
  exact sends_foreign _ e

/-- A lane with its rows forgotten. -/
theorem Aligned.reset {torn : Finset Nat} (h : Aligned e torn) {lane : Nat} (hlane : lane < e.batch) :
    ∃ masks, fill (lane * e.context) ((lane + 1) * e.context) .negInfinity e.maskValues = .ok masks ∧
      Aligned { e with frontiers := e.frontiers.set lane 0, maskValues := masks } (torn.erase lane) := by
  have hle : lane * e.context ≤ (lane + 1) * e.context := Nat.mul_le_mul_right _ (Nat.le_succ lane)
  have hstop : (lane + 1) * e.context ≤ e.maskValues.length := h.sized.masks ▸ Nat.mul_le_mul_right _ hlane
  obtain ⟨masks, hfill, hlength, hget⟩ := fill_eq_ok hle hstop
  refine ⟨masks, hfill, ⟨by simpa using h.sized.frontiers, hlength.trans h.sized.masks, h.sized.context, h.sized.slots⟩,
    ?_, ?_⟩
  · intro other f hf
    dsimp only at hf
    rw [List.getElem?_set] at hf
    split at hf
    · split at hf
      · obtain rfl := Option.some.inj hf
        exact Nat.zero_le _
      · cases hf
    · exact h.bounded other f hf
  · intro other f hf column hcolumn
    dsimp only at hf hcolumn ⊢
    have hother : other < e.batch := by
      have hlt := (List.getElem?_eq_some_iff.mp hf).1
      rwa [List.length_set, h.sized.frontiers] at hlt
    rw [Open, hget _ (h.sized.masks ▸ cell_lt hother hcolumn)]
    by_cases heq : other = lane
    · obtain rfl := heq
      obtain rfl : 0 = f := by simpa [h.sized.frontiers, hlane] using hf
      have hinside : other * e.context ≤ other * e.context + column ∧
          other * e.context + column < (other + 1) * e.context := by
        rw [Nat.succ_mul]
        omega
      simp [hinside]
    · rw [getElem?_set_ne heq] at hf
      have houtside : ¬(lane * e.context ≤ other * e.context + column ∧
          other * e.context + column < (lane + 1) * e.context) := by
        rintro ⟨hle, hlt⟩
        obtain ⟨k, hk⟩ := Nat.exists_eq_add_of_le hle
        rw [hk, Nat.succ_mul, Nat.add_lt_add_iff_left] at hlt
        exact heq (Paging.flat_injective hcolumn hlt hk).1
      rw [if_neg houtside]
      have hcolumns := h.columns other f hf column hcolumn
      rw [Open] at hcolumns
      simp [hcolumns, heq]

/-- What a reset can come to. -/
theorem resetSlot_cases {torn : Finset Nat} (h : Aligned e torn) (lane : Nat) :
    (∃ error, resetSlot lane e = (.err error, e)) ∨
    (∃ error calls, calls ≠ [] ∧ resetSlot lane e = (.err error, { e with calls := calls ++ e.calls })) ∨
    (lane < e.batch ∧ ∃ e', resetSlot lane e = (.ok (), e') ∧ e'.frontiers = e.frontiers.set lane 0 ∧
      Aligned e' (torn.erase lane)) := by
  rw [resetSlot]
  by_cases hlane : lane < e.batch
  swap
  · have hcheck : require (fun e => lane < e.batch) (Error.invalid "invalid native slot") e =
        (.err (.invalid "invalid native slot"), e) := by
      simp [require, hlane]
    exact .inl ⟨_, bind_err hcheck⟩
  have hcheck : require (fun e => lane < e.batch) (Error.invalid "invalid native slot") e = (.ok (), e) := by
    simp [require, hlane]
  have hzero := Sends.forEach (sends_zeroRegion (Nat.zero_lt_of_lt hlane) lane) e.states.zipIdx e
  rw [bind_ok hcheck, bind_ok (get_run e)]
  rcases hzero with hok | ⟨error, calls, hcalls, herr⟩
  · rw [bind_ok hok]
    obtain ⟨f, hf⟩ := h.sized.frontier hlane
    obtain ⟨masks, hfill, haligned⟩ := h.reset hlane
    have hrest := updateAt_eq_ok (f := fun _ => 0) hf
    simp only [bind_run, read_run, hrest, hfill, modify_run]
    exact .inr (.inr ⟨hlane, _, rfl, rfl, haligned.called _⟩)
  · rw [bind_err herr]
    exact .inr (.inl ⟨error, calls, hcalls, rfl⟩)

/-! ## Feeding a batch -/

/-- What the graph was fed when a batch was accepted, and the frontiers after it. -/
structure Fed (e : Engine) (torn : Finset Nat) (tokens : List (Nat × Nat)) (inputs : Inputs) (masks : List MaskValue)
    (e' : Engine) : Prop where
  calls : e'.calls = .replay :: .writeMask masks :: .writeAppend inputs.append :: .writePositions inputs.positions ::
    .writeIds inputs.ids :: .writeActive inputs.active :: e.calls
  /-- An active lane appends at its frontier, an idle lane to its last row. -/
  inputs : Chosen e tokens inputs
  frontiers : ∀ (lane : Nat) f, e.frontiers[lane]? = some f →
    e'.frontiers[lane]? = some (if lane ∈ lanes tokens then f + 1 else f)
  active : ∀ lane ∈ lanes tokens, ∀ f, e'.frontiers[lane]? = some f → ∀ column < e.context,
    Open masks (lane * e.context + column) ↔ column < f
  idle : ∀ lane ∉ lanes tokens, ∀ f, e'.frontiers[lane]? = some f → ∀ column < e.context,
    Open masks (lane * e.context + column) ↔ column < f ∨ column = f ∧ lane ∈ torn ∨ f = 0 ∧ column = 0

theorem sends_feed (inputs : Inputs) (masks : List MaskValue) :
    Sends (feed inputs masks) [.writeActive inputs.active, .writeIds inputs.ids, .writePositions inputs.positions,
      .writeAppend inputs.append, .writeMask masks, .replay] :=
  (sends_foreign _).andThen ((Sends.forEach sends_foreign _).andThen ((sends_foreign _).andThen (sends_foreign _)))

/-- The opened columns are those at the frontiers of the batch. -/
theorem Aligned.opened {torn : Finset Nat} (h : Aligned e torn)
    (htokens : ∀ t ∈ tokens, ∃ f < e.context, e.frontiers[t.1]? = some f) :
    ∃ opened, e.openColumns tokens e.maskValues = .ok opened ∧
      Aligned { e with maskValues := opened } (torn ∪ lanes tokens) := by
  obtain ⟨opened, hopened, hlength, hopen⟩ := openColumns_eq_ok h.sized h.sized.masks htokens
  refine ⟨opened, hopened, ⟨h.sized.frontiers, hlength.trans h.sized.masks, h.sized.context, h.sized.slots⟩, h.bounded, ?_⟩
  intro lane f hf column hcolumn
  have hnew : (∃ t ∈ tokens, ∃ f', e.frontiers[t.1]? = some f' ∧ lane * e.context + column = t.1 * e.context + f') ↔
      column = f ∧ lane ∈ lanes tokens := by
    rw [mem_lanes, List.mem_map]
    constructor
    · rintro ⟨t, ht, f', hf', hcell⟩
      obtain ⟨bound, hbound, hfrontier⟩ := htokens t ht
      obtain rfl := Option.some.inj (hf'.symm.trans hfrontier)
      obtain ⟨rfl, rfl⟩ := Paging.flat_injective hcolumn hbound hcell
      exact ⟨Option.some.inj (hf'.symm.trans hf), t, ht, rfl⟩
    · rintro ⟨rfl, t, ht, rfl⟩
      exact ⟨t, ht, column, hf, rfl⟩
  dsimp only at hcolumn ⊢
  rw [hopen, h.columns lane f hf column hcolumn, hnew, Finset.mem_union]
  tauto

/-- Moving the frontiers of the batch over their open columns mends its lanes. -/
theorem Aligned.advanced {torn : Finset Nat} (h : Aligned e (torn ∪ lanes tokens))
    (hdistinct : (tokens.map Prod.fst).Nodup) (htokens : ∀ t ∈ tokens, ∃ f < e.context, e.frontiers[t.1]? = some f) :
    ∃ moved, advance tokens e.frontiers = .ok moved ∧ Aligned { e with frontiers := moved } (torn \ lanes tokens) ∧
      ∀ (lane : Nat) f, e.frontiers[lane]? = some f → moved[lane]? = some (if lane ∈ lanes tokens then f + 1 else f) := by
  have hlanes : ∀ t ∈ tokens, t.1 < e.frontiers.length := fun t ht =>
    (List.getElem?_eq_some_iff.mp (htokens t ht).choose_spec.2).1
  obtain ⟨moved, hmoved, hlength, hget⟩ := advance_eq_ok hdistinct hlanes
  have hnext : ∀ (lane : Nat) f, e.frontiers[lane]? = some f →
      moved[lane]? = some (if lane ∈ lanes tokens then f + 1 else f) := by
    intro lane f hf
    rw [hget, hf]
    simp only [mem_lanes]
    split <;> rfl
  have hback : ∀ (lane : Nat) f', moved[lane]? = some f' →
      ∃ f, e.frontiers[lane]? = some f ∧ f' = if lane ∈ lanes tokens then f + 1 else f := by
    intro lane f' hf'
    obtain ⟨f, hf⟩ : ∃ f, e.frontiers[lane]? = some f :=
      ⟨_, List.getElem?_eq_getElem (hlength ▸ (List.getElem?_eq_some_iff.mp hf').1)⟩
    exact ⟨f, hf, Option.some.inj (hf'.symm.trans (hnext lane f hf))⟩
  refine ⟨moved, hmoved, ⟨⟨hlength.trans h.sized.frontiers, h.sized.masks, h.sized.context, h.sized.slots⟩, ?_, ?_⟩, hnext⟩
  · intro lane f' hf'
    obtain ⟨f, hf, rfl⟩ := hback lane f' hf'
    split
    · rename_i hmem
      obtain ⟨t, ht, rfl⟩ := List.mem_map.mp (mem_lanes.mp hmem)
      obtain ⟨bound, hbound, hfrontier⟩ := htokens t ht
      obtain rfl := Option.some.inj (hf.symm.trans hfrontier)
      exact hbound
    · exact h.bounded lane f hf
  · intro lane f' hf' column hcolumn
    obtain ⟨f, hf, rfl⟩ := hback lane f' hf'
    have hcolumns := h.columns lane f hf column hcolumn
    dsimp only at hcolumn ⊢
    rw [hcolumns, Finset.mem_union, Finset.mem_sdiff]
    split
    · rename_i hmem
      simp only [hmem, or_true, and_true, not_true, and_false, or_false]
      omega
    · rename_i hmem
      simp only [hmem, or_false, not_false_eq_true, and_true]

/-- What a batch can come to. -/
theorem consumeBatch_cases {torn : Finset Nat} (h : Aligned e torn) (tokens : List (Nat × Nat)) :
    (tokens = [] ∧ consumeBatch tokens e = (.ok (), e)) ∨
    (∃ error, consumeBatch tokens e = (.err error, e)) ∨
    (∃ error calls opened, calls ≠ [] ∧ e.openColumns tokens e.maskValues = .ok opened ∧
      consumeBatch tokens e = (.err error, { e with calls := calls ++ e.calls, maskValues := opened }) ∧
      Aligned { e with calls := calls ++ e.calls, maskValues := opened } (torn ∪ lanes tokens)) ∨
    ∃ inputs masks e', consumeBatch tokens e = (.ok (), e') ∧ Fed e torn tokens inputs masks e' ∧
      Aligned e' (torn \ lanes tokens) := by
  rw [consumeBatch]
  split
  · rename_i hempty
    exact .inl ⟨List.isEmpty_iff.mp hempty, rfl⟩
  rcases select_cases h.sized tokens (chosen_idle e) with ⟨inputs, hselect, hchosen⟩ | ⟨error, herr⟩
  swap
  · exact .inr (.inl ⟨error, by simp only [bind_run, read_run, herr]⟩)
  rw [List.nil_append] at hchosen
  have htokens : ∀ t ∈ tokens, ∃ f < e.context, e.frontiers[t.1]? = some f := by
    intro t ht
    obtain ⟨-, f, hf, hfrontier, -⟩ := hchosen.chosen t ht
    exact ⟨f, hf, hfrontier⟩
  obtain ⟨opened, hopened, haligned⟩ := h.opened htokens
  obtain ⟨masks, hpad, -, hmasks⟩ := pad_eq_ok haligned.sized hchosen.active haligned.sized.masks
    fun lane hlane => List.mem_range.mp hlane
  simp only [bind_run, read_run, hselect, hopened, modify_run, hpad]
  rcases sends_feed inputs masks { e with maskValues := opened } with hok | ⟨error, calls, hcalls, herr⟩
  swap
  · simp only [herr]
    exact .inr (.inr (.inl ⟨error, calls, opened, hcalls, rfl, rfl, haligned.called _⟩))
  obtain ⟨moved, hmoved, hfinal, hnext⟩ := (haligned.called _).advanced hchosen.distinct htokens
  simp only [hok, hmoved]
  refine .inr (.inr (.inr ⟨inputs, masks, _, rfl, ⟨rfl, hchosen, hnext, ?_, ?_⟩, hfinal⟩))
  · intro lane hlane f' hf' column hcolumn
    obtain ⟨t, ht, rfl⟩ := List.mem_map.mp (mem_lanes.mp hlane)
    obtain ⟨-, f, -, hf, hactive, -⟩ := hchosen.chosen t ht
    have hcolumns := haligned.columns t.1 f hf column hcolumn
    have hnext' := hnext t.1 f hf
    rw [if_pos hlane] at hnext'
    obtain rfl := Option.some.inj (hf'.symm.trans hnext')
    have hpadded : ¬∃ other ∈ List.range e.batch, e.frontiers[other]? = some 0 ∧ inputs.active[other]? = some 0 ∧
        t.1 * e.context + column = other * e.context := by
      rintro ⟨other, -, -, hidle, hcell⟩
      obtain ⟨rfl, -⟩ := Paging.flat_injective hcolumn h.sized.context (hcell.trans (Nat.add_zero _).symm)
      cases hactive.symm.trans hidle
    rw [hmasks, or_iff_left hpadded, hcolumns, Finset.mem_union]
    simp only [hlane, or_true, and_true]
    omega
  · intro lane hlane f' hf' column hcolumn
    have hin : lane < e.batch := hfinal.sized.lane_lt hf'
    obtain ⟨f, hf⟩ := h.sized.frontier hin
    have hcolumns := haligned.columns lane f hf column hcolumn
    have hnext' := hnext lane f hf
    rw [if_neg hlane] at hnext'
    obtain rfl := Option.some.inj (hf'.symm.trans hnext')
    obtain ⟨hactive, -⟩ := hchosen.idle lane hin fun hmem => hlane (mem_lanes.mpr hmem)
    have hpadded : (∃ other ∈ List.range e.batch, e.frontiers[other]? = some 0 ∧ inputs.active[other]? = some 0 ∧
        lane * e.context + column = other * e.context) ↔ f' = 0 ∧ column = 0 := by
      constructor
      · rintro ⟨other, -, hempty, -, hcell⟩
        obtain ⟨rfl, rfl⟩ := Paging.flat_injective hcolumn h.sized.context (hcell.trans (Nat.add_zero _).symm)
        exact ⟨Option.some.inj (hf.symm.trans hempty), rfl⟩
      · rintro ⟨rfl, rfl⟩
        exact ⟨lane, List.mem_range.mpr hin, hf, hactive, rfl⟩
    rw [hmasks, hcolumns, hpadded, Finset.mem_union]
    simp only [hlane, or_false]
    tauto

/-! ## Rows -/

/-- The cache row behind the context of a lane. -/
def dummyRow (e : Engine) (lane : Nat) : Nat := (lane + 1) * e.slotsPerLane - 1

theorem table_eq (e : Engine) (hcontext : 0 < e.context) {lane column : Nat} (hlane : lane < e.batch)
    (hcolumn : column < e.context) :
    e.table[lane * e.context + column]? = some ((lane * e.slotsPerLane + column : Nat) : Int) := by
  have hquotient : (lane * e.context + column) / e.context = lane := by
    rw [Nat.add_comm, Nat.add_mul_div_right _ _ hcontext, Nat.div_eq_of_lt hcolumn, Nat.zero_add]
  have hremainder : (lane * e.context + column) % e.context = column := by
    rw [Nat.add_comm, Nat.add_mul_mod_self_right, Nat.mod_eq_of_lt hcolumn]
  rw [table, List.getElem?_map, List.getElem?_range (cell_lt hlane hcolumn), Option.map_some, hquotient, hremainder]

/-- No row of a table is the dummy row of a lane. -/
theorem Sized.row_ne_dummy (h : Sized e) {lane column other : Nat} (hcolumn : column < e.context) :
    lane * e.slotsPerLane + column ≠ dummyRow e other := by
  intro heq
  have hslots := h.slots
  have hdummy : dummyRow e other = other * e.slotsPerLane + (e.slotsPerLane - 1) := by
    rw [dummyRow, Nat.succ_mul]
    omega
  obtain ⟨-, hlast⟩ := Paging.flat_injective (hcolumn.trans hslots) (by omega) (heq.trans hdummy)
  omega

/-! ## Prepared engines -/

theorem triple_resetSlot (torn : Finset Nat) (lane : Nat) :
    Triple (Aligned · torn) (resetSlot lane) (fun _ => (Aligned · (torn.erase lane))) fun _ => True := by
  intro e he
  rcases resetSlot_cases he lane with ⟨error, hrun⟩ | ⟨error, calls, -, hrun⟩ | ⟨-, e', hrun, -, hnext⟩
  · rw [hrun]
    trivial
  · rw [hrun]
    trivial
  · rw [hrun]
    exact hnext

theorem triple_consumeBatch (tokens : List (Nat × Nat)) :
    Triple (Aligned · ∅) (consumeBatch tokens) (fun _ => (Aligned · ∅)) fun _ => True := by
  intro e he
  rcases consumeBatch_cases he tokens with
    ⟨-, hrun⟩ | ⟨error, hrun⟩ | ⟨error, calls, opened, -, -, hrun, -⟩ | ⟨inputs, masks, e', hrun, -, hnext⟩
  · rw [hrun]
    exact he
  · rw [hrun]
    trivial
  · rw [hrun]
    trivial
  · rw [hrun]
    rwa [Finset.empty_sdiff] at hnext

theorem triple_resets (torn : Finset Nat) (lanes : List Nat) :
    Triple (Aligned · torn) (forEach lanes resetSlot) (fun _ => (Aligned · (torn \ lanes.toFinset))) fun _ => True := by
  induction lanes generalizing torn with
  | nil => exact triple_pure () fun e he => by simpa using he
  | cons lane lanes ih =>
    refine (triple_resetSlot torn lane).bind fun _ => (ih (torn.erase lane)).post fun _ e he => ?_
    have hlanes : torn.erase lane \ lanes.toFinset = torn \ (lane :: lanes).toFinset := by
      ext other
      simp [and_assoc, and_left_comm]
    rwa [hlanes] at he

theorem triple_foreign (torn : Finset Nat) (call : Foreign) :
    Triple (Aligned · torn) (foreign call) (fun _ => (Aligned · torn)) fun _ => True := by
  intro e he
  rcases sends_foreign call e with hrun | ⟨error, calls, -, hrun⟩
  · rw [hrun]
    exact he.called _
  · rw [hrun]
    trivial

theorem aligned_assemble {world : World} {calls : List Foreign} {states : List Region} {batch context slotsPerLane : Nat}
    (hcontext : 0 < context) (hslots : context < slotsPerLane) :
    Aligned (assemble world calls states batch context slotsPerLane) (Finset.range batch) := by
  have hfrontier : ∀ (lane : Nat) f, (assemble world calls states batch context slotsPerLane).frontiers[lane]? = some f →
      lane < batch ∧ 0 = f := by
    intro lane f hf
    simpa [assemble, List.getElem?_replicate] using hf
  refine ⟨⟨by simp [assemble], by simp [assemble], hcontext, hslots⟩, ?_, ?_⟩
  · intro lane f hf
    obtain ⟨-, rfl⟩ := hfrontier lane f hf
    exact Nat.zero_le _
  · intro lane f hf column hcolumn
    obtain ⟨hlane, rfl⟩ := hfrontier lane f hf
    change column < context at hcolumn
    have hremainder : (lane * context + column) % context = column := by
      rw [Nat.add_comm, Nat.add_mul_mod_self_right, Nat.mod_eq_of_lt hcolumn]
    have hcell : (assemble world calls states batch context slotsPerLane).maskValues[lane * context + column]? =
        some (if column = 0 then .zero else .negInfinity) := by
      rw [assemble, List.getElem?_map, List.getElem?_range (cell_lt hlane hcolumn), Option.map_some, hremainder]
    change (assemble world calls states batch context slotsPerLane).maskValues[lane * context + column]? = _ ↔ _
    rw [hcell]
    split <;> simp [*]

/-- A prepared engine is aligned. -/
theorem aligned_prepare {world : World} {calls : List Foreign} {states : List Region}
    {maxModelLen maxNumSeqs pageTokens : Nat} (h : prepare world calls states maxModelLen maxNumSeqs pageTokens = .ok e) :
    Aligned e ∅ := by
  rw [prepare, Outcome.check_bind_eq_ok] at h
  obtain ⟨hoptions, h⟩ := h
  obtain ⟨pages, hpages, h⟩ := Outcome.bind_eq_ok.mp h
  have hcontext : 0 < maxModelLen := by
    unfold validateOptions at hoptions
    split_ifs at hoptions <;> first | omega | cases hoptions
  have hslots : maxModelLen < pages * pageTokens + 1 := by
    unfold Outcome.divCeil at hpages
    split at hpages
    · cases hpages
    · rename_i hpage
      obtain rfl := Outcome.ok.inj hpages
      have hceil := Nat.div_add_mod (maxModelLen + pageTokens - 1) pageTokens
      have hlt := Nat.mod_lt (maxModelLen + pageTokens - 1) (Nat.pos_of_ne_zero hpage)
      rw [Nat.mul_comm] at hceil
      omega
  have hqualify : Triple (· = assemble world calls states maxNumSeqs maxModelLen (pages * pageTokens + 1)) qualify
      (fun _ => (Aligned · ∅)) fun _ => True := by
    have hreset : Triple (Aligned · ∅) reset (fun _ => (Aligned · ∅)) fun _ => True :=
      triple_get_bind fun e => by simpa using triple_resets ∅ (List.range e.batch)
    refine Triple.bind (Q := fun _ => (Aligned · ∅)) (triple_get_at ?_) fun _ => triple_get_bind fun e => ?_
    · refine ((triple_resets (Finset.range maxNumSeqs) (List.range maxNumSeqs)).pre ?_).post ?_
      · rintro _ rfl
        exact aligned_assemble hcontext hslots
      · intro _ e he
        rwa [List.toFinset_range, Finset.sdiff_self] at he
    · have hread : ∀ region, Triple (Aligned · ∅) (do
          foreign (.readState region)
          require (fun e => !e.world.inactiveChanged e.calls) (.invalid "inactive graph lane state changed"))
          (fun _ => (Aligned · ∅)) fun _ => True := fun region =>
        (triple_foreign ∅ _).bind fun _ => (triple_require _ _ fun _ _ => trivial).post fun _ _ he => he.1
      split
      · refine (triple_consumeBatch _).bind fun _ => (triple_forEach fun _ _ => triple_foreign ∅ _).bind fun _ => ?_
        exact (triple_consumeBatch _).bind fun _ => (triple_forEach fun _ _ => hread _).bind fun _ => hreset
      · exact triple_pure () fun _ he => he
  split at h
  · rename_i e' hrun
    obtain rfl := Outcome.ok.inj h
    exact hqualify.ok rfl hrun
  · cases h
  · cases h

/-! ## Runs -/

/-- The lanes torn by one call: those of a batch that came to a library call and failed. -/
def tear (torn : Finset Nat) (ev : Event Engine Error Op Unit) : Finset Nat :=
  match ev.call, ev.reply with
  | .resetSlot lane, .ok _ => torn.erase lane
  | .consumeBatch tokens, .ok _ => torn \ lanes tokens
  | .consumeBatch tokens, .err _ => if ev.after.calls = ev.before.calls then torn else torn ∪ lanes tokens
  | _, _ => torn

/-- The lanes left torn by a run: torn by a batch, and neither fed nor reset since. -/
def tornLanes (events : List (Event Engine Error Op Unit)) : Finset Nat := events.foldl tear ∅

/-- What one call does to frontiers and masks. -/
structure Answered (torn : Finset Nat) (ev : Event Engine Error Op Unit) : Prop where
  noPanic : ev.reply ≠ .panic
  /-- A call that is refused before it reaches the library changes nothing. -/
  refused : ∀ error, ev.reply = .err error → ev.after.calls = ev.before.calls → ev.after = ev.before
  /-- No failed call moves a frontier. -/
  failed : ∀ error, ev.reply = .err error → ev.after.frontiers = ev.before.frontiers
  reset : ∀ lane, ev.call = .resetSlot lane →
    (∀ error, ev.reply = .err error → ev.after.maskValues = ev.before.maskValues) ∧
    (ev.reply = .ok () → lane < ev.before.batch ∧ ev.after.frontiers = ev.before.frontiers.set lane 0)
  batch : ∀ tokens, ev.call = .consumeBatch tokens → ev.reply = .ok () →
    tokens = [] ∧ ev.after = ev.before ∨ ∃ inputs masks, Fed ev.before torn tokens inputs masks ev.after

theorem aligned_step {torn : Finset Nat} (h : Aligned e torn) (op : Op) :
    Aligned (step op e).2 (tear torn (event step e op)) ∧ Answered torn (event step e op) := by
  have hlonger : ∀ {calls : List Foreign}, calls ≠ [] → calls ++ e.calls ≠ e.calls := fun hcalls heq =>
    hcalls (List.append_left_eq_self.mp heq)
  cases op with
  | resetSlot lane =>
    rw [event]
    dsimp only [step]
    rcases resetSlot_cases h lane with ⟨error, hrun⟩ | ⟨error, calls, hcalls, hrun⟩ | ⟨hlane, e', hrun, hfrontiers, hnext⟩
    · rw [hrun]
      exact ⟨h, by simp, fun _ _ _ => rfl, fun _ _ => rfl, fun _ _ => ⟨fun _ _ => rfl, by simp⟩, by simp⟩
    · rw [hrun]
      exact ⟨h.called _, by simp, fun _ _ hsame => absurd hsame (hlonger hcalls), fun _ _ => rfl,
        fun _ _ => ⟨fun _ _ => rfl, by simp⟩, by simp⟩
    · rw [hrun]
      refine ⟨hnext, by simp, by simp, by simp, ?_, by simp⟩
      rintro _ ⟨⟩
      exact ⟨by simp, fun _ => ⟨hlane, hfrontiers⟩⟩
  | consumeBatch tokens =>
    rw [event]
    dsimp only [step]
    rcases consumeBatch_cases h tokens with
      ⟨rfl, hrun⟩ | ⟨error, hrun⟩ | ⟨error, calls, opened, hcalls, -, hrun, hnext⟩ | ⟨inputs, masks, e', hrun, hfed, hnext⟩
    · rw [hrun]
      refine ⟨by simpa [tear, lanes] using h, by simp, by simp, by simp, by simp, ?_⟩
      rintro _ ⟨⟩ -
      exact .inl ⟨rfl, rfl⟩
    · rw [hrun]
      exact ⟨by simpa [tear] using h, by simp, fun _ _ _ => rfl, fun _ _ => rfl, by simp, by simp⟩
    · rw [hrun]
      refine ⟨?_, by simp, fun _ _ hsame => absurd hsame (hlonger hcalls), fun _ _ => rfl, by simp, by simp⟩
      simp only [tear, if_neg (hlonger hcalls)]
      exact hnext
    · rw [hrun]
      refine ⟨hnext, by simp, by simp, by simp, by simp, ?_⟩
      rintro _ ⟨⟩ -
      exact .inr ⟨inputs, masks, hfed⟩

theorem aligned_final (h : Aligned e ∅) (ops : List Op) : Aligned (final step ops e) (tornLanes (history step ops e)) := by
  refine history_induction (P := fun events t => Aligned t (tornLanes events)) h (fun events t op ht => ?_) ops
  rw [tornLanes, List.foldl_append]
  exact (aligned_step ht op).1

/-- In every run of a prepared engine masks match frontiers: each lane is open exactly below its
frontier, and at it where a batch that failed in the library has left it torn. -/
theorem masks_match_frontiers (world : World) (calls : List Foreign) (states : List Region)
    (maxModelLen maxNumSeqs pageTokens : Nat) (e : Engine)
    (h : prepare world calls states maxModelLen maxNumSeqs pageTokens = .ok e) (ops : List Op) :
    let reached := final step ops e
    Aligned reached (tornLanes (history step ops e)) ∧
    (∀ lane < reached.batch, ∀ column < reached.context,
      reached.table[lane * reached.context + column]? = some ((lane * reached.slotsPerLane + column : Nat) : Int) ∧
      ∀ other, lane * reached.slotsPerLane + column ≠ dummyRow reached other) ∧
    ∀ op, Answered (tornLanes (history step ops e)) (event step reached op) := by
  have haligned := aligned_final (aligned_prepare h) ops
  refine ⟨haligned, fun lane hlane column hcolumn => ⟨?_, fun other => ?_⟩, fun op => (aligned_step haligned op).2⟩
  · exact table_eq _ haligned.sized.context hlane hcolumn
  · exact haligned.sized.row_ne_dummy hcolumn

/-- A library that answers every call. -/
def answering : World := ⟨fun _ => none, fun _ => false⟩

theorem masks_match_frontiers_two : ∃ e, prepare answering [] [⟨true, 10240⟩, ⟨false, 64⟩] 4 2 3 = .ok e ∧
    Aligned (final step [.consumeBatch [(1, 7)], .consumeBatch [(2, 7)], .resetSlot 1] e)
      (tornLanes (history step [.consumeBatch [(1, 7)], .consumeBatch [(2, 7)], .resetSlot 1] e)) := by
  have hqualified : (qualify (assemble answering [] [⟨true, 10240⟩, ⟨false, 64⟩] 2 4 (2 * 3 + 1))).1 = .ok () := by
    decide +kernel
  rcases hrun : qualify (assemble answering [] [⟨true, 10240⟩, ⟨false, 64⟩] 2 4 (2 * 3 + 1)) with ⟨reply, e⟩
  rw [hrun] at hqualified
  obtain rfl : reply = .ok () := hqualified
  have hprepared : prepare answering [] [⟨true, 10240⟩, ⟨false, 64⟩] 4 2 3 = .ok e := by
    have hdivided : (Outcome.divCeil 4 3 : Result Nat) = .ok 2 := rfl
    rw [prepare, validateOptions, if_neg (by decide), if_neg (by decide), Outcome.ok_bind, hdivided, Outcome.ok_bind, hrun]
  exact ⟨e, hprepared, (masks_match_frontiers answering [] [⟨true, 10240⟩, ⟨false, 64⟩] 4 2 3 e hprepared _).1⟩

/-- A library that answers everything up to the first replay. -/
def replayFails : World := ⟨fun calls => if calls.head? = some .replay then some "replay" else none, fun _ => false⟩

/-- A single lane of two columns, prepared with that library. -/
def singleLane : Engine where
  world := replayFails
  calls := [.writeState 0 0 3072]
  states := [⟨true, 3072⟩]
  batch := 1
  slotsPerLane := 3
  context := 2
  frontiers := [0]
  maskValues := [.negInfinity, .negInfinity]

/-- A batch whose replay fails has opened its column, and its frontier has not moved. -/
theorem replay_failure_opens : prepare replayFails [] [⟨true, 3072⟩] 2 1 1 = .ok singleLane ∧
    (step (.consumeBatch [(0, 5)]) singleLane).1 = .err (.invalid "native: replay") ∧
    (step (.consumeBatch [(0, 5)]) singleLane).2.frontiers = [0] ∧
    (step (.consumeBatch [(0, 5)]) singleLane).2.maskValues = [.zero, .negInfinity] :=
  ⟨rfl, by decide +kernel, by decide +kernel, by decide +kernel⟩

end Inferfabric.Native.FixedLane
