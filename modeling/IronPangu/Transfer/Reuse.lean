-- SUMMARY: Over every run of a resource pool nothing is lost, and nothing is handed out again before a fence.
import IronPangu.Transfer.Pool

open Rust Method Std

/-!
# Reuse of pages and slots

A lease is active, then retired, then fenced, and its generation is never active
again. While a lease is active or retired its pages and its slot are its own, so
whoever is handed one of them later comes after the fence.
-/

namespace Inferfabric.Transfer

open Ir

namespace ResourcePool

variable {s t : ResourcePool} {lease current : Lease} {op : Op} {reply : Reply} {pages slots : Nat}

/-! ## The invariant -/

structure Sound (pages slots : Nat) (s : ResourcePool) : Prop extends Conserved pages slots s where
  pageTokens : 0 < s.pageTokens
  keyed : ∀ (request : Nat) lease, s.active[request]? = some lease → lease.request = request
  issued : ∀ lease ∈ s.leases, lease.generation ≤ s.generation
  distinct : (s.leases.map Lease.generation).Nodup

theorem Accepted.pageTokens (h : Accepted s op reply t) : t.pageTokens = s.pageTokens := by
  cases h <;> rfl

theorem Accepted.keyed (h : Accepted s op reply t)
    (hs : ∀ (request : Nat) lease, s.active[request]? = some lease → lease.request = request) :
    ∀ (request : Nat) lease, t.active[request]? = some lease → lease.request = request := by
  intro request lease hactive
  cases h with
  | reserve =>
    rcases ExtTreeMap.getElem?_insert_eq_some.mp hactive with ⟨rfl, rfl⟩ | ⟨-, hactive⟩
    · rfl
    · exact hs request lease hactive
  | ensure hheld =>
    rcases ExtTreeMap.getElem?_insert_eq_some.mp hactive with ⟨rfl, rfl⟩ | ⟨-, hactive⟩
    · have hcurrent := hs _ _ hheld.active
      exact hcurrent
    · exact hs request lease hactive
  | retire => exact hs request lease (ExtTreeMap.getElem?_erase_eq_some.mp hactive).2
  | completionFence => exact hs request lease hactive

/-- The generations of the leases, before and after a call. -/
theorem Accepted.generations (h : Accepted s op reply t) :
    (t.leases.map Lease.generation).Sublist (s.leases.map Lease.generation) ∧ t.generation = s.generation ∨
    (t.leases.map Lease.generation).Perm (s.leases.map Lease.generation) ∧ t.generation = s.generation ∨
    (t.leases.map Lease.generation).Perm ((s.generation + 1) :: s.leases.map Lease.generation) ∧
      t.generation = s.generation + 1 := by
  cases h with
  | @reserve lease tokens hpages hcount hslot hgeneration hinactive =>
    refine .inr (.inr ⟨?_, hgeneration⟩)
    rw [← hgeneration]
    exact (leases_reserved hinactive).map Lease.generation
  | @ensure lease current tokens pages hheld =>
    refine .inr (.inl ⟨?_, rfl⟩)
    exact ((leases_grown pages).map Lease.generation).trans ((leases_erase hheld.active).map Lease.generation).symm
  | retire hheld => exact .inr (.inl ⟨(leases_retired hheld.active).map Lease.generation, rfl⟩)
  | completionFence =>
    have hleases : s.fenced.leases = s.active.toList.map Prod.snd := List.append_nil _
    exact .inl ⟨(hleases ▸ List.sublist_append_left _ _ : s.fenced.leases.Sublist s.leases).map _, rfl⟩

theorem Accepted.sound (hs : Sound pages slots s) (h : Accepted s op reply t) : Sound pages slots t := by
  have hissued : ∀ g ∈ s.leases.map Lease.generation, g ≤ s.generation := by
    intro g hg
    obtain ⟨lease, hlease, rfl⟩ := List.mem_map.mp hg
    exact hs.issued lease hlease
  have hkept : (∀ g ∈ t.leases.map Lease.generation, g ≤ t.generation) ∧
      (t.leases.map Lease.generation).Nodup := by
    rcases h.generations with ⟨hleases, hcount⟩ | ⟨hleases, hcount⟩ | ⟨hleases, hcount⟩
    · exact ⟨fun g hg => hcount ▸ hissued g (hleases.subset hg), hleases.nodup hs.distinct⟩
    · exact ⟨fun g hg => hcount ▸ hissued g (hleases.subset hg), hleases.nodup_iff.mpr hs.distinct⟩
    · constructor
      · intro g hg
        rcases List.mem_cons.mp (hleases.subset hg) with rfl | hg
        · exact hcount.ge
        · exact hcount ▸ (hissued g hg).trans (Nat.le_succ _)
      · refine hleases.nodup_iff.mpr (List.nodup_cons.mpr ⟨fun hg => ?_, hs.distinct⟩)
        exact absurd (hissued _ hg) (Nat.not_succ_le_self _)
  exact {
    toConserved := h.conserved hs.toConserved
    pageTokens := h.pageTokens.symm ▸ hs.pageTokens
    keyed := h.keyed hs.keyed
    issued := fun lease hlease => hkept.1 _ (List.mem_map_of_mem hlease)
    distinct := hkept.2 }

theorem sound_new {pageTokens : Nat} (h : new pages slots pageTokens = .ok s) : Sound pages slots s := by
  unfold new at h
  split at h
  · exact absurd h invalid_ne_ok
  rename_i hsizes
  obtain rfl := Outcome.ok.inj h
  have hleases : ∀ (freePages freeSlots : ExtTreeSet Nat),
      ({ pageTokens, freePages, freeSlots, active := ∅, retired := [], generation := 0 } :
        ResourcePool).leases = [] := fun _ _ => by simp [leases]
  exact {
    pages := by
      rw [hleases, List.flatMap_nil, List.append_nil]
      exact ExtTreeSet.toList_ofList_perm List.nodup_range
    slots := by
      rw [hleases, List.map_nil, List.append_nil]
      exact ExtTreeSet.toList_ofList_perm List.nodup_range
    pageTokens := Nat.pos_of_ne_zero fun h => hsizes (.inl h)
    keyed := by simp
    issued := by simp [hleases]
    distinct := by simp [hleases] }

/-- One more call of a run is refused, or is accepted. -/
theorem ran_cases (hs : Sound pages slots s) (h : Ran step [op] s) :
    (∃ error, step op s = (.err error, s)) ∨ ∃ reply t, step op s = (.ok reply, t) ∧ Accepted s op reply t := by
  rcases step_cases op hs.pageTokens with hrefused | ⟨-, hpanic⟩ | haccepted
  · exact .inl hrefused
  · exact absurd hpanic (ran_singleton.mp h)
  · exact .inr haccepted

theorem sound_final (hs : Sound pages slots s) (ops : List Op) (h : Ran step ops s) :
    Sound pages slots (final step ops s) := by
  induction ops using List.reverseRecOn with
  | nil => exact hs
  | append_singleton ops op ih =>
    obtain ⟨hran, hlast⟩ := ran_append.mp h
    have hs' := ih hran
    rw [final_concat]
    rcases ran_cases hs' hlast with ⟨error, hrun⟩ | ⟨reply, t, hrun, haccepted⟩
    · rwa [hrun]
    · rw [hrun]
      exact haccepted.sound hs'

theorem pageTokens_final (hs : Sound pages slots s) (ops : List Op) (h : Ran step ops s) :
    (final step ops s).pageTokens = s.pageTokens := by
  induction ops using List.reverseRecOn with
  | nil => rfl
  | append_singleton ops op ih =>
    obtain ⟨hran, hlast⟩ := ran_append.mp h
    rw [final_concat, ← ih hran]
    rcases ran_cases (sound_final hs ops hran) hlast with ⟨error, hrun⟩ | ⟨reply, t, hrun, haccepted⟩
    · rw [hrun]
    · rw [hrun, haccepted.pageTokens]

theorem generation_final_le (hs : Sound pages slots s) (ops : List Op) (h : Ran step ops s) :
    (final step ops s).generation ≤ s.generation + ops.length := by
  induction ops using List.reverseRecOn with
  | nil => exact le_rfl
  | append_singleton ops op ih =>
    obtain ⟨hran, hlast⟩ := ran_append.mp h
    have hbound := ih hran
    rw [final_concat, List.length_append, List.length_singleton]
    rcases ran_cases (sound_final hs ops hran) hlast with ⟨error, hrun⟩ | ⟨reply, t, hrun, haccepted⟩
    · simp only [hrun]
      omega
    · simp only [hrun]
      rcases haccepted.generations with ⟨-, hcount⟩ | ⟨-, hcount⟩ | ⟨-, hcount⟩ <;> omega

/-- A run too short to use up the generations does not panic. -/
theorem ran_of_length (hs : Sound pages slots s) (ops : List Op) (h : s.generation + ops.length ≤ u64Max) :
    Ran step ops s := by
  induction ops using List.reverseRecOn with
  | nil => exact List.not_mem_nil
  | append_singleton ops op ih =>
    rw [List.length_append, List.length_singleton] at h
    have hran := ih (by omega)
    have hbound := generation_final_le hs ops hran
    refine ran_append.mpr ⟨hran, ran_singleton.mpr fun hpanic => ?_⟩
    rcases step_cases op (sound_final hs ops hran).pageTokens with ⟨error, hrun⟩ | ⟨hlast, -⟩ | ⟨reply, t, hrun, -⟩
    · rw [hrun] at hpanic
      cases hpanic
    · omega
    · rw [hrun] at hpanic
      cases hpanic

/-! ## One owner -/

theorem Sound.same_lease (hs : Sound pages slots s) {l l' : Lease} (hl : l ∈ s.leases) (hl' : l' ∈ s.leases)
    (h : l.generation = l'.generation) : l = l' :=
  List.inj_on_of_nodup_map hs.distinct hl hl' h

/-- Two leases share no page. -/
theorem Sound.disjoint (hs : Sound pages slots s) {l l' : Lease} (hl : l ∈ s.leases) (hl' : l' ∈ s.leases)
    (hne : l ≠ l') : l.pages.Disjoint l'.pages := by
  have hpages := (List.nodup_append.mp (hs.pages.nodup_iff.mpr List.nodup_range)).2.1
  have : Std.Symm (Function.onFun List.Disjoint Lease.pages) := ⟨fun _ _ h => h.symm⟩
  exact (List.nodup_flatMap.mp hpages).2.forall hl hl' hne

theorem Sound.slot_ne (hs : Sound pages slots s) {l l' : Lease} (hl : l ∈ s.leases) (hl' : l' ∈ s.leases)
    (hne : l ≠ l') : l.slot ≠ l'.slot := fun h =>
  hne (List.inj_on_of_nodup_map
    (List.nodup_append.mp (hs.slots.nodup_iff.mpr List.nodup_range)).2.1 hl hl' h)

/-! ## The life of a lease -/

abbrev Called := Event ResourcePool Error Op Reply

/-- A lease value of the generation is retired. -/
def Retires (generation : Nat) (ev : Called) : Prop :=
  ∃ lease : Lease, lease.generation = generation ∧ ev.call = .retire lease ∧ ev.reply = .ok .done

/-- The generation was retired, and a fence followed. -/
def Fenced (generation : Nat) (events : List Called) : Prop :=
  ∃ before retire between fence after, events = before ++ retire :: (between ++ fence :: after) ∧
    Retires generation retire ∧ fence.call = .completionFence

/-- A lease as it was given, perhaps with more pages since. -/
structure Grown (lease lease' : Lease) : Prop where
  request : lease'.request = lease.request
  epoch : lease'.epoch = lease.epoch
  slot : lease'.slot = lease.slot
  generation : lease'.generation = lease.generation
  pages : lease.pages <+: lease'.pages

theorem Grown.refl (lease : Lease) : Grown lease lease := ⟨rfl, rfl, rfl, rfl, List.prefix_rfl⟩

/-- Where a lease that was retired may be after some calls. -/
inductive Ended (lease : Lease) (events : List Called) (s : ResourcePool) : Prop where
  | retired {lease' : Lease} (h : lease' ∈ s.retired) (hgrown : Grown lease lease')
      (hretired : ∃ ev ∈ events, Retires lease.generation ev)
  | fenced (hissued : lease.generation ≤ s.generation) (hgone : ∀ l ∈ s.leases, l.generation ≠ lease.generation)
      (hfenced : Fenced lease.generation events)

/-- Where a lease that was active may be after some calls. -/
inductive Life (lease : Lease) (events : List Called) (s : ResourcePool) : Prop where
  | active {lease' : Lease} (h : s.active[lease.request]? = some lease') (hgrown : Grown lease lease')
  | ended (h : Ended lease events s)

theorem Fenced.append {generation : Nat} {events : List Called} (h : Fenced generation events)
    (more : List Called) : Fenced generation (events ++ more) := by
  obtain ⟨before, retire, between, fence, after, rfl, hretire, hfence⟩ := h
  exact ⟨before, retire, between, fence, after ++ more, by simp, hretire, hfence⟩

/-- The fence is not the last call when that is another one. -/
theorem Fenced.of_concat {generation : Nat} {events : List Called} {ev : Called}
    (h : Fenced generation (events ++ [ev])) (hcall : ev.call ≠ .completionFence) : Fenced generation events := by
  obtain ⟨before, retire, between, fence, after, hevents, hretire, hfence⟩ := h
  rcases after.eq_nil_or_concat with rfl | ⟨after, last, rfl⟩
  · rw [← List.cons_append, ← List.append_assoc] at hevents
    obtain ⟨-, hlast⟩ := List.append_inj' hevents rfl
    obtain rfl : ev = fence := (List.cons.inj hlast).1
    exact absurd hfence hcall
  · refine ⟨before, retire, between, fence, after, ?_, hretire, hfence⟩
    rw [List.concat_eq_append, ← List.cons_append, ← List.append_assoc, ← List.cons_append,
      ← List.append_assoc] at hevents
    obtain ⟨hinit, -⟩ := List.append_inj' hevents rfl
    rw [hinit]
    simp

theorem Ended.refused {events : List Called} (h : Ended lease events s) (ev : Called) :
    Ended lease (events ++ [ev]) s := by
  cases h with
  | retired h hgrown hretired =>
    obtain ⟨retire, hmem, hretire⟩ := hretired
    exact .retired h hgrown ⟨retire, List.mem_append_left _ hmem, hretire⟩
  | fenced hissued hgone hfenced => exact .fenced hissued hgone (hfenced.append _)

theorem Grown.more {lease' : Lease} (h : Grown lease lease') (pages : List Nat) :
    Grown lease { lease' with pages := lease'.pages ++ pages } :=
  ⟨h.request, h.epoch, h.slot, h.generation, h.pages.trans (List.prefix_append _ _)⟩

/-- An active lease stays, or is the one that is retired. -/
theorem Life.active_accepted {lease' : Lease} {events : List Called} {ev : Called}
    (h : s.active[lease.request]? = some lease') (hgrown : Grown lease lease') (hcall : ev.call = op)
    (hreply : ev.reply = .ok reply) (haccepted : Accepted s op reply t) :
    Life lease (events ++ [ev]) t := by
  cases haccepted with
  | @reserve lease₂ tokens hpages hcount hslot hgeneration hinactive =>
    have hne : lease₂.request ≠ lease.request := by
      intro heq
      rw [heq, h] at hinactive
      cases hinactive
    exact .active (by rw [reserved, ExtTreeMap.getElem?_insert_ne hne]; exact h) hgrown
  | @ensure lease₂ current tokens pages hheld =>
    by_cases hrequest : lease₂.request = lease.request
    · obtain rfl : current = lease' := Option.some.inj (hheld.active.symm.trans (hrequest ▸ h))
      exact .active (by rw [grown, hrequest, ExtTreeMap.getElem?_insert_self]) (hgrown.more pages)
    · exact .active (by rw [grown, ExtTreeMap.getElem?_insert_ne hrequest]; exact h) hgrown
  | @retire lease₂ current hheld =>
    by_cases hrequest : lease₂.request = lease.request
    · obtain rfl : current = lease' := Option.some.inj (hheld.active.symm.trans (hrequest ▸ h))
      exact .ended (.retired (by simp) hgrown ⟨ev, by simp, lease₂, hheld.generation.symm.trans hgrown.generation,
        hcall, hreply⟩)
    · exact .active (by rw [ExtTreeMap.getElem?_erase_ne hrequest]; exact h) hgrown
  | completionFence => exact .active h hgrown

/-- A retired lease stays, until the fence. -/
theorem Ended.retired_accepted {lease' : Lease} {events : List Called} {ev : Called} (hs : Sound pages slots s)
    (h : lease' ∈ s.retired) (hgrown : Grown lease lease')
    (hretired : ∃ ev ∈ events, Retires lease.generation ev) (hcall : ev.call = op)
    (haccepted : Accepted s op reply t) : Ended lease (events ++ [ev]) t := by
  obtain ⟨retire, hmem, hretire⟩ := hretired
  have hretired' : ∃ ev' ∈ events ++ [ev], Retires lease.generation ev' :=
    ⟨retire, List.mem_append_left _ hmem, hretire⟩
  cases haccepted with
  | reserve => exact .retired h hgrown hretired'
  | ensure => exact .retired h hgrown hretired'
  | retire => exact .retired (List.mem_append_left _ h) hgrown hretired'
  | completionFence =>
    obtain ⟨before, between, rfl⟩ := List.append_of_mem hmem
    refine .fenced ?_ ?_ ⟨before, retire, between, ev, [], by simp, hretire, hcall⟩
    · exact hgrown.generation ▸ hs.issued lease' (List.mem_append_right _ h)
    · intro l hl hgeneration
      have hactive : l ∈ s.active.toList.map Prod.snd := by
        have hleases : s.fenced.leases = s.active.toList.map Prod.snd := List.append_nil _
        exact hleases ▸ hl
      have hdistinct := hs.distinct
      rw [leases, List.map_append] at hdistinct
      exact (List.nodup_append.mp hdistinct).2.2 _ (List.mem_map_of_mem hactive) _ (List.mem_map_of_mem h)
        (hgeneration.trans hgrown.generation.symm)

/-- A fenced generation never comes back. -/
theorem Ended.fenced_accepted {events : List Called} {ev : Called} (hissued : lease.generation ≤ s.generation)
    (hgone : ∀ l ∈ s.leases, l.generation ≠ lease.generation) (hfenced : Fenced lease.generation events)
    (haccepted : Accepted s op reply t) : Ended lease (events ++ [ev]) t := by
  have hgone' : lease.generation ∉ s.leases.map Lease.generation := by
    intro hmem
    obtain ⟨l, hl, hgeneration⟩ := List.mem_map.mp hmem
    exact hgone l hl hgeneration
  have hnever : lease.generation ≤ t.generation ∧ lease.generation ∉ t.leases.map Lease.generation := by
    rcases haccepted.generations with ⟨hleases, hcount⟩ | ⟨hleases, hcount⟩ | ⟨hleases, hcount⟩
    · exact ⟨hcount ▸ hissued, fun hmem => hgone' (hleases.subset hmem)⟩
    · exact ⟨hcount ▸ hissued, fun hmem => hgone' (hleases.subset hmem)⟩
    · refine ⟨hcount ▸ hissued.trans (Nat.le_succ _), fun hmem => ?_⟩
      rcases List.mem_cons.mp (hleases.subset hmem) with hnew | hmem
      · omega
      · exact hgone' hmem
  exact .fenced hnever.1 (fun l hl hgeneration => hnever.2 (List.mem_map.mpr ⟨l, hl, hgeneration⟩))
    (hfenced.append _)

theorem ended_final (hs : Sound pages slots s) {events : List Called} (h : Ended lease events s) (ops : List Op)
    (hran : Ran step ops s) : Ended lease (events ++ history step ops s) (final step ops s) := by
  induction ops using List.reverseRecOn with
  | nil => exact (List.append_nil events).symm ▸ h
  | append_singleton ops op ih =>
    obtain ⟨hran, hlast⟩ := ran_append.mp hran
    have hs' := sound_final hs ops hran
    rw [history_concat, final_concat, ← List.append_assoc]
    rcases ran_cases hs' hlast with ⟨error, hrun⟩ | ⟨reply, t, hrun, haccepted⟩
    · rw [hrun]
      exact (ih hran).refused _
    · rw [hrun]
      cases ih hran with
      | retired h hgrown hretired => exact .retired_accepted hs' h hgrown hretired rfl haccepted
      | fenced hissued hgone hfenced => exact .fenced_accepted hissued hgone hfenced haccepted

theorem life_final (hs : Sound pages slots s) (h : s.active[lease.request]? = some lease) (ops : List Op)
    (hran : Ran step ops s) : Life lease (history step ops s) (final step ops s) := by
  induction ops using List.reverseRecOn with
  | nil => exact .active h (.refl lease)
  | append_singleton ops op ih =>
    obtain ⟨hran, hlast⟩ := ran_append.mp hran
    have hs' := sound_final hs ops hran
    cases ih hran with
    | active h hgrown =>
      rw [history_concat, final_concat]
      rcases ran_cases hs' hlast with ⟨error, hrun⟩ | ⟨reply, t, hrun, haccepted⟩
      · rw [hrun]
        exact .active h hgrown
      · have hreply : (event step (final step ops s) op).reply = .ok reply := congrArg Prod.fst hrun
        rw [hrun]
        exact .active_accepted h hgrown rfl hreply haccepted
    | ended h =>
      have hended := ended_final hs' h [op] hlast
      rw [history_concat, final_concat]
      exact .ended hended

/-! ## Runs -/

/-- The lease value a call is made with. -/
def Op.lease? : Op → Option Lease
  | .ensure lease _ | .retire lease => some lease
  | .reserve .. | .completionFence => none

/-- The pages a number of tokens needs. -/
def pageCount (pageTokens tokens : Nat) : Nat := (tokens + pageTokens - 1) / pageTokens

/-- A lease owns enough pages for the tokens, its earlier ones first. -/
structure Ensured (pageTokens tokens : Nat) (current lease : Lease) : Prop where
  enough : pageCount pageTokens tokens ≤ lease.pages.length
  kept : current.pages <+: lease.pages

/-- A page or a slot is in both leases. -/
def Shares (lease lease' : Lease) : Prop := (∃ p ∈ lease.pages, p ∈ lease'.pages) ∨ lease.slot = lease'.slot

/-- What holds at the end of a run, for its history and for the next call. -/
structure Conservation (pages slots pageTokens : Nat) (events : List Called) (s : ResourcePool) : Prop where
  conserved : Conserved pages slots s
  failed : ∀ op error, (step op s).1 = .err error → (step op s).2 = s
  ensure : ∀ lease current tokens, s.Held lease current →
    pageCount pageTokens tokens - current.pages.length ≤ s.freePages.size →
    ∃ lease', (step (.ensure lease tokens) s).1 = .ok (.lease lease') ∧
      (step (.ensure lease tokens) s).2.active[lease.request]? = some lease' ∧
      Ensured pageTokens tokens current lease'
  reused : ∀ before given between again after lease lease',
    events = before ++ given :: (between ++ again :: after) → given.reply = .ok (.lease lease) →
    again.reply = .ok (.lease lease') → lease'.generation ≠ lease.generation → Shares lease lease' →
    Fenced lease.generation between
  current : ∀ op lease, op.lease? = some lease →
    (∀ current : Lease, s.active[lease.request]? = some current → current.generation ≠ lease.generation) →
    step op s = (.err .stale, s)
  retired : ∀ ev ∈ events, ∀ op lease, Retires lease.generation ev → op.lease? = some lease →
    step op s = (.err .stale, s)

theorem step_stale (hop : op.lease? = some lease) (h : s.check lease = .err .stale) :
    step op s = (.err .stale, s) := by
  cases op with
  | reserve | completionFence => cases hop
  | ensure _ tokens =>
    obtain rfl := Option.some.inj hop
    exact Method.bind_err (by simp only [ResourcePool.ensure, Method.bind_run, Method.read_run, h])
  | retire _ =>
    obtain rfl := Option.some.inj hop
    exact Method.bind_err (by simp only [retire, Method.bind_run, Method.read_run, h])

theorem check_stale
    (h : ∀ current : Lease, s.active[lease.request]? = some current → current.generation ≠ lease.generation) :
    s.check lease = .err .stale := by
  rcases s.check_cases lease with ⟨current, hheld, -⟩ | hstale
  · exact absurd hheld.generation (h current hheld.active)
  · exact hstale

/-- A lease that is handed out is the active one. -/
theorem Accepted.active (hs : Sound pages slots s) (h : Accepted s op (.lease lease) t) :
    t.active[lease.request]? = some lease := by
  cases h with
  | reserve => exact ExtTreeMap.getElem?_insert_self
  | @ensure lease current tokens pages hheld =>
    have hrequest : current.request = lease.request := hs.keyed _ _ hheld.active
    rw [grown, hrequest]
    exact ExtTreeMap.getElem?_insert_self

theorem ran_reply (hs : Sound pages slots s) (hran : Ran step [op] s) (h : (step op s).1 = .ok reply) :
    Accepted s op reply (step op s).2 := by
  rcases ran_cases hs hran with ⟨error, hrun⟩ | ⟨reply', t, hrun, haccepted⟩
  · rw [hrun] at h
    cases h
  · rw [hrun] at h ⊢
    obtain rfl := Outcome.ok.inj h
    exact haccepted

/-- No active lease has the generation of one that ended. -/
theorem Ended.not_active (hs : Sound pages slots s) {events : List Called} {request : Nat}
    (h : Ended lease events s) (hactive : s.active[request]? = some current) :
    current.generation ≠ lease.generation := by
  intro hgeneration
  cases h with
  | @retired lease' h hgrown hretired =>
    have hdistinct := hs.distinct
    rw [leases, List.map_append] at hdistinct
    have hmem : current ∈ s.active.toList.map Prod.snd := List.mem_map.mpr
      ⟨(request, current), ExtTreeMap.mem_toList_iff_getElem?_eq_some.mpr hactive, rfl⟩
    exact (List.nodup_append.mp hdistinct).2.2 _ (List.mem_map_of_mem hmem) _ (List.mem_map_of_mem h)
      (hgeneration.trans hgrown.generation.symm)
  | fenced hissued hgone hfenced => exact hgone current (mem_leases_of_active hactive) hgeneration

/-- A generation of a retired lease is stale from then on. -/
theorem retired_check (hs : Sound pages slots s) {ops : List Op} (hran : Ran step ops s)
    (hretired : ∃ ev ∈ history step ops s, Retires lease.generation ev) :
    (final step ops s).check lease = .err .stale := by
  obtain ⟨ev, hev, retiring, hgeneration, hcall, hreply⟩ := hretired
  obtain ⟨ops₁, op, ops₂, rfl, rfl⟩ := mem_history hev
  obtain ⟨hran₁, hrest⟩ := ran_append.mp hran
  obtain ⟨hran₂, hran₃⟩ := ran_cons.mp hrest
  have hs₁ := sound_final hs ops₁ hran₁
  obtain rfl : op = .retire retiring := hcall
  have haccepted := ran_reply hs₁ hran₂ hreply
  have hs₂ := haccepted.sound hs₁
  have hended : ∃ current : Lease, current.generation = lease.generation ∧
      Ended current [event step (final step ops₁ s) (.retire retiring)]
        (step (.retire retiring) (final step ops₁ s)).2 := by
    rcases retire_cases (final step ops₁ s) retiring with hrun | ⟨current, hheld, hrun⟩
    · rw [show (event step (final step ops₁ s) (.retire retiring)).reply = .err .stale from
        congrArg Prod.fst (Method.bind_err hrun)] at hreply
      cases hreply
    · have hsame : current.generation = lease.generation := hheld.generation.trans hgeneration
      refine ⟨current, hsame, ?_⟩
      rw [step, Method.bind_ok hrun]
      exact .retired (by simp) (.refl current)
        ⟨_, List.mem_singleton_self _, retiring, hheld.generation.symm, rfl, hreply⟩
  obtain ⟨current, hsame, hended⟩ := hended
  have hlast := ended_final hs₂ hended ops₂ hran₃
  rw [final_append, final_cons]
  refine check_stale fun active hactive => ?_
  rw [← hsame]
  have hs₃ := sound_final hs₂ ops₂ hran₃
  exact hlast.not_active hs₃ hactive

theorem shares_lease (hs : Sound pages slots s) {lease' : Lease} (h : lease ∈ s.leases) (h' : lease' ∈ s.leases)
    (hshares : Shares lease lease') : lease = lease' := by
  by_contra hne
  rcases hshares with ⟨p, hp, hp'⟩ | hslot
  · exact hs.disjoint h h' hne hp hp'
  · exact hs.slot_ne h h' hne hslot

/-- What two leases share is fenced between them. -/
theorem reused (hs : Sound pages slots s) {ops : List Op} (hran : Ran step ops s) {before between after : List Called}
    {given again : Called} {lease lease' : Lease}
    (hevents : history step ops s = before ++ given :: (between ++ again :: after))
    (hgiven : given.reply = .ok (.lease lease)) (hagain : again.reply = .ok (.lease lease'))
    (hne : lease'.generation ≠ lease.generation) (hshares : Shares lease lease') :
    Fenced lease.generation between := by
  obtain ⟨ops₁, rest₁, rfl, -, hrest₁⟩ := history_eq_append hevents
  obtain ⟨op, rest₂, rfl, rfl, hrest₂⟩ := history_eq_cons hrest₁
  obtain ⟨ops₂, rest₃, rfl, hbetween, hrest₃⟩ := history_eq_append hrest₂
  obtain ⟨op', rest₄, rfl, rfl, -⟩ := history_eq_cons hrest₃
  obtain ⟨hran₁, hran⟩ := ran_append.mp hran
  obtain ⟨hran₂, hran⟩ := ran_cons.mp hran
  obtain ⟨hran₃, hran⟩ := ran_append.mp hran
  obtain ⟨hran₄, -⟩ := ran_cons.mp hran
  have hs₁ := sound_final hs ops₁ hran₁
  have hgiven' := ran_reply hs₁ hran₂ hgiven
  have hs₂ := hgiven'.sound hs₁
  have hs₃ := sound_final hs₂ ops₂ hran₃
  have hagain' := ran_reply hs₃ hran₄ hagain
  have hs₄ := hagain'.sound hs₃
  have hlast := mem_leases_of_active (hagain'.active hs₃)
  -- Until it is fenced the first lease still owns what the second was handed.
  have howned : ∀ held : Lease, Grown lease held →
      held ∉ (step op' (final step ops₂ (step op (final step ops₁ s)).2)).2.leases := by
    intro held hgrown hheld
    have hsame := shares_lease hs₄ hheld hlast (hshares.imp
      (fun ⟨p, hp, hp'⟩ => ⟨p, hgrown.pages.subset hp, hp'⟩) fun hslot => hgrown.slot.trans hslot)
    exact hne (hsame ▸ hgrown.generation)
  have hlife := life_final hs₂ (hgiven'.active hs₁) (ops₂ ++ [op']) (ran_append.mpr ⟨hran₃, hran₄⟩)
  rw [history_concat, final_concat, hbetween] at hlife
  cases hlife with
  | active h hgrown => exact absurd (mem_leases_of_active h) (howned _ hgrown)
  | ended h =>
    cases h with
    | retired h hgrown => exact absurd (List.mem_append_right _ h) (howned _ hgrown)
    | fenced _ _ hfenced =>
      refine hfenced.of_concat fun hcall => ?_
      obtain rfl : op' = .completionFence := hcall
      cases hagain

/-- What a resource pool owns is conserved over every run. -/
theorem resource_conservation {pageTokens : Nat} (hnew : new pages slots pageTokens = .ok s) (ops : List Op)
    (hran : Ran step ops s) : Conservation pages slots pageTokens (history step ops s) (final step ops s) := by
  have hs := sound_new hnew
  have hs' := sound_final hs ops hran
  have hpageTokens : (final step ops s).pageTokens = pageTokens := by
    rw [pageTokens_final hs ops hran]
    unfold new at hnew
    split at hnew
    · exact absurd hnew invalid_ne_ok
    · rw [← Outcome.ok.inj hnew]
  exact {
    conserved := hs'.toConserved
    failed := by
      intro op error hfailed
      rcases step_cases op hs'.pageTokens with ⟨error, hrun⟩ | ⟨-, hpanic⟩ | ⟨reply, t, hrun, -⟩
      · rw [hrun]
      · rw [hpanic] at hfailed
        cases hfailed
      · rw [hrun] at hfailed
        cases hfailed
    ensure := by
      intro lease current tokens hheld hroom
      rcases ensure_cases (final step ops s) lease tokens hs'.pageTokens with
        ⟨-, -, hfull⟩ | ⟨current', added, hheld', -, hcount, hrun⟩
      · have := hfull current hheld
        rw [hpageTokens] at this
        exact absurd hroom (Nat.not_le_of_lt this)
      · obtain rfl := Option.some.inj (hheld.active.symm.trans hheld'.active)
        rw [step, Method.bind_ok hrun]
        refine ⟨_, rfl, ExtTreeMap.getElem?_insert_self, ?_, List.prefix_append _ _⟩
        rw [hpageTokens] at hcount
        rw [List.length_append, hcount, pageCount]
        omega
    reused := fun _ _ _ _ _ _ _ hevents hgiven hagain => reused hs hran hevents hgiven hagain
    current := fun op lease hop hother => step_stale hop (check_stale hother)
    retired := fun ev hev op lease hretires hop => step_stale hop (retired_check hs hran ⟨ev, hev, hretires⟩) }

def samplePool : ResourcePool where
  pageTokens := 2
  freePages := ExtTreeSet.ofList (List.range 4)
  freeSlots := ExtTreeSet.ofList (List.range 3)
  active := ∅
  retired := []
  generation := 0

/-- The second request ends, and its slot goes to its next epoch. -/
def sampleOps : List Op := [.reserve 1 1 2, .reserve 2 1 2, .ensure ⟨1, 1, 0, 1, [0]⟩ 4,
  .retire ⟨2, 1, 1, 2, [1]⟩, .completionFence, .reserve 2 2 2, .ensure ⟨2, 1, 1, 2, [1]⟩ 2]

theorem resource_conservation_sample :
    Conservation 4 3 2 (history step sampleOps samplePool) (final step sampleOps samplePool) :=
  resource_conservation rfl sampleOps (by unfold Ran; decide +kernel)

end ResourcePool

end Inferfabric.Transfer
