-- SUMMARY: Serving contracts: variants, device states with their storage and retention, the manifest and its validation, and prefix identities.
import IronPangu.Lib.Method

open Rust

namespace Inferfabric

/-- `inferfabric_model::Error`. -/
inductive Error where
  | invalid (message : String)
  | capacity (message : String)
  | notImplemented (what : String)
  | backend (message : String)
  | stale
  | io (message : String)
  deriving DecidableEq, Repr

/-- Fallible calls of the serving stack. -/
abbrev Result (α : Type) : Type := Outcome Error α

/-- `invalid(message)` as a returned error. -/
def invalid {α : Type} (message : String) : Result α := .err (.invalid message)

@[simp] theorem invalid_ne_ok {α : Type} {message : String} {a : α} : invalid message ≠ .ok a := by
  simp [invalid]

@[simp] theorem invalid_ne_panic {α : Type} {message : String} :
    (invalid message : Result α) ≠ .panic := by
  simp [invalid]

namespace Ir

def version : Nat := 1

structure Identity where
  programSha256 : String
  checkpointMetadataSha256 : String
  backendRevision : String
  devices : List Nat
  deriving DecidableEq, Repr

inductive Phase where
  | decode
  | prefill
  | extend
  deriving DecidableEq, Repr

structure Variant where
  id : String
  phase : Phase
  maxSequences : Nat
  maxTokens : Nat
  maxQueryTokens : Nat
  maxContext : Nat
  numericalClass : String
  graphCapable : Bool
  packed : Bool
  deriving DecidableEq, Repr

/-- Captured single-sequence invocations have exact shapes; an uncaptured packed
    prefill accepts every query length within both bounds. -/
def Variant.acceptsQueryTokens (v : Variant) (count : Nat) : Bool :=
  v.maxSequences == 1 && count > 0 && count ≤ v.maxContext &&
    if v.phase = .prefill && v.packed && !v.graphCapable then
      count ≤ v.maxTokens && count ≤ v.maxQueryTokens
    else
      count == v.maxTokens && count == v.maxQueryTokens

inductive Storage where
  | pages (pageTokens rowBytes : Nat) (encoding : String)
  | slot (bytes : Nat) (dtype : String)
  deriving DecidableEq, Repr

inductive Retention where
  | full
  | slidingWindow (maxQueryTokens : Nat)
  deriving DecidableEq, Repr

def Retention.isFull : Retention → Bool
  | .full => true
  | .slidingWindow _ => false

structure State where
  id : String
  logicalNode : Nat
  ranks : List Nat
  storage : Storage
  capacityTokens : Nat
  retention : Retention
  windowTokens : Option Nat
  checkpointSupported : Bool
  deriving DecidableEq, Repr

/-- Number of pages touched by a window plus all later writes in a chunk, cut to
    the pages of the context. -/
def slidingPages (context window query page : Nat) : Nat :=
  min ((window + query - 1 + page - 2) / page + 1) ((context + page - 1) / page)

/-- `sliding_capacity`: the ring's capacity in tokens. The intermediate sums are
    `u64` over `u32` arguments; only the result is converted back. -/
def slidingCapacity (context window query page : Nat) : Result Nat :=
  if context = 0 ∨ window = 0 ∨ query = 0 ∨ page = 0 ∨ query > context then
    invalid "invalid sliding retention dimensions"
  else if slidingPages context window query page * page > u32Max then
    invalid "sliding retention overflow"
  else
    .ok (slidingPages context window query page * page)

/-- What an accepted ring capacity says about its arguments. -/
theorem slidingCapacity_eq_ok {context window query page capacity : Nat} :
    slidingCapacity context window query page = .ok capacity ↔
      0 < context ∧ 0 < window ∧ 0 < query ∧ 0 < page ∧ query ≤ context ∧
        capacity ≤ u32Max ∧ slidingPages context window query page * page = capacity := by
  unfold slidingCapacity
  split
  · simp only [invalid_ne_ok, false_iff]
    omega
  · split
    · simp only [invalid_ne_ok, false_iff]
      omega
    · simp only [Outcome.ok.injEq]
      omega

structure Manifest where
  version : Nat
  residentSequences : Nat
  sharedPages : Bool
  identity : Identity
  vocabSize : Nat
  eos : Nat
  variants : List Variant
  states : List State
  qualification : Option String
  limitations : List String
  deriving DecidableEq, Repr

/-- `u8::is_ascii_hexdigit` without the upper-case letters. No byte of a longer
    UTF-8 sequence passes, so going by characters is the same. -/
def lowerHex (c : Char) : Bool :=
  ('0' ≤ c && c ≤ '9') || ('a' ≤ c && c ≤ 'f')

def hash (value : String) : Bool :=
  value.utf8ByteSize == 64 && value.toList.all lowerHex

namespace Manifest

/-- One variant of `validate`'s first loop; `seen` holds the ids before it. -/
def checkVariant (seen : List String) (v : Variant) : Result Unit :=
  if v.id = "" ∨ v.id ∈ seen ∨ v.numericalClass = "" ∨ v.maxSequences = 0 ∨ v.maxTokens = 0
      ∨ v.maxQueryTokens = 0 ∨ v.maxContext = 0 ∨ v.maxQueryTokens > v.maxContext
      ∨ v.maxQueryTokens > v.maxTokens ∨ (v.phase = .decode ∧ v.maxQueryTokens ≠ 1)
      ∨ (v.packed = false ∧ v.maxQueryTokens ≠ 1) then
    invalid "invalid serving variant"
  else .ok ()

def checkVariants : List String → List Variant → Result Unit
  | _, [] => .ok ()
  | seen, v :: rest => do
    checkVariant seen v
    checkVariants (v.id :: seen) rest

def checkOwnership (identity : Identity) (seen : List String) (s : State) : Result Unit :=
  if s.id = "" ∨ s.id ∈ seen ∨ s.capacityTokens = 0 ∨ s.ranks = [] ∨ ¬ s.ranks.Nodup
      ∨ (∃ r ∈ s.ranks, r ≥ identity.devices.length) ∨ s.windowTokens = some 0 then
    invalid "invalid serving state ownership"
  else .ok ()

def checkStorage (s : State) : Result Unit :=
  match s.storage with
  | .pages pageTokens rowBytes encoding =>
    if pageTokens = 0 ∨ rowBytes = 0 ∨ encoding = "" ∨ s.capacityTokens % pageTokens ≠ 0
        ∨ checkedMul u64Max s.capacityTokens rowBytes = none then
      invalid "invalid serving page layout"
    else .ok ()
  | .slot bytes dtype =>
    if bytes = 0 ∨ dtype = "" then invalid "invalid serving state slot" else .ok ()

/-- The sliding-window clause: `context` and `query` are the largest ones over
    the manifest's variants. -/
def checkRetention (context query : Nat) (s : State) : Result Unit :=
  match s.retention with
  | .full => .ok ()
  | .slidingWindow maxQueryTokens =>
    match s.storage with
    | .slot _ _ => invalid "sliding retention requires paged state"
    | .pages pageTokens _ _ =>
      match s.windowTokens with
      | none => invalid "sliding retention requires a window"
      | some window =>
        if maxQueryTokens < query then
          invalid "invalid sliding retention capacity/variant/checkpoint contract"
        else do
          let capacity ← slidingCapacity context window maxQueryTokens pageTokens
          if s.capacityTokens ≠ capacity then
            invalid "invalid sliding retention capacity/variant/checkpoint contract"
          else .ok ()

def checkStates (identity : Identity) (context query : Nat) :
    List String → List State → Result Unit
  | _, [] => .ok ()
  | seen, s :: rest => do
    checkOwnership identity seen s
    checkStorage s
    checkRetention context query s
    checkStates identity context query (s.id :: seen) rest

def checkIdentity (m : Manifest) : Result Unit :=
  if m.version ≠ Ir.version ∨ m.residentSequences = 0 ∨ m.residentSequences > 64
      ∨ hash m.identity.programSha256 = false
      ∨ hash m.identity.checkpointMetadataSha256 = false
      ∨ hash m.identity.backendRevision = false
      ∨ m.identity.devices = [] ∨ ¬ m.identity.devices.Nodup
      ∨ m.vocabSize = 0 ∨ m.eos ≥ m.vocabSize ∨ m.variants = []
      ∨ (∃ q ∈ m.qualification, hash q = false) then
    invalid "invalid serving identity/capabilities"
  else .ok ()

/-- `variants.iter().map(|v| v.max_context).max()`. -/
def maxContext? (m : Manifest) : Option Nat := (m.variants.map (·.maxContext)).max?

/-- `variants.iter().map(|v| v.max_query_tokens).max()`. -/
def maxQuery? (m : Manifest) : Option Nat := (m.variants.map (·.maxQueryTokens)).max?

def validate (m : Manifest) : Result Unit := do
  checkIdentity m
  checkVariants [] m.variants
  let context ← Outcome.unwrap m.maxContext?
  let query ← Outcome.unwrap m.maxQuery?
  checkStates m.identity context query [] m.states

end Manifest

structure PrefixIdentity where
  engine : Identity
  numericalClass : String
  tokenizerTemplateSha256 : String
  tenantNamespace : String
  adapterSha256 : Option String
  deriving DecidableEq, Repr

/-- Identities are compatible when they are equal and well formed. -/
def PrefixIdentity.compatible (i other : PrefixIdentity) : Bool :=
  i.numericalClass != "" && i.tenantNamespace != "" && hash i.tokenizerTemplateSha256
    && hash i.engine.programSha256 && hash i.engine.backendRevision
    && hash i.engine.checkpointMetadataSha256 && i.engine.devices != []
    && i.adapterSha256.all hash && i == other

theorem PrefixIdentity.eq_of_compatible {i other : PrefixIdentity} (h : i.compatible other) :
    i = other := by
  simp only [compatible, Bool.and_eq_true, beq_iff_eq] at h
  exact h.2

/-! ## What validation establishes -/

namespace Manifest

/-- The facts validation checks of one state, given the manifest's largest
    context and query. -/
structure ValidState (m : Manifest) (context query : Nat) (s : State) : Prop where
  ownership : ∃ seen, checkOwnership m.identity seen s = .ok ()
  storage : checkStorage s = .ok ()
  retention : checkRetention context query s = .ok ()

theorem checkOwnership_eq_ok {identity : Identity} {seen : List String} {s : State} :
    checkOwnership identity seen s = .ok () ↔
      s.id ≠ "" ∧ s.id ∉ seen ∧ s.capacityTokens ≠ 0 ∧ s.ranks ≠ [] ∧ s.ranks.Nodup ∧
        (∀ r ∈ s.ranks, r < identity.devices.length) ∧ s.windowTokens ≠ some 0 := by
  unfold checkOwnership
  split
  · rename_i hbad
    simp only [invalid_ne_ok, false_iff]
    rintro ⟨h1, h2, h3, h4, h5, h6, h7⟩
    rcases hbad with h | h | h | h | h | ⟨r, hr, hge⟩ | h
    · exact h1 h
    · exact h2 h
    · exact h3 h
    · exact h4 h
    · exact h h5
    · exact absurd (h6 r hr) (by omega)
    · exact h7 h
  · rename_i hgood
    simp only [not_or, not_exists, not_and, not_not] at hgood
    obtain ⟨h1, h2, h3, h4, h5, h6, h7⟩ := hgood
    simp only [true_iff]
    exact ⟨h1, h2, h3, h4, h5, fun r hr => Nat.lt_of_not_le (h6 r hr), h7⟩

theorem checkStorage_pages {s : State} {pageTokens rowBytes : Nat} {encoding : String}
    (hs : s.storage = .pages pageTokens rowBytes encoding) (h : checkStorage s = .ok ()) :
    0 < pageTokens ∧ 0 < rowBytes ∧ s.capacityTokens % pageTokens = 0 ∧
      s.capacityTokens * rowBytes ≤ u64Max := by
  simp only [checkStorage, hs] at h
  split at h
  · simp at h
  · rename_i hgood
    simp only [not_or, checkedMul_eq_none] at hgood
    omega

theorem checkRetention_sliding {context query maxQueryTokens : Nat} {s : State}
    (hr : s.retention = .slidingWindow maxQueryTokens) (h : checkRetention context query s = .ok ()) :
    ∃ pageTokens rowBytes encoding window,
      s.storage = .pages pageTokens rowBytes encoding ∧ s.windowTokens = some window ∧
        query ≤ maxQueryTokens ∧
          slidingCapacity context window maxQueryTokens pageTokens = .ok s.capacityTokens := by
  simp only [checkRetention, hr] at h
  cases hstorage : s.storage with
  | slot bytes dtype => simp [hstorage] at h
  | pages pageTokens rowBytes encoding =>
    cases hwindow : s.windowTokens with
    | none => simp [hstorage, hwindow] at h
    | some window =>
      simp only [hstorage, hwindow] at h
      split at h
      · simp at h
      · rename_i hquery
        obtain ⟨capacity, hcap, hrest⟩ := Outcome.bind_eq_ok.mp h
        split at hrest
        · simp at hrest
        · rename_i heq
          refine ⟨pageTokens, rowBytes, encoding, window, rfl, rfl, by omega, ?_⟩
          rw [hcap, not_not.mp heq]

/-- The loop over the states accepts: every state passed its checks, and the ids
    are new and pairwise distinct. -/
theorem checkStates_eq_ok {m : Manifest} {context query : Nat} {seen : List String}
    {states : List State} (h : checkStates m.identity context query seen states = .ok ()) :
    (∀ s ∈ states, ValidState m context query s) ∧ (∀ s ∈ states, s.id ∉ seen) ∧
      (states.map (·.id)).Nodup := by
  induction states generalizing seen with
  | nil => simp
  | cons s rest ih =>
    simp only [checkStates, Outcome.check_bind_eq_ok] at h
    obtain ⟨hown, hstorage, hret, hrest⟩ := h
    obtain ⟨hvalid, hseen, hnodup⟩ := ih hrest
    have hid : s.id ∉ seen := (checkOwnership_eq_ok.mp hown).2.1
    refine ⟨?_, ?_, ?_⟩
    · intro t ht
      rcases List.mem_cons.mp ht with rfl | ht
      · exact ⟨⟨seen, hown⟩, hstorage, hret⟩
      · exact hvalid t ht
    · intro t ht
      rcases List.mem_cons.mp ht with rfl | ht
      · exact hid
      · exact fun hmem => hseen t ht (List.mem_cons_of_mem _ hmem)
    · rw [List.map_cons, List.nodup_cons]
      refine ⟨?_, hnodup⟩
      intro hmem
      obtain ⟨t, ht, hteq⟩ := List.mem_map.mp hmem
      exact hseen t ht (hteq ▸ List.mem_cons_self)

/-- An accepted manifest has a largest context, and every state passed its
    checks against it. -/
theorem validate_eq_ok {m : Manifest} (h : m.validate = .ok ()) :
    ∃ context query, m.maxContext? = some context ∧ m.maxQuery? = some query ∧
      (∀ s ∈ m.states, ValidState m context query s) ∧ (m.states.map (·.id)).Nodup := by
  simp only [validate, Outcome.bind_eq_ok, Outcome.unwrap_eq_ok] at h
  obtain ⟨-, -, -, -, context, hcontext, query, hquery, hstates⟩ := h
  obtain ⟨hvalid, -, hnodup⟩ := checkStates_eq_ok hstates
  exact ⟨context, query, hcontext, hquery, hvalid, hnodup⟩

/-! ## Validation does not panic -/

theorem checkVariants_ne_panic {seen : List String} {variants : List Variant} :
    checkVariants seen variants ≠ .panic := by
  induction variants generalizing seen with
  | nil => simp [checkVariants]
  | cons v rest ih =>
    simp only [checkVariants, ne_eq, Outcome.check_bind_eq_panic, not_or, not_and]
    refine ⟨?_, fun _ => ih⟩
    unfold checkVariant
    split <;> simp

theorem slidingCapacity_ne_panic {context window query page : Nat} :
    slidingCapacity context window query page ≠ .panic := by
  unfold slidingCapacity
  split
  · simp
  · split <;> simp

theorem checkRetention_ne_panic {context query : Nat} {s : State} :
    checkRetention context query s ≠ .panic := by
  unfold checkRetention
  cases s.retention with
  | full => simp
  | slidingWindow maxQueryTokens =>
    cases s.storage with
    | slot bytes dtype => simp
    | pages pageTokens rowBytes encoding =>
      cases s.windowTokens with
      | none => simp
      | some window =>
        simp only
        split
        · simp
        · simp only [ne_eq, Outcome.bind_eq_panic, slidingCapacity_ne_panic, false_or, not_exists,
            not_and]
          intro capacity _
          split <;> simp

theorem checkStates_ne_panic {identity : Identity} {context query : Nat} {seen : List String}
    {states : List State} : checkStates identity context query seen states ≠ .panic := by
  induction states generalizing seen with
  | nil => simp [checkStates]
  | cons s rest ih =>
    have hown : checkOwnership identity seen s ≠ .panic := by
      unfold checkOwnership
      split <;> simp
    have hstorage : checkStorage s ≠ .panic := by
      unfold checkStorage
      split <;> split <;> simp
    simp only [checkStates, ne_eq, Outcome.check_bind_eq_panic, hown, hstorage,
      checkRetention_ne_panic, ih, and_false, or_self, not_false_eq_true]

/-- The maxima are taken after the variants are known to be there. -/
theorem validate_ne_panic (m : Manifest) : m.validate ≠ .panic := by
  have hidentity : m.checkIdentity ≠ .panic := by
    unfold checkIdentity
    split <;> simp
  simp only [validate, ne_eq, Outcome.bind_eq_panic, Outcome.unwrap_eq_panic, hidentity,
    checkVariants_ne_panic, checkStates_ne_panic, false_or, and_false, exists_false, or_false,
    not_and, not_or, not_exists]
  intro _ hok _ _
  have hne : m.variants ≠ [] := by
    intro hnil
    simp [checkIdentity, hnil] at hok
  refine ⟨?_, fun _ _ => ?_⟩
  · simpa [maxContext?] using hne
  · simpa [maxQuery?] using hne

end Manifest

end Ir

end Inferfabric
