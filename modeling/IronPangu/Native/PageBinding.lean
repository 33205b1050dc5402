-- SUMMARY: The native side's page maps: one resident's block table, and the residents' shares of the physical pages.
import IronPangu.Lib.Machine

open Rust Method

/-!
# Page bindings

Host metadata for the device block tables. A page is an `int32_t`, so a caller may
pass a negative one. A method throws a message; an index out of range is a panic.
-/

namespace Inferfabric.Native.State

def int32Max : Nat := 2147483647

/-- The loop that accepts pages one by one, each only once. -/
def allDistinct (fits : Int → Bool) : List Int → List Int → Bool
  | _, [] => true
  | seen, page :: pages => fits page && !seen.contains page && allDistinct fits (page :: seen) pages

/-! ## One resident -/

structure PageBinding where
  pageTokens : Nat
  logicalTokens : Nat
  physicalPages : Nat
  pages : List Int

namespace PageBinding

def new (pageTokens logicalTokens physicalPages : Nat) : Outcome String PageBinding :=
  if pageTokens = 0 ∨ logicalTokens = 0 ∨ physicalPages > int32Max ∨ logicalTokens % pageTokens ≠ 0 ∨
      logicalTokens / pageTokens > physicalPages then
    .err "invalid page binding capacity"
  else .ok ⟨pageTokens, logicalTokens, physicalPages, (List.range (logicalTokens / pageTokens)).map Int.ofNat⟩

def bind (pages : List Int) : Method PageBinding String Unit := do
  let b ← Method.get
  if pages.length ≠ b.pages.length then Method.fail "page binding length"
  else if allDistinct (fun page => 0 ≤ page && page.toNat < b.physicalPages) [] pages = false then
    Method.fail "page binding bounds/alias"
  else Method.modify fun b => { b with pages := pages }

def append (b : PageBinding) (position : Nat) : Outcome String Nat :=
  if position ≥ b.logicalTokens then .err "page append bounds"
  else do
    let page ← Outcome.unwrap b.pages[position / b.pageTokens]?
    .ok (page.toNat * b.pageTokens + position % b.pageTokens)

end PageBinding

/-! ## All residents -/

structure ResidentPages where
  pagesPerSlot : Nat
  active : Nat
  pageTokens : Nat
  logicalTokens : Nat
  /-- Fixed partitions, or shared exclusive ownership. -/
  shared : Bool
  slots : List PageBinding
  sharedPages : List (List Int)
  /-- The slot that owns each page, or -1. -/
  owners : List Int

namespace ResidentPages

/-- The pages of a slot's own partition. -/
def partition (pagesPerSlot slot : Nat) : List Int :=
  (List.range pagesPerSlot).map fun i => ((slot * pagesPerSlot + i : Nat) : Int)

/-- The slot's binding, on its own partition. -/
def newSlot (pageTokens logicalTokens pagesPerSlot slots slot : Nat) : Outcome String PageBinding := do
  let b ← PageBinding.new pageTokens logicalTokens (pagesPerSlot * slots)
  let bound := PageBinding.bind (partition pagesPerSlot slot) b
  bound.1
  .ok bound.2

def new (pageTokens logicalTokens slots : Nat) (shared : Bool) : Outcome String ResidentPages :=
  let pagesPerSlot := if pageTokens = 0 then 0 else logicalTokens / pageTokens
  if slots = 0 ∨ slots > 64 ∨ pageTokens = 0 ∨ logicalTokens = 0 ∨ logicalTokens % pageTokens ≠ 0 ∨
      pagesPerSlot * slots > int32Max then
    .err "resident page capacity"
  else do
    let bindings ← Outcome.collect (newSlot pageTokens logicalTokens pagesPerSlot slots) (List.range slots)
    .ok {
      pagesPerSlot := pagesPerSlot
      active := 0
      pageTokens := pageTokens
      logicalTokens := logicalTokens
      shared := shared
      slots := bindings
      sharedPages := (List.range slots).map (partition pagesPerSlot)
      owners := (List.range slots).flatMap fun slot : Nat => List.replicate pagesPerSlot (slot : Int) }

def select (slot : Nat) : Method ResidentPages String Unit := do
  let r ← Method.get
  if slot ≥ r.slots.length then Method.fail "resident page slot"
  else Method.modify fun r => { r with active := slot }

/-- `owners_[page] = owner` -/
def setOwner (owner page : Int) : Method ResidentPages String Unit := do
  let r ← Method.get
  if 0 ≤ page ∧ page.toNat < r.owners.length then
    Method.modify fun r => { r with owners := r.owners.set page.toNat owner }
  else Method.lift .panic

/-- `shared_pages_[slot] = pages` -/
def setShared (slot : Nat) (pages : List Int) : Method ResidentPages String Unit := do
  let r ← Method.get
  if slot < r.sharedPages.length then
    Method.modify fun r => { r with sharedPages := r.sharedPages.set slot pages }
  else Method.lift .panic

def release (slot : Nat) : Method ResidentPages String Unit := do
  let r ← Method.get
  if r.shared = false ∨ slot ≥ r.slots.length then Method.fail "shared page release policy/slot"
  else do
    let pages ← Method.lift (Outcome.unwrap r.sharedPages[slot]?)
    Method.forEach pages (setOwner (-1))
    setShared slot []

/-- In range, and free or the active slot's own. -/
def claimable (r : ResidentPages) (page : Int) : Bool :=
  0 ≤ page &&
    match r.owners[page.toNat]? with
    | none => false
    | some owner => owner == -1 || owner == (r.active : Int)

def bindShared (pages : List Int) : Method ResidentPages String Unit := do
  let r ← Method.get
  if pages = [] ∨ pages.length > r.pagesPerSlot then Method.fail "shared page binding length"
  -- The entire replacement is validated before ownership changes.
  else if allDistinct r.claimable [] pages = false then Method.fail "shared page bounds/owner/alias"
  else do
    release r.active
    setShared r.active pages
    Method.forEach pages (setOwner r.active)

/-- `slots_[active_].bind(pages)` -/
def bindSlot (pages : List Int) : Method ResidentPages String Unit := do
  let r ← Method.get
  let b ← Method.lift (Outcome.unwrap r.slots[r.active]?)
  Method.modify fun r => { r with slots := r.slots.set r.active (PageBinding.bind pages b).2 }
  Method.lift (PageBinding.bind pages b).1

def bind (pages : List Int) : Method ResidentPages String Unit := do
  let r ← Method.get
  if r.shared then bindShared pages
  else if pages.any fun page => page < 0 || page.toNat / r.pagesPerSlot != r.active then
    Method.fail "page binding crosses resident partition"
  else bindSlot pages

def append (r : ResidentPages) (slot position : Nat) : Outcome String Nat :=
  if slot ≥ r.slots.length then .err "page append slot"
  else if r.shared = false then do
    let b ← Outcome.unwrap r.slots[slot]?
    b.append position
  else do
    let pages ← Outcome.unwrap r.sharedPages[slot]?
    if position ≥ r.logicalTokens ∨ position / r.pageTokens ≥ pages.length then
      .err "append outside reserved shared pages"
    else do
      let page ← Outcome.unwrap pages[position / r.pageTokens]?
      .ok (page.toNat * r.pageTokens + position % r.pageTokens)

def pages (r : ResidentPages) (slot : Nat) : Outcome String (List Int) :=
  if slot ≥ r.slots.length then .err "page lookup slot"
  else if r.shared then Outcome.unwrap r.sharedPages[slot]?
  else do
    let b ← Outcome.unwrap r.slots[slot]?
    .ok b.pages

def table (r : ResidentPages) (slot entries : Nat) (ring : Bool) : Outcome String (List Int) := do
  let owned ← r.pages slot
  if entries = 0 ∨ (ring = false ∧ entries ≠ r.pagesPerSlot) then .err "resident table extent"
  else .ok ((List.range entries).map fun i => owned.getD (if ring then i % r.pagesPerSlot else i) 0)

def batchTable (r : ResidentPages) (residents : List Int) (entries : Nat) (ring : Bool) :
    Outcome String (List Int) :=
  if residents = [] ∨ residents.length > r.slots.length then .err "resident batch table count"
  else if allDistinct (fun slot => 0 ≤ slot && slot.toNat < r.slots.length) [] residents = false then
    .err "resident batch table slot"
  else do
    let rows ← Outcome.collect (fun slot => r.table slot.toNat entries ring) residents
    .ok rows.flatten

/-! ## Calls -/

inductive Call where
  | select (slot : Nat)
  | bind (pages : List Int)
  | release (slot : Nat)

def step : Call → Method ResidentPages String Unit
  | .select slot => select slot
  | .bind pages => bind pages
  | .release slot => release slot

end ResidentPages

end Inferfabric.Native.State
