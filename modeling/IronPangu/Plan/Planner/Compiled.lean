-- SUMMARY: What compiling comes back with: a verified plan, a fault of the options, or an arena past the limit.
import IronPangu.Plan.Invocations
import IronPangu.Plan.Planner.Layout

open Rust Std

/-!
# Compilation

A graph that passes typing is planned and verified unless the overrides or the
folded constants are at fault, or the padded arena is past the limit.
-/

namespace Inferfabric.Plan.Planner

open Ir

variable {F : Type} [Float32 F]

/-- The bytes of what the nodes compute, without padding. -/
def computedBytes (g : TypedGraph F) : Nat := (g.nodes.map fun node => (g.values[node.output]?.map bytesOf).getD 0).sum

omit [Float32 F] in
theorem four_dvd_bytesOf (v : Value F) : 4 ∣ bytesOf v := by
  rw [bytesOf]
  split
  · exact Nat.dvd_mul_left 4 _
  · exact Nat.dvd_zero 4
  · exact Nat.dvd_zero 4

theorem sum_alignedBytes_le (g : TypedGraph F) :
    (g.nodes.map fun node => alignedBytes g.values node.output).sum ≤ computedBytes g + 60 * g.nodes.length := by
  rw [computedBytes]
  induction g.nodes with
  | nil => simp
  | cons node nodes ih =>
    have hdvd : 4 ∣ (g.values[node.output]?.map bytesOf).getD 0 := by
      rcases g.values[node.output]? with _ | v
      · exact Nat.dvd_zero 4
      · exact four_dvd_bytesOf v
    have hone : alignedBytes g.values node.output ≤ (g.values[node.output]?.map bytesOf).getD 0 + 60 := aligned_le hdvd
    rw [List.map_cons, List.map_cons, List.sum_cons, List.sum_cons, List.length_cons]
    omega

/-- Compiling a typed graph fails over the options, over constants that are not finite, or over the
    limit of the arena, and over nothing else. -/
theorem compileWithOptions_eq {logical : LogicalGraph F} {g : TypedGraph F} (options : CompileOptions)
    (htyped : typed logical = .ok g) :
    (∃ e, Unoptimizable e ∧ optimize options g = .err e ∧ compileWithOptions logical options = .err e) ∨
      ∃ o p, optimize options g = .ok o ∧ layout options o = .ok p ∧
        p.arenaBytes ≤ computedBytes o.graph + 60 * o.graph.nodes.length ∧
        verify p = (if p.arenaBytes ≤ maxBytes then .ok ()
          else invalid "physical plan resource limit or empty outputs") ∧
        compileWithOptions logical options = (if p.arenaBytes ≤ maxBytes then .ok ⟨logical, g, o.graph, p⟩
          else invalid "physical plan resource limit or empty outputs") := by
  rcases optimize_cases (wellTyped_of_typed htyped) options with ⟨o, ho, hg, hover⟩ | ⟨e, he, herr⟩
  swap
  · refine .inl ⟨e, he, herr, ?_⟩
    rw [compileWithOptions, htyped, Outcome.ok_bind, herr, Outcome.err_bind]
  obtain ⟨p, hp, hlaid⟩ := layout_eq_ok hg hover
  refine .inr ⟨o, p, ho, hp, hlaid.padding.trans (sum_alignedBytes_le _), hlaid.verify hg, ?_⟩
  rw [compileWithOptions, htyped, Outcome.ok_bind, ho, Outcome.ok_bind, hp, Outcome.ok_bind, hlaid.verify hg]
  split
  · rfl
  · rfl

/-! ## The limit of the arena -/

/-- One matrix product, `n` times over, every one of them an output. -/
def products (n : Nat) : LogicalGraph Int where
  version := 1
  name := "products"
  inputs := [⟨"a", [431, 1]⟩, ⟨"b", [1, 526]⟩]
  constants := []
  states := []
  nodes := (List.range n).map fun i => ⟨toString i, .matmul, ["a", "b"]⟩
  outputs := (List.range n).map toString
  updates := ∅

def noOverrides : CompileOptions := ⟨false, ∅⟩

theorem compileWithOptions_eq_products : ∃ g, typed (products 2) = .ok g ∧
    ((∃ e, Unoptimizable e ∧ optimize noOverrides g = .err e ∧ compileWithOptions (products 2) noOverrides = .err e) ∨
      ∃ o p, optimize noOverrides g = .ok o ∧ layout noOverrides o = .ok p ∧
        p.arenaBytes ≤ computedBytes o.graph + 60 * o.graph.nodes.length ∧
        verify p = (if p.arenaBytes ≤ maxBytes then .ok ()
          else invalid "physical plan resource limit or empty outputs") ∧
        compileWithOptions (products 2) noOverrides = (if p.arenaBytes ≤ maxBytes then .ok ⟨products 2, g, o.graph, p⟩
          else invalid "physical plan resource limit or empty outputs")) := by
  have hok : (match typed (products 2) with | .ok _ => true | .err _ | .panic => false) = true := by decide +kernel
  rcases htyped : typed (products 2) with g | e | _
  · exact ⟨g, rfl, compileWithOptions_eq noOverrides htyped⟩
  · rw [htyped] at hok
    cases hok
  · rw [htyped] at hok
    cases hok

/-- The compiler up to its call of `verify`. -/
def unverified (logical : LogicalGraph F) (options : CompileOptions) : Result (PhysicalPlan F) := do
  let typed ← typed logical
  let optimized ← optimize options typed
  layout options optimized

/-- The values take 67108804 bytes, the arena 67109120 with its padding, and 67108864 is the limit. -/
theorem verify_products : ∃ p, unverified (products 74) noOverrides = .ok p ∧
    verify p = invalid "physical plan resource limit or empty outputs" := by
  have hrejected : (match unverified (products 74) noOverrides with
      | .ok p => decide (verify p = invalid "physical plan resource limit or empty outputs")
      | .err _ | .panic => false) = true := by decide +kernel
  rcases hplan : unverified (products 74) noOverrides with p | e | _
  · rw [hplan] at hrejected
    exact ⟨p, rfl, of_decide_eq_true hrejected⟩
  · rw [hplan] at hrejected
    cases hrejected
  · rw [hplan] at hrejected
    cases hrejected

end Inferfabric.Plan.Planner
