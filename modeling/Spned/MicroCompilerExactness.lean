import Mathlib.Algebra.Order.Ring.Int
import Spned.MicroCompiler

/-!
# Exactness of the interval check

For indices built from `Const`, `Var` and `Add` the verifier decides exactly
whether every valuation of its own environment keeps every statement access in
bounds: no such tree is rejected without a valuation that leaves an array, and
none is accepted with one.
-/

namespace Spned.MicroCompiler

open IntervalDomain

def ASTNode.toSum : ASTNode → Option (SumExpr String Int)
  | .const val => some (.const val)
  | .var name => some (.var name)
  | .add left right =>
      left.toSum.bind fun leftSum => right.toSum.map fun rightSum => .add leftSum rightSum
  | .arrayLoad _ _ | .arrayStore _ _ _ | .forLoop _ _ _ _ => none

def ASTNode.IsSum (node : ASTNode) : Prop :=
  node.toSum.isSome

def ASTNode.eval (valuation : String → Int) (node : ASTNode) : Option Int :=
  node.toSum.map (·.eval valuation)

def ASTNode.vars (node : ASTNode) : List String :=
  (node.toSum.map (·.vars)).getD []

namespace SPNEDMicroCompiler

variable {compiler : SPNEDMicroCompiler}

theorem evaluate_of_toSum {node : ASTNode} {sum : SumExpr String Int}
    (denotes : node.toSum = some sum) :
    compiler.evaluate node = sum.bounds compiler.envGet := by
  induction node generalizing sum with
  | const val =>
      cases denotes
      rfl
  | var name =>
      cases denotes
      rfl
  | add left right leftIH rightIH =>
      simp only [ASTNode.toSum, Option.bind_eq_some_iff, Option.map_eq_some_iff] at denotes
      obtain ⟨leftSum, leftDenotes, rightSum, rightDenotes, rfl⟩ := denotes
      simp only [evaluate, SumExpr.bounds, leftIH leftDenotes, rightIH rightDenotes]
  | arrayLoad arrayName index => cases denotes
  | arrayStore arrayName index value => cases denotes
  | forLoop iterator start stop body => cases denotes

def envHigh (compiler : SPNEDMicroCompiler) (name : String) : Int :=
  if name = "i" then compiler.batchSize - 1
  else if name = "j" then compiler.maxRunLen - 1
  else if name = "out_idx" then compiler.outCapacity - 1
  else 0

theorem envGet_eq (name : String) :
    compiler.envGet name = ⟨0, (compiler.envHigh name : WithTop Int)⟩ := by
  unfold envGet env envHigh
  by_cases isI : name = "i"
  · simp [isI]
  by_cases isJ : name = "j"
  · simp [isJ, List.lookup_cons]
  by_cases isOutIdx : name = "out_idx"
  · simp [isOutIdx, List.lookup_cons]
  · simp [List.lookup_cons, isI, isJ, isOutIdx, beq_eq_false_iff_ne.mpr]

/-- The valuations described by the environment of `verify_safety`: unknown
names are zero. -/
structure InEnv (compiler : SPNEDMicroCompiler) (valuation : String → Int) : Prop where
  i : 0 ≤ valuation "i" ∧ valuation "i" ≤ compiler.batchSize - 1
  j : 0 ≤ valuation "j" ∧ valuation "j" ≤ compiler.maxRunLen - 1
  outIdx : 0 ≤ valuation "out_idx" ∧ valuation "out_idx" ≤ compiler.outCapacity - 1
  other : ∀ name, name ≠ "i" → name ≠ "j" → name ≠ "out_idx" → valuation name = 0

theorem envGet_contains_iff {name : String} {value : Int} :
    (compiler.envGet name).Contains value ↔ 0 ≤ value ∧ value ≤ compiler.envHigh name := by
  rw [envGet_eq, Interval.Contains, WithTop.coe_le_coe]

theorem inEnv_iff {valuation : String → Int} :
    compiler.InEnv valuation ↔
      ∀ name, (compiler.envGet name).Contains (valuation name) := by
  simp only [envGet_contains_iff]
  constructor
  · intro inside name
    unfold envHigh
    by_cases isI : name = "i"
    · simpa [isI] using inside.i
    by_cases isJ : name = "j"
    · simpa [isJ] using inside.j
    by_cases isOutIdx : name = "out_idx"
    · simpa [isOutIdx] using inside.outIdx
    · simp [isI, isJ, isOutIdx, inside.other name isI isJ isOutIdx]
  · intro within
    refine ⟨by simpa [envHigh] using within "i", by simpa [envHigh] using within "j",
      by simpa [envHigh] using within "out_idx", ?_⟩
    intro name notI notJ notOutIdx
    have bounds := within name
    simp only [envHigh, notI, notJ, notOutIdx, if_false] at bounds
    omega

theorem envHigh_nonneg (batchPos : 1 ≤ compiler.batchSize) (runPos : 1 ≤ compiler.maxRunLen)
    (name : String) : 0 ≤ compiler.envHigh name := by
  have capacityPos : 1 ≤ compiler.outCapacity := by
    have := mul_pos (show 0 < compiler.batchSize by omega) (show 0 < compiler.maxRunLen by omega)
    exact this
  unfold envHigh
  split_ifs <;> omega

/-- The access, read under a valuation, touches a cell of its declared array. -/
def InBounds (compiler : SPNEDMicroCompiler) (valuation : String → Int)
    (access : Access) : Prop :=
  ∃ size value, compiler.arrays.lookup access.arrayName = some size ∧
    access.index.eval valuation = some value ∧ 0 ≤ value ∧ value < size

/-- Soundness at one access: only the variables of its index have to respect
the environment. -/
theorem inBounds_of_passes {access : Access} (sum : access.index.IsSum)
    (passes : compiler.Passes access) {valuation : String → Int}
    (within : ∀ name ∈ access.index.vars,
      (compiler.envGet name).Contains (valuation name)) :
    compiler.InBounds valuation access := by
  obtain ⟨indexSum, denotes⟩ := Option.isSome_iff_exists.mp sum
  obtain ⟨size, declared, inside⟩ := passes
  rw [evaluate_of_toSum denotes] at inside
  have contained : (indexSum.bounds compiler.envGet).Contains (indexSum.eval valuation) :=
    indexSum.bounds_contains_eval fun name member =>
      within name (by simpa [ASTNode.vars, denotes] using member)
  exact ⟨size, indexSum.eval valuation, declared, by simp [ASTNode.eval, denotes],
    inside.contained contained⟩

theorem passes_iff_forall_inBounds (batchPos : 1 ≤ compiler.batchSize)
    (runPos : 1 ≤ compiler.maxRunLen) {access : Access} (sum : access.index.IsSum)
    (declared : compiler.Declares access) :
    compiler.Passes access ↔
      ∀ valuation, compiler.InEnv valuation → compiler.InBounds valuation access := by
  constructor
  · intro passes valuation inside
    exact inBounds_of_passes sum passes fun name _ => inEnv_iff.mp inside name
  · intro bounded
    obtain ⟨indexSum, denotes⟩ := Option.isSome_iff_exists.mp sum
    obtain ⟨size, sizeEq⟩ := declared
    refine ⟨size, sizeEq, ?_⟩
    rw [evaluate_of_toSum denotes]
    have finite : ∀ name, (compiler.envGet name).high = compiler.envHigh name := by
      intro name
      rw [envGet_eq]
    have nonempty : ∀ name, (compiler.envGet name).low ≤ compiler.envHigh name := by
      intro name
      rw [envGet_eq]
      exact envHigh_nonneg batchPos runPos name
    apply (indexSum.bounds_within_iff finite nonempty 0 size).mpr
    intro valuation within
    obtain ⟨size', value, sizeEq', evaluates, bounds⟩ :=
      bounded valuation (inEnv_iff.mpr within)
    have sameSize : size' = size := by simpa [sizeEq] using sizeEq'.symm
    have sameValue : indexSum.eval valuation = value := by
      simpa [ASTNode.eval, denotes] using evaluates
    rwa [sameValue, ← sameSize]

/-- The verifier is exact relative to its own environment, and every rejection
is witnessed by a valuation of that environment. -/
theorem verifySafety_exact (batchPos : 1 ≤ compiler.batchSize)
    (runPos : 1 ≤ compiler.maxRunLen) (ast : ASTNode)
    (sums : ∀ access ∈ ast.statementAccesses, access.index.IsSum)
    (declared : ∀ access ∈ ast.statementAccesses, compiler.Declares access) :
    (compiler.verifySafety ast = .ok true ↔
      ∀ valuation, compiler.InEnv valuation →
        ∀ access ∈ ast.statementAccesses, compiler.InBounds valuation access) ∧
    (∀ message, compiler.verifySafety ast = .error (.valueError message) →
      ∃ valuation, compiler.InEnv valuation ∧
        ∃ access ∈ ast.statementAccesses, ¬ compiler.InBounds valuation access) := by
  have exact_iff : compiler.verifySafety ast = .ok true ↔
      ∀ valuation, compiler.InEnv valuation →
        ∀ access ∈ ast.statementAccesses, compiler.InBounds valuation access := by
    rw [verifySafety_eq_ok_iff]
    constructor
    · intro passes valuation inside access member
      exact (passes_iff_forall_inBounds batchPos runPos (sums access member)
        (declared access member)).mp (passes access member) valuation inside
    · intro bounded access member
      exact (passes_iff_forall_inBounds batchPos runPos (sums access member)
        (declared access member)).mpr fun valuation inside =>
          bounded valuation inside access member
  refine ⟨exact_iff, ?_⟩
  intro message rejected
  by_contra noWitness
  push Not at noWitness
  have accepted := exact_iff.mpr noWitness
  rw [rejected] at accepted
  cases accepted

/-- The decoder's own tree, for batches of two and runs of at most three. -/
theorem verifySafety_exact_reeDecoder :
    let compiler : SPNEDMicroCompiler := ⟨2, 3⟩
    let ast := compiler.parseReeDecoder
    (compiler.verifySafety ast = .ok true ↔
      ∀ valuation, compiler.InEnv valuation →
        ∀ access ∈ ast.statementAccesses, compiler.InBounds valuation access) ∧
    (∀ message, compiler.verifySafety ast = .error (.valueError message) →
      ∃ valuation, compiler.InEnv valuation ∧
        ∃ access ∈ ast.statementAccesses, ¬ compiler.InBounds valuation access) := by
  intro compiler ast
  apply verifySafety_exact (by decide) (by decide)
  · simp [ast, parseReeDecoder, ASTNode.statementAccesses, bodyStatementAccesses,
      ASTNode.IsSum, ASTNode.toSum]
  · simp [ast, parseReeDecoder, ASTNode.statementAccesses, bodyStatementAccesses,
      Declares, arrays, List.lookup_cons]

end SPNEDMicroCompiler

end Spned.MicroCompiler
