import Spned.WrappedInterval

/-!
# The C++ verifier core

`Interval` and `ArrayAccessNode` of `exp2_verifier_core.cpp`.  The ends are
`long long`, added modulo `2 ^ 64`, while the Python verifiers compute with
unbounded integers: an end that has overflowed is compared with the array bound
like any other.
-/

namespace Spned.VerifierCore

open IntervalDomain WrappedInterval

/-- `struct Interval`. -/
abbrev Interval := WrappedInterval.Interval 64

namespace Interval

/-- `Interval::add(const Interval&)`. -/
def add (interval other : Interval) : Interval :=
  ⟨interval.low + other.low, interval.high + other.high⟩

/-- `Interval::add(long long)`. -/
def addVal (interval : Interval) (val : BitVec 64) : Interval :=
  ⟨interval.low + val, interval.high + val⟩

end Interval

/-- The fields that `verify` and its callers give a node; its `name` is always
`"ArrayAccess"`. -/
structure ArrayAccessNode where
  arrayName : String
  bound : BitVec 64

def ArrayAccessNode.verify (node : ArrayAccessNode) (indexInterval : Interval) : Bool :=
  if indexInterval.low.slt 0 || node.bound.sle indexInterval.high then false else true

/-- A tree of `add` calls.  Equal leaves stand for one value, different leaves
for independent ones. -/
inductive IntervalExpr (ν : Type*) where
  | leaf (name : ν)
  | add (interval other : IntervalExpr ν)
  | addVal (interval : IntervalExpr ν) (val : BitVec 64)

namespace IntervalExpr

variable {ν : Type*}

def eval (leaves : ν → Interval) : IntervalExpr ν → Interval
  | .leaf name => leaves name
  | .add interval other => Interval.add (interval.eval leaves) (other.eval leaves)
  | .addVal interval val => Interval.addVal (interval.eval leaves) val

def toSum : IntervalExpr ν → SumExpr ν Int
  | .leaf name => .var name
  | .add interval other => .add interval.toSum other.toSum
  | .addVal interval val => .add interval.toSum (.const val.toInt)

theorem eval_eq_bounds (leaves : ν → Interval) (expr : IntervalExpr ν) :
    expr.eval leaves = bounds leaves expr.toSum := by
  induction expr with
  | leaf name => rfl
  | add interval other intervalIH otherIH =>
      rw [eval, intervalIH, otherIH]
      rfl
  | addVal interval val intervalIH =>
      rw [eval, intervalIH, toSum, bounds, bounds, BitVec.ofInt_toInt]
      rfl

end IntervalExpr

theorem verify_eq_true_iff {node : ArrayAccessNode} {indexInterval : Interval} :
    node.verify indexInterval = true ↔ Passes indexInterval node.bound.toInt := by
  simp [ArrayAccessNode.verify, Passes, BitVec.slt_eq_decide, BitVec.sle_eq_decide]

/-- If the node accepts the computed interval, every choice of a value inside
each leaf gives an index inside the array. -/
def VerifySound {ν : Type*} (node : ArrayAccessNode) (leaves : ν → Interval)
    (expr : IntervalExpr ν) : Prop :=
  node.verify (expr.eval leaves) = true →
    ∀ valuation : ν → Int, (∀ name, (leaves name).Contains (valuation name)) →
      0 ≤ expr.toSum.eval valuation ∧ expr.toSum.eval valuation < node.bound.toInt

variable {ν : Type*}

/-- What the check reads are the wrapped sums of the ends, and what the choices
reach are the exact ones. -/
theorem verifySound_iff_ends {node : ArrayAccessNode} {leaves : ν → Interval}
    (nonempty : ∀ name, (leaves name).low.toInt ≤ (leaves name).high.toInt)
    (expr : IntervalExpr ν) :
    VerifySound node leaves expr ↔
      (Passes (bounds leaves expr.toSum) node.bound.toInt →
        0 ≤ lowSum leaves expr.toSum ∧ highSum leaves expr.toSum < node.bound.toInt) := by
  rw [VerifySound, verify_eq_true_iff, expr.eval_eq_bounds, forall_eval_iff nonempty]

/-- Acceptance is sound exactly on the trees whose exact ends hide no turn of
`2 ^ 64` from the check. -/
theorem verifySound_iff (node : ArrayAccessNode) (leaves : ν → Interval)
    (nonempty : ∀ name, (leaves name).low.toInt ≤ (leaves name).high.toInt)
    (expr : IntervalExpr ν) :
    VerifySound node leaves expr ↔
      NoHiddenTurn 64 (lowSum leaves expr.toSum) (highSum leaves expr.toSum)
        node.bound.toInt := by
  have boundFits : node.bound.toInt ≤ 2 ^ (64 - 1) := le_of_lt node.bound.toInt_lt
  rw [verifySound_iff_ends nonempty]
  exact passes_sound_iff (by decide) expr.toSum (lowSum_le_highSum nonempty _) boundFits

/-- In particular it is sound whenever both exact ends are `long long` values,
whatever the partial sums did on the way. -/
theorem verifySound_of_fits (node : ArrayAccessNode) (leaves : ν → Interval)
    (nonempty : ∀ name, (leaves name).low.toInt ≤ (leaves name).high.toInt)
    (expr : IntervalExpr ν)
    (lowFits : -2 ^ 63 ≤ lowSum leaves expr.toSum) (highFits : highSum leaves expr.toSum < 2 ^ 63) :
    VerifySound node leaves expr := by
  have ordered := lowSum_le_highSum nonempty expr.toSum
  have boundFits : node.bound.toInt ≤ 2 ^ (64 - 1) := le_of_lt node.bound.toInt_lt
  rw [verifySound_iff_ends nonempty, passes_sound_iff (by decide) expr.toSum ordered boundFits]
  exact noHiddenTurn_of_fits (by decide) ⟨lowFits, by omega⟩ ⟨by omega, highFits⟩ boundFits

/-- A loop variable that ends ten short of the driver's array, moved up by ten. -/
theorem verifySound_iff_shifted :
    let node : ArrayAccessNode := ⟨"in_val", 100000000⟩
    let leaves : Unit → Interval := fun _ => ⟨0, 99999989⟩
    let expr : IntervalExpr Unit := .addVal (.leaf ()) 10
    node.verify (expr.eval leaves) = true ∧ VerifySound node leaves expr := by
  intro node leaves expr
  refine ⟨by decide, (verifySound_iff node leaves (fun _ => by decide) expr).mpr ?_⟩
  exact noHiddenTurn_of_fits (by decide) (by decide) (by decide) (by decide)

/-- `[0, 2 ^ 63 - 1]` plus one is `[1, -2 ^ 63]`, which every array of at least
one element accepts. -/
theorem not_verifySound_max_add_one :
    let node : ArrayAccessNode := ⟨"in_val", 1⟩
    let leaves : Unit → Interval := fun _ => ⟨0, 0x7fffffffffffffff⟩
    let expr : IntervalExpr Unit := .addVal (.leaf ()) 1
    (∀ name, (leaves name).low.toInt ≤ (leaves name).high.toInt) ∧
      node.verify (expr.eval leaves) = true ∧ ¬ VerifySound node leaves expr := by
  intro node leaves expr
  have nonempty : ∀ name, (leaves name).low.toInt ≤ (leaves name).high.toInt :=
    fun _ => by decide
  refine ⟨nonempty, by decide, fun sound => ?_⟩
  have inside := sound (by decide) (fun _ => 5) fun _ => ⟨by decide, by decide⟩
  exact absurd inside.2 (by decide)

end Spned.VerifierCore
