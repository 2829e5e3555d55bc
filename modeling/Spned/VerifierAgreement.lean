import Spned.BoundsCheck
import Spned.VerifierCore

/-!
# The C++ core against the Python check

Both verifiers evaluate the same sums over intervals and compare the ends with
the bound of an array, one in 64 bits and one with unbounded integers.
-/

namespace Spned.VerifierCore

open IntervalDomain WrappedInterval

variable {ν : Type*}

/-- The check of the Python verifiers on the same node: the exact interval
against the declared size. -/
def pythonCheck (node : ArrayAccessNode) (leaves : ν → Interval) (expr : IntervalExpr ν)
    (message : String) : Except PyError Unit :=
  boundsCheck [(node.arrayName, node.bound.toInt)] message node.arrayName
    (expr.toSum.bounds fun name => (leaves name).exact)

theorem pythonCheck_eq_ok_iff {node : ArrayAccessNode} {leaves : ν → Interval}
    {expr : IntervalExpr ν} {message : String} :
    pythonCheck node leaves expr message = .ok () ↔
      0 ≤ lowSum leaves expr.toSum ∧ highSum leaves expr.toSum < node.bound.toInt := by
  have finite : ∀ name, (leaves name).exact.high = (leaves name).high.toInt := fun _ => rfl
  have within : (expr.toSum.bounds fun name => (leaves name).exact).Within 0 node.bound.toInt ↔
      0 ≤ lowSum leaves expr.toSum ∧ highSum leaves expr.toSum < node.bound.toInt := by
    rw [IntervalDomain.Interval.Within, ← SumExpr.eval_lows, ← SumExpr.eval_highs finite,
      WithTop.coe_lt_coe]
    rfl
  rw [pythonCheck, boundsCheck_eq_ok_iff, ← within]
  simp

/-- Whatever the Python check accepts has ends that 64 bits can hold, so the C++
check accepts it as well. -/
theorem verify_of_pythonCheck {node : ArrayAccessNode} {leaves : ν → Interval}
    (nonempty : ∀ name, (leaves name).low.toInt ≤ (leaves name).high.toInt)
    {expr : IntervalExpr ν} {message : String}
    (accepted : pythonCheck node leaves expr message = .ok ()) :
    node.verify (expr.eval leaves) = true := by
  obtain ⟨nonneg, below⟩ := pythonCheck_eq_ok_iff.mp accepted
  have ordered := lowSum_le_highSum nonempty expr.toSum
  have boundFits := node.bound.toInt_lt
  have lowRead : (BitVec.ofInt 64 (lowSum leaves expr.toSum)).toInt =
      lowSum leaves expr.toSum :=
    (toInt_ofInt_eq_iff (by decide)).mpr ⟨by omega, by omega, 0, by simp⟩
  have highRead : (BitVec.ofInt 64 (highSum leaves expr.toSum)).toInt =
      highSum leaves expr.toSum :=
    (toInt_ofInt_eq_iff (by decide)).mpr ⟨by omega, by omega, 0, by simp⟩
  rw [verify_eq_true_iff, expr.eval_eq_bounds, bounds_eq, Passes, lowRead, highRead]
  exact ⟨nonneg, below⟩

/-- The C++ core accepts everything that the Python check accepts, and nothing
else exactly when the exact ends hide no turn of `2 ^ 64` from it. -/
theorem verify_agrees_iff (node : ArrayAccessNode) (leaves : ν → Interval)
    (nonempty : ∀ name, (leaves name).low.toInt ≤ (leaves name).high.toInt)
    (expr : IntervalExpr ν) (message : String) :
    (pythonCheck node leaves expr message = .ok () → node.verify (expr.eval leaves) = true) ∧
    ((node.verify (expr.eval leaves) = true → pythonCheck node leaves expr message = .ok ()) ↔
      NoHiddenTurn 64 (lowSum leaves expr.toSum) (highSum leaves expr.toSum)
        node.bound.toInt) := by
  have boundFits : node.bound.toInt ≤ 2 ^ (64 - 1) := le_of_lt node.bound.toInt_lt
  refine ⟨verify_of_pythonCheck nonempty, ?_⟩
  rw [pythonCheck_eq_ok_iff, verify_eq_true_iff, expr.eval_eq_bounds]
  exact passes_sound_iff (by decide) expr.toSum (lowSum_le_highSum nonempty _) boundFits

/-- A loop variable that ends ten short of the driver's array, moved up by ten:
both checks accept. -/
theorem verify_agrees_iff_shifted :
    let node : ArrayAccessNode := ⟨"in_val", 100000000⟩
    let leaves : Unit → Interval := fun _ => ⟨0, 99999989⟩
    let expr : IntervalExpr Unit := .addVal (.leaf ()) 10
    node.verify (expr.eval leaves) = true ∧ pythonCheck node leaves expr "" = .ok () := by
  intro node leaves expr
  have accepted : node.verify (expr.eval leaves) = true := by decide
  have agrees := (verify_agrees_iff node leaves (fun _ => by decide) expr "").2
  refine ⟨accepted, agrees.mpr ?_ accepted⟩
  exact noHiddenTurn_of_fits (by decide) (by decide) (by decide) (by decide)

end Spned.VerifierCore
