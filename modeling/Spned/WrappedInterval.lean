import Mathlib.Algebra.Order.Ring.Int
import Mathlib.Tactic.Linarith
import Mathlib.Tactic.Positivity
import Mathlib.Tactic.Ring
import Spned.IntervalDomain

/-!
# Intervals with wrapping ends

The interval domain on sums when both ends are registers of `width` bits and
are added modulo `2 ^ width`.  A sum of intervals then has the residues of its
exact ends, each off by a number of whole turns of its own.  A bounds check on
the residues is sound exactly when it passes only without a turn.
-/

namespace WrappedInterval

open IntervalDomain

variable {width : Nat} {ν : Type*}

/-- A signed register read back: the balanced representative of the exact
value. -/
theorem toInt_ofInt_eq_iff (positive : 0 < width) {exact value : Int} :
    (BitVec.ofInt width exact).toInt = value ↔
      -2 ^ (width - 1) ≤ value ∧ value < 2 ^ (width - 1) ∧
        ∃ turns : Int, exact = value + turns * 2 ^ width := by
  obtain ⟨half, rfl⟩ : ∃ half, width = half + 1 := ⟨width - 1, by omega⟩
  have whole : ((2 ^ (half + 1) : Nat) : Int) = 2 * 2 ^ half := by
    push_cast
    ring
  rw [BitVec.toInt_ofInt, Int.bmod_eq_iff (by positivity), whole, Nat.add_sub_cancel]
  have turned : (2 * 2 ^ half ∣ value - exact) ↔
      ∃ turns : Int, exact = value + turns * 2 ^ (half + 1) := by
    constructor
    · rintro ⟨turns, difference⟩
      exact ⟨-turns, by rw [pow_succ]; linarith⟩
    · rintro ⟨turns, rfl⟩
      exact ⟨-turns, by rw [pow_succ]; ring⟩
  rw [turned]
  constructor
  · rintro ⟨above, below, shifted⟩
    exact ⟨by omega, by omega, shifted⟩
  · rintro ⟨above, below, shifted⟩
    exact ⟨by omega, by omega, shifted⟩

structure Interval (width : Nat) where
  low : BitVec width
  high : BitVec width

namespace Interval

def add (first second : Interval width) : Interval width :=
  ⟨first.low + second.low, first.high + second.high⟩

def exact (interval : Interval width) : IntervalDomain.Interval Int :=
  ⟨interval.low.toInt, (interval.high.toInt : WithTop Int)⟩

def Contains (interval : Interval width) (value : Int) : Prop :=
  interval.low.toInt ≤ value ∧ value ≤ interval.high.toInt

theorem contains_exact {interval : Interval width} {value : Int} :
    interval.exact.Contains value ↔ interval.Contains value := by
  simp [exact, Contains, IntervalDomain.Interval.Contains]

end Interval

/-- The interval of a sum, both ends computed modulo `2 ^ width`. -/
def bounds (env : ν → Interval width) : SumExpr ν Int → Interval width
  | .const value => ⟨BitVec.ofInt width value, BitVec.ofInt width value⟩
  | .var name => env name
  | .add left right => (bounds env left).add (bounds env right)

def lowSum (env : ν → Interval width) (sum : SumExpr ν Int) : Int :=
  sum.eval fun name => (env name).low.toInt

def highSum (env : ν → Interval width) (sum : SumExpr ν Int) : Int :=
  sum.eval fun name => (env name).high.toInt

/-- The wrapped ends are the residues of the exact ones. -/
theorem bounds_eq (env : ν → Interval width) (sum : SumExpr ν Int) :
    bounds env sum =
      ⟨BitVec.ofInt width (lowSum env sum), BitVec.ofInt width (highSum env sum)⟩ := by
  induction sum with
  | const value => rfl
  | var name => simp only [bounds, lowSum, highSum, SumExpr.eval, BitVec.ofInt_toInt]
  | add left right leftIH rightIH =>
      rw [bounds, leftIH, rightIH]
      simp only [Interval.add, lowSum, highSum, SumExpr.eval, BitVec.ofInt_add]

/-- Over nonempty intervals all values of a sum are inside `0, …, size - 1` if
and only if its exact ends are. -/
theorem forall_eval_iff {env : ν → Interval width}
    (nonempty : ∀ name, (env name).low.toInt ≤ (env name).high.toInt)
    (sum : SumExpr ν Int) (size : Int) :
    (∀ valuation : ν → Int, (∀ name, (env name).Contains (valuation name)) →
      0 ≤ sum.eval valuation ∧ sum.eval valuation < size) ↔
    0 ≤ lowSum env sum ∧ highSum env sum < size := by
  let highs : ν → Int := fun name => (env name).high.toInt
  have finite : ∀ name, (env name).exact.high = highs name := fun _ => rfl
  have exactly := sum.bounds_within_iff finite nonempty 0 size
  simp only [Interval.contains_exact] at exactly
  rw [← exactly, IntervalDomain.Interval.Within, ← SumExpr.eval_lows,
    ← SumExpr.eval_highs finite, WithTop.coe_lt_coe]
  rfl

/-- Shifted by whole turns, the exact ends look like an interval inside
`0, …, size - 1` only when no turn was made. -/
def NoHiddenTurn (width : Nat) (low high size : Int) : Prop :=
  ∀ lowTurns highTurns : Int,
    0 ≤ low - lowTurns * 2 ^ width → low - lowTurns * 2 ^ width < 2 ^ (width - 1) →
    -2 ^ (width - 1) ≤ high - highTurns * 2 ^ width → high - highTurns * 2 ^ width < size →
    lowTurns = 0 ∧ highTurns = 0

def Passes (interval : Interval width) (size : Int) : Prop :=
  0 ≤ interval.low.toInt ∧ interval.high.toInt < size

/-- Ends that a register can hold are read back unchanged. -/
theorem noHiddenTurn_of_fits (positive : 0 < width) {low high size : Int}
    (lowFits : -2 ^ (width - 1) ≤ low ∧ low < 2 ^ (width - 1))
    (highFits : -2 ^ (width - 1) ≤ high ∧ high < 2 ^ (width - 1))
    (sizeFits : size ≤ 2 ^ (width - 1)) : NoHiddenTurn width low high size := by
  have unturned : ∀ {exact turns : Int},
      -2 ^ (width - 1) ≤ exact ∧ exact < 2 ^ (width - 1) →
      -2 ^ (width - 1) ≤ exact - turns * 2 ^ width →
      exact - turns * 2 ^ width < 2 ^ (width - 1) → turns = 0 := by
    intro exact turns fits above below
    have self : (BitVec.ofInt width exact).toInt = exact :=
      (toInt_ofInt_eq_iff positive).mpr ⟨fits.1, fits.2, 0, by simp⟩
    have shifted := (toInt_ofInt_eq_iff positive).mpr ⟨above, below, turns, by ring⟩
    have same : turns * 2 ^ width = 0 := by omega
    exact (mul_eq_zero.mp same).resolve_right (by positivity)
  intro lowTurns highTurns lowNonneg lowBelow highAbove highBelow
  have nonpos : -2 ^ (width - 1) ≤ (0 : Int) := by
    have : (0 : Int) < 2 ^ (width - 1) := by positivity
    omega
  exact ⟨unturned lowFits (by omega) lowBelow, unturned highFits highAbove (by omega)⟩

/-- A test that passes on the wrapped ends says the truth about the exact ends
if and only if no turn is hidden. -/
theorem passes_sound_iff (positive : 0 < width) {env : ν → Interval width}
    (sum : SumExpr ν Int) {size : Int} (ordered : lowSum env sum ≤ highSum env sum)
    (sizeFits : size ≤ 2 ^ (width - 1)) :
    (Passes (bounds env sum) size → 0 ≤ lowSum env sum ∧ highSum env sum < size) ↔
      NoHiddenTurn width (lowSum env sum) (highSum env sum) size := by
  rw [Passes, bounds_eq]
  dsimp only
  constructor
  · intro sound lowTurns highTurns lowNonneg lowBelow highAbove highBelow
    have lowRead := (toInt_ofInt_eq_iff positive).mpr
      ⟨by omega, lowBelow, lowTurns, (sub_add_cancel _ _).symm⟩
    have highRead := (toInt_ofInt_eq_iff positive).mpr
      ⟨highAbove, by omega, highTurns, (sub_add_cancel _ _).symm⟩
    obtain ⟨nonneg, below⟩ := sound ⟨by omega, by omega⟩
    exact noHiddenTurn_of_fits positive ⟨by omega, by omega⟩ ⟨by omega, by omega⟩ sizeFits
      lowTurns highTurns lowNonneg lowBelow highAbove highBelow
  · rintro unturned ⟨lowNonneg, highBelow⟩
    obtain ⟨-, lowBelow, lowTurns, lowEq⟩ := (toInt_ofInt_eq_iff positive).mp
      (rfl : (BitVec.ofInt width (lowSum env sum)).toInt = _)
    obtain ⟨highAbove, -, highTurns, highEq⟩ := (toInt_ofInt_eq_iff positive).mp
      (rfl : (BitVec.ofInt width (highSum env sum)).toInt = _)
    obtain ⟨rfl, rfl⟩ := unturned lowTurns highTurns (by omega) (by omega) (by omega) (by omega)
    omega

theorem lowSum_le_highSum {env : ν → Interval width}
    (nonempty : ∀ name, (env name).low.toInt ≤ (env name).high.toInt) (sum : SumExpr ν Int) :
    lowSum env sum ≤ highSum env sum := by
  induction sum with
  | const value => exact le_refl _
  | var name => exact nonempty name
  | add left right leftIH rightIH => exact add_le_add leftIH rightIH

end WrappedInterval
