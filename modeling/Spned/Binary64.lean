import Mathlib.Data.Int.Log
import Mathlib.Data.Rat.Floor
import Mathlib.Tactic.FieldSimp
import Mathlib.Tactic.Linarith
import Mathlib.Tactic.Positivity
import Mathlib.Tactic.Ring

/-!
# Rounding to binary64

A nonnegative rational rounded to the nearest double, ties to the even
significand.  Numbers with a significand of at most 53 bits are kept, and a
number is never rounded below the power of two at its front.
-/

namespace Binary64

/-- The nearest integer, the even one of two equally near. -/
def roundHalfEven (x : ℚ) : Int :=
  let below := ⌊x⌋
  if x - below < 1 / 2 then below
  else if 1 / 2 < x - below then below + 1
  else below + below % 2

theorem roundHalfEven_intCast (value : Int) : roundHalfEven value = value := by
  simp [roundHalfEven]

theorem le_roundHalfEven {value : Int} {x : ℚ} (atMost : (value : ℚ) ≤ x) :
    value ≤ roundHalfEven x := by
  have below := Int.le_floor.mpr atMost
  simp only [roundHalfEven]
  split_ifs <;> omega

/-- The exponent of the last place of the doubles around `x`. -/
def lastPlace (x : ℚ) : Int :=
  max (Int.log 2 x - 52) (-1074)

def roundToPlace (x : ℚ) : ℚ :=
  roundHalfEven (x / 2 ^ lastPlace x) * 2 ^ lastPlace x

/-- The double nearest to `x ≥ 0`; there is none when the rounded value passes
the largest one. -/
def round (x : ℚ) : Option ℚ :=
  if roundToPlace x < 2 ^ (1024 : Int) then some (roundToPlace x) else none

theorem place_pos (exponent : Int) : (0 : ℚ) < 2 ^ exponent :=
  zpow_pos (by norm_num) exponent

theorem zpow_eq_mul_zpow {exponent place : Int} (atMost : place ≤ exponent) :
    (2 : ℚ) ^ exponent = ((2 ^ (exponent - place).toNat : Int) : ℚ) * 2 ^ place := by
  obtain ⟨shift, rfl⟩ : ∃ shift : Nat, exponent = shift + place :=
    ⟨(exponent - place).toNat, by omega⟩
  have shiftEq : (shift + place - place).toNat = shift := by omega
  rw [shiftEq, zpow_add₀ (by norm_num), zpow_natCast]
  push_cast
  rfl

theorem roundToPlace_of_multiple {x : ℚ} {multiple : Int}
    (spaced : x = multiple * 2 ^ lastPlace x) : roundToPlace x = x := by
  have quotient : x / 2 ^ lastPlace x = multiple := by
    rw [div_eq_iff (place_pos _).ne']
    exact spaced
  rw [roundToPlace, quotient, roundHalfEven_intCast]
  exact spaced.symm

/-- A significand of at most 53 bits is kept. -/
theorem roundToPlace_of_significand {x : ℚ} {significand : Nat} {exponent : Int}
    (short : significand < 2 ^ 53) (normal : -1074 ≤ exponent)
    (denotes : x = significand * 2 ^ exponent) : roundToPlace x = x := by
  rcases Nat.eq_zero_or_pos significand with rfl | positive
  · rw [denotes]
    simp [roundToPlace, roundHalfEven]
  have xPos : 0 < x := by
    rw [denotes]
    exact mul_pos (Nat.cast_pos.mpr positive) (place_pos exponent)
  have bounded : x < ((2 : Nat) : ℚ) ^ (53 + exponent) := by
    rw [denotes, Nat.cast_ofNat, zpow_add₀ (by norm_num)]
    exact mul_lt_mul_of_pos_right (by exact_mod_cast short) (place_pos exponent)
  have logBelow := (Int.lt_zpow_iff_log_lt (by norm_num) xPos).mp bounded
  have placeLe : lastPlace x ≤ exponent := by
    unfold lastPlace
    omega
  have spaced : x = ((significand * 2 ^ (exponent - lastPlace x).toNat : Int) : ℚ) *
      2 ^ lastPlace x := by
    rw [Int.cast_mul, mul_assoc, ← zpow_eq_mul_zpow placeLe]
    exact_mod_cast denotes
  exact roundToPlace_of_multiple spaced

theorem zpow_le_roundToPlace {x : ℚ} {exponent : Int} (normal : -1074 ≤ exponent)
    (atLeast : (2 : ℚ) ^ exponent ≤ x) : (2 : ℚ) ^ exponent ≤ roundToPlace x := by
  have xPos : 0 < x := (place_pos exponent).trans_le atLeast
  have front : ((2 : Nat) : ℚ) ^ Int.log 2 x ≤ x := Int.zpow_log_le_self (by norm_num) xPos
  rw [Nat.cast_ofNat] at front
  have exponentLe : exponent ≤ Int.log 2 x :=
    (Int.zpow_le_iff_le_log (by norm_num) xPos).mp (by exact_mod_cast atLeast)
  have placeLe : lastPlace x ≤ Int.log 2 x := by
    unfold lastPlace
    omega
  calc (2 : ℚ) ^ exponent ≤ 2 ^ Int.log 2 x :=
        zpow_le_zpow_right₀ (by norm_num) exponentLe
    _ = ((2 ^ (Int.log 2 x - lastPlace x).toNat : Int) : ℚ) * 2 ^ lastPlace x :=
        zpow_eq_mul_zpow placeLe
    _ ≤ roundToPlace x := by
        apply mul_le_mul_of_nonneg_right _ (place_pos _).le
        apply Int.cast_le.mpr
        apply le_roundHalfEven
        rw [le_div_iff₀ (place_pos _), ← zpow_eq_mul_zpow placeLe]
        exact front

end Binary64
