import Mathlib.Algebra.Order.Monoid.Defs
import Mathlib.Algebra.Order.Monoid.WithTop

/-!
# The interval domain on sums

An interval has a finite lower end and an upper end that may be `⊤`.  Sums of
constants and variables are evaluated over it end by end.  The result is sound
(it contains every value the sum takes when each variable stays in its own
interval) and, since every coefficient of a sum is positive, also exact: one
valuation attains all lower ends at once and another all upper ends, however
often a variable is repeated.
-/

namespace IntervalDomain

variable {α ν : Type*}

/-- The values from `low` up to and including `high`.  The ends may cross, in
which case the interval is empty. -/
@[ext]
structure Interval (α : Type*) where
  low : α
  high : WithTop α

namespace Interval

def add [Add α] (first second : Interval α) : Interval α :=
  ⟨first.low + second.low, first.high + second.high⟩

def point (value : α) : Interval α := ⟨value, value⟩

/-- Concretization: `value` is one of the values of the interval. -/
def Contains [LE α] (interval : Interval α) (value : α) : Prop :=
  interval.low ≤ value ∧ (value : WithTop α) ≤ interval.high

/-- Everything in the interval is at least `lower` and below `upper`. -/
def Within [LE α] [LT α] (interval : Interval α) (lower upper : α) : Prop :=
  lower ≤ interval.low ∧ interval.high < upper

/-- The test `high ≥ size`; an infinite end reaches every size. -/
def reaches [LE α] [DecidableLE α] (interval : Interval α) (size : α) : Bool :=
  match interval.high with
  | none => true
  | some high => decide (size ≤ high)

@[simp]
theorem low_add [Add α] (first second : Interval α) :
    (first.add second).low = first.low + second.low :=
  rfl

@[simp]
theorem high_add [Add α] (first second : Interval α) :
    (first.add second).high = first.high + second.high :=
  rfl

@[simp]
theorem contains_point [PartialOrder α] {fixed value : α} :
    (point fixed).Contains value ↔ value = fixed := by
  simp only [Contains, point, WithTop.coe_le_coe]
  exact ⟨fun bounds => le_antisymm bounds.2 bounds.1, fun equal => ⟨equal.ge, equal.le⟩⟩

theorem contains_add [AddCommMonoid α] [PartialOrder α] [IsOrderedAddMonoid α]
    {first second : Interval α} {left right : α}
    (inFirst : first.Contains left) (inSecond : second.Contains right) :
    (first.add second).Contains (left + right) := by
  refine ⟨add_le_add inFirst.1 inSecond.1, ?_⟩
  rw [WithTop.coe_add]
  exact add_le_add inFirst.2 inSecond.2

theorem Within.contained [Preorder α] {interval : Interval α} {lower upper value : α}
    (within : interval.Within lower upper) (inside : interval.Contains value) :
    lower ≤ value ∧ value < upper :=
  ⟨within.1.trans inside.1, WithTop.coe_lt_coe.mp (inside.2.trans_lt within.2)⟩

@[simp]
theorem reaches_top [LE α] [DecidableLE α] (low size : α) : reaches ⟨low, ⊤⟩ size = true :=
  rfl

theorem reaches_eq_false_iff [LinearOrder α] {interval : Interval α} {size : α} :
    interval.reaches size = false ↔ interval.high < size := by
  obtain ⟨low, high⟩ := interval
  cases high with
  | top => simp [reaches]
  | coe high => simp [reaches]

end Interval

/-- Sums of constants and variables. -/
inductive SumExpr (ν α : Type*) where
  | const (value : α)
  | var (name : ν)
  | add (left right : SumExpr ν α)

namespace SumExpr

def eval [Add α] (valuation : ν → α) : SumExpr ν α → α
  | .const value => value
  | .var name => valuation name
  | .add left right => left.eval valuation + right.eval valuation

def bounds [Add α] (env : ν → Interval α) : SumExpr ν α → Interval α
  | .const value => .point value
  | .var name => env name
  | .add left right => (left.bounds env).add (right.bounds env)

def vars : SumExpr ν α → List ν
  | .const _ => []
  | .var name => [name]
  | .add left right => left.vars ++ right.vars

/-- The lower end is the value of the sum when every variable sits at its own
lower end. -/
theorem eval_lows [Add α] (env : ν → Interval α) (sum : SumExpr ν α) :
    sum.eval (fun name => (env name).low) = (sum.bounds env).low := by
  induction sum with
  | const value => rfl
  | var name => rfl
  | add left right leftIH rightIH => simp [eval, bounds, leftIH, rightIH]

theorem eval_highs [Add α] {env : ν → Interval α} {highs : ν → α}
    (finite : ∀ name, (env name).high = highs name) (sum : SumExpr ν α) :
    ((sum.eval highs : α) : WithTop α) = (sum.bounds env).high := by
  induction sum with
  | const value => rfl
  | var name => exact (finite name).symm
  | add left right leftIH rightIH =>
      simp only [eval, bounds, Interval.high_add, WithTop.coe_add, leftIH, rightIH]

section Bounds

variable [AddCommMonoid α] [PartialOrder α] [IsOrderedAddMonoid α]
variable {env : ν → Interval α}

/-- Soundness: only the variables that occur need to respect their intervals. -/
theorem bounds_contains_eval (sum : SumExpr ν α) {valuation : ν → α}
    (within : ∀ name ∈ sum.vars, (env name).Contains (valuation name)) :
    (sum.bounds env).Contains (sum.eval valuation) := by
  induction sum with
  | const value => exact Interval.contains_point.mpr rfl
  | var name => exact within name (by simp [vars])
  | add left right leftIH rightIH =>
      exact Interval.contains_add
        (leftIH fun name member => within name (by simp [vars, member]))
        (rightIH fun name member => within name (by simp [vars, member]))

/-- Exactness: over nonempty finite intervals the ends of the computed interval
satisfy a pair of bounds if and only if every value of the sum does. -/
theorem bounds_within_iff {highs : ν → α}
    (finite : ∀ name, (env name).high = highs name)
    (nonempty : ∀ name, (env name).low ≤ highs name)
    (sum : SumExpr ν α) (lower upper : α) :
    (sum.bounds env).Within lower upper ↔
      ∀ valuation : ν → α, (∀ name, (env name).Contains (valuation name)) →
        lower ≤ sum.eval valuation ∧ sum.eval valuation < upper := by
  constructor
  · intro bounded valuation within
    exact bounded.contained (sum.bounds_contains_eval fun name _ => within name)
  · intro bounded
    have atLows := bounded (fun name => (env name).low) fun name =>
      ⟨le_rfl, by rw [finite]; exact WithTop.coe_le_coe.mpr (nonempty name)⟩
    have atHighs := bounded highs fun name =>
      ⟨nonempty name, (finite name).ge⟩
    rw [eval_lows] at atLows
    refine ⟨atLows.1, ?_⟩
    rw [← eval_highs finite]
    exact WithTop.coe_lt_coe.mpr atHighs.2

end Bounds

end SumExpr

end IntervalDomain
