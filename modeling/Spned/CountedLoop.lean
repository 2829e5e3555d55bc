import Mathlib.Data.Int.Range
import Mathlib.Algebra.Order.Ring.Int
import Mathlib.Tactic.Ring

/-!
# Counted loops

The loop `for (k = lower; k < upper; ++k) state = body(k, state)` over the
integers, as a left fold over `Int.range`.  The body cannot change the counter,
so the loop performs `upper - lower` rounds when that is positive and none
otherwise.  The rules below are the ones its users reason with: unfold one
round at either end, carry an indexed invariant, or relate two loops round by
round.
-/

namespace CountedLoop

variable {σ τ : Type*}

/-- Run `body lower`, …, `body (upper - 1)` in order. -/
def countedLoop (lower upper : Int) (body : Int → σ → σ) (state : σ) : σ :=
  (Int.range lower upper).foldl (fun state counter => body counter state) state

theorem range_eq_nil {lower upper : Int} (empty : upper ≤ lower) :
    Int.range lower upper = [] := by
  simp [Int.range, Int.toNat_of_nonpos (by omega : upper - lower ≤ 0)]

theorem range_eq_cons {lower upper : Int} (nonempty : lower < upper) :
    Int.range lower upper = lower :: Int.range (lower + 1) upper := by
  obtain ⟨rounds, spread⟩ :
      ∃ rounds : Nat, (upper - lower).toNat = rounds + 1 :=
    ⟨(upper - (lower + 1)).toNat, by omega⟩
  have rest : (upper - (lower + 1)).toNat = rounds := by omega
  simp only [Int.range, spread, rest, List.range_succ_eq_map, List.map_cons,
    List.map_map]
  congr 1
  · simp
  · apply List.map_congr_left
    intro offset _
    simp only [Function.comp_apply, Nat.succ_eq_add_one]
    push_cast
    ring

theorem range_succ_upper {lower upper : Int} (ordered : lower ≤ upper) :
    Int.range lower (upper + 1) = Int.range lower upper ++ [upper] := by
  have spread : (upper + 1 - lower).toNat = (upper - lower).toNat + 1 := by omega
  have last : lower + ((upper - lower).toNat : Int) = upper := by omega
  simp only [Int.range, spread, List.range_succ, List.map_append, List.map_cons,
    List.map_nil, last]

theorem countedLoop_of_le {lower upper : Int} (empty : upper ≤ lower)
    (body : Int → σ → σ) (state : σ) :
    countedLoop lower upper body state = state := by
  simp [countedLoop, range_eq_nil empty]

theorem countedLoop_of_lt {lower upper : Int} (nonempty : lower < upper)
    (body : Int → σ → σ) (state : σ) :
    countedLoop lower upper body state =
      countedLoop (lower + 1) upper body (body lower state) := by
  simp [countedLoop, range_eq_cons nonempty]

theorem countedLoop_succ {lower upper : Int} (ordered : lower ≤ upper)
    (body : Int → σ → σ) (state : σ) :
    countedLoop lower (upper + 1) body state =
      body upper (countedLoop lower upper body state) := by
  simp [countedLoop, range_succ_upper ordered]

/-- Invariant rule: what holds on entry and is carried from each counter value
to the next holds, at the upper bound, on exit. -/
theorem countedLoop_invariant {lower upper : Int} (ordered : lower ≤ upper)
    {body : Int → σ → σ} (Invariant : Int → σ → Prop) {state : σ}
    (enters : Invariant lower state)
    (carries : ∀ counter state, lower ≤ counter → counter < upper →
      Invariant counter state → Invariant (counter + 1) (body counter state)) :
    Invariant upper (countedLoop lower upper body state) := by
  induction upper, ordered using Int.leInduction with
  | base => simpa [countedLoop_of_le (le_refl lower)] using enters
  | succ upper ordered ih =>
      rw [countedLoop_succ ordered]
      exact carries upper _ ordered (by omega)
        (ih fun counter state above below =>
          carries counter state above (by omega))

/-- Invariant rule for loops from zero, with the number of finished rounds. -/
theorem countedLoop_rounds {rounds : Nat} {body : Int → σ → σ} (Invariant : Nat → σ → Prop)
    {state : σ} (enters : Invariant 0 state)
    (carries : ∀ done < rounds, ∀ state,
      Invariant done state → Invariant (done + 1) (body done state)) :
    Invariant rounds (countedLoop 0 rounds body state) := by
  induction rounds with
  | zero => rwa [countedLoop_of_le (by simp)]
  | succ rounds ih =>
      rw [Nat.cast_succ, countedLoop_succ (by omega)]
      exact carries rounds (by omega) _ (ih fun done below => carries done (by omega))

/-- Two loops from zero stay related, with the number of finished rounds. -/
theorem countedLoop_rounds_related {rounds : Nat} {left : Int → σ → σ} {right : Int → τ → τ}
    (Related : Nat → σ → τ → Prop) {first : σ} {second : τ} (enters : Related 0 first second)
    (carries : ∀ done < rounds, ∀ first second, Related done first second →
      Related (done + 1) (left done first) (right done second)) :
    Related rounds (countedLoop 0 rounds left first) (countedLoop 0 rounds right second) := by
  induction rounds with
  | zero => rwa [countedLoop_of_le (by simp), countedLoop_of_le (by simp)]
  | succ rounds ih =>
      rw [Nat.cast_succ, countedLoop_succ (by omega), countedLoop_succ (by omega)]
      exact carries rounds (by omega) _ _ (ih fun done below => carries done (by omega))

theorem countedLoop_toNat (upper : Int) (body : Int → σ → σ) (state : σ) :
    countedLoop 0 upper body state = countedLoop 0 (upper.toNat : Int) body state := by
  rcases le_total 0 upper with nonneg | negative
  · rw [Int.toNat_of_nonneg nonneg]
  · rw [countedLoop_of_le negative, countedLoop_of_le (by omega)]

/-- Invariant rule for a property that does not mention the counter; the loop
may also be empty. -/
theorem countedLoop_preserves {lower upper : Int} {body : Int → σ → σ}
    (Property : σ → Prop) {state : σ} (enters : Property state)
    (carries : ∀ counter state, lower ≤ counter → counter < upper →
      Property state → Property (body counter state)) :
    Property (countedLoop lower upper body state) := by
  rcases le_total lower upper with ordered | empty
  · exact countedLoop_invariant ordered (fun _ => Property) enters carries
  · rwa [countedLoop_of_le empty]

/-- Two loops over the same counters stay related if each round keeps them so. -/
theorem countedLoop_related {lower upper : Int}
    {left : Int → σ → σ} {right : Int → τ → τ} (Related : σ → τ → Prop)
    {first : σ} {second : τ} (enters : Related first second)
    (carries : ∀ counter first second, lower ≤ counter → counter < upper →
      Related first second → Related (left counter first) (right counter second)) :
    Related (countedLoop lower upper left first)
      (countedLoop lower upper right second) := by
  rcases le_total lower upper with ordered | empty
  · induction upper, ordered using Int.leInduction with
    | base => simpa [countedLoop_of_le (le_refl lower)] using enters
    | succ upper ordered ih =>
        rw [countedLoop_succ ordered, countedLoop_succ ordered]
        exact carries upper _ _ ordered (by omega)
          (ih fun counter first second above below =>
            carries counter first second above (by omega))
  · rwa [countedLoop_of_le empty, countedLoop_of_le empty]

end CountedLoop
