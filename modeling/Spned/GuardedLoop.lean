import Spned.CountedLoop

/-!
# Counted loops with a break

The loop `for (k = lower; k < upper; ++k) { if (stops(k, state)) break; … }`.
Its outcome says whether the break was taken.  A guard that an invariant rules
out in every round is dead, and the loop is then the counted loop without it.
-/

namespace GuardedLoop

open CountedLoop

variable {σ : Type*}

/-- How a loop ends: by its own exit test, or by the break in the round of
`counter`. -/
inductive LoopExit (σ : Type*) where
  | completed (state : σ)
  | broken (counter : Int) (state : σ)

/-- Run the rounds of the given counters until the first one that stops. -/
def runRounds (stops : Int → σ → Bool) (body : Int → σ → σ) : List Int → σ → LoopExit σ
  | [], state => .completed state
  | counter :: rest, state =>
      if stops counter state then .broken counter state
      else runRounds stops body rest (body counter state)

def guardedLoop (lower upper : Int) (stops : Int → σ → Bool) (body : Int → σ → σ)
    (state : σ) : LoopExit σ :=
  runRounds stops body (Int.range lower upper) state

variable {lower upper : Int} {stops : Int → σ → Bool} {body : Int → σ → σ} {state : σ}

theorem guardedLoop_of_le (empty : upper ≤ lower) :
    guardedLoop lower upper stops body state = .completed state := by
  rw [guardedLoop, range_eq_nil empty, runRounds]

theorem guardedLoop_of_passes (nonempty : lower < upper) (passes : stops lower state = false) :
    guardedLoop lower upper stops body state =
      guardedLoop (lower + 1) upper stops body (body lower state) := by
  simp [guardedLoop, range_eq_cons nonempty, runRounds, passes]

/-- A dead guard: an invariant that is carried from round to round and excludes
the guard leaves the loop without its break. -/
theorem guardedLoop_eq_completed (Invariant : Int → σ → Prop) (enters : Invariant lower state)
    (passes : ∀ counter state, lower ≤ counter → counter < upper →
      Invariant counter state → stops counter state = false)
    (carries : ∀ counter state, lower ≤ counter → counter < upper →
      Invariant counter state → Invariant (counter + 1) (body counter state)) :
    guardedLoop lower upper stops body state =
      .completed (countedLoop lower upper body state) := by
  -- The induction is on the number of rounds left; the rules hold from any
  -- later counter on.
  generalize left : (upper - lower).toNat = rounds
  induction rounds generalizing lower state with
  | zero =>
      rw [guardedLoop_of_le (by omega), countedLoop_of_le (by omega)]
  | succ rounds ih =>
      have first : lower < upper := by omega
      rw [guardedLoop_of_passes first (passes lower state (le_refl lower) first enters),
        countedLoop_of_lt first]
      apply ih (carries lower state (le_refl lower) first enters)
      · exact fun counter state above => passes counter state (by omega)
      · exact fun counter state above => carries counter state (by omega)
      · omega

end GuardedLoop
