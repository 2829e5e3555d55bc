import Spned.CountedLoop
import Spned.DeterministicRun

/-!
# Loops that test after their body

The loop `i = 0; do { body(i); i = i + 1; } while (i < length);` with a signed
32-bit counter, executed by a deterministic machine in any number of steps.  It
makes at least one round, otherwise as many as `length` says, and its counter
never wraps.
-/

namespace BottomTestedLoop

open CountedLoop DeterministicRun

def rounds (length : BitVec 32) : Int :=
  max 1 length.toInt

theorem rounds_of_nonempty {length : BitVec 32} (nonempty : 1 ≤ length.toInt) :
    rounds length = length.toInt := by
  unfold rounds
  omega

theorem rounds_of_empty {length : BitVec 32} (empty : length.toInt < 1) :
    rounds length = 1 := by
  unfold rounds
  omega

theorem rounds_pos (length : BitVec 32) : 1 ≤ rounds length := by
  unfold rounds
  omega

theorem rounds_lt (length : BitVec 32) : rounds length < 2 ^ 31 := by
  have upper := length.toInt_lt
  unfold rounds
  omega

theorem toInt_add_one {value : BitVec 32} (below : value.toInt < 2 ^ 31 - 1) :
    (value + 1).toInt = value.toInt + 1 := by
  have one : (1 : BitVec 32).toInt = 1 := by decide
  have lower := value.le_toInt
  rw [BitVec.toInt_add, one, Int.bmod_eq_of_le] <;> omega

/-- The exit test fails after the last round and after no earlier one. -/
theorem add_one_slt {i length : BitVec 32} (nonneg : 0 ≤ i.toInt)
    (below : i.toInt < rounds length) :
    (i + 1).slt length = decide (i.toInt + 1 < rounds length) := by
  have upper := rounds_lt length
  rw [BitVec.slt_eq_decide, toInt_add_one (by omega)]
  unfold rounds
  congr 1
  apply propext
  omega

variable {γ ρ σ : Type*}

/-- How a machine executes the loop: `AtHead i state` describes the
configurations in which round `i` begins, and `History n` the paths of `n`
rounds.  A round may rely on its state being the one the loop has computed. -/
structure Realizes (step : γ → Option (γ ⊕ ρ)) (length : BitVec 32) (body : Int → σ → σ)
    (first : σ) (AtHead : BitVec 32 → σ → γ → Prop) (History : Nat → List γ → Prop)
    (result : σ → ρ) : Prop where
  nil : History 0 []
  append : ∀ {before after : Nat} {path rest : List γ},
    History before path → History after rest → History (before + after) (path ++ rest)
  round : ∀ (i : BitVec 32) (state : σ) (config : γ), 0 ≤ i.toInt →
    i.toInt < rounds length → state = countedLoop 0 i.toInt body first →
    AtHead i state config → (i + 1).slt length = true →
    ∃ segment next, Path step config segment next ∧ History 1 segment ∧
      AtHead (i + 1) (body i.toInt state) next
  exit : ∀ (i : BitVec 32) (state : σ) (config : γ), 0 ≤ i.toInt →
    i.toInt < rounds length → state = countedLoop 0 i.toInt body first →
    AtHead i state config → (i + 1).slt length = false →
    ∃ segment, Run step config segment (result (body i.toInt state)) ∧ History 1 segment

variable {step : γ → Option (γ ⊕ ρ)} {length : BitVec 32} {body : Int → σ → σ} {first : σ}
variable {AtHead : BitVec 32 → σ → γ → Prop} {History : Nat → List γ → Prop} {result : σ → ρ}

/-- After `back` back edges the counter holds `back`. -/
theorem Realizes.path (loop : Realizes step length body first AtHead History result)
    {config : γ} (entered : AtHead 0 first config) {back : Nat} (below : back < rounds length) :
    ∃ path last, Path step config path last ∧ History back path ∧
      ∃ i : BitVec 32, i.toInt = back ∧ AtHead i (countedLoop 0 back body first) last := by
  apply Path.iterate fun done path config => History done path ∧
    ∃ i : BitVec 32, i.toInt = (done : Nat) ∧ AtHead i (countedLoop 0 done body first) config
  · exact ⟨loop.nil, 0, rfl, by simpa [countedLoop_of_le] using entered⟩
  · rintro done before path config ⟨history, i, counter, reached⟩
    have bounded := rounds_lt length
    have continues : (i + 1).slt length = true := by
      rw [add_one_slt (by omega) (by omega)]
      exact decide_eq_true (by omega)
    obtain ⟨segment, next, moves, once, arrived⟩ :=
      loop.round i _ config (by omega) (by omega) (by rw [counter]) reached continues
    have advanced : (i + 1).toInt = ((done + 1 : Nat) : Int) := by
      rw [toInt_add_one (by omega), counter]
      rfl
    refine ⟨segment, next, moves, loop.append history once, i + 1, advanced, ?_⟩
    rw [counter] at arrived
    rwa [Nat.cast_succ, countedLoop_succ (by omega)]

/-- The loop ends after `rounds length` rounds, with the result of the counted
loop of that length. -/
theorem Realizes.run (loop : Realizes step length body first AtHead History result)
    {config : γ} (entered : AtHead 0 first config) :
    ∃ path, Run step config path (result (countedLoop 0 (rounds length) body first)) ∧
      History (rounds length).toNat path := by
  have atLeastOne := rounds_pos length
  obtain ⟨back, roundsEq⟩ : ∃ back : Nat, rounds length = back + 1 :=
    ⟨(rounds length - 1).toNat, by omega⟩
  have below : (back : Int) < rounds length := by omega
  obtain ⟨path, last, iterates, history, i, counter, reached⟩ := loop.path entered below
  have ends : (i + 1).slt length = false := by
    rw [add_one_slt (by omega) (by omega)]
    exact decide_eq_false (by omega)
  obtain ⟨final, returns, once⟩ :=
    loop.exit i _ last (by omega) (by omega) (by rw [counter]) reached ends
  have lastRound : countedLoop 0 (rounds length) body first =
      body i.toInt (countedLoop 0 back body first) := by
    rw [roundsEq, countedLoop_succ (by omega), counter]
  have iterations : (rounds length).toNat = back + 1 := by omega
  rw [lastRound, iterations]
  exact ⟨_, iterates.run returns, loop.append history once⟩

end BottomTestedLoop
