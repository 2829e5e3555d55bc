import Mathlib.Data.Sum.Basic

/-!
# Runs of deterministic machines

`step state` is the next state, the result of the machine, or `none` when it is
stuck.  A run lists every state it visits, so that a property of all visited
states, or the number of visits to a place, can be read off the run.
-/

namespace DeterministicRun

variable {σ ρ : Type*}

/-- From `state` through the states of `path` to `result`. -/
inductive Run (step : σ → Option (σ ⊕ ρ)) : σ → List σ → ρ → Prop where
  | finish {state : σ} {result : ρ} :
      step state = some (.inr result) → Run step state [state] result
  | advance {state next : σ} {path : List σ} {result : ρ} :
      step state = some (.inl next) → Run step next path result →
        Run step state (state :: path) result

/-- From `state` through the states of `path` to `last`, which is not listed. -/
inductive Path (step : σ → Option (σ ⊕ ρ)) : σ → List σ → σ → Prop where
  | refl (state : σ) : Path step state [] state
  | advance {state next last : σ} {path : List σ} :
      step state = some (.inl next) → Path step next path last →
        Path step state (state :: path) last

variable {step : σ → Option (σ ⊕ ρ)}

theorem Run.deterministic {state : σ} {path path' : List σ} {result result' : ρ}
    (first : Run step state path result) (second : Run step state path' result') :
    path = path' ∧ result = result' := by
  induction first generalizing path' with
  | finish halts =>
      cases second with
      | finish halts' =>
          rw [halts] at halts'
          cases halts'
          exact ⟨rfl, rfl⟩
      | advance moves _ =>
          rw [halts] at moves
          cases moves
  | advance moves _ ih =>
      cases second with
      | finish halts =>
          rw [moves] at halts
          cases halts
      | advance moves' rest' =>
          rw [moves] at moves'
          cases moves'
          obtain ⟨rfl, rfl⟩ := ih rest'
          exact ⟨rfl, rfl⟩

theorem Path.append {first middle last : σ} {path rest : List σ}
    (before : Path step first path middle) (after : Path step middle rest last) :
    Path step first (path ++ rest) last := by
  induction before with
  | refl state => exact after
  | advance moves _ ih => exact .advance moves (ih after)

theorem Path.run {first last : σ} {path rest : List σ} {result : ρ}
    (before : Path step first path last) (after : Run step last rest result) :
    Run step first (path ++ rest) result := by
  induction before with
  | refl state => exact after
  | advance moves _ ih => exact .advance moves (ih after)

/-- Loop rule.  The invariant may speak of the states visited so far. -/
theorem Path.iterate {rounds : Nat} (Invariant : Nat → List σ → σ → Prop) {first : σ}
    (enters : Invariant 0 [] first)
    (round : ∀ done < rounds, ∀ path state, Invariant done path state →
      ∃ segment next, Path step state segment next ∧
        Invariant (done + 1) (path ++ segment) next) :
    ∃ path last, Path step first path last ∧ Invariant rounds path last := by
  induction rounds with
  | zero => exact ⟨[], first, .refl first, enters⟩
  | succ rounds ih =>
      obtain ⟨path, state, reached, holds⟩ := ih fun done below => round done (by omega)
      obtain ⟨segment, next, continues, carried⟩ := round rounds (by omega) path state holds
      exact ⟨path ++ segment, next, reached.append continues, carried⟩

end DeterministicRun
