import Mathlib.Algebra.Order.BigOperators.Group.Finset
import Spned.DeterministicRun

/-!
# Workers that share a state

Workers take steps on one shared state, one at a time and in the order of a
schedule.  Workers that are isolated from each other run as if alone: after a
schedule each of them is where it would be alone after as many steps as it has
been chosen, so every schedule ends, in the same results.
-/

namespace DeterministicRun

variable {τ θ : Type*} {step : τ → Option (τ ⊕ θ)}

/-- Where a run through `path` to `result` is after some steps. -/
def position (path : List τ) (result : θ) (steps : Nat) : τ ⊕ θ :=
  match path[steps]? with
  | some state => .inl state
  | none => .inr result

theorem position_of_length_le {path : List τ} {result : θ} {steps : Nat}
    (past : path.length ≤ steps) : position path result steps = .inr result := by
  simp [position, past]

theorem Run.position_zero {state : τ} {path : List τ} {result : θ}
    (run : Run step state path result) : position path result 0 = .inl state := by
  cases run <;> rfl

/-- Before its end a run is at a state whose step leads to the next position. -/
theorem Run.position_step {first : τ} {path : List τ} {result : θ}
    (run : Run step first path result) {steps : Nat} (before : steps < path.length) :
    ∃ state, position path result steps = .inl state ∧
      step state = some (position path result (steps + 1)) := by
  induction run generalizing steps with
  | @finish state result halts =>
      obtain rfl : steps = 0 := by
        simp only [List.length_singleton] at before
        omega
      exact ⟨state, rfl, halts⟩
  | @advance state next path result moves rest ih =>
      cases steps with
      | zero => exact ⟨state, rfl, by rw [moves, ← rest.position_zero]; rfl⟩
      | succ steps =>
          obtain ⟨current, reached, continues⟩ :=
            ih (by simpa using before)
          exact ⟨current, reached, continues⟩

end DeterministicRun

namespace Interleaving

open DeterministicRun

variable {ι σ ρ μ τ θ : Type*} [DecidableEq ι]

/-- The workers, each running or finished, and the state they share. -/
structure Pool (ι σ ρ μ : Type*) where
  workers : ι → σ ⊕ ρ
  shared : μ

/-- The step of a worker from its own state on the shared one. -/
abbrev Machine (ι σ ρ μ : Type*) := ι → σ → μ → Option ((σ ⊕ ρ) × μ)

variable {machine : Machine ι σ ρ μ}

namespace Pool

/-- One step of the chosen worker.  A finished worker cannot be chosen. -/
def step (machine : Machine ι σ ρ μ) (pool : Pool ι σ ρ μ) (chosen : ι) :
    Option (Pool ι σ ρ μ) :=
  match pool.workers chosen with
  | .inl state =>
      (machine chosen state pool.shared).map fun effect =>
        { workers := Function.update pool.workers chosen effect.1
          shared := effect.2 }
  | .inr _ => none

/-- The steps of a schedule, in its order. -/
def run (machine : Machine ι σ ρ μ) : List ι → Pool ι σ ρ μ → Option (Pool ι σ ρ μ)
  | [], pool => some pool
  | chosen :: rest, pool => (pool.step machine chosen).bind (run machine rest)

/-- Joining all workers succeeds. -/
def Joined (pool : Pool ι σ ρ μ) : Prop :=
  ∀ worker, (pool.workers worker).isRight = true

theorem step_eq_some {pool next : Pool ι σ ρ μ} {chosen : ι}
    (moves : pool.step machine chosen = some next) :
    ∃ state effect, pool.workers chosen = .inl state ∧
      machine chosen state pool.shared = some effect ∧
      next = ⟨Function.update pool.workers chosen effect.1, effect.2⟩ := by
  unfold step at moves
  cases worker : pool.workers chosen with
  | inl state =>
      rw [worker] at moves
      obtain ⟨effect, acts, rfl⟩ := Option.map_eq_some_iff.mp moves
      exact ⟨state, effect, rfl, acts, rfl⟩
  | inr result =>
      rw [worker] at moves
      cases moves

/-- What every step preserves, every schedule preserves. -/
theorem run_invariant (Invariant : Pool ι σ ρ μ → Prop)
    (carries : ∀ {pool next chosen}, Invariant pool → pool.step machine chosen = some next →
      Invariant next)
    {schedule : List ι} {pool final : Pool ι σ ρ μ} (holds : Invariant pool)
    (executes : pool.run machine schedule = some final) : Invariant final := by
  induction schedule generalizing pool with
  | nil =>
      cases executes
      exact holds
  | cons chosen rest ih =>
      obtain ⟨next, moves, continues⟩ := Option.bind_eq_some_iff.mp executes
      exact ih (carries holds moves) continues

/-- A rank that the chosen worker loses with each of its steps bounds how often a
worker can be chosen. -/
theorem count_add_rank_le (rank : σ ⊕ ρ → Nat)
    (lowers : ∀ {worker state shared effect}, machine worker state shared = some effect →
      rank effect.1 < rank (.inl state))
    {schedule : List ι} {pool final : Pool ι σ ρ μ}
    (executes : pool.run machine schedule = some final) (worker : ι) :
    schedule.count worker + rank (final.workers worker) ≤ rank (pool.workers worker) := by
  induction schedule generalizing pool with
  | nil =>
      cases executes
      simp
  | cons chosen rest ih =>
      obtain ⟨next, moves, continues⟩ := Option.bind_eq_some_iff.mp executes
      obtain ⟨state, effect, running, acts, rfl⟩ := step_eq_some moves
      have later := ih continues
      dsimp only at later
      by_cases same : worker = chosen
      · subst same
        have lower := lowers acts
        rw [Function.update_self] at later
        rw [running, List.count_cons_self]
        omega
      · rw [Function.update_of_ne same] at later
        rwa [List.count_cons_of_ne (Ne.symm same)]

end Pool

/-- Each worker acts on the shared state as a machine of its own, `solo`, does
on its own state, and the others do not notice.  `Sees` relates the two. -/
structure Isolated (machine : Machine ι σ ρ μ) (solo : ι → τ → Option (τ ⊕ θ))
    (Sees : ι → σ ⊕ ρ → μ → τ ⊕ θ → Prop) : Prop where
  running : ∀ {worker state shared own},
    Sees worker state shared (.inl own) → ∃ running, state = .inl running
  finished : ∀ {worker state shared own},
    Sees worker state shared (.inr own) → ∃ result, state = .inr result
  moves : ∀ {worker state shared own next},
    Sees worker (.inl state) shared (.inl own) → solo worker own = some next →
    ∃ effect, machine worker state shared = some effect ∧ Sees worker effect.1 effect.2 next ∧
      ∀ other, other ≠ worker → ∀ {left right},
        Sees other left shared right → Sees other left effect.2 right

section Isolated

variable {solo : ι → τ → Option (τ ⊕ θ)} {Sees : ι → σ ⊕ ρ → μ → τ ⊕ θ → Prop}
variable {paths : ι → List τ} {results : ι → θ}

/-- Every worker is where its own run is after some steps. -/
def Reached (Sees : ι → σ ⊕ ρ → μ → τ ⊕ θ → Prop) (paths : ι → List τ) (results : ι → θ)
    (steps : ι → Nat) (pool : Pool ι σ ρ μ) : Prop :=
  ∀ worker, steps worker ≤ (paths worker).length ∧
    Sees worker (pool.workers worker) pool.shared
      (position (paths worker) (results worker) (steps worker))

variable {starts : ι → τ} {steps : ι → Nat} {pool next final : Pool ι σ ρ μ}

/-- A worker whose own run has not ended can be chosen. -/
theorem Isolated.can_step (isolated : Isolated machine solo Sees)
    (runs : ∀ worker, Run (solo worker) (starts worker) (paths worker) (results worker))
    (reached : Reached Sees paths results steps pool) {chosen : ι}
    (before : steps chosen < (paths chosen).length) :
    ∃ next, pool.step machine chosen = some next ∧
      Reached Sees paths results (Function.update steps chosen (steps chosen + 1)) next := by
  obtain ⟨own, atOwn, solos⟩ := (runs chosen).position_step before
  have sees := (reached chosen).2
  rw [atOwn] at sees
  obtain ⟨state, worker⟩ := isolated.running sees
  rw [worker] at sees
  obtain ⟨effect, acts, seesNext, unnoticed⟩ := isolated.moves sees solos
  refine ⟨⟨Function.update pool.workers chosen effect.1, effect.2⟩, ?_, ?_⟩
  · simp [Pool.step, worker, acts]
  · intro other
    by_cases same : other = chosen
    · subst same
      simpa using ⟨before, seesNext⟩
    · simpa [same] using ⟨(reached other).1, unnoticed other same (reached other).2⟩

/-- Only such a worker can be chosen. -/
theorem Isolated.before_of_step (isolated : Isolated machine solo Sees)
    (reached : Reached Sees paths results steps pool) {chosen : ι}
    (moves : pool.step machine chosen = some next) : steps chosen < (paths chosen).length := by
  obtain ⟨state, effect, worker, -, -⟩ := Pool.step_eq_some moves
  by_contra ended
  have sees := (reached chosen).2
  rw [position_of_length_le (Nat.le_of_not_lt ended)] at sees
  obtain ⟨result, finished⟩ := isolated.finished sees
  rw [worker] at finished
  cases finished

/-- After a schedule each worker has made the steps it was chosen for. -/
theorem Isolated.run_reached (isolated : Isolated machine solo Sees)
    (runs : ∀ worker, Run (solo worker) (starts worker) (paths worker) (results worker))
    {schedule : List ι} (reached : Reached Sees paths results steps pool)
    (executes : pool.run machine schedule = some final) :
    Reached Sees paths results (fun worker => steps worker + schedule.count worker) final := by
  induction schedule generalizing pool steps with
  | nil =>
      cases executes
      exact reached
  | cons chosen rest ih =>
      obtain ⟨next, moves, continues⟩ := Option.bind_eq_some_iff.mp executes
      obtain ⟨next', moves', reachedNext⟩ :=
        isolated.can_step runs reached (isolated.before_of_step reached moves)
      obtain rfl : next = next' := Option.some.inj (moves.symm.trans moves')
      have after := ih reachedNext continues
      intro worker
      have counted : Function.update steps chosen (steps chosen + 1) worker + rest.count worker =
          steps worker + (chosen :: rest).count worker := by
        by_cases same : worker = chosen
        · subst same
          simp
          omega
        · simp [same, Ne.symm same]
      have here := after worker
      dsimp only at here ⊢
      rwa [counted] at here

omit [DecidableEq ι] in
theorem Isolated.joined_iff (isolated : Isolated machine solo Sees)
    (runs : ∀ worker, Run (solo worker) (starts worker) (paths worker) (results worker))
    (reached : Reached Sees paths results steps pool) :
    pool.Joined ↔ ∀ worker, steps worker = (paths worker).length := by
  constructor
  · intro joined worker
    by_contra unequal
    have before : steps worker < (paths worker).length := by
      have atMost := (reached worker).1
      omega
    obtain ⟨own, atOwn, -⟩ := (runs worker).position_step before
    have sees := (reached worker).2
    rw [atOwn] at sees
    obtain ⟨state, running⟩ := isolated.running sees
    have finished := joined worker
    rw [running] at finished
    cases finished
  · intro ended worker
    have sees := (reached worker).2
    rw [position_of_length_le (ended worker).ge] at sees
    obtain ⟨result, finished⟩ := isolated.finished sees
    rw [finished]
    rfl

end Isolated

/-- A schedule is as long as its choices of all workers together. -/
theorem length_eq_sum_count [Fintype ι] (schedule : List ι) :
    schedule.length = ∑ worker, schedule.count worker := by
  have counted := Multiset.sum_count_eq_card (s := Finset.univ) (m := (schedule : Multiset ι))
    fun worker _ => Finset.mem_univ worker
  simpa using counted.symm

/-- Every schedule of isolated workers can be completed and none goes on
longer: a worker can be chosen until its own run has ended, and all can be
joined when the schedule is as long as all runs together. -/
theorem Isolated.schedule_ends [Fintype ι] {solo : ι → τ → Option (τ ⊕ θ)}
    {Sees : ι → σ ⊕ ρ → μ → τ ⊕ θ → Prop} (isolated : Isolated machine solo Sees)
    {starts : ι → τ} {paths : ι → List τ} {results : ι → θ}
    (runs : ∀ worker, Run (solo worker) (starts worker) (paths worker) (results worker))
    {schedule : List ι} {pool : Pool ι σ ρ μ}
    (reached : Reached Sees paths results (fun worker => schedule.count worker) pool) :
    (∀ worker, schedule.count worker ≤ (paths worker).length) ∧
      (∀ worker, (pool.step machine worker).isSome = true ↔
        schedule.count worker < (paths worker).length) ∧
      (pool.Joined ↔ schedule.length = ∑ worker, (paths worker).length) := by
  have atMost : ∀ worker, schedule.count worker ≤ (paths worker).length :=
    fun worker => (reached worker).1
  refine ⟨atMost, fun worker => ⟨fun moves => ?_, fun before => ?_⟩, ?_⟩
  · obtain ⟨next, moves⟩ := Option.isSome_iff_exists.mp moves
    exact isolated.before_of_step reached moves
  · obtain ⟨next, moves, -⟩ := isolated.can_step runs reached before
    exact Option.isSome_iff_exists.mpr ⟨next, moves⟩
  · rw [isolated.joined_iff runs reached, length_eq_sum_count,
      Finset.sum_eq_sum_iff_of_le fun worker _ => atMost worker]
    simp

/-- From where the workers are they can be run to their ends. -/
theorem Isolated.exists_joined [Fintype ι] {solo : ι → τ → Option (τ ⊕ θ)}
    {Sees : ι → σ ⊕ ρ → μ → τ ⊕ θ → Prop} (isolated : Isolated machine solo Sees)
    {starts : ι → τ} {paths : ι → List τ} {results : ι → θ}
    (runs : ∀ worker, Run (solo worker) (starts worker) (paths worker) (results worker))
    {steps : ι → Nat} {pool : Pool ι σ ρ μ} (reached : Reached Sees paths results steps pool) :
    ∃ schedule final, pool.run machine schedule = some final ∧ final.Joined := by
  -- By induction on the number of steps that are left.
  generalize left : ∑ worker, ((paths worker).length - steps worker) = rounds
  induction rounds using Nat.strong_induction_on generalizing steps pool with
  | _ rounds ih =>
      by_cases ended : ∀ worker, steps worker = (paths worker).length
      · exact ⟨[], pool, rfl, (isolated.joined_iff runs reached).mpr ended⟩
      · push Not at ended
        obtain ⟨chosen, unequal⟩ := ended
        have before : steps chosen < (paths chosen).length :=
          lt_of_le_of_ne (reached chosen).1 unequal
        obtain ⟨next, moves, reachedNext⟩ := isolated.can_step runs reached before
        have fewer : ∑ worker, ((paths worker).length -
            Function.update steps chosen (steps chosen + 1) worker) < rounds := by
          rw [← left]
          apply Finset.sum_lt_sum
          · intro worker _
            by_cases same : worker = chosen
            · subst same
              simp
              omega
            · simp [same]
          · refine ⟨chosen, Finset.mem_univ chosen, ?_⟩
            simp
            omega
        obtain ⟨schedule, final, continues, joined⟩ := ih _ fewer reachedNext rfl
        exact ⟨chosen :: schedule, final, by rw [Pool.run, moves]; exact continues, joined⟩

end Interleaving
