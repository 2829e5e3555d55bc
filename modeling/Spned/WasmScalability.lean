import Spned.Interleaving
import Spned.ScalabilityDriver
import Spned.WasmBench

/-!
# The multi-core sandbox run

`main` of `exp4_wasm.cpp` lets every thread grow the memory of an instance of
its own and call `decode` on it.  A failed check ends the whole process; a trap
is stored in a variable that nothing reads.  Whatever the order of the threads,
the throughput line is printed when all memories could be grown.  Then no call
has trapped, but the tuples that were copied are not always the ones that the
line counts.
-/

namespace Spned.WasmWorker

open LinearMemory Interleaving

/-- What a thread of `wasm_worker` has done so far. -/
inductive WorkerState where
  | created
  | grown (call : DecodeCall)

structure Process (ι : Type*) where
  /-- A failed check has called `exit(1)`. -/
  exited : Bool
  /-- Some call has trapped. -/
  trapped : Bool
  memories : ι → Memory

variable {ι : Type*} [DecidableEq ι]

/-- One step of a thread.  The call works on a memory that no other thread has. -/
def workerStep (runtimes : ι → Runtime) (previous : Nat) (workload : BitVec 64) :
    Machine ι WorkerState Unit (Process ι) :=
  fun worker state process =>
    if process.exited then none
    else
      match state with
      | .created =>
          match wasmWorker (runtimes worker) previous workload with
          | some (pages, call) =>
              some (.inl (.grown call),
                { process with
                  memories := Function.update process.memories worker
                    (grow (process.memories worker) pages) })
          | none => some (.inr (), { process with exited := true })
      | .grown call =>
          match call.run (process.memories worker) with
          | some memory =>
              some (.inr (),
                { process with memories := Function.update process.memories worker memory })
          | none => some (.inr (), { process with trapped := true })

/-- The threads that `main` has started. -/
def wasmThreads (memories : ι → Memory) : Pool ι WorkerState Unit (Process ι) where
  workers := fun _ => .inl .created
  shared := ⟨false, false, memories⟩

/-- What a step of a thread can do. -/
inductive Acts (runtime : Runtime) (previous : Nat) (workload : BitVec 64) (worker : ι)
    (process : Process ι) : WorkerState → (WorkerState ⊕ Unit) × Process ι → Prop
  | grows {pages call} (started : wasmWorker runtime previous workload = some (pages, call)) :
      Acts runtime previous workload worker process .created (.inl (.grown call),
        { process with
          memories := Function.update process.memories worker
            (grow (process.memories worker) pages) })
  | exits (failed : wasmWorker runtime previous workload = none) :
      Acts runtime previous workload worker process .created
        (.inr (), { process with exited := true })
  | copies {call memory} (returns : call.run (process.memories worker) = some memory) :
      Acts runtime previous workload worker process (.grown call) (.inr (),
        { process with memories := Function.update process.memories worker memory })
  | traps {call} (trapped : call.run (process.memories worker) = none) :
      Acts runtime previous workload worker process (.grown call)
        (.inr (), { process with trapped := true })

/-- A thread that has not finished can always go on, until the process exits. -/
theorem workerStep_eq_none_iff {runtimes : ι → Runtime} {previous : Nat} {workload : BitVec 64}
    {worker : ι} {state : WorkerState} {process : Process ι} :
    workerStep runtimes previous workload worker state process = none ↔
      process.exited = true := by
  unfold workerStep
  split
  next exited => simp [exited]
  next running =>
    rw [iff_false_right running]
    cases state with
    | created => cases wasmWorker (runtimes worker) previous workload <;> simp
    | grown call => cases returned : call.run (process.memories worker) <;> simp [returned]

theorem acts_of_workerStep {runtimes : ι → Runtime} {previous : Nat} {workload : BitVec 64}
    {worker : ι} {state : WorkerState} {process : Process ι}
    {effect : (WorkerState ⊕ Unit) × Process ι}
    (steps : workerStep runtimes previous workload worker state process = some effect) :
    process.exited = false ∧
      Acts (runtimes worker) previous workload worker process state effect := by
  unfold workerStep at steps
  split at steps
  · cases steps
  next running =>
    refine ⟨Bool.eq_false_iff.mpr running, ?_⟩
    cases state with
    | created =>
        cases started : wasmWorker (runtimes worker) previous workload with
        | some grownCall =>
            rw [started] at steps
            cases steps
            exact .grows started
        | none =>
            rw [started] at steps
            cases steps
            exact .exits started
    | grown call =>
        cases returned : call.run (process.memories worker) with
        | some memory =>
            simp only [returned] at steps
            cases steps
            exact .copies returned
        | none =>
            simp only [returned] at steps
            cases steps
            exact .traps returned

/-- How far a thread has come, and what is in its memory. -/
inductive Progress (runtime : Runtime) (previous : Nat) (workload : BitVec 64) (initial : Memory)
    (exited : Bool) : WorkerState ⊕ Unit → Memory → Prop
  | created : Progress runtime previous workload initial exited (.inl .created) initial
  | grown {pages call} (starts : wasmWorker runtime previous workload = some (pages, call)) :
      Progress runtime previous workload initial exited (.inl (.grown call)) (grow initial pages)
  | finished {pages call} (starts : wasmWorker runtime previous workload = some (pages, call)) :
      Progress runtime previous workload initial exited (.inr ())
        (moved (grow initial pages) 0 call.output.toNat (4 * call.len.toNat))
  | failed {memory} (exits : exited = true) :
      Progress runtime previous workload initial exited (.inr ()) memory

/-- What holds of the process after every schedule. -/
structure Sound (runtimes : ι → Runtime) (previous : Nat) (workload : BitVec 64)
    (initial : ι → Memory) (pool : Pool ι WorkerState Unit (Process ι)) : Prop where
  untrapped : pool.shared.trapped = false
  progress : ∀ worker, Progress (runtimes worker) previous workload (initial worker)
    pool.shared.exited (pool.workers worker) (pool.shared.memories worker)

variable {runtimes : ι → Runtime} {previous : Nat} {workload : BitVec 64} {initial : ι → Memory}
variable {pool next final : Pool ι WorkerState Unit (Process ι)}

omit [DecidableEq ι] in
theorem Progress.exit {runtime : Runtime} {memory first : Memory} {state : WorkerState ⊕ Unit}
    (progress : Progress runtime previous workload first false state memory) :
    Progress runtime previous workload first true state memory := by
  cases progress with
  | created => exact .created
  | grown starts => exact .grown starts
  | finished starts => exact .finished starts
  | failed exits => exact .failed rfl

/-- A change of one thread and its memory. -/
theorem Sound.update {workers : ι → WorkerState ⊕ Unit} {memories : ι → Memory} {chosen : ι}
    {state : WorkerState ⊕ Unit} {memory : Memory}
    (progress : ∀ worker, Progress (runtimes worker) previous workload (initial worker) false
      (workers worker) (memories worker))
    (own : Progress (runtimes chosen) previous workload (initial chosen) false state memory) :
    Sound runtimes previous workload initial
      ⟨Function.update workers chosen state,
        ⟨false, false, Function.update memories chosen memory⟩⟩ where
  untrapped := rfl
  progress := fun other => by
    by_cases same : other = chosen
    · subst same
      simpa using own
    · simpa [same] using progress other

theorem Sound.step (lawful : ∀ worker, (runtimes worker).Lawful)
    (sound : Sound runtimes previous workload initial pool) {chosen : ι}
    (moves : pool.step (workerStep runtimes previous workload) chosen = some next) :
    Sound runtimes previous workload initial next := by
  obtain ⟨state, effect, running, steps, rfl⟩ := Pool.step_eq_some moves
  obtain ⟨alive, acts⟩ := acts_of_workerStep steps
  obtain ⟨workers, exited, trapped, memories⟩ := pool
  obtain ⟨untrapped, progress⟩ := sound
  have own := progress chosen
  simp only at running alive acts untrapped progress own
  subst alive untrapped
  rw [running] at own
  cases acts with
  | grows started =>
      simp only at started ⊢
      generalize held : memories chosen = memory at own
      cases own with
      | created => exact Sound.update progress (.grown started)
  | exits failed =>
      refine ⟨rfl, fun other => ?_⟩
      by_cases same : other = chosen
      · subst same
        simpa using .failed rfl
      · simpa [same] using (progress other).exit
  | copies returns =>
      simp only at returns ⊢
      generalize held : memories chosen = memory at own returns
      cases own with
      | @grown pages call starts =>
          have copies := run_of_started (lawful chosen) (Or.inl ⟨workload, starts⟩)
            (size_grow (initial chosen) pages)
          obtain rfl := Option.some.inj (copies.symm.trans returns)
          exact Sound.update progress (.finished starts)
  | traps trapped =>
      simp only at trapped
      generalize held : memories chosen = memory at own trapped
      cases own with
      | @grown pages call starts =>
          have copies := run_of_started (lawful chosen) (Or.inl ⟨workload, starts⟩)
            (size_grow (initial chosen) pages)
          rw [copies] at trapped
          cases trapped

theorem Sound.run (lawful : ∀ worker, (runtimes worker).Lawful) {schedule : List ι}
    (executes : (wasmThreads initial).run (workerStep runtimes previous workload) schedule =
      some final) : Sound runtimes previous workload initial final :=
  Pool.run_invariant (Sound runtimes previous workload initial)
    (fun sound moves => sound.step lawful moves) ⟨rfl, fun _ => .created⟩ executes

omit [DecidableEq ι] in
/-- A joined thread of a process that has not exited has returned from its call. -/
theorem Sound.returned (sound : Sound runtimes previous workload initial pool)
    (joined : pool.Joined) (printed : pool.shared.exited = false) (worker : ι) :
    ∃ pages call, wasmWorker (runtimes worker) previous workload = some (pages, call) ∧
      pool.shared.memories worker =
        moved (grow (initial worker) pages) 0 call.output.toNat (4 * call.len.toNat) := by
  have own := sound.progress worker
  have finished := joined worker
  generalize pool.workers worker = state at own finished
  generalize pool.shared.memories worker = memory at own ⊢
  cases own with
  | created => cases finished
  | grown starts => cases finished
  | failed exits =>
      rw [printed] at exits
      cases exits
  | finished starts => exact ⟨_, _, starts, rfl⟩

/-! ## Completion -/

/-- The steps that a thread can still take. -/
def stepsLeft : WorkerState ⊕ Unit → Nat
  | .inl .created => 2
  | .inl (.grown _) => 1
  | .inr _ => 0

theorem stepsLeft_lt {worker : ι} {state : WorkerState} {process : Process ι}
    {effect : (WorkerState ⊕ Unit) × Process ι}
    (steps : workerStep runtimes previous workload worker state process = some effect) :
    stepsLeft effect.1 < stepsLeft (.inl state) := by
  obtain ⟨-, acts⟩ := acts_of_workerStep steps
  cases acts <;> simp [stepsLeft]

theorem wasmWorker_eq_some_iff {runtime : Runtime} :
    (∃ started, wasmWorker runtime previous workload = some started) ↔
      ∃ pages, runtime.memoryGrow previous (pagesNeeded workload).toNat = some pages := by
  simp [wasmWorker]

/-- The process has only exited when a memory could not be grown. -/
theorem exists_failed_of_exited {schedule : List ι}
    (executes : (wasmThreads initial).run (workerStep runtimes previous workload) schedule =
      some final) (exited : final.shared.exited = true) :
    ∃ worker, wasmWorker (runtimes worker) previous workload = none := by
  refine Pool.run_invariant
    (fun pool => pool.shared.exited = true →
      ∃ worker, wasmWorker (runtimes worker) previous workload = none)
    ?_ (fun exited => by cases exited) executes exited
  intro pool next chosen explained moves exitedNext
  obtain ⟨state, effect, -, steps, rfl⟩ := Pool.step_eq_some moves
  obtain ⟨alive, acts⟩ := acts_of_workerStep steps
  cases acts with
  | grows started => exact explained exitedNext
  | exits failed => exact ⟨chosen, failed⟩
  | copies returns => exact explained exitedNext
  | traps trapped => exact explained exitedNext

/-- A schedule takes at most two steps of each thread.  When no thread can go on
the throughput line is printed exactly when every memory could be grown. -/
theorem wasmThreads_printed_iff (lawful : ∀ worker, (runtimes worker).Lawful) {schedule : List ι}
    (executes : (wasmThreads initial).run (workerStep runtimes previous workload) schedule =
      some final) :
    (∀ worker, schedule.count worker ≤ 2) ∧
    ((∀ worker, final.step (workerStep runtimes previous workload) worker = none) →
      (final.Joined ∧ final.shared.exited = false ↔
        ∀ worker, ∃ pages,
          (runtimes worker).memoryGrow previous (pagesNeeded workload).toNat = some pages)) := by
  have sound := Sound.run lawful executes
  constructor
  · intro worker
    have bounded := Pool.count_add_rank_le stepsLeft stepsLeft_lt executes worker
    exact (Nat.le_add_right _ _).trans bounded
  · intro ended
    simp only [← wasmWorker_eq_some_iff]
    constructor
    · rintro ⟨joined, printed⟩ worker
      obtain ⟨pages, call, starts, -⟩ := sound.returned joined printed worker
      exact ⟨_, starts⟩
    · intro grows
      have printed : final.shared.exited = false := by
        by_contra exited
        obtain ⟨worker, failed⟩ :=
          exists_failed_of_exited executes (Bool.eq_true_of_not_eq_false exited)
        obtain ⟨started, starts⟩ := grows worker
        rw [failed] at starts
        cases starts
      refine ⟨fun worker => ?_, printed⟩
      cases state : final.workers worker with
      | inr result => rfl
      | inl running =>
          have stuck := ended worker
          rw [Pool.step, state] at stuck
          simp only [Option.map_eq_none_iff, workerStep_eq_none_iff, printed] at stuck
          cases stuck

/-- Two threads that have both run to their ends. -/
theorem wasmThreads_printed_iff_two :
    ∃ pool, (wasmThreads fun _ : Fin 2 => ⟨131072, fun _ => 0⟩).run
        (workerStep (fun _ => greedyRuntime) 2 1) [1, 0, 1, 0] = some pool ∧
      pool.Joined ∧ pool.shared.exited = false := by
  have runs : ∃ pool, (wasmThreads fun _ : Fin 2 => ⟨131072, fun _ => 0⟩).run
      (workerStep (fun _ => greedyRuntime) 2 1) [1, 0, 1, 0] = some pool ∧
      ∀ worker, pool.step (workerStep (fun _ => greedyRuntime) 2 1) worker = none := by
    refine ⟨_, rfl, fun worker => ?_⟩
    match worker with
    | 0 => rfl
    | 1 => rfl
  obtain ⟨pool, executes, ended⟩ := runs
  exact ⟨pool, executes,
    ((wasmThreads_printed_iff (fun _ => greedyRuntime_lawful) executes).2 ended).mpr
      fun _ => ⟨_, rfl⟩⟩

/-- A memory that could be grown leaves 61 bits of the workload, which survive
the conversion to `int32_t`. -/
theorem wasmWorker_len {runtime : Runtime} (lawful : runtime.Lawful) {pages : Nat}
    {call : DecodeCall} (starts : wasmWorker runtime previous workload = some (pages, call)) :
    call.len.toNat = workload.toNat % 2 ^ 61 := by
  obtain ⟨grownPages, grows, result⟩ := Option.map_eq_some_iff.mp starts
  obtain ⟨rfl, rfl⟩ := Prod.mk.inj result
  obtain ⟨pagesEq, atMost⟩ := lawful.grown grows
  have needed := pagesNeeded_toNat workload
  rw [workerArgs, BitVec.toNat_setWidth]
  omega

/-- The first `count` words of the grown memory, copied right behind themselves. -/
def CopiedInside (count : Nat) (initial memory : Memory) : Prop :=
  ∃ pages, 8 * count ≤ pages * pageSize ∧
    memory = moved (grow initial pages) 0 (4 * count) (4 * count)

omit [DecidableEq ι] in
theorem Sound.copied (lawful : ∀ worker, (runtimes worker).Lawful)
    (sound : Sound runtimes previous workload initial pool) (joined : pool.Joined)
    (printed : pool.shared.exited = false) (worker : ι) :
    CopiedInside (workload.toNat % 2 ^ 61) (initial worker) (pool.shared.memories worker) := by
  obtain ⟨pages, call, starts, left⟩ := sound.returned joined printed worker
  obtain ⟨fits, atMost⟩ := wasmWorker_fits (lawful worker) starts
  have sizeLe : pages * pageSize ≤ 2 ^ 32 := by
    unfold pageSize
    omega
  obtain ⟨arrays, -, output, -⟩ := fits.arrays sizeLe
  have inside := arrays.targetInside
  rw [output, wasmWorker_len (lawful worker) starts] at inside left
  exact ⟨pages, by omega, left⟩

/-- When the throughput line is printed, no call has trapped and every thread
has copied its workload modulo `2 ^ 61`.  Together they have copied the tuples
that the line counts exactly when the division is even and no share is cut off. -/
theorem wasmThreads_tuples_iff {total : BitVec 64} {t : BitVec 32} (positive : 1 ≤ t.toInt)
    {runtimes : Fin t.toNat → Runtime} (lawful : ∀ worker, (runtimes worker).Lawful)
    {initial : Fin t.toNat → Memory} {schedule : List (Fin t.toNat)} {pool}
    (executes : (wasmThreads initial).run
      (workerStep runtimes previous (Kernels.perThread total t)) schedule = some pool)
    (joined : pool.Joined) (printed : pool.shared.exited = false) :
    let copied := (Kernels.perThread total t).toNat % 2 ^ 61
    pool.shared.trapped = false ∧
    (∀ worker, CopiedInside copied (initial worker) (pool.shared.memories worker)) ∧
    (∑ _worker : Fin t.toNat, copied = total.toNat ↔
      t.toNat ∣ total.toNat ∧ total.toNat / t.toNat < 2 ^ 61) := by
  intro copied
  have sound := Sound.run lawful executes
  have signed := Kernels.toInt_threads positive
  refine ⟨sound.untrapped, fun worker => sound.copied lawful joined printed worker, ?_⟩
  have share : copied = total.toNat / t.toNat % 2 ^ 61 :=
    congrArg (· % 2 ^ 61) (Kernels.perThread_toNat total positive)
  have together : ∑ _worker : Fin t.toNat, copied = t.toNat * copied := by simp
  rw [together, share]
  constructor
  · intro sum
    have whole : total.toNat / t.toNat % 2 ^ 61 = total.toNat / t.toNat := by
      have quotient := Nat.mul_div_cancel_left (total.toNat / t.toNat % 2 ^ 61)
        (by omega : 0 < t.toNat)
      rw [sum] at quotient
      exact quotient.symm
    exact ⟨⟨_, sum.symm⟩, by omega⟩
  · rintro ⟨divides, small⟩
    rw [Nat.mod_eq_of_lt small, Nat.mul_div_cancel' divides]

/-- Two threads with a tuple each, the second one starting first. -/
theorem wasmThreads_tuples_iff_two :
    ∃ pool, (wasmThreads fun _ : Fin (2#32).toNat => ⟨131072, fun _ => 0⟩).run
        (workerStep (fun _ => greedyRuntime) 2 (Kernels.perThread 2 2))
        ([1, 0, 1, 0] : List (Fin 2)) = some pool ∧
      pool.shared.trapped = false ∧
      ∀ worker, CopiedInside 1 ⟨131072, fun _ => 0⟩ (pool.shared.memories worker) := by
  have runs : ∃ pool, (wasmThreads fun _ : Fin (2#32).toNat => ⟨131072, fun _ => 0⟩).run
      (workerStep (fun _ => greedyRuntime) 2 (Kernels.perThread 2 2))
      ([1, 0, 1, 0] : List (Fin 2)) = some pool ∧
      pool.Joined ∧ pool.shared.exited = false := by
    refine ⟨_, rfl, fun worker => ?_, rfl⟩
    change Fin 2 at worker
    match worker with
    | 0 => rfl
    | 1 => rfl
  obtain ⟨pool, executes, joined, printed⟩ := runs
  obtain ⟨untrapped, copied, -⟩ := @wasmThreads_tuples_iff 2 2 2 (by decide) _
    (fun _ => greedyRuntime_lawful) _ _ pool executes joined printed
  exact ⟨pool, executes, untrapped, copied⟩

end Spned.WasmWorker
