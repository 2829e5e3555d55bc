import Spned.ScalabilityDriver
import Spned.SsaThreads

/-!
# Schedules of the multi-core driver

The threads of `exp4_spned.cpp` run in one process, each on two vectors that it
has allocated.  Whatever the scheduler does, no worker is ever stuck, and what
the workers have done once `join` has returned for all of them depends on the
shares alone.
-/

namespace Spned.Kernels

open TracedMemory Ssa DeterministicRun Interleaving

variable {total : BitVec 64} {t : BitVec 32}

/-- The vectors of all workers, in one memory. -/
def driverMemory (perThread : BitVec 64) (heap : Fin t.toNat → KernelBuf → Int → BitVec 32) :
    Memory (Fin t.toNat × KernelBuf) (BitVec 32) :=
  Memory.fresh fun buf => (workerMemory perThread (heap buf.1)).cells buf.2

/-- `ts` after the loop that starts the workers. -/
def driverThreads (total : BitVec 64) (t : BitVec 32)
    (heap : Fin t.toNat → KernelBuf → Int → BitVec 32) :
    Pool (Fin t.toNat) (Thread CopyReg CopyLabel (Fin t.toNat × KernelBuf))
      (Option (Value (Fin t.toNat × KernelBuf)))
      (Memory (Fin t.toNat × KernelBuf) (BitVec 32)) :=
  emitSequentialIr.threads (fun _ => copyArgs (nativeLength (perThread total t)))
    (driverMemory (perThread total t) heap)

/-- Each worker has a call of its own, which takes the same steps in every
schedule. -/
theorem driverThreads_reached (total : BitVec 64) (t : BitVec 32)
    (heap : Fin t.toNat → KernelBuf → Int → BitVec 32) :
    ∃ (paths : Fin t.toNat → List (Config CopyReg CopyLabel KernelBuf))
      (finals : Fin t.toNat → KernelMemory),
      (∀ worker, emitSequentialIr.Calls (copyArgs (nativeLength (perThread total t)))
        (workerMemory (perThread total t) (heap worker)) (paths worker)
        (none, finals worker)) ∧
      (∀ worker, Copied (workerMemory (perThread total t) (heap worker))
        (workerRounds (perThread total t)) (finals worker)) ∧
      ∀ schedule pool,
        (driverThreads total t heap).run emitSequentialIr.threadStep schedule = some pool →
        Reached Sees paths (fun worker => (none, finals worker))
          (fun worker => schedule.count worker) pool := by
  have workers := fun worker => workerEnds (perThread total t) (heap worker)
  choose finals ends copied using workers
  choose paths calls using ends
  refine ⟨paths, finals, calls, copied, fun schedule pool executes => ?_⟩
  exact emitSequentialIr.threads_reached calls executes

/-- In a reached state the accesses to the vectors of a worker are the first
ones of its call. -/
theorem trace_part_of_reached {paths : Fin t.toNat → List (Config CopyReg CopyLabel KernelBuf)}
    {results : Fin t.toNat → Result KernelBuf} {steps : Fin t.toNat → Nat}
    {args : Fin t.toNat → List (Value KernelBuf)} {starts : Fin t.toNat → KernelMemory} {pool}
    (calls : ∀ worker, emitSequentialIr.Calls (args worker) (starts worker) (paths worker)
      (results worker))
    (reached : Reached Sees paths results steps pool) (worker : Fin t.toNat) :
    (pool.shared.part worker).trace <+: (results worker).2.trace := by
  rw [(reached worker).2.2]
  exact Calls.trace_prefix (calls worker) (steps worker)

/-- The memory after all threads have been joined. -/
theorem part_of_joined {paths : Fin t.toNat → List (Config CopyReg CopyLabel KernelBuf)}
    {results : Fin t.toNat → Result KernelBuf} {steps : Fin t.toNat → Nat}
    {args : Fin t.toNat → List (Value KernelBuf)} {starts : Fin t.toNat → KernelMemory} {pool}
    (calls : ∀ worker, emitSequentialIr.Calls (args worker) (starts worker) (paths worker)
      (results worker))
    (reached : Reached Sees paths results steps pool) (joined : pool.Joined)
    (worker : Fin t.toNat) : pool.shared.part worker = (results worker).2 := by
  have ended := (emitSequentialIr.threads_isolated.joined_iff calls reached).mp joined worker
  rw [(reached worker).2.2, position_of_length_le ended.ge]
  rfl

/-- Some schedule leads to the end of all calls. -/
theorem driverThreads_exists_joined (total : BitVec 64) (t : BitVec 32)
    (heap : Fin t.toNat → KernelBuf → Int → BitVec 32) :
    ∃ schedule pool, (driverThreads total t heap).run emitSequentialIr.threadStep schedule =
      some pool ∧ pool.Joined := by
  obtain ⟨paths, finals, calls, -, reaches⟩ := driverThreads_reached total t heap
  exact emitSequentialIr.threads_isolated.exists_joined calls (reaches [] _ rfl)

/-! ## Safety -/

theorem workerRounds_le {perThread : BitVec 64} (nonempty : 1 ≤ perThread.toNat) :
    workerRounds perThread ≤ perThread.toNat := by
  have low : (nativeLength perThread).toNat ≤ perThread.toNat := by
    rw [nativeLength, BitVec.toNat_setWidth]
    exact Nat.mod_le _ _
  have narrowed : (nativeLength perThread).toInt ≤ perThread.toNat := by
    rw [BitVec.toInt_eq_toNat_cond]
    split_ifs <;> omega
  unfold workerRounds BottomTestedLoop.rounds
  omega

/-- In every schedule each thread can take its next step until its call has
returned, and all have returned when the schedule has a certain length.  No
schedule leaves the vectors exactly when no share is empty. -/
theorem driverThreads_safe_iff (positive : 1 ≤ t.toInt)
    (heap : Fin t.toNat → KernelBuf → Int → BitVec 32) :
    (∃ steps : Fin t.toNat → Nat, ∀ schedule pool,
      (driverThreads total t heap).run emitSequentialIr.threadStep schedule = some pool →
      (∀ worker, schedule.count worker ≤ steps worker) ∧
      (∀ worker, (pool.step emitSequentialIr.threadStep worker).isSome = true ↔
        schedule.count worker < steps worker) ∧
      (pool.Joined ↔ schedule.length = ∑ worker, steps worker)) ∧
    ((∀ schedule pool,
      (driverThreads total t heap).run emitSequentialIr.threadStep schedule = some pool →
      ∀ event ∈ pool.shared.trace,
        0 ≤ event.index ∧ event.index < (perThread total t).toNat) ↔
      t.toNat ≤ total.toNat) := by
  have signed := toInt_threads positive
  have share := perThread_toNat total positive
  obtain ⟨paths, finals, calls, copied, reaches⟩ := driverThreads_reached total t heap
  refine ⟨⟨fun worker => (paths worker).length, fun schedule pool executes => ?_⟩, ?_, ?_⟩
  · exact emitSequentialIr.threads_isolated.schedule_ends calls (reaches schedule pool executes)
  · intro inside
    -- Even an empty share costs its worker a round, which stores to element zero.
    obtain ⟨schedule, pool, executes, joined⟩ := driverThreads_exists_joined total t heap
    have worker : Fin t.toNat := ⟨0, by omega⟩
    have parts := part_of_joined calls (reaches schedule pool executes) joined worker
    have atLeastOne : 0 < workerRounds (perThread total t) := by
      have rounds := BottomTestedLoop.rounds_pos (nativeLength (perThread total t))
      unfold workerRounds
      omega
    have stored : Event.store .outBuf (0 : Nat) ∈ (pool.shared.part worker).trace := by
      rw [parts, (copied worker).trace_eq]
      exact mem_copyTrace_iff.mpr ⟨0, atLeastOne, Or.inr rfl⟩
    obtain ⟨access, member, mapped⟩ := Memory.exists_of_mem_part_trace stored
    have below := (inside schedule pool executes access member).2
    rw [← Event.index_map Prod.snd, mapped, share] at below
    by_contra few
    rw [Nat.div_eq_of_lt (by omega)] at below
    exact absurd below (lt_irrefl _)
  · intro enough schedule pool executes event member
    have nonempty : 1 ≤ (perThread total t).toNat := by
      rw [share]
      exact Nat.div_pos enough (by omega)
    have started := trace_part_of_reached calls (reaches schedule pool executes) event.buf.1
    have within := (copied event.buf.1).inside _
      (started.subset (Memory.mem_part_trace member))
    rw [Event.index_map] at within
    have rounds := workerRounds_le nonempty
    omega

/-- Two threads with a tuple each. -/
theorem driverThreads_safe_iff_two :
    (∃ steps : Fin (2#32).toNat → Nat, ∀ schedule pool,
      (driverThreads 2 2 fun _ _ _ => 7).run emitSequentialIr.threadStep schedule = some pool →
      (∀ worker, schedule.count worker ≤ steps worker) ∧
      (∀ worker, (pool.step emitSequentialIr.threadStep worker).isSome = true ↔
        schedule.count worker < steps worker) ∧
      (pool.Joined ↔ schedule.length = ∑ worker, steps worker)) ∧
    ∀ schedule pool,
      (driverThreads 2 2 fun _ _ _ => 7).run emitSequentialIr.threadStep schedule = some pool →
      ∀ event ∈ pool.shared.trace, 0 ≤ event.index ∧ event.index < (perThread 2 2).toNat := by
  obtain ⟨progress, inside⟩ := @driverThreads_safe_iff 2 2 (by decide) fun _ _ _ => 7
  exact ⟨progress, inside.mpr (by decide)⟩

/-! ## Joined threads -/

theorem count_copyTrace {done index : Nat} (below : index < done) :
    (copyTrace done).count (.load .inBuf (index : Nat)) = 1 ∧
      (copyTrace done).count (.store .outBuf (index : Nat)) = 1 := by
  induction done with
  | zero => omega
  | succ done ih =>
      rw [copyTrace_succ, List.count_append, List.count_append]
      rcases Nat.lt_succ_iff_lt_or_eq.mp below with earlier | rfl
      · have other : done ≠ index := by omega
        simp [ih earlier, other]
      · have absent : ∀ event ∈ copyTrace index, event.index ≠ index := by
          intro event member
          have inside := index_of_mem_copyTrace member
          omega
        rw [List.count_eq_zero.mpr fun member => absent _ member rfl,
          List.count_eq_zero.mpr fun member => absent _ member rfl]
        simp

/-- However the division and the narrowing turn out, the joined threads have
stored once for each round of each worker. -/
theorem countP_isStore_of_joined (heap : Fin t.toNat → KernelBuf → Int → BitVec 32)
    {schedule : List (Fin t.toNat)} {pool}
    (executes :
      (driverThreads total t heap).run emitSequentialIr.threadStep schedule = some pool)
    (joined : pool.Joined) :
    pool.shared.trace.countP Event.isStore = t.toNat * workerRounds (perThread total t) := by
  obtain ⟨paths, finals, calls, copied, reaches⟩ := driverThreads_reached total t heap
  have parts := part_of_joined calls (reaches schedule pool executes) joined
  have stores := Memory.countP_trace pool.shared Event.isStore
  simp only [Event.isStore_map] at stores
  have each : ∀ worker, (finals worker).trace.countP Event.isStore =
      workerRounds (perThread total t) := fun worker => (copied worker).tuplesCopied
  rw [stores]
  simp [parts, each]

/-- Each tuple of each share has been loaded once, stored once and has arrived,
and all else is as it was. -/
structure CopiedOnce (total : BitVec 64) (t : BitVec 32)
    (heap : Fin t.toNat → KernelBuf → Int → BitVec 32)
    (memory : Memory (Fin t.toNat × KernelBuf) (BitVec 32)) : Prop where
  once : ∀ worker, ∀ index : Nat, index < (perThread total t).toNat →
    memory.trace.count (.load (worker, .inBuf) index) = 1 ∧
      memory.trace.count (.store (worker, .outBuf) index) = 1 ∧
      memory.cells (worker, .outBuf) index = 1
  others : ∀ worker, ∀ index : Int, index < 0 ∨ (perThread total t).toNat ≤ index →
    memory.cells (worker, .outBuf) index = heap worker .outBuf index
  input : ∀ worker, memory.cells (worker, .inBuf) =
    (workerMemory (perThread total t) (heap worker)).cells .inBuf
  stores : memory.trace.countP Event.isStore = t.toNat * (perThread total t).toNat

/-- In whatever order the threads ran, the joined ones have copied their shares
exactly when these have an element and survive the narrowing. -/
theorem driverThreads_copy_once_iff (positive : 1 ≤ t.toInt)
    (heap : Fin t.toNat → KernelBuf → Int → BitVec 32) {schedule : List (Fin t.toNat)} {pool}
    (executes :
      (driverThreads total t heap).run emitSequentialIr.threadStep schedule = some pool)
    (joined : pool.Joined) :
    CopiedOnce total t heap pool.shared ↔
      1 ≤ total.toNat / t.toNat ∧ total.toNat / t.toNat < 2 ^ 31 := by
  have signed := toInt_threads positive
  have stores := countP_isStore_of_joined heap executes joined
  rw [← perThread_toNat total positive, ← workerRounds_eq_iff]
  constructor
  · intro copiedOnce
    rw [copiedOnce.stores] at stores
    exact (Nat.eq_of_mul_eq_mul_left (by omega) stores).symm
  · intro rounds
    obtain ⟨paths, finals, calls, copied, reaches⟩ := driverThreads_reached total t heap
    have parts := part_of_joined calls (reaches schedule pool executes) joined
    simp only [rounds] at copied stores
    have cellsOf : ∀ worker buf, pool.shared.cells (worker, buf) = (finals worker).cells buf :=
      fun worker buf => congrFun (congrArg Memory.cells (parts worker)) buf
    refine ⟨fun worker index below => ?_, fun worker index outside => ?_, fun worker => ?_,
      stores⟩
    · have once := count_copyTrace below
      rw [Memory.count_trace, Memory.count_trace, cellsOf]
      simp only [Event.buf, Event.map]
      rw [parts, (copied worker).trace_eq, (copied worker).output_of_lt below]
      exact ⟨once.1, once.2, by simp [workerMemory, below]⟩
    · rw [cellsOf, (copied worker).output_of_outside outside]
      have notInside : ¬(0 ≤ index ∧ index < (perThread total t).toNat) := by omega
      simp [workerMemory, notInside]
    · rw [cellsOf, (copied worker).input]

/-- Two threads that take turns until both calls have returned. -/
def turns : List (Fin (2#32).toNat) :=
  (List.replicate 9 ([0, 1] : List (Fin 2))).flatten

theorem joined_turns (heap : Fin (2#32).toNat → KernelBuf → Int → BitVec 32) :
    ∃ pool, (driverThreads 2 2 heap).run emitSequentialIr.threadStep turns = some pool ∧
      pool.Joined := by
  refine ⟨_, rfl, fun worker => ?_⟩
  change Fin 2 at worker
  match worker with
  | 0 => rfl
  | 1 => rfl

theorem driverThreads_copy_once_iff_turns :
    ∃ pool, (driverThreads 2 2 fun _ _ _ => 7).run emitSequentialIr.threadStep turns =
        some pool ∧
      CopiedOnce 2 2 (fun _ _ _ => 7) pool.shared := by
  obtain ⟨pool, executes, joined⟩ := joined_turns fun _ _ _ => 7
  exact ⟨pool, executes,
    (driverThreads_copy_once_iff (by decide) _ executes joined).mpr (by decide)⟩

/-! ## Even shares -/

/-- The conditions under which no share is lost in the division or cut off by
the narrowing of its length. -/
structure EvenShares (total : BitVec 64) (t : BitVec 32) : Prop where
  nonempty : 1 ≤ total.toNat
  positive : 1 ≤ t.toInt
  divides : t.toNat ∣ total.toNat
  fits : total.toNat / t.toNat < 2 ^ 31

theorem EvenShares.workerRounds_eq (even : EvenShares total t) :
    workerRounds (perThread total t) = (perThread total t).toNat := by
  have signed := toInt_threads even.positive
  have share := perThread_toNat total even.positive
  have atLeastOne : 1 ≤ total.toNat / t.toNat :=
    Nat.div_pos (Nat.le_of_dvd even.nonempty even.divides) (by have := even.positive; omega)
  have fits := even.fits
  exact (workerRounds_eq_iff _).mpr (by omega)

theorem evenShares_of_count {total : BitVec 64} {t : BitVec 32} (positive : 1 ≤ t.toInt)
    (same : t.toNat * workerRounds (perThread total t) = total.toNat) : EvenShares total t := by
  have signed := toInt_threads positive
  have atLeastOne := BottomTestedLoop.rounds_pos (nativeLength (perThread total t))
  have rounds : workerRounds (perThread total t) = (perThread total t).toNat := by
    rw [perThread_toNat total positive, ← same, Nat.mul_div_cancel_left _ (by omega)]
  have share := (workerRounds_eq_iff _).mp rounds
  rw [perThread_toNat total positive] at share
  refine ⟨?_, positive, ⟨_, same.symm⟩, share.2⟩
  have := Nat.div_le_self total.toNat t.toNat
  omega

/-- In every completed schedule the number of copied tuples is the one that the
throughput is computed from exactly when the shares are even. -/
theorem driverThreads_tuples_iff (positive : 1 ≤ t.toInt)
    (heap : Fin t.toNat → KernelBuf → Int → BitVec 32) {schedule : List (Fin t.toNat)} {pool}
    (executes :
      (driverThreads total t heap).run emitSequentialIr.threadStep schedule = some pool)
    (joined : pool.Joined) :
    pool.shared.trace.countP Event.isStore = total.toNat ↔ EvenShares total t := by
  rw [countP_isStore_of_joined heap executes joined]
  constructor
  · exact evenShares_of_count positive
  · intro even
    rw [even.workerRounds_eq, perThread_toNat total even.positive,
      Nat.mul_div_cancel' even.divides]

theorem driverThreads_tuples_iff_turns :
    ∃ pool, (driverThreads 2 2 fun _ _ _ => 7).run emitSequentialIr.threadStep turns =
        some pool ∧
      (pool.shared.trace.countP Event.isStore = (2 : BitVec 64).toNat ↔ EvenShares 2 2) := by
  obtain ⟨pool, executes, joined⟩ := joined_turns fun _ _ _ => 7
  exact ⟨pool, executes, driverThreads_tuples_iff (by decide) _ executes joined⟩

end Spned.Kernels
