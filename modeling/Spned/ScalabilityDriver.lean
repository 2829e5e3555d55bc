import Mathlib.Algebra.BigOperators.Group.Finset.Basic
import Mathlib.Data.Fintype.BigOperators
import Spned.CopyKernel

/-!
# The multi-core driver

`main` of `exp4_spned.cpp` divides the tuples among the threads and lets every
worker call the emitted copy loop on vectors of its own.  The division drops a
remainder, the call narrows the share to 32 bits, and the loop makes a round
even for an empty share.
-/

namespace Spned.Kernels

open TracedMemory Ssa

/-- `size_t per_thread = TOTAL / t`, with `t` converted from `int`. -/
def perThread (total : BitVec 64) (t : BitVec 32) : BitVec 64 :=
  total / t.signExtend 64

/-- The conversion of `per_thread` to the third parameter of `native_decode`. -/
def nativeLength (perThread : BitVec 64) : BitVec 32 :=
  perThread.setWidth 32

/-- `std::vector<int32_t> in(per_thread, 1), out(per_thread, 0)`, with anything
in the cells outside the vectors. -/
def workerMemory (perThread : BitVec 64) (heap : KernelBuf → Int → BitVec 32) :
    KernelMemory :=
  Memory.fresh fun buf index =>
    if 0 ≤ index ∧ index < perThread.toNat then
      match buf with
      | .inBuf => 1
      | .outBuf => 0
    else heap buf index

/-- One worker: its call of `decode_seq` returns with the memory `final`. -/
def WorkerEnds (perThread : BitVec 64) (heap : KernelBuf → Int → BitVec 32)
    (final : KernelMemory) : Prop :=
  ∃ path, emitSequentialIr.Calls (copyArgs (nativeLength perThread))
    (workerMemory perThread heap) path (none, final)

def CopiesShare (perThread : BitVec 64) (heap : KernelBuf → Int → BitVec 32)
    (final : KernelMemory) : Prop :=
  ∀ index : Nat, index < perThread.toNat →
    Event.load .inBuf index ∈ final.trace ∧ Event.store .outBuf index ∈ final.trace ∧
      final.cells .outBuf index = (workerMemory perThread heap).cells .inBuf index

def StaysInVectors (perThread : BitVec 64) (final : KernelMemory) : Prop :=
  ∀ event ∈ final.trace, 0 ≤ event.index ∧ event.index < perThread.toNat

def tuplesCopied (final : KernelMemory) : Nat :=
  final.trace.countP Event.isStore

/-- The run of the driver with `t` threads: each worker ends, has copied its
share inside its vectors, and together they have copied `total` tuples. -/
def NoTupleLost (total : BitVec 64) (t : BitVec 32)
    (heap : Fin t.toNat → KernelBuf → Int → BitVec 32) : Prop :=
  ∃ final : Fin t.toNat → KernelMemory,
    (∀ worker, WorkerEnds (perThread total t) (heap worker) (final worker) ∧
      CopiesShare (perThread total t) (heap worker) (final worker) ∧
      StaysInVectors (perThread total t) (final worker)) ∧
    ∑ worker, tuplesCopied (final worker) = total.toNat

/-! ## One worker -/

def workerRounds (perThread : BitVec 64) : Nat :=
  (BottomTestedLoop.rounds (nativeLength perThread)).toNat

theorem workerEnds (perThread : BitVec 64) (heap : KernelBuf → Int → BitVec 32) :
    ∃ final, WorkerEnds perThread heap final ∧
      Copied (workerMemory perThread heap) (workerRounds perThread) final := by
  obtain ⟨path, calls⟩ :=
    copyLoop_calls "decode_seq" (nativeLength perThread) (workerMemory perThread heap)
  have atLeastOne := BottomTestedLoop.rounds_pos (nativeLength perThread)
  have rounds : BottomTestedLoop.rounds (nativeLength perThread) = workerRounds perThread := by
    unfold workerRounds
    omega
  rw [rounds] at calls
  exact ⟨_, ⟨path, calls⟩, copied_countedLoop _ _⟩

theorem WorkerEnds.copied {perThread : BitVec 64} {heap : KernelBuf → Int → BitVec 32}
    {final : KernelMemory} (ends : WorkerEnds perThread heap final) :
    Copied (workerMemory perThread heap) (workerRounds perThread) final := by
  obtain ⟨path, calls⟩ := ends
  obtain ⟨final', ⟨path', calls'⟩, copied⟩ := workerEnds perThread heap
  obtain rfl := Function.Calls.memory_eq calls calls'
  exact copied

theorem Copied.tuplesCopied {perThread : BitVec 64} {heap : KernelBuf → Int → BitVec 32}
    {final : KernelMemory} {rounds : Nat}
    (copied : Copied (workerMemory perThread heap) rounds final) :
    tuplesCopied final = rounds := by
  rw [Kernels.tuplesCopied, copied.trace_eq, countP_copyTrace]

/-- A worker makes as many rounds as its share has elements exactly when the
share is not empty and survives the narrowing. -/
theorem workerRounds_eq_iff (perThread : BitVec 64) :
    workerRounds perThread = perThread.toNat ↔
      1 ≤ perThread.toNat ∧ perThread.toNat < 2 ^ 31 := by
  have upper := BottomTestedLoop.rounds_lt (nativeLength perThread)
  have lower := BottomTestedLoop.rounds_pos (nativeLength perThread)
  constructor
  · intro same
    unfold workerRounds at same
    omega
  · rintro ⟨nonempty, fits⟩
    have converted : (nativeLength perThread).toInt = perThread.toNat := by
      rw [nativeLength, BitVec.toInt_setWidth, Int.bmod_eq_of_le] <;> omega
    rw [workerRounds, BottomTestedLoop.rounds_of_nonempty (by omega), converted,
      Int.toNat_natCast]

theorem Copied.share {perThread : BitVec 64} {heap : KernelBuf → Int → BitVec 32}
    {final : KernelMemory}
    (copied : Copied (workerMemory perThread heap) perThread.toNat final) :
    CopiesShare perThread heap final ∧ StaysInVectors perThread final := by
  constructor
  · intro index below
    rw [copied.trace_eq]
    exact ⟨mem_copyTrace_iff.mpr ⟨index, below, Or.inl rfl⟩,
      mem_copyTrace_iff.mpr ⟨index, below, Or.inr rfl⟩, copied.output_of_lt below⟩
  · exact copied.inside

/-! ## All workers -/

variable {total : BitVec 64} {t : BitVec 32}

theorem toInt_threads (positive : 1 ≤ t.toInt) : t.toInt = t.toNat :=
  BitVec.toInt_eq_toNat_of_lt (BitVec.toInt_pos_iff.mp (by omega))

theorem perThread_toNat (total : BitVec 64) (positive : 1 ≤ t.toInt) :
    (perThread total t).toNat = total.toNat / t.toNat := by
  have unsigned : t.msb = false :=
    BitVec.msb_eq_false_iff_two_mul_lt.mpr (BitVec.toInt_pos_iff.mp (by omega))
  have width := t.isLt
  rw [perThread, BitVec.toNat_udiv, BitVec.signExtend_eq_setWidth_of_msb_false unsigned,
    BitVec.toNat_setWidth, Nat.mod_eq_of_lt (by omega)]

theorem sum_tuplesCopied {heap : Fin t.toNat → KernelBuf → Int → BitVec 32}
    {final : Fin t.toNat → KernelMemory}
    (ends : ∀ worker, WorkerEnds (perThread total t) (heap worker) (final worker)) :
    ∑ worker, tuplesCopied (final worker) = t.toNat * workerRounds (perThread total t) := by
  have each : ∀ worker, tuplesCopied (final worker) = workerRounds (perThread total t) :=
    fun worker => (ends worker).copied.tuplesCopied
  simp [each]

/-- The sum alone forces an even division into shares that survive the narrowing. -/
theorem dvd_of_noTupleLost {heap : Fin t.toNat → KernelBuf → Int → BitVec 32}
    (positive : 1 ≤ t.toInt) (kept : NoTupleLost total t heap) :
    t.toNat ∣ total.toNat ∧ total.toNat / t.toNat < 2 ^ 31 := by
  obtain ⟨final, workers, sum⟩ := kept
  rw [sum_tuplesCopied fun worker => (workers worker).1] at sum
  have signed := toInt_threads positive
  have share : workerRounds (perThread total t) = total.toNat / t.toNat := by
    rw [← sum, Nat.mul_div_cancel_left _ (by omega)]
  rw [← perThread_toNat total positive] at share ⊢
  exact ⟨⟨_, sum.symm⟩, ((workerRounds_eq_iff _).mp share).2⟩

theorem noTupleLost_of_dvd (heap : Fin t.toNat → KernelBuf → Int → BitVec 32)
    (nonempty : 1 ≤ total.toNat) (positive : 1 ≤ t.toInt) (divides : t.toNat ∣ total.toNat)
    (fits : total.toNat / t.toNat < 2 ^ 31) : NoTupleLost total t heap := by
  have signed := toInt_threads positive
  have share := perThread_toNat total positive
  have atLeastOne : 1 ≤ total.toNat / t.toNat :=
    Nat.div_pos (Nat.le_of_dvd (by omega) divides) (by omega)
  have rounds : workerRounds (perThread total t) = (perThread total t).toNat :=
    (workerRounds_eq_iff _).mpr (by omega)
  have workers := fun worker => workerEnds (perThread total t) (heap worker)
  choose final ends copied using workers
  refine ⟨final, fun worker => ⟨ends worker, ?_⟩, ?_⟩
  · have matching := copied worker
    rw [rounds] at matching
    exact matching.share
  · rw [sum_tuplesCopied ends, rounds, share, Nat.mul_div_cancel' divides]

/-- No tuple is lost exactly when the threads divide the tuples evenly into
shares below `2 ^ 31`. -/
theorem noTupleLost_iff (total : BitVec 64) (t : BitVec 32)
    (heap : Fin t.toNat → KernelBuf → Int → BitVec 32) (nonempty : 1 ≤ total.toNat)
    (positive : 1 ≤ t.toInt) :
    NoTupleLost total t heap ↔
      t.toNat ∣ total.toNat ∧ total.toNat / t.toNat < 2 ^ 31 := by
  constructor
  · exact dvd_of_noTupleLost positive
  · rintro ⟨divides, fits⟩
    exact noTupleLost_of_dvd heap nonempty positive divides fits

/-- The default number of tuples on 64 threads. -/
theorem noTupleLost_default :
    NoTupleLost 100000000 64 (fun _ _ _ => 0) ↔ 64 ∣ 100000000 ∧ 100000000 / 64 < 2 ^ 31 :=
  noTupleLost_iff 100000000 64 (fun _ _ _ => 0) (by decide) (by decide)

/-- One tuple on four threads: every share is empty, yet every worker copies an
element outside its vectors. -/
theorem not_noTupleLost_one_four :
    ¬∀ (total : BitVec 64) (t : BitVec 32) (heap : Fin t.toNat → KernelBuf → Int → BitVec 32),
      1 ≤ total.toNat → 1 ≤ t.toInt → NoTupleLost total t heap := by
  intro always
  have kept := always 1 4 (fun _ _ _ => 0) (by decide) (by decide)
  exact absurd (dvd_of_noTupleLost (by decide) kept).1 (by decide)

end Spned.Kernels
