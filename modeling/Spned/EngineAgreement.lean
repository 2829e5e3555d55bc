import Spned.BaselineKernels
import Spned.GuardedBaselines
import Spned.ScalabilityDriver

/-!
# The engines of the first experiment

`exp1_eval.py` compares the functions that `run_spned_jit` of `exp1_spned.cpp`
calls with the native and the bounds-checked loops of `exp1_baselines.cpp`, all
on vectors of `TOTAL` elements.  The baselines count with `size_t`, the call
narrows `TOTAL` to 32 bits.
-/

namespace Spned.Kernels

open TracedMemory Ssa WrittenPrefix StableFilter

variable {total : BitVec 64} {cells : KernelBuf → Int → BitVec 32}

/-- The emitted functions, called with `TOTAL`, leave the outputs of the two
baselines, count the same elements and stay inside the vectors. -/
structure EnginesAgree (total : BitVec 64) (cells : KernelBuf → Int → BitVec 32) : Prop where
  sequential : ∃ path final,
    emitSequentialIr.Calls (copyArgs (nativeLength total)) (Memory.fresh cells) path
      (none, final) ∧
    ebpfSeq total total (Memory.fresh cells) = .completed (nativeSeq total (Memory.fresh cells)) ∧
    final.cells .outBuf = (nativeSeq total (Memory.fresh cells)).cells .outBuf ∧
    InsideVectors total final
  selective : ∃ path k final,
    emitSelectiveIr.Calls (selectArgs (nativeLength total) 10) (Memory.fresh cells) path
      (some (.i32 k), final) ∧
    ebpfSel total total (Memory.fresh cells) = .completed (nativeSel total (Memory.fresh cells)) ∧
    k.toInt = (nativeSel total (Memory.fresh cells)).1.toNat ∧
    final.cells .outBuf = (nativeSel total (Memory.fresh cells)).2.cells .outBuf ∧
    InsideVectors total final

theorem jitSequential_copied (total : BitVec 64) (cells : KernelBuf → Int → BitVec 32) :
    ∃ path final, emitSequentialIr.Calls (copyArgs (nativeLength total)) (Memory.fresh cells)
        path (none, final) ∧
      Copied (Memory.fresh cells) (workerRounds total) final := by
  obtain ⟨path, calls⟩ := copyLoop_calls "decode_seq" (nativeLength total) (Memory.fresh cells)
  have atLeastOne := BottomTestedLoop.rounds_pos (nativeLength total)
  have rounds : BottomTestedLoop.rounds (nativeLength total) = workerRounds total := by
    unfold workerRounds
    omega
  rw [rounds] at calls
  exact ⟨path, _, calls, copied_countedLoop _ _⟩

theorem nativeLength_toInt (nonempty : 1 ≤ total.toNat) (fits : total.toNat < 2 ^ 31) :
    (nativeLength total).toInt = total.toNat := by
  have narrowed : (nativeLength total).toNat = total.toNat := by
    rw [nativeLength, BitVec.toNat_setWidth]
    omega
  rw [BitVec.toInt_eq_toNat_of_lt (by omega), narrowed]

theorem enginesAgree_of_fits (nonempty : 1 ≤ total.toNat) (fits : total.toNat < 2 ^ 31)
    (cells : KernelBuf → Int → BitVec 32) : EnginesAgree total cells := by
  have length := nativeLength_toInt nonempty fits
  constructor
  · obtain ⟨path, final, calls, copied⟩ := jitSequential_copied total cells
    rw [(workerRounds_eq_iff total).mpr ⟨nonempty, fits⟩] at copied
    have native := copied_countedLoop (Memory.fresh cells) total.toNat
    refine ⟨path, final, calls, ebpfSeq_eq_completed total _, ?_, copied.inside⟩
    exact copied.output.trans native.output.symm
  · obtain ⟨path, calls, -⟩ := select_calls (nativeLength total) 10 (Memory.fresh cells)
    rw [BottomTestedLoop.rounds_of_nonempty (by omega), length] at calls
    have selected := selected_countedLoop 10 (Memory.fresh cells) total.toNat (by omega)
    have native : Compacting belowTen sizePosition cells total.toNat _ :=
      compacting_countedLoop counts_size (by omega)
    refine ⟨path, _, _, calls, ebpfSel_eq_completed total cells, ?_, ?_, ?_⟩
    · exact selected.compacted.cursor_eq.trans native.compacted.cursor_eq.symm
    · exact selected.compacted.output_eq.trans native.compacted.output_eq.symm
    · exact select_trace_inside 10 cells total.toNat (by omega)

/-- Vectors on which every copied or selected element shows. -/
def contrastingCells : KernelBuf → Int → BitVec 32
  | .inBuf, _ => 0
  | .outBuf, _ => 1

theorem workerRounds_of_enginesAgree (agree : EnginesAgree total contrastingCells) :
    workerRounds total = total.toNat := by
  obtain ⟨path, final, calls, -, same, -⟩ := agree.sequential
  obtain ⟨path', final', calls', copied⟩ := jitSequential_copied total contrastingCells
  obtain rfl := Function.Calls.memory_eq calls calls'
  have native := copied_countedLoop (Memory.fresh contrastingCells) total.toNat
  rcases lt_trichotomy (workerRounds total) total.toNat with short | equal | long
  · have missed := copied.output_of_outside (Or.inr le_rfl)
    have stored := native.output_of_lt short
    have cell : (1 : BitVec 32) = 0 :=
      missed.symm.trans ((congrFun same _).trans stored)
    cases cell
  · exact equal
  · have stored := copied.output_of_lt long
    have missed := native.output_of_outside (Or.inr le_rfl)
    have cell : (0 : BitVec 32) = 1 :=
      stored.symm.trans ((congrFun same _).trans missed)
    cases cell

/-- The engines agree on all vectors exactly when there is an element and their
number is a positive `int32_t`. -/
theorem enginesAgree_iff (total : BitVec 64) :
    (∀ cells, EnginesAgree total cells) ↔ 1 ≤ total.toNat ∧ total.toNat < 2 ^ 31 := by
  constructor
  · intro agree
    exact (workerRounds_eq_iff total).mp (workerRounds_of_enginesAgree (agree contrastingCells))
  · rintro ⟨nonempty, fits⟩ cells
    exact enginesAgree_of_fits nonempty fits cells

end Spned.Kernels
