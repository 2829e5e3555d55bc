import Spned.CopyKernel
import Spned.ReeDecoder

/-!
# The decoder and the emitted loop

`generate_llvm_ir` does not translate the tree that was verified: it emits a
single loop that copies `in_val` to the output, whatever the run lengths are.
The two leave the same output exactly when decoding would be copying.
-/

namespace Spned.MicroCompiler

open TracedMemory Ssa WrittenPrefix Kernels

/-- The input of the tree: `in_val` and `out` hold 32-bit elements. -/
def treeInput (inVal : Int → BitVec 32) (inLen : Int → Int) (out : Int → BitVec 32) :
    DecoderState where
  vars := fun _ => 0
  arrays := fun name index =>
    if name = "in_val" then (inVal index).toInt
    else if name = "in_len" then inLen index
    else if name = "out" then (out index).toInt
    else 0
  log := []

def loopInput (inVal out : Int → BitVec 32) : KernelMemory :=
  Memory.fresh fun
    | .inBuf => inVal
    | .outBuf => out

namespace SPNEDMicroCompiler

/-- `decode_loop(in_val, out, length)` leaves in `out` what the tree leaves there. -/
def PreservesOutput (compiler : SPNEDMicroCompiler) (length : BitVec 32)
    (inVal : Int → BitVec 32) (inLen : Int → Int) (out : Int → BitVec 32) : Prop :=
  ∃ path final,
    generateLlvmIr.Calls (copyArgs length) (loopInput inVal out) path (none, final) ∧
      ∀ index, (final.cells .outBuf index).toInt =
        (compiler.parseReeDecoder.run (treeInput inVal inLen out)).arrays "out" index

/-- The cells that a call is given: an element of `in_val` for each run, and the
capacity of `out`. -/
def bufferCells (compiler : SPNEDMicroCompiler) : KernelBuf → Int
  | .inBuf => compiler.batchSize
  | .outBuf => compiler.outCapacity

def StaysInBuffers (compiler : SPNEDMicroCompiler) (final : KernelMemory) : Prop :=
  ∀ event ∈ final.trace, 0 ≤ event.index ∧ event.index < compiler.bufferCells event.buf

/-- A batch whose size is a positive `i32` and whose runs are legal. -/
structure LegalBatch (compiler : SPNEDMicroCompiler) (length : BitVec 32)
    (inLen : Int → Int) : Prop where
  nonempty : 1 ≤ compiler.batchSize
  passed : length.toInt = compiler.batchSize
  runs : ∀ k : Nat, k < compiler.batchSize → 0 ≤ inLen k ∧ inLen k ≤ compiler.maxRunLen

variable {compiler : SPNEDMicroCompiler} {length : BitVec 32} {inLen : Int → Int}

theorem LegalBatch.decoderInput (legal : compiler.LegalBatch length inLen)
    (inVal out : Int → BitVec 32) : compiler.DecoderInput (treeInput inVal inLen out) := by
  obtain ⟨nonempty, -, runs⟩ := legal
  have first := runs 0 (by simp; omega)
  exact ⟨by omega, first.1.trans first.2, fun k below => (runs k below).2, rfl, rfl⟩

theorem LegalBatch.run_out (legal : compiler.LegalBatch length inLen)
    (inVal out : Int → BitVec 32) (index : Int) :
    (compiler.parseReeDecoder.run (treeInput inVal inLen out)).arrays "out" index =
      (writePrefix out (expansion inVal inLen compiler.batchSize.toNat) index).toInt := by
  have input := legal.decoderInput inVal out
  rw [(decoding_run compiler input.outIdx input.log).out, writePrefix_map BitVec.toInt,
    map_expansion]
  rfl

theorem LegalBatch.loop_calls (legal : compiler.LegalBatch length inLen)
    (inVal out : Int → BitVec 32) :
    ∃ path final,
      generateLlvmIr.Calls (copyArgs length) (loopInput inVal out) path (none, final) ∧
        Copied (loopInput inVal out) compiler.batchSize.toNat final := by
  obtain ⟨nonempty, passed, -⟩ := legal
  obtain ⟨path, calls⟩ := copyLoop_calls "decode_loop" length (loopInput inVal out)
  have roundsEq : BottomTestedLoop.rounds length = (compiler.batchSize.toNat : Int) := by
    rw [BottomTestedLoop.rounds_of_nonempty (by omega)]
    omega
  rw [roundsEq] at calls
  exact ⟨path, _, calls, copied_countedLoop _ _⟩

/-- A capacity of a cell for each run is what the copies need, and without it
already the first one has no room. -/
theorem LegalBatch.staysInBuffers_iff (legal : compiler.LegalBatch length inLen)
    {final : KernelMemory} (trace : final.trace = copyTrace compiler.batchSize.toNat) :
    compiler.StaysInBuffers final ↔ 1 ≤ compiler.maxRunLen := by
  have nonempty := legal.nonempty
  rw [StaysInBuffers, trace]
  constructor
  · intro stays
    have stored : Event.store .outBuf ((0 : Nat) : Int) ∈ copyTrace compiler.batchSize.toNat :=
      mem_copyTrace_iff.mpr ⟨0, by omega, Or.inr rfl⟩
    have room : 0 < compiler.batchSize * compiler.maxRunLen := (stays _ stored).2
    exact pos_of_mul_pos_right room (by omega)
  · intro capacity event member
    have copied := index_of_mem_copyTrace member
    refine ⟨copied.1, ?_⟩
    cases event.buf with
    | inBuf =>
        rw [bufferCells]
        omega
    | outBuf =>
        have room : compiler.batchSize ≤ compiler.outCapacity :=
          le_mul_of_one_le_right (by omega) capacity
        rw [bufferCells]
        omega

/-- Runs that decode to as many values as there are runs are not all empty. -/
theorem LegalBatch.one_le_maxRunLen (legal : compiler.LegalBatch length inLen)
    {inVal : Int → BitVec 32} (same : expansion inVal inLen compiler.batchSize.toNat =
      readPrefix inVal compiler.batchSize.toNat) : 1 ≤ compiler.maxRunLen := by
  have nonempty := legal.nonempty
  have total := expansion_length inVal inLen compiler.batchSize.toNat
  rw [same, readPrefix_length] at total
  have input := legal.decoderInput inVal fun _ => 0
  have atMost : sumRuns inLen compiler.batchSize.toNat ≤
      compiler.batchSize.toNat * compiler.maxRunLen :=
    sumRuns_le input.runLen fun row below => input.bounded row (by omega)
  have positive : 0 < compiler.batchSize.toNat * compiler.maxRunLen := by omega
  exact pos_of_mul_pos_right positive (by omega)

theorem LegalBatch.preservesOutput_iff (legal : compiler.LegalBatch length inLen)
    (inVal out : Int → BitVec 32) :
    compiler.PreservesOutput length inVal inLen out ↔
      writePrefix out (readPrefix inVal compiler.batchSize.toNat) =
        writePrefix out (expansion inVal inLen compiler.batchSize.toNat) := by
  obtain ⟨path, final, calls, copied⟩ := legal.loop_calls inVal out
  have output : final.cells .outBuf =
      writePrefix out (readPrefix inVal compiler.batchSize.toNat) := copied.output
  constructor
  · rintro ⟨path', final', calls', same⟩
    obtain rfl := Function.Calls.memory_eq calls calls'
    funext index
    have cell := same index
    rw [legal.run_out, output] at cell
    exact BitVec.eq_of_toInt_eq cell
  · intro same
    refine ⟨path, final, calls, ?_⟩
    intro index
    rw [legal.run_out, output, same]

/-- The emitted loop copies `in_val` and touches nothing else, inside the two
buffers as soon as runs may be of length one.  Over all contents of the output
this is what the tree does exactly when the decoded runs are `in_val` itself,
for which the capacity is never too small. -/
theorem generateLlvmIr_copies (compiler : SPNEDMicroCompiler) (length : BitVec 32)
    (inVal : Int → BitVec 32) (inLen : Int → Int)
    (legal : compiler.LegalBatch length inLen) :
    (∀ out, ∃ path final,
      generateLlvmIr.Calls (copyArgs length) (loopInput inVal out) path (none, final) ∧
        final.cells .outBuf = writePrefix out (readPrefix inVal compiler.batchSize.toNat) ∧
        final.trace = copyTrace compiler.batchSize.toNat ∧
        (compiler.StaysInBuffers final ↔ 1 ≤ compiler.maxRunLen)) ∧
      ((∀ out, compiler.PreservesOutput length inVal inLen out) ↔
        expansion inVal inLen compiler.batchSize.toNat =
          readPrefix inVal compiler.batchSize.toNat) ∧
      (expansion inVal inLen compiler.batchSize.toNat =
          readPrefix inVal compiler.batchSize.toNat → 1 ≤ compiler.maxRunLen) := by
  refine ⟨fun out => ?_, ⟨fun preserves => ?_, fun same out => ?_⟩, legal.one_le_maxRunLen⟩
  · obtain ⟨path, final, calls, copied⟩ := legal.loop_calls inVal out
    have trace : final.trace = copyTrace compiler.batchSize.toNat := copied.trace
    exact ⟨path, final, calls, copied.output, trace, legal.staysInBuffers_iff trace⟩
  · have : Nontrivial (BitVec 32) := ⟨0, 1, by decide⟩
    have same := eq_of_writePrefix_eq fun out =>
      (legal.preservesOutput_iff inVal out).mp (preserves out)
    exact same.symm
  · exact (legal.preservesOutput_iff inVal out).mpr (by rw [same])

/-- Two runs of length one. -/
theorem generateLlvmIr_copies_ones :
    (⟨2, 1⟩ : SPNEDMicroCompiler).LegalBatch 2 (fun _ => 1) ∧
      (⟨2, 1⟩ : SPNEDMicroCompiler).PreservesOutput 2 (fun _ => 7) (fun _ => 1) (fun _ => 0) ∧
      ∃ path final, generateLlvmIr.Calls (copyArgs 2) (loopInput (fun _ => 7) fun _ => 0) path
        (none, final) ∧ (⟨2, 1⟩ : SPNEDMicroCompiler).StaysInBuffers final := by
  have legal : (⟨2, 1⟩ : SPNEDMicroCompiler).LegalBatch 2 (fun _ => 1) :=
    ⟨by decide, by decide, fun _ _ => by decide⟩
  have copies := generateLlvmIr_copies ⟨2, 1⟩ 2 (fun _ => 7) (fun _ => 1) legal
  obtain ⟨path, final, calls, -, -, stays⟩ := copies.1 fun _ => 0
  exact ⟨legal, copies.2.1.mpr rfl fun _ => 0, path, final, calls, stays.mpr (le_refl 1)⟩

/-- One run of length two: the tree writes two cells, the emitted loop one. -/
theorem not_preservesOutput_two :
    ¬∀ (compiler : SPNEDMicroCompiler) (length : BitVec 32) (inVal : Int → BitVec 32)
      (inLen : Int → Int) (out : Int → BitVec 32), compiler.LegalBatch length inLen →
        compiler.PreservesOutput length inVal inLen out := by
  intro always
  have legal : (⟨1, 2⟩ : SPNEDMicroCompiler).LegalBatch 1 (fun _ => 2) :=
    ⟨by decide, by decide, fun _ _ => by decide⟩
  have same := (legal.preservesOutput_iff (fun _ => 7) fun _ => 0).mp
    (always ⟨1, 2⟩ 1 (fun _ => 7) (fun _ => 2) (fun _ => 0) legal)
  exact absurd (congrFun same 1) (by decide)

end SPNEDMicroCompiler

end Spned.MicroCompiler
