import Spned.CompactionLoop
import Spned.GuardedLoop

/-!
# The native baselines and their bounds-checked versions

`measure` of `exp1_baselines.cpp` (generated by `exp1_eval.py`) and `main` of
`exp1_native.cpp`.  The eBPF-compliant loops compare their indices with
`BOUND`, a volatile copy of `TOTAL`, before each round and leave the loop when
one has reached it.  The cursor never passes the counter, so no check succeeds.
-/

namespace Spned.Kernels

open CountedLoop GuardedLoop TracedMemory WrittenPrefix StableFilter

/-- `in[i] < 10`. -/
def belowTen (value : BitVec 32) : Bool :=
  value.slt 10

/-- Mode `"native_seq"` of `measure`, and the first loop of `exp1_native.cpp`. -/
def nativeSeq (total : BitVec 64) (memory : KernelMemory) : KernelMemory :=
  countedLoop 0 total.toNat copyElement memory

/-- Mode `"native_sel"`: the final `out_idx` and memory. -/
def nativeSel (total : BitVec 64) (memory : KernelMemory) : BitVec 64 × KernelMemory :=
  countedLoop 0 total.toNat (compactElement belowTen sizePosition) (0, memory)

/-- Mode `"ebpf_seq"`, and the second loop of `exp1_native.cpp`. -/
def ebpfSeq (total bound : BitVec 64) (memory : KernelMemory) : LoopExit KernelMemory :=
  guardedLoop 0 total.toNat (fun i _ => decide ((bound.toNat : Int) ≤ i)) copyElement memory

/-- Mode `"ebpf_sel"`. -/
def ebpfSel (total bound : BitVec 64) (memory : KernelMemory) :
    LoopExit (BitVec 64 × KernelMemory) :=
  guardedLoop 0 total.toNat
    (fun i state => decide ((bound.toNat : Int) ≤ i) || bound.ule state.1)
    (compactElement belowTen sizePosition) (0, memory)

/-- The volatile `sink` reads `out[TOTAL-1]`, a `size_t` index. -/
def readSink (total : BitVec 64) (memory : KernelMemory) : KernelMemory :=
  memory.load .outBuf (sizePosition (total - 1))

/-- `main` of `exp1_native.cpp`: the exit code and the final memory.  The
checked loop runs over the output of the native one. -/
def nativeMain (total : BitVec 64) (memory : KernelMemory) : Int × KernelMemory :=
  let memory := readSink total (nativeSeq total memory)
  let bound := total
  match ebpfSeq total bound memory with
  | .broken _ memory => (1, memory)
  | .completed memory => (0, readSink total memory)

/-- The accesses of `main`. -/
def mainTrace (total : BitVec 64) : List (Event KernelBuf) :=
  let sink : Event KernelBuf := .load .outBuf (sizePosition (total - 1))
  copyTrace total.toNat ++ [sink] ++ (copyTrace total.toNat ++ [sink])

/-! ## What the native loops leave -/

variable {total : BitVec 64} {cells : KernelBuf → Int → BitVec 32}

def InsideVectors (total : BitVec 64) (memory : KernelMemory) : Prop :=
  ∀ event ∈ memory.trace, 0 ≤ event.index ∧ event.index < total.toNat

/-- `out` equals `in` and nothing else has changed. -/
structure CopiesInput (total : BitVec 64) (cells : KernelBuf → Int → BitVec 32)
    (final : KernelMemory) : Prop where
  copied : ∀ index : Nat, index < total.toNat →
    final.cells .outBuf index = cells .inBuf index
  rest : ∀ index : Int, index < 0 ∨ total.toNat ≤ index →
    final.cells .outBuf index = cells .outBuf index
  inside : InsideVectors total final

/-- The elements below ten stand at the front of `out`, in input order, and
`out_idx` counts them. -/
structure FiltersInput (total : BitVec 64) (cells : KernelBuf → Int → BitVec 32)
    (final : BitVec 64 × KernelMemory) : Prop where
  count : final.1.toNat =
    ((readPrefix (cells .inBuf) total.toNat).filter belowTen).length
  front : readPrefix (final.2.cells .outBuf) final.1.toNat =
    (readPrefix (cells .inBuf) total.toNat).filter belowTen
  rest : ∀ index : Int, index < 0 ∨ final.1.toNat ≤ index →
    final.2.cells .outBuf index = cells .outBuf index
  inside : InsideVectors total final.2

theorem Copied.copiesInput {final : KernelMemory}
    (copied : Copied (Memory.fresh cells) total.toNat final) : CopiesInput total cells final where
  copied := fun _ below => copied.output_of_lt below
  rest := fun _ outside => copied.output_of_outside outside
  inside := copied.inside

theorem Compacting.filtersInput {final : BitVec 64 × KernelMemory}
    (compacting : Compacting belowTen sizePosition cells total.toNat final) :
    FiltersInput total cells final where
  count := Int.ofNat_inj.mp compacting.compacted.cursor_eq
  front := compacting.compacted.read_front
  rest := fun _ outside => compacting.compacted.outside outside
  inside := compacting.inside

theorem nativeSeq_copied (total : BitVec 64) (memory : KernelMemory) :
    Copied memory total.toNat (nativeSeq total memory) :=
  copied_countedLoop memory total.toNat

theorem nativeSeq_copiesInput (total : BitVec 64) (cells : KernelBuf → Int → BitVec 32) :
    CopiesInput total cells (nativeSeq total (Memory.fresh cells)) :=
  (nativeSeq_copied total (Memory.fresh cells)).copiesInput

theorem nativeSel_filtersInput (total : BitVec 64) (cells : KernelBuf → Int → BitVec 32) :
    FiltersInput total cells (nativeSel total (Memory.fresh cells)) :=
  (compacting_countedLoop counts_size (by omega)).filtersInput

/-! ## The checks are dead -/

theorem ebpfSeq_eq_completed (total : BitVec 64) (memory : KernelMemory) :
    ebpfSeq total total memory = .completed (nativeSeq total memory) := by
  apply guardedLoop_eq_completed fun _ _ => True
  · trivial
  · intro i _ _ below _
    exact decide_eq_false (by omega)
  · intros
    trivial

/-- The state of `ebpf_sel` before each round is one of `native_sel`, whose
cursor is at most the counter. -/
theorem ebpfSel_eq_completed (total : BitVec 64) (cells : KernelBuf → Int → BitVec 32) :
    ebpfSel total total (Memory.fresh cells) =
      .completed (nativeSel total (Memory.fresh cells)) := by
  have bounded := total.isLt
  apply guardedLoop_eq_completed
    (fun i state => Compacting belowTen sizePosition cells i.toNat state)
  · exact .start counts_size
  · intro i state above below compacting
    have cursor := compacting.compacted.cursor_bounds
    unfold sizePosition at cursor
    have counterBelow : decide ((total.toNat : Int) ≤ i) = false := decide_eq_false (by omega)
    have cursorBelow : total.ule state.1 = false := by
      rw [BitVec.ule, decide_eq_false_iff_not]
      omega
    rw [counterBelow, cursorBelow]
    rfl
  · intro i state above below compacting
    have next := compacting.next counts_size (by omega)
    have counter : ((i.toNat : Nat) : Int) = i := by omega
    have advanced : (i + 1).toNat = i.toNat + 1 := by omega
    rwa [counter, ← advanced] at next

/-- The second copy finds its output already there. -/
theorem cells_nativeSeq_again {memory middle : KernelMemory}
    (same : middle.cells = (nativeSeq total memory).cells) :
    (nativeSeq total middle).cells = (nativeSeq total memory).cells := by
  have once := nativeSeq_copied total memory
  have twice := nativeSeq_copied total middle
  have input : middle.cells .inBuf = memory.cells .inBuf := same ▸ once.input
  have output : middle.cells .outBuf =
      writePrefix (memory.cells .outBuf) (readPrefix (memory.cells .inBuf) total.toNat) :=
    same ▸ once.output
  funext buf
  cases buf with
  | inBuf => rw [twice.input, input, once.input]
  | outBuf => rw [twice.output, input, output, writePrefix_writePrefix _ rfl, once.output]

theorem nativeMain_eq (total : BitVec 64) (cells : KernelBuf → Int → BitVec 32) :
    nativeMain total (Memory.fresh cells) =
      (0, ⟨(nativeSeq total (Memory.fresh cells)).cells, mainTrace total⟩) := by
  let middle := readSink total (nativeSeq total (Memory.fresh cells))
  have once := nativeSeq_copied total (Memory.fresh cells)
  have twice := nativeSeq_copied total middle
  have again : (nativeSeq total middle).cells = (nativeSeq total (Memory.fresh cells)).cells :=
    cells_nativeSeq_again rfl
  have middleTrace : middle.trace =
      copyTrace total.toNat ++ [.load .outBuf (sizePosition (total - 1))] := by
    rw [← once.trace_eq]
    rfl
  have trace : (readSink total (nativeSeq total middle)).trace = mainTrace total := by
    rw [readSink, Memory.trace_load, twice.trace, middleTrace, List.append_assoc]
    rfl
  have returns : nativeMain total (Memory.fresh cells) =
      (0, readSink total (nativeSeq total middle)) := by
    simp only [nativeMain, ebpfSeq_eq_completed, middle]
  rw [returns, ← trace, ← again]
  rfl

/-- The reads of the last element are the only accesses of `main` that need one. -/
theorem mainTrace_inside_iff (total : BitVec 64) :
    (∀ event ∈ mainTrace total, 0 ≤ event.index ∧ event.index < total.toNat) ↔
      1 ≤ total.toNat := by
  have last : 0 ≤ sizePosition (total - 1) ∧
      (sizePosition (total - 1) < total.toNat ↔ 1 ≤ total.toNat) := by
    have one : (1 : BitVec 64).toNat = 1 := rfl
    have bounded := total.isLt
    rw [sizePosition, BitVec.toNat_sub, one]
    omega
  constructor
  · intro inside
    have sink := inside (.load .outBuf (sizePosition (total - 1))) (by simp [mainTrace])
    exact last.2.mp sink.2
  · intro positive event member
    simp only [mainTrace, List.mem_append, List.mem_singleton] at member
    rcases member with (copied | rfl) | copied | rfl
    · exact index_of_mem_copyTrace copied
    · exact ⟨last.1, last.2.mpr positive⟩
    · exact index_of_mem_copyTrace copied
    · exact ⟨last.1, last.2.mpr positive⟩

/-- With `BOUND = TOTAL` no check of the bounds-checked loops succeeds: they end
like the native loops, which leave the stable filter and the copy of the input.
The process that runs both sequential loops never takes its early return; its
reads of the last element need one. -/
theorem ebpf_matches_native (total : BitVec 64) (cells : KernelBuf → Int → BitVec 32) :
    ebpfSel total total (Memory.fresh cells) =
        .completed (nativeSel total (Memory.fresh cells)) ∧
      FiltersInput total cells (nativeSel total (Memory.fresh cells)) ∧
      ebpfSeq total total (Memory.fresh cells) =
        .completed (nativeSeq total (Memory.fresh cells)) ∧
      CopiesInput total cells (nativeSeq total (Memory.fresh cells)) ∧
      nativeMain total (Memory.fresh cells) =
        (0, ⟨(nativeSeq total (Memory.fresh cells)).cells, mainTrace total⟩) ∧
      (InsideVectors total (nativeMain total (Memory.fresh cells)).2 ↔ 1 ≤ total.toNat) := by
  refine ⟨ebpfSel_eq_completed total cells, nativeSel_filtersInput total cells,
    ebpfSeq_eq_completed total _, nativeSeq_copiesInput total cells, nativeMain_eq total cells, ?_⟩
  rw [nativeMain_eq]
  exact mainTrace_inside_iff total

end Spned.Kernels
