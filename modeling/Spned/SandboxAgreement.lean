import Spned.SelectiveKernel
import Spned.WasmBench

/-!
# The sandbox against the emitted kernels

The WebAssembly functions work on words of one linear memory, the emitted
functions on two vectors.  On vectors that hold what the arrays in the memory
hold, both return the same count and leave the same elements.
-/

namespace Spned.WasmWorker

open LinearMemory TracedMemory WrittenPrefix StableFilter Ssa Kernels

/-- The elements of the two arrays of a call, as the cells of two vectors. -/
def vectors (call : DecodeCall) (memory : LinearMemory.Memory) : KernelBuf → Int → BitVec 32
  | .inBuf, index => (memory.array call.input.toNat index).value
  | .outBuf, index => (memory.array call.output.toNat index).value

variable {call : DecodeCall} {memory : LinearMemory.Memory}

/-- The same result of a call in the sandbox and of an emitted function. -/
structure SameElements (call : DecodeCall) (final : LinearMemory.Memory) (jit : KernelMemory) :
    Prop where
  output : ∀ index : Nat, index < call.len.toNat →
    vectors call final .outBuf index = jit.cells .outBuf index
  input : ∀ index : Nat, index < call.len.toNat →
    vectors call final .inBuf index = jit.cells .inBuf index

theorem readPrefix_value (cells : Int → Word) (length : Nat) :
    readPrefix (fun index => (cells index).value) length =
      (readPrefix cells length).map Word.value := by
  simp [readPrefix]

theorem map_kept (pred : BitVec 32) (cells : Int → Word) (length : Nat) :
    (kept (isBelow pred) cells length).map Word.value =
      keptValues pred (fun index => (cells index).value) length := by
  rw [keptValues, kept, kept, readPrefix_value, List.filter_map]
  rfl

theorem sameElements_of_copied
    (arrays : DisjointArrays call.input call.output call.len.toNat memory.size)
    {jit : KernelMemory} (copied : Copied (Memory.fresh (vectors call memory)) call.len.toNat jit) :
    SameElements call
      (moved memory call.input.toNat call.output.toNat (4 * call.len.toNat)) jit where
  output := fun index below => by
    rw [copied.output_of_lt below]
    exact congrArg Word.value (array_moved below)
  input := fun index below => by
    rw [copied.input]
    exact congrArg Word.value (array_moved_source arrays.disjoint below)

/-- Compacting the words and compacting their values lead to the same cursor and
the same elements. -/
theorem sameElements_of_selected {pred : BitVec 32}
    (arrays : DisjointArrays call.input call.output call.len.toNat memory.size)
    {words : BitVec 32 × LinearMemory.Memory} {jit : BitVec 32 × KernelMemory}
    (selecting : Selecting (isBelow pred) call.input.toNat call.output.toNat memory
      call.len.toNat words)
    (selected : Selected pred (vectors call memory) call.len.toNat jit) :
    jit.1 = words.1 ∧ SameElements call words.2 jit.2 := by
  obtain ⟨-, -, disjoint, -⟩ := arrays
  obtain ⟨-, compacted, frame⟩ := selecting
  have bounds := compacted.cursor_bounds
  have same := map_kept pred (memory.array call.input.toNat) call.len.toNat
  refine ⟨?_, fun index _ => ?_, fun index below => ?_⟩
  · apply BitVec.eq_of_toInt_eq
    have lengths := congrArg List.length same
    rw [List.length_map] at lengths
    rw [selected.compacted.cursor_eq, compacted.cursor_eq]
    exact congrArg Nat.cast lengths.symm
  · calc vectors call words.2 .outBuf index
        = (writePrefix (memory.array call.output.toNat)
            (kept (isBelow pred) (memory.array call.input.toNat) call.len.toNat) index).value :=
          congrArg Word.value (congrFun compacted.output_eq index)
      _ = writePrefix (vectors call memory .outBuf)
            (keptValues pred (vectors call memory .inBuf) call.len.toNat) index := by
          rw [writePrefix_map Word.value, same]
          rfl
      _ = jit.2.cells .outBuf index := by
          rw [selected.compacted.output_eq, keptValues]
  · have source : words.2.array call.input.toNat index =
        memory.array call.input.toNat index := by
      rw [LinearMemory.Memory.array_natCast, LinearMemory.Memory.array_natCast]
      exact LinearMemory.Memory.word_congr fun byte inWord => frame _ (by omega)
    rw [selected.input]
    exact congrArg Word.value source

/-- Neither call traps in the sandbox, and both agree with the emitted functions
on the vectors. -/
structure MatchesJit (call : DecodeCall) (pred : BitVec 32) (memory : LinearMemory.Memory) :
    Prop where
  sequential : ∃ final path jit, call.run memory = some final ∧
    emitSequentialIr.Calls (copyArgs call.len) (Memory.fresh (vectors call memory)) path
      (none, jit) ∧ SameElements call final jit
  selective : ∃ k final path jit, call.runSel pred memory = some (k, final) ∧
    emitSelectiveIr.Calls (selectArgs call.len pred) (Memory.fresh (vectors call memory)) path
      (some (.i32 k), jit) ∧ SameElements call final jit

/-- On disjoint arrays the two agree, from the first element on. -/
theorem sandbox_matches_jit (nonempty : 1 ≤ call.len.toInt)
    (arrays : DisjointArrays call.input call.output call.len.toNat memory.size)
    (pred : BitVec 32) : MatchesJit call pred memory := by
  have lenInt : call.len.toInt = call.len.toNat :=
    BitVec.toInt_eq_toNat_of_lt (BitVec.toInt_pos_iff.mp (by omega))
  have upper := call.len.toInt_lt
  have rounds := BottomTestedLoop.rounds_of_nonempty nonempty
  rw [lenInt] at rounds
  constructor
  · obtain ⟨path, calls⟩ :=
      copyLoop_calls "decode_seq" call.len (Memory.fresh (vectors call memory))
    rw [rounds] at calls
    refine ⟨_, path, _, ?_, calls, sameElements_of_copied arrays (copied_countedLoop _ _)⟩
    rw [DecodeCall.run, lenInt, copyWords_eq_moved arrays]
  · obtain ⟨path, calls, -⟩ :=
      select_calls call.len pred (Memory.fresh (vectors call memory))
    rw [rounds] at calls
    obtain ⟨⟨k, final⟩, selects, selecting⟩ :=
      @selectWords_selects (isBelow pred) call.input call.output _ memory arrays
    obtain ⟨count, same⟩ := sameElements_of_selected arrays selecting
      (selected_countedLoop pred (Memory.fresh (vectors call memory)) call.len.toNat (by omega))
    rw [count] at calls
    refine ⟨k, final, path, _, ?_, calls, same⟩
    rw [DecodeCall.runSel, lenInt, selects]

/-- Two elements in a memory of one page. -/
theorem sandbox_matches_jit_two : MatchesJit ⟨0, 8, 2⟩ 10 ⟨65536, fun _ => 0⟩ :=
  sandbox_matches_jit (by decide) ⟨by decide, by decide, by decide, by decide⟩ 10

end Spned.WasmWorker
