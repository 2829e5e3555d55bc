import Spned.BottomTestedLoop
import Spned.SsaFunction
import Spned.WrittenPrefix

/-!
# The emitted copy loop

`emit_sequential_ir` of `spned_unified_toolchain.py` and `generate_llvm_ir` of
`spned_micro_compiler.py` emit the same function under two names.  Its loop
block is entered without a test, so the loop makes one round even when the
length is not positive.
-/

namespace Spned.Kernels

open CountedLoop TracedMemory DeterministicRun Ssa WrittenPrefix

/-- The two disjoint vectors that a caller hands over. -/
inductive KernelBuf where
  | inBuf
  | outBuf
  deriving DecidableEq

abbrev KernelMemory := Memory KernelBuf (BitVec 32)

inductive CopyReg where
  | inArg
  | outArg
  | length
  | i
  | inPtr
  | val
  | outPtr
  | nextI
  | cond
  deriving DecidableEq

inductive CopyLabel where
  | entry
  | loop
  | exitBlk
  deriving DecidableEq

def copyLoopFunction (name : String) : Ssa.Function CopyReg CopyLabel where
  name := name
  params := [.inArg, .outArg, .length]
  entry := .entry
  blocks
    | .entry => { phis := [], body := [], terminator := .br .loop }
    | .loop =>
        { phis := [⟨.i, [(.entry, .const 0), (.loop, .reg .nextI)]⟩]
          body :=
            [.gep .inPtr (.reg .inArg) (.reg .i),
              .load .val (.reg .inPtr),
              .gep .outPtr (.reg .outArg) (.reg .i),
              .store (.reg .val) (.reg .outPtr),
              .add .nextI (.reg .i) (.const 1),
              .icmpSlt .cond (.reg .nextI) (.reg .length)]
          terminator := .cbranch (.reg .cond) .loop .exitBlk }
    | .exitBlk => { phis := [], body := [], terminator := .retVoid }

/-- The module that `SPNEDUnifiedCompiler` writes to `spned_seq.ll`. -/
def emitSequentialIr : Ssa.Function CopyReg CopyLabel :=
  copyLoopFunction "decode_seq"

/-- The module that `SPNEDMicroCompiler` writes to `spned_loop.ll`. -/
def generateLlvmIr : Ssa.Function CopyReg CopyLabel :=
  copyLoopFunction "decode_loop"

/-- The arguments `(in, out, length)` of a call. -/
def copyArgs (length : BitVec 32) : List (Value KernelBuf) :=
  [.ptr .inBuf 0, .ptr .outBuf 0, .i32 length]

/-- `out[index] = in[index]`. -/
def copyElement (index : Int) (memory : KernelMemory) : KernelMemory :=
  (memory.load .inBuf index).store .outBuf index (memory.read .inBuf index)

/-! ## What the rounds leave -/

def copyTrace (done : Nat) : List (Event KernelBuf) :=
  (List.range done).flatMap fun index : Nat => [.load .inBuf index, .store .outBuf index]

theorem copyTrace_succ (done : Nat) :
    copyTrace (done + 1) = copyTrace done ++ [.load .inBuf done, .store .outBuf done] := by
  simp [copyTrace, List.range_succ]

theorem mem_copyTrace_iff {done : Nat} {event : Event KernelBuf} :
    event ∈ copyTrace done ↔ ∃ index : Nat, index < done ∧
      (event = .load .inBuf index ∨ event = .store .outBuf index) := by
  simp [copyTrace]

theorem index_of_mem_copyTrace {done : Nat} {event : Event KernelBuf}
    (member : event ∈ copyTrace done) : 0 ≤ event.index ∧ event.index < done := by
  obtain ⟨index, below, either⟩ := mem_copyTrace_iff.mp member
  have indexEq : event.index = index := by
    rcases either with rfl | rfl <;> rfl
  omega

theorem countP_copyTrace (done : Nat) : (copyTrace done).countP Event.isStore = done := by
  induction done with
  | zero => rfl
  | succ done ih => simp [copyTrace_succ, List.countP_append, ih, Event.isStore]

/-- The memory after the first `done` elements of `before` have been copied. -/
structure Copied (before : KernelMemory) (done : Nat) (memory : KernelMemory) : Prop where
  input : memory.cells .inBuf = before.cells .inBuf
  output : memory.cells .outBuf =
    writePrefix (before.cells .outBuf) (readPrefix (before.cells .inBuf) done)
  trace : memory.trace = before.trace ++ copyTrace done

theorem Copied.next {before memory : KernelMemory} {done : Nat}
    (copied : Copied before done memory) :
    Copied before (done + 1) (copyElement done memory) := by
  obtain ⟨input, output, trace⟩ := copied
  constructor
  · rw [copyElement, Memory.cells_store_of_ne _ (by decide), Memory.cells_load, input]
  · have appended := writePrefix_append_singleton (before.cells .outBuf)
      (readPrefix (before.cells .inBuf) done) (before.cells .inBuf done)
    rw [readPrefix_length] at appended
    rw [copyElement, Memory.cells_store_same, Memory.cells_load, Memory.read, input, output,
      readPrefix_succ, appended]
  · simp [copyElement, trace, copyTrace_succ]

theorem copied_countedLoop (before : KernelMemory) (done : Nat) :
    Copied before done (countedLoop 0 done copyElement before) := by
  apply countedLoop_rounds (Copied before)
  · constructor <;> simp [copyTrace]
  · intro done _ memory copied
    exact copied.next

theorem Copied.output_of_lt {before memory : KernelMemory} {done index : Nat}
    (copied : Copied before done memory) (below : index < done) :
    memory.cells .outBuf index = before.cells .inBuf index := by
  rw [copied.output, writePrefix_of_lt _ _ (by simpa using below)]
  simp [readPrefix]

theorem Copied.output_of_outside {before memory : KernelMemory} {done : Nat} {index : Int}
    (copied : Copied before done memory) (outside : index < 0 ∨ done ≤ index) :
    memory.cells .outBuf index = before.cells .outBuf index := by
  rw [copied.output, writePrefix_of_outside _ _ (by simpa using outside)]

section Fresh

variable {cells : KernelBuf → Int → BitVec 32} {memory : KernelMemory} {done : Nat}

theorem Copied.trace_eq (copied : Copied (Memory.fresh cells) done memory) :
    memory.trace = copyTrace done := by
  rw [copied.trace, Memory.trace_fresh, List.nil_append]

theorem Copied.inside (copied : Copied (Memory.fresh cells) done memory) :
    ∀ event ∈ memory.trace, 0 ≤ event.index ∧ event.index < done := by
  intro event member
  rw [copied.trace_eq] at member
  exact index_of_mem_copyTrace member

end Fresh

/-! ## One round -/

structure CopyLoopRegs (length i : BitVec 32) (regs : Registers CopyReg KernelBuf) : Prop where
  inArg : regs .inArg = some (.ptr .inBuf 0)
  outArg : regs .outArg = some (.ptr .outBuf 0)
  length : regs .length = some (.i32 length)
  i : regs .i = some (.i32 i)

variable {name : String} {length : BitVec 32}

/-- About to execute the loop block with counter `i`. -/
def AtCopyLoop (name : String) (length i : BitVec 32) (memory : KernelMemory)
    (config : Config CopyReg CopyLabel KernelBuf) : Prop :=
  ∃ regs, CopyLoopRegs length i regs ∧
    config = ⟨.loop, ((copyLoopFunction name).blocks .loop).body, regs, memory⟩

theorem copyLoop_body {i : BitVec 32} {regs : Registers CopyReg KernelBuf}
    (entered : CopyLoopRegs length i regs) (memory : KernelMemory) :
    ∃ regs', execBody ((copyLoopFunction name).blocks .loop).body regs memory =
        some (regs', copyElement i.toInt memory) ∧
      CopyLoopRegs length i regs' ∧
      regs' .nextI = some (.i32 (i + 1)) ∧
      regs' .cond = some (.i1 ((i + 1).slt length)) := by
  obtain ⟨inArg, outArg, lengthArg, counter⟩ := entered
  refine ⟨_, by
    simp [copyLoopFunction, execBody, Instr.exec, Operand.eval, inArg, outArg, lengthArg,
      counter, copyElement]
    rfl, ?_, ?_, ?_⟩
  · constructor <;> simp [inArg, outArg, lengthArg, counter]
  · simp
  · simp

theorem copyLoop_round {i : BitVec 32} {memory : KernelMemory}
    {config : Config CopyReg CopyLabel KernelBuf}
    (reached : AtCopyLoop name length i memory config) (continues : (i + 1).slt length = true) :
    ∃ segment next, Path (copyLoopFunction name).step config segment next ∧
      AtCopyLoop name length (i + 1) (copyElement i.toInt memory) next := by
  obtain ⟨regs, entered, rfl⟩ := reached
  obtain ⟨regs', executes, kept, nextI, cond⟩ := copyLoop_body entered memory
  rw [continues] at cond
  have back : enterPhis .loop regs' ((copyLoopFunction name).blocks .loop).phis regs' =
      some (Function.update regs' .i (some (.i32 (i + 1)))) :=
    enterPhis_cons rfl nextI
  have edge : (copyLoopFunction name).step ⟨.loop, [], regs', copyElement i.toInt memory⟩ = _ :=
    (copyLoopFunction name).step_cbranch rfl cond back
  refine ⟨_, _, ((copyLoopFunction name).body_path .loop executes).append
    (.advance edge (.refl _)), _, ?_, rfl⟩
  constructor <;> simp [kept.inArg, kept.outArg, kept.length]

theorem copyLoop_exit {i : BitVec 32} {memory : KernelMemory}
    {config : Config CopyReg CopyLabel KernelBuf}
    (reached : AtCopyLoop name length i memory config) (ends : (i + 1).slt length = false) :
    ∃ segment, Run (copyLoopFunction name).step config segment
      (none, copyElement i.toInt memory) := by
  obtain ⟨regs, entered, rfl⟩ := reached
  obtain ⟨regs', executes, -, -, cond⟩ := copyLoop_body entered memory
  rw [ends] at cond
  have edge : (copyLoopFunction name).step ⟨.loop, [], regs', copyElement i.toInt memory⟩ = _ :=
    (copyLoopFunction name).step_cbranch rfl cond rfl
  exact ⟨_, ((copyLoopFunction name).body_path .loop executes).run
    (.advance edge (.finish rfl))⟩

/-! ## The whole call -/

theorem copyLoop_enters (length : BitVec 32) (memory : KernelMemory) :
    ∃ config, (copyLoopFunction name).step
        ((copyLoopFunction name).start (copyArgs length) memory) = some (.inl config) ∧
      AtCopyLoop name length 0 memory config := by
  refine ⟨_, (copyLoopFunction name).step_br rfl (enterPhis_cons rfl rfl), _, ?_, rfl⟩
  constructor <;> rfl

theorem copyLoop_realizes (name : String) (length : BitVec 32) (memory : KernelMemory) :
    BottomTestedLoop.Realizes (copyLoopFunction name).step length copyElement memory
      (AtCopyLoop name length) (fun _ _ => True) (fun final => (none, final)) where
  nil := trivial
  append := fun _ _ => trivial
  round := fun i state config _ _ _ reached continues => by
    obtain ⟨segment, next, moves, arrived⟩ := copyLoop_round reached continues
    exact ⟨segment, next, moves, trivial, arrived⟩
  exit := fun i state config _ _ _ reached ends => by
    obtain ⟨segment, returns⟩ := copyLoop_exit reached ends
    exact ⟨segment, returns, trivial⟩

/-- Every call returns, having copied one element in each round. -/
theorem copyLoop_calls (name : String) (length : BitVec 32) (memory : KernelMemory) :
    ∃ path, (copyLoopFunction name).Calls (copyArgs length) memory path
      (none, countedLoop 0 (BottomTestedLoop.rounds length) copyElement memory) := by
  obtain ⟨head, enters, entered⟩ := copyLoop_enters length memory
  obtain ⟨path, returns, -⟩ := (copyLoop_realizes name length memory).run entered
  exact ⟨_, .advance enters returns⟩

end Spned.Kernels
