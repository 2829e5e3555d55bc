import Spned.CopyKernel
import Spned.StableFilter

/-!
# The emitted selective scan

`emit_selective_ir` of `spned_unified_toolchain.py`.  The block `match` is
skipped for an element that fails the predicate; the block `cont` merges the
two values of the output index and tests the counter after the body.
-/

namespace Spned.Kernels

open CountedLoop TracedMemory DeterministicRun Ssa WrittenPrefix StableFilter

inductive SelReg where
  | inBuf
  | outBuf
  | length
  | pred
  | i
  | outIdx
  | inPtr
  | val
  | cmpRes
  | outPtr
  | nextOutIdx
  | phiOutIdx
  | nextI
  | cond
  deriving DecidableEq

inductive SelLabel where
  | entry
  | loop
  | matchBlk
  | cont
  | exitBlk
  deriving DecidableEq

/-- The module that `SPNEDUnifiedCompiler` writes to `spned_sel.ll`. -/
def emitSelectiveIr : Ssa.Function SelReg SelLabel where
  name := "decode_sel"
  params := [.inBuf, .outBuf, .length, .pred]
  entry := .entry
  blocks
    | .entry => { phis := [], body := [], terminator := .br .loop }
    | .loop =>
        { phis :=
            [⟨.i, [(.entry, .const 0), (.cont, .reg .nextI)]⟩,
              ⟨.outIdx, [(.entry, .const 0), (.cont, .reg .phiOutIdx)]⟩]
          body :=
            [.gep .inPtr (.reg .inBuf) (.reg .i),
              .load .val (.reg .inPtr),
              .icmpSlt .cmpRes (.reg .val) (.reg .pred)]
          terminator := .cbranch (.reg .cmpRes) .matchBlk .cont }
    | .matchBlk =>
        { phis := []
          body :=
            [.gep .outPtr (.reg .outBuf) (.reg .outIdx),
              .store (.reg .val) (.reg .outPtr),
              .add .nextOutIdx (.reg .outIdx) (.const 1)]
          terminator := .br .cont }
    | .cont =>
        { phis := [⟨.phiOutIdx, [(.matchBlk, .reg .nextOutIdx), (.loop, .reg .outIdx)]⟩]
          body :=
            [.add .nextI (.reg .i) (.const 1),
              .icmpSlt .cond (.reg .nextI) (.reg .length)]
          terminator := .cbranch (.reg .cond) .loop .exitBlk }
    | .exitBlk => { phis := [], body := [], terminator := .ret (.reg .phiOutIdx) }

/-- The arguments `(in, out, length, pred)` of a call. -/
def selectArgs (length pred : BitVec 32) : List (Value KernelBuf) :=
  [.ptr .inBuf 0, .ptr .outBuf 0, .i32 length, .i32 pred]

abbrev SelConfig := Config SelReg SelLabel KernelBuf

/-- Output index and memory after the round for the element at `index`. -/
def selectElement (pred : BitVec 32) (index : Int) (state : BitVec 32 × KernelMemory) :
    BitVec 32 × KernelMemory :=
  let value := state.2.read .inBuf index
  let loaded := state.2.load .inBuf index
  if value.slt pred then (state.1 + 1, loaded.store .outBuf state.1.toInt value)
  else (state.1, loaded)

/-! ## What a configuration may do -/

/-- The loop block is about to be executed from its first instruction. -/
def startsIteration (config : SelConfig) : Bool :=
  decide (config.label = .loop) && decide (config.rest = (emitSelectiveIr.blocks .loop).body)

/-- The next instruction, should it access memory or add, is harmless in a run
over `rounds` elements: a load is from the elements of the input, a store is
not ahead of the counter, and an addition does not wrap. -/
def SafePoint (rounds : Int) (config : SelConfig) : Prop :=
  match config.rest with
  | .load _ address :: _ =>
      ∃ index, address.eval config.regs = some (.ptr .inBuf index) ∧ 0 ≤ index ∧ index < rounds
  | .store _ address :: _ =>
      ∃ index i, address.eval config.regs = some (.ptr .outBuf index) ∧
        config.regs .i = some (.i32 i) ∧ 0 ≤ index ∧ index ≤ i.toInt ∧ i.toInt < rounds
  | .add _ left right :: _ =>
      ∃ x y, left.eval config.regs = some (.i32 x) ∧ right.eval config.regs = some (.i32 y) ∧
        (x + y).toInt = x.toInt + y.toInt
  | _ => True

/-- A stretch of a run: every configuration is safe, and `iterations` of them
start an iteration. -/
structure SafeHistory (rounds : Int) (iterations : Nat) (path : List SelConfig) : Prop where
  safe : ∀ config ∈ path, SafePoint rounds config
  count : path.countP startsIteration = iterations

theorem SafeHistory.nil (rounds : Int) : SafeHistory rounds 0 [] :=
  ⟨fun _ member => absurd member List.not_mem_nil, rfl⟩

theorem SafeHistory.append {rounds : Int} {before after : Nat} {path rest : List SelConfig}
    (first : SafeHistory rounds before path) (second : SafeHistory rounds after rest) :
    SafeHistory rounds (before + after) (path ++ rest) where
  safe := fun config member =>
    (List.mem_append.mp member).elim (first.safe config) (second.safe config)
  count := by rw [List.countP_append, first.count, second.count]

theorem SafeHistory.terminator (rounds : Int) (label : SelLabel)
    (regs : Registers SelReg KernelBuf) (memory : KernelMemory) :
    SafeHistory rounds 0 [⟨label, [], regs, memory⟩] where
  safe := fun config member => by
    rw [List.mem_singleton.mp member]
    trivial
  count := by simp [startsIteration, emitSelectiveIr]

/-! ## The blocks -/

variable {length pred i outIdx : BitVec 32} {rounds : Int}

structure SelectRegs (length pred i outIdx : BitVec 32) (regs : Registers SelReg KernelBuf) :
    Prop where
  inBuf : regs .inBuf = some (.ptr .inBuf 0)
  outBuf : regs .outBuf = some (.ptr .outBuf 0)
  length : regs .length = some (.i32 length)
  pred : regs .pred = some (.i32 pred)
  i : regs .i = some (.i32 i)
  outIdx : regs .outIdx = some (.i32 outIdx)

/-- What the iteration with counter `i` relies on not to wrap. -/
structure WithinRounds (rounds : Int) (i outIdx : BitVec 32) : Prop where
  nonneg : 0 ≤ outIdx.toInt
  behind : outIdx.toInt ≤ i.toInt
  below : i.toInt < rounds
  bounded : rounds < 2 ^ 31

/-- The body of a block, from its first instruction to its terminator. -/
structure Executes (rounds : Int) (label : SelLabel) (regs : Registers SelReg KernelBuf)
    (memory : KernelMemory) (regs' : Registers SelReg KernelBuf) (memory' : KernelMemory) :
    Prop where
  effect : execBody (emitSelectiveIr.blocks label).body regs memory = some (regs', memory')
  history : SafeHistory rounds (if label = .loop then 1 else 0)
    (bodyPath label (emitSelectiveIr.blocks label).body regs memory)

/-- A block that jumps, with the edge to its target. -/
theorem Executes.leave_br {label target : SelLabel}
    {regs regs' entering : Registers SelReg KernelBuf} {memory memory' : KernelMemory}
    (block : Executes rounds label regs memory regs' memory')
    (jumps : (emitSelectiveIr.blocks label).terminator = .br target)
    (phis : enterPhis label regs' (emitSelectiveIr.blocks target).phis regs' = some entering) :
    ∃ segment, Path emitSelectiveIr.step
        ⟨label, (emitSelectiveIr.blocks label).body, regs, memory⟩ segment
        ⟨target, (emitSelectiveIr.blocks target).body, entering, memory'⟩ ∧
      SafeHistory rounds (if label = .loop then 1 else 0) segment :=
  ⟨_, (emitSelectiveIr.body_path label block.effect).append
      (.advance (emitSelectiveIr.step_br jumps phis) (.refl _)),
    block.history.append (.terminator rounds label regs' memory')⟩

/-- A block that branches, with the edge that is taken. -/
theorem Executes.leave_cbranch {label ifTrue ifFalse : SelLabel} {cond : Operand SelReg}
    {taken : Bool} {regs regs' entering : Registers SelReg KernelBuf}
    {memory memory' : KernelMemory} (block : Executes rounds label regs memory regs' memory')
    (jumps : (emitSelectiveIr.blocks label).terminator = .cbranch cond ifTrue ifFalse)
    (tested : cond.eval regs' = some (.i1 taken))
    (phis : enterPhis label regs'
      (emitSelectiveIr.blocks (if taken then ifTrue else ifFalse)).phis regs' = some entering) :
    ∃ segment, Path emitSelectiveIr.step
        ⟨label, (emitSelectiveIr.blocks label).body, regs, memory⟩ segment
        ⟨if taken then ifTrue else ifFalse,
          (emitSelectiveIr.blocks (if taken then ifTrue else ifFalse)).body, entering, memory'⟩ ∧
      SafeHistory rounds (if label = .loop then 1 else 0) segment :=
  ⟨_, (emitSelectiveIr.body_path label block.effect).append
      (.advance (emitSelectiveIr.step_cbranch jumps tested phis) (.refl _)),
    block.history.append (.terminator rounds label regs' memory')⟩

theorem executes_loop {regs : Registers SelReg KernelBuf}
    (entered : SelectRegs length pred i outIdx regs) (within : WithinRounds rounds i outIdx)
    (memory : KernelMemory) :
    ∃ regs', Executes rounds .loop regs memory regs' (memory.load .inBuf i.toInt) ∧
      SelectRegs length pred i outIdx regs' ∧
      regs' .val = some (.i32 (memory.read .inBuf i.toInt)) ∧
      regs' .cmpRes = some (.i1 ((memory.read .inBuf i.toInt).slt pred)) := by
  obtain ⟨inBuf, outBuf, lengthArg, predArg, counter, output⟩ := entered
  obtain ⟨nonneg, behind, below, bounded⟩ := within
  refine ⟨_, ⟨by
    simp [emitSelectiveIr, execBody, Instr.exec, Operand.eval, inBuf, predArg, counter]
    rfl, ?_, ?_⟩, ?_, ?_, ?_⟩
  · simp [emitSelectiveIr, bodyPath, Instr.exec, Operand.eval, inBuf, predArg, counter,
      SafePoint]
    omega
  · simp [emitSelectiveIr, bodyPath, Instr.exec, Operand.eval, inBuf, predArg, counter,
      startsIteration]
  · constructor <;> simp [inBuf, outBuf, lengthArg, predArg, counter, output]
  · simp
  · simp

theorem executes_match {regs : Registers SelReg KernelBuf} {value : BitVec 32}
    (entered : SelectRegs length pred i outIdx regs) (loaded : regs .val = some (.i32 value))
    (within : WithinRounds rounds i outIdx) (memory : KernelMemory) :
    ∃ regs', Executes rounds .matchBlk regs memory regs'
        (memory.store .outBuf outIdx.toInt value) ∧
      SelectRegs length pred i outIdx regs' ∧
      regs' .nextOutIdx = some (.i32 (outIdx + 1)) := by
  obtain ⟨inBuf, outBuf, lengthArg, predArg, counter, output⟩ := entered
  obtain ⟨nonneg, behind, below, bounded⟩ := within
  have advanced : (outIdx + 1#32).toInt = outIdx.toInt + 1 :=
    BottomTestedLoop.toInt_add_one (by omega)
  refine ⟨_, ⟨by
    simp [emitSelectiveIr, execBody, Instr.exec, Operand.eval, outBuf, output, loaded]
    rfl, ?_, ?_⟩, ?_, ?_⟩
  · simp [-BitVec.toInt_add, emitSelectiveIr, bodyPath, Instr.exec, Operand.eval, outBuf, output,
      loaded, counter, SafePoint, advanced]
    exact ⟨nonneg, behind, below⟩
  · simp [emitSelectiveIr, bodyPath, Instr.exec, Operand.eval, outBuf, output, loaded,
      startsIteration]
  · constructor <;> simp [inBuf, outBuf, lengthArg, predArg, counter, output]
  · simp

theorem executes_cont {regs : Registers SelReg KernelBuf} {phiOutIdx : BitVec 32}
    (entered : SelectRegs length pred i outIdx regs)
    (merged : regs .phiOutIdx = some (.i32 phiOutIdx))
    (within : WithinRounds rounds i outIdx) (memory : KernelMemory) :
    ∃ regs', Executes rounds .cont regs memory regs' memory ∧
      SelectRegs length pred i outIdx regs' ∧
      regs' .phiOutIdx = some (.i32 phiOutIdx) ∧
      regs' .nextI = some (.i32 (i + 1)) ∧
      regs' .cond = some (.i1 ((i + 1).slt length)) := by
  obtain ⟨inBuf, outBuf, lengthArg, predArg, counter, output⟩ := entered
  obtain ⟨nonneg, behind, below, bounded⟩ := within
  have advanced : (i + 1#32).toInt = i.toInt + 1 :=
    BottomTestedLoop.toInt_add_one (by omega)
  refine ⟨_, ⟨by
    simp [emitSelectiveIr, execBody, Instr.exec, Operand.eval, lengthArg, counter]
    rfl, ?_, ?_⟩, ?_, ?_, ?_, ?_⟩
  · simp [-BitVec.toInt_add, emitSelectiveIr, bodyPath, Instr.exec, Operand.eval, lengthArg,
      counter, SafePoint, advanced]
  · simp [emitSelectiveIr, bodyPath, Instr.exec, Operand.eval, lengthArg, counter,
      startsIteration]
  · constructor <;> simp [inBuf, outBuf, lengthArg, predArg, counter, output]
  · simpa using merged
  · simp
  · simp

/-! ## One iteration -/

/-- From the loop block to the join block, either through `match` or past it:
the phi node receives the output index of `selectElement`. -/
theorem select_joins {regs : Registers SelReg KernelBuf}
    (entered : SelectRegs length pred i outIdx regs) (within : WithinRounds rounds i outIdx)
    (memory : KernelMemory) :
    ∃ segment regs', Path emitSelectiveIr.step
        ⟨.loop, (emitSelectiveIr.blocks .loop).body, regs, memory⟩ segment
        ⟨.cont, (emitSelectiveIr.blocks .cont).body, regs',
          (selectElement pred i.toInt (outIdx, memory)).2⟩ ∧
      SafeHistory rounds 1 segment ∧ SelectRegs length pred i outIdx regs' ∧
      regs' .phiOutIdx = some (.i32 (selectElement pred i.toInt (outIdx, memory)).1) := by
  obtain ⟨tested, loopRuns, kept, loaded, cmpRes⟩ := executes_loop entered within memory
  by_cases selected : (memory.read .inBuf i.toInt).slt pred = true
  · rw [selected] at cmpRes
    obtain ⟨stored, matchRuns, kept', nextOutIdx⟩ :=
      executes_match kept loaded within (memory.load .inBuf i.toInt)
    obtain ⟨before, reaches, beforeSafe⟩ := loopRuns.leave_cbranch rfl cmpRes rfl
    obtain ⟨after, continues, afterSafe⟩ :=
      matchRuns.leave_br rfl (enterPhis_cons rfl nextOutIdx)
    simp only [selectElement, selected, if_true]
    refine ⟨before ++ after, _, reaches.append continues, beforeSafe.append afterSafe, ?_, ?_⟩
    · constructor <;> simp [kept'.inBuf, kept'.outBuf, kept'.length, kept'.pred, kept'.i,
        kept'.outIdx]
    · simp
  · rw [Bool.not_eq_true] at selected
    rw [selected] at cmpRes
    obtain ⟨segment, reaches, segmentSafe⟩ :=
      loopRuns.leave_cbranch rfl cmpRes (enterPhis_cons rfl kept.outIdx)
    simp only [selectElement, selected, if_false, Bool.false_eq_true]
    refine ⟨segment, _, reaches, segmentSafe, ?_, ?_⟩
    · constructor <;> simp [kept.inBuf, kept.outBuf, kept.length, kept.pred, kept.i,
        kept.outIdx]
    · simp

/-- About to execute the loop block, with the counter `i` and the given output
index and memory. -/
def AtSelectLoop (length pred i : BitVec 32) (state : BitVec 32 × KernelMemory)
    (config : SelConfig) : Prop :=
  ∃ regs, SelectRegs length pred i state.1 regs ∧
    config = ⟨.loop, (emitSelectiveIr.blocks .loop).body, regs, state.2⟩

theorem select_round {state : BitVec 32 × KernelMemory} {config : SelConfig}
    (reached : AtSelectLoop length pred i state config)
    (within : WithinRounds rounds i state.1) (continues : (i + 1).slt length = true) :
    ∃ segment next, Path emitSelectiveIr.step config segment next ∧
      SafeHistory rounds 1 segment ∧
      AtSelectLoop length pred (i + 1) (selectElement pred i.toInt state) next := by
  obtain ⟨regs, entered, rfl⟩ := reached
  obtain ⟨before, joined, reaches, beforeSafe, kept, merged⟩ :=
    select_joins entered within state.2
  obtain ⟨tested, contRuns, kept', merged', nextI, cond⟩ :=
    executes_cont kept merged within (selectElement pred i.toInt state).2
  rw [continues] at cond
  have phis : enterPhis .cont tested (emitSelectiveIr.blocks .loop).phis tested =
      some (Function.update (Function.update tested .i (some (.i32 (i + 1)))) .outIdx
        (some (.i32 (selectElement pred i.toInt state).1))) :=
    Eq.trans (enterPhis_cons rfl nextI) (enterPhis_cons rfl merged')
  obtain ⟨after, moves, afterSafe⟩ := contRuns.leave_cbranch rfl cond phis
  refine ⟨before ++ after, _, reaches.append moves, beforeSafe.append afterSafe, _, ?_, rfl⟩
  constructor <;> simp [kept'.inBuf, kept'.outBuf, kept'.length, kept'.pred]

theorem select_exit {state : BitVec 32 × KernelMemory} {config : SelConfig}
    (reached : AtSelectLoop length pred i state config)
    (within : WithinRounds rounds i state.1) (ends : (i + 1).slt length = false) :
    ∃ segment, Run emitSelectiveIr.step config segment
        (some (.i32 (selectElement pred i.toInt state).1),
          (selectElement pred i.toInt state).2) ∧
      SafeHistory rounds 1 segment := by
  obtain ⟨regs, entered, rfl⟩ := reached
  obtain ⟨before, joined, reaches, beforeSafe, kept, merged⟩ :=
    select_joins entered within state.2
  obtain ⟨tested, contRuns, kept', merged', nextI, cond⟩ :=
    executes_cont kept merged within (selectElement pred i.toInt state).2
  rw [ends] at cond
  obtain ⟨after, moves, afterSafe⟩ := contRuns.leave_cbranch rfl cond rfl
  have returns : emitSelectiveIr.step ⟨.exitBlk, [], tested,
      (selectElement pred i.toInt state).2⟩ =
      some (.inr (some (.i32 (selectElement pred i.toInt state).1),
        (selectElement pred i.toInt state).2)) := by
    simp [Function.step, emitSelectiveIr, Operand.eval, merged']
  exact ⟨_, (reaches.append moves).run (.finish returns),
    (beforeSafe.append afterSafe).append (.terminator rounds .exitBlk tested _)⟩

/-! ## What the iterations leave -/

def keptValues (pred : BitVec 32) (cells : Int → BitVec 32) (length : Nat) :
    List (BitVec 32) :=
  kept (fun value => value.slt pred) cells length

/-- The state after `done` iterations from a memory with the given cells. -/
structure Selected (pred : BitVec 32) (cells : KernelBuf → Int → BitVec 32) (done : Nat)
    (state : BitVec 32 × KernelMemory) : Prop where
  compacted : Compacted (fun value => value.slt pred) (cells .inBuf) (cells .outBuf) done
    state.1.toInt (state.2.cells .outBuf)
  input : state.2.cells .inBuf = cells .inBuf

theorem Selected.next {cells : KernelBuf → Int → BitVec 32} {done : Nat}
    {state : BitVec 32 × KernelMemory} (selected : Selected pred cells done state)
    (below : (done : Int) < 2 ^ 31 - 1) :
    Selected pred cells (done + 1) (selectElement pred done state) := by
  obtain ⟨compacted, input⟩ := selected
  have bounds := compacted.cursor_bounds
  have current : state.2.read .inBuf done = cells .inBuf done := by
    rw [Memory.read, input]
  cases kept : (cells .inBuf done).slt pred with
  | true =>
      have stored : selectElement pred done state = (state.1 + 1,
          (state.2.load .inBuf done).store .outBuf state.1.toInt (cells .inBuf done)) := by
        simp [selectElement, current, kept]
      rw [stored]
      constructor
      · rw [BottomTestedLoop.toInt_add_one (by omega), Memory.cells_store_same, Memory.cells_load]
        exact compacted.next_of_keep kept
      · rw [Memory.cells_store_of_ne _ (by decide), Memory.cells_load, input]
  | false =>
      have skipped : selectElement pred done state = (state.1, state.2.load .inBuf done) := by
        simp [selectElement, current, kept]
      rw [skipped]
      exact ⟨compacted.next_of_skip kept, input⟩

theorem selected_countedLoop (pred : BitVec 32) (memory : KernelMemory) (done : Nat)
    (below : (done : Int) < 2 ^ 31) :
    Selected pred memory.cells done (countedLoop 0 done (selectElement pred) (0, memory)) := by
  apply countedLoop_rounds (Selected pred memory.cells)
  · exact ⟨.start _ _ _, rfl⟩
  · intro before _ state selected
    exact selected.next (by omega)

/-! ## The whole call -/

theorem select_enters (length pred : BitVec 32) (memory : KernelMemory) :
    ∃ config, emitSelectiveIr.step
        (emitSelectiveIr.start (selectArgs length pred) memory) = some (.inl config) ∧
      AtSelectLoop length pred 0 (0, memory) config := by
  have phis : enterPhis .entry (emitSelectiveIr.start (selectArgs length pred) memory).regs
      (emitSelectiveIr.blocks .loop).phis
      (emitSelectiveIr.start (selectArgs length pred) memory).regs =
      some (Function.update (Function.update
        (emitSelectiveIr.start (selectArgs length pred) memory).regs
        .i (some (.i32 0))) .outIdx (some (.i32 0))) :=
    Eq.trans (enterPhis_cons rfl rfl) (enterPhis_cons rfl rfl)
  refine ⟨_, emitSelectiveIr.step_br rfl phis, _, ?_, rfl⟩
  constructor <;> rfl

/-- The output index never passes the counter. -/
theorem withinRounds_countedLoop {i length : BitVec 32} (nonneg : 0 ≤ i.toInt)
    (below : i.toInt < BottomTestedLoop.rounds length) (pred : BitVec 32)
    (memory : KernelMemory) :
    WithinRounds (BottomTestedLoop.rounds length) i
      (countedLoop 0 i.toInt (selectElement pred) (0, memory)).1 := by
  have bounded := BottomTestedLoop.rounds_lt length
  have selected := selected_countedLoop pred memory i.toInt.toNat (by omega)
  have cursor := selected.compacted.cursor_bounds
  rw [Int.toNat_of_nonneg nonneg] at cursor
  exact ⟨cursor.1, cursor.2, below, bounded⟩

theorem select_realizes (length pred : BitVec 32) (memory : KernelMemory) :
    BottomTestedLoop.Realizes emitSelectiveIr.step length (selectElement pred) (0, memory)
      (AtSelectLoop length pred) (SafeHistory (BottomTestedLoop.rounds length))
      (fun final => (some (.i32 final.1), final.2)) where
  nil := .nil _
  append := SafeHistory.append
  round := fun i state config nonneg below computed reached continues => by
    have within := withinRounds_countedLoop nonneg below pred memory
    rw [← computed] at within
    exact select_round reached within continues
  exit := fun i state config nonneg below computed reached ends => by
    have within := withinRounds_countedLoop nonneg below pred memory
    rw [← computed] at within
    exact select_exit reached within ends

/-- Every call returns after safe iterations only. -/
theorem select_calls (length pred : BitVec 32) (memory : KernelMemory) :
    ∃ path, emitSelectiveIr.Calls (selectArgs length pred) memory path
        (some (.i32 (countedLoop 0 (BottomTestedLoop.rounds length) (selectElement pred)
            (0, memory)).1),
          (countedLoop 0 (BottomTestedLoop.rounds length) (selectElement pred)
            (0, memory)).2) ∧
      SafeHistory (BottomTestedLoop.rounds length) (BottomTestedLoop.rounds length).toNat
        path := by
  obtain ⟨head, enters, entered⟩ := select_enters length pred memory
  obtain ⟨path, returns, history⟩ := (select_realizes length pred memory).run entered
  have entry : SafeHistory (BottomTestedLoop.rounds length) 0
      [emitSelectiveIr.start (selectArgs length pred) memory] :=
    .terminator _ .entry _ _
  have whole := entry.append history
  rw [Nat.zero_add] at whole
  exact ⟨_, .advance enters returns, whole⟩

/-- A call on a nonempty input makes one iteration for each element, stays in
its buffers without wrapping, and returns the number of elements below `pred`,
which it has written in input order to the front of the output. -/
theorem emitSelectiveIr_selects {length : BitVec 32} (nonempty : 1 ≤ length.toInt)
    (pred : BitVec 32) (memory : KernelMemory) :
    ∃ path k final,
      emitSelectiveIr.Calls (selectArgs length pred) memory path (some (.i32 k), final) ∧
      path.countP startsIteration = length.toInt ∧
      (∀ config ∈ path, SafePoint length.toInt config) ∧
      k.toInt = (readPrefix (memory.cells .inBuf) length.toInt.toNat).countP
        (fun value => value.slt pred) ∧
      readPrefix (final.cells .outBuf) k.toInt.toNat =
        (readPrefix (memory.cells .inBuf) length.toInt.toNat).filter
          (fun value => value.slt pred) ∧
      (∀ index, index < 0 ∨ k.toInt ≤ index →
        final.cells .outBuf index = memory.cells .outBuf index) ∧
      final.cells .inBuf = memory.cells .inBuf := by
  obtain ⟨path, calls, history⟩ := select_calls length pred memory
  have upper := length.toInt_lt
  have roundsEq := BottomTestedLoop.rounds_of_nonempty nonempty
  have lengthEq : length.toInt = length.toInt.toNat := by omega
  have selected := selected_countedLoop pred memory length.toInt.toNat (by omega)
  rw [← lengthEq] at selected
  rw [roundsEq] at calls history
  refine ⟨path, _, _, calls, ?_, history.safe, ?_, ?_, ?_, selected.input⟩
  · rw [history.count, ← lengthEq]
  · rw [selected.compacted.cursor_eq, kept, List.countP_eq_length_filter]
  · exact selected.compacted.read_front
  · exact fun _ beyond => selected.compacted.outside beyond

/-- Of the two elements 7 and 3, the second is below 5. -/
theorem emitSelectiveIr_selects_second :
    1 ≤ (2 : BitVec 32).toInt ∧
      ∃ path k final,
        emitSelectiveIr.Calls (selectArgs 2 5)
          (Memory.fresh fun _ index => if index = 0 then 7 else 3) path (some (.i32 k), final) ∧
        path.countP startsIteration = (2 : Int) ∧
        (∀ config ∈ path, SafePoint 2 config) ∧
        k.toInt = 1 ∧ readPrefix (final.cells .outBuf) k.toInt.toNat = [3] := by
  obtain ⟨path, k, final, calls, iterations, safe, count, kept, -, -⟩ :=
    emitSelectiveIr_selects (by decide : 1 ≤ (2 : BitVec 32).toInt) 5
      (Memory.fresh fun _ index => if index = 0 then 7 else 3)
  have one : k.toInt = 1 := count.trans (by decide)
  exact ⟨by decide, path, k, final, calls, iterations, safe, one, kept.trans (by decide)⟩

end Spned.Kernels
