import Spned.BaselineKernels
import Spned.UnifiedSoundness

/-!
# From the verified trees to the emitted kernels

The main program of `spned_unified_toolchain.py` verifies a tree and then emits
a function that it has written down separately.  A call of the function performs
the accesses that a run of the tree performs, for the selective scan without the
stores of the elements that fail the predicate, so that what `verify_ast` says
about the tree holds of the function too.
-/

namespace Spned.Kernels

open CountedLoop TracedMemory Ssa UnifiedToolchain

/-- `seq_ast` of the main program. -/
def seqAst : ASTNode :=
  .loop "i" [.arrayAccess "in_buf" "i", .arrayAccess "out_buf" "i"]

/-- `sel_ast` of the main program. -/
def selAst : ASTNode :=
  .selectiveLoop "i" "pred" [.arrayAccess "in_buf" "i", .arrayAccess "out_buf" "out_idx"]

/-- The access to a vector that an executed access of a tree stands for: the
trees read `in_buf` and write `out_buf`. -/
def accessEvent (execution : Execution) : Option (Event KernelBuf) :=
  match execution.name, execution.value with
  | "in_buf", some index => some (.load .inBuf index)
  | "out_buf", some index => some (.store .outBuf index)
  | _, _ => none

def accesses (state : State) : List (Event KernelBuf) :=
  state.log.filterMap accessEvent

/-! ## The sequential scan -/

theorem accesses_seqAst (outcomes : Nat → Bool) (total : Int) :
    accesses (seqAst.exec total outcomes .initial) = copyTrace total.toNat := by
  simp only [seqAst, ASTNode.exec]
  rw [countedLoop_toNat]
  apply countedLoop_rounds fun done state => accesses state = copyTrace done
  · rfl
  · intro done _ state logged
    rw [copyTrace_succ, ← logged]
    simp [accesses, UnifiedToolchain.execBody, ASTNode.exec, accessEvent]

theorem copyTrace_inj {done done' : Nat} : copyTrace done = copyTrace done' ↔ done = done' := by
  refine ⟨fun same => ?_, congrArg copyTrace⟩
  rw [← countP_copyTrace done, same, countP_copyTrace]

theorem emitSequentialIr_refines {length : BitVec 32} (nonempty : 1 ≤ length.toInt)
    (outcomes : Nat → Bool) (cells : KernelBuf → Int → BitVec 32) :
    ∃ path final, emitSequentialIr.Calls (copyArgs length) (Memory.fresh cells) path
        (none, final) ∧
      final.trace = accesses (seqAst.exec length.toInt outcomes .initial) := by
  obtain ⟨path, calls⟩ := copyLoop_calls "decode_seq" length (Memory.fresh cells)
  rw [BottomTestedLoop.rounds_of_nonempty nonempty,
    ← Int.toNat_of_nonneg (by omega : 0 ≤ length.toInt)] at calls
  refine ⟨path, _, calls, ?_⟩
  rw [(copied_countedLoop _ _).trace_eq, accesses_seqAst]

/-- A call of `decode_seq` performs exactly the accesses of the verified tree,
in its order, as long as there is an element. -/
theorem emitSequentialIr_refines_iff (outcomes : Nat → Bool) (length : BitVec 32)
    (cells : KernelBuf → Int → BitVec 32) :
    (∃ path final, emitSequentialIr.Calls (copyArgs length) (Memory.fresh cells) path
        (none, final) ∧
      final.trace = accesses (seqAst.exec length.toInt outcomes .initial)) ↔
      1 ≤ length.toInt := by
  refine ⟨?_, fun nonempty => emitSequentialIr_refines nonempty outcomes cells⟩
  rintro ⟨path', final, calls', same⟩
  obtain ⟨path, calls⟩ := copyLoop_calls "decode_seq" length (Memory.fresh cells)
  have atLeastOne := BottomTestedLoop.rounds_pos length
  have copied := copied_countedLoop (Memory.fresh cells) (BottomTestedLoop.rounds length).toNat
  rw [Int.toNat_of_nonneg (by omega)] at copied
  obtain rfl := Function.Calls.memory_eq calls calls'
  rw [copied.trace_eq, accesses_seqAst, copyTrace_inj] at same
  omega

/-! ## The selective scan -/

/-- The accesses of a run without the stores of the rounds whose predicate came
out false.  Each round performs two accesses. -/
def performed (outcomes : Nat → Bool) (events : List (Event KernelBuf)) :
    List (Event KernelBuf) :=
  (events.zipIdx.filter fun access => !access.1.isStore || outcomes (access.2 / 2)).map Prod.fst

theorem performed_append_round (outcomes : Nat → Bool) {events : List (Event KernelBuf)}
    {done : Nat} (rounds : events.length = 2 * done) (index cursor : Int) :
    performed outcomes (events ++ [.load .inBuf index, .store .outBuf cursor]) =
      performed outcomes events ++
        .load .inBuf index :: if outcomes done then [.store .outBuf cursor] else [] := by
  have storeRound : (2 * done + 1) / 2 = done := by omega
  cases matched : outcomes done <;>
    simp [performed, List.zipIdx_append, List.zipIdx_cons, rounds, Event.isStore,
      storeRound, matched]

theorem performed_subset (outcomes : Nat → Bool) (events : List (Event KernelBuf)) :
    performed outcomes events ⊆ events := by
  intro event member
  obtain ⟨⟨_, position⟩, kept, rfl⟩ := List.mem_map.mp member
  exact List.fst_mem_of_mem_zipIdx (List.mem_filter.mp kept).1

/-- The outcomes of the predicate that the function is called with. -/
def matchOutcomes (pred : BitVec 32) (cells : KernelBuf → Int → BitVec 32) (tick : Nat) : Bool :=
  (cells .inBuf tick).slt pred

/-- The tree and the kernel after the same number of rounds. -/
structure InStep (pred : BitVec 32) (cells : KernelBuf → Int → BitVec 32) (done : Nat)
    (tree : State) (kernel : BitVec 32 × KernelMemory) : Prop where
  ticks : tree.ticks = done
  outIdx : tree.store "out_idx" = some kernel.1.toInt
  rounds : (accesses tree).length = 2 * done
  trace : kernel.2.trace = performed (matchOutcomes pred cells) (accesses tree)
  selected : Selected pred cells done kernel

/-- The body of `sel_ast` for one value of the counter. -/
def selRound (total : Int) (outcomes : Nat → Bool) (counter : Int) (tree : State) : State :=
  (UnifiedToolchain.execBody total outcomes
    [.arrayAccess "in_buf" "i", .arrayAccess "out_buf" "out_idx"]
    (tree.assign "i" counter)).advance outcomes

theorem accesses_selRound {total : Int} {outcomes : Nat → Bool} {counter cursor : Int}
    {tree : State} (held : tree.store "out_idx" = some cursor) :
    accesses (selRound total outcomes counter tree) =
      accesses tree ++ [.load .inBuf counter, .store .outBuf cursor] := by
  simp [accesses, selRound, UnifiedToolchain.execBody, ASTNode.exec, accessEvent, held]

theorem store_outIdx_selRound {total : Int} {outcomes : Nat → Bool} {counter cursor : Int}
    {tree : State} (held : tree.store "out_idx" = some cursor) :
    (selRound total outcomes counter tree).store "out_idx" =
      some (if outcomes tree.ticks then cursor + 1 else cursor) := by
  apply State.store_advance_outIdx
  simpa [UnifiedToolchain.execBody, ASTNode.exec] using held

theorem trace_selectElement {pred : BitVec 32} {cells : KernelBuf → Int → BitVec 32} {done : Nat}
    {kernel : BitVec 32 × KernelMemory} (input : kernel.2.cells .inBuf = cells .inBuf) :
    (selectElement pred done kernel).2.trace = kernel.2.trace ++ .load .inBuf done ::
      if matchOutcomes pred cells done then [.store .outBuf kernel.1.toInt] else [] := by
  have current : kernel.2.read .inBuf done = cells .inBuf done := by
    rw [Memory.read, input]
  cases matched : (cells .inBuf done).slt pred <;>
    simp [selectElement, matchOutcomes, current, matched]

theorem toInt_selectElement {pred : BitVec 32} {cells : KernelBuf → Int → BitVec 32} {done : Nat}
    {kernel : BitVec 32 × KernelMemory} (input : kernel.2.cells .inBuf = cells .inBuf)
    (below : kernel.1.toInt < 2 ^ 31 - 1) :
    (selectElement pred done kernel).1.toInt =
      if matchOutcomes pred cells done then kernel.1.toInt + 1 else kernel.1.toInt := by
  have current : kernel.2.read .inBuf done = cells .inBuf done := by
    rw [Memory.read, input]
  cases matched : (cells .inBuf done).slt pred
  · simp [selectElement, matchOutcomes, current, matched]
  · simp only [selectElement, matchOutcomes, current, matched, if_true]
    exact BottomTestedLoop.toInt_add_one below

theorem InStep.next {pred : BitVec 32} {cells : KernelBuf → Int → BitVec 32} {done : Nat}
    {tree : State} {kernel : BitVec 32 × KernelMemory} (inStep : InStep pred cells done tree kernel)
    (below : (done : Int) < 2 ^ 31 - 1) (total : Int) :
    InStep pred cells (done + 1) (selRound total (matchOutcomes pred cells) done tree)
      (selectElement pred done kernel) := by
  obtain ⟨ticks, outIdx, rounds, trace, selected⟩ := inStep
  have cursor := selected.compacted.cursor_bounds
  refine ⟨?_, ?_, ?_, ?_, selected.next below⟩
  · simp [selRound, State.advance, UnifiedToolchain.execBody, ASTNode.exec, State.assign, ticks]
  · rw [store_outIdx_selRound outIdx, toInt_selectElement selected.input (by omega), ticks]
  · rw [accesses_selRound outIdx, List.length_append, rounds]
    rfl
  · rw [accesses_selRound outIdx, performed_append_round _ rounds,
      trace_selectElement selected.input, trace]

theorem inStep_countedLoop (pred : BitVec 32) (cells : KernelBuf → Int → BitVec 32) {length : Nat}
    (below : (length : Int) < 2 ^ 31) :
    InStep pred cells length (selAst.exec length (matchOutcomes pred cells) .initial)
      (countedLoop 0 length (selectElement pred) (0, Memory.fresh cells)) := by
  apply countedLoop_rounds_related (InStep pred cells)
  · exact ⟨rfl, by simp, rfl, rfl, .start _ _ _, rfl⟩
  · intro done _ tree kernel inStep
    exact inStep.next (by omega) length

theorem emitSelectiveIr_refines {length : BitVec 32} (nonempty : 1 ≤ length.toInt)
    (pred : BitVec 32) (cells : KernelBuf → Int → BitVec 32) :
    ∃ path k final, emitSelectiveIr.Calls (selectArgs length pred) (Memory.fresh cells) path
        (some (.i32 k), final) ∧
      final.trace = performed (matchOutcomes pred cells)
        (accesses (selAst.exec length.toInt (matchOutcomes pred cells) .initial)) ∧
      (selAst.exec length.toInt (matchOutcomes pred cells) .initial).store "out_idx" =
        some k.toInt := by
  obtain ⟨path, calls, -⟩ := select_calls length pred (Memory.fresh cells)
  have upper := length.toInt_lt
  have inStep := @inStep_countedLoop pred cells length.toInt.toNat (by omega)
  rw [Int.toNat_of_nonneg (by omega)] at inStep
  rw [BottomTestedLoop.rounds_of_nonempty nonempty] at calls
  exact ⟨path, _, _, calls, inStep.trace, inStep.outIdx⟩

/-- A call of `decode_sel` returns the final `out_idx` of the verified tree and
performs its accesses, apart from the stores of elements that fail the
predicate, as long as there is an element. -/
theorem emitSelectiveIr_refines_iff (length pred : BitVec 32)
    (cells : KernelBuf → Int → BitVec 32) :
    let tree := selAst.exec length.toInt (matchOutcomes pred cells) .initial
    (∃ path k final, emitSelectiveIr.Calls (selectArgs length pred) (Memory.fresh cells) path
        (some (.i32 k), final) ∧
      final.trace = performed (matchOutcomes pred cells) (accesses tree) ∧
      tree.store "out_idx" = some k.toInt) ↔
      1 ≤ length.toInt := by
  intro tree
  refine ⟨?_, fun nonempty => emitSelectiveIr_refines nonempty pred cells⟩
  rintro ⟨path', k, final, calls', same, -⟩
  obtain ⟨path, calls, -⟩ := select_calls length pred (Memory.fresh cells)
  by_contra empty
  have noAccess : accesses tree = [] := by
    have state : tree = State.initial.assign "out_idx" 0 :=
      countedLoop_of_le (by omega) _ _
    rw [state]
    rfl
  have oneRound : BottomTestedLoop.rounds length = ((0 : Nat) : Int) + 1 :=
    BottomTestedLoop.rounds_of_empty (by omega)
  have loaded := @trace_selectElement pred cells 0 (0, Memory.fresh cells) rfl
  obtain rfl := Function.Calls.memory_eq calls calls'
  rw [noAccess, oneRound, countedLoop_succ (by omega),
    countedLoop_of_le (by omega), loaded] at same
  cases same

/-! ## The pipeline -/

section Pipeline

variable {compiler : SPNEDUnifiedCompiler} {ast : ASTNode}

theorem index_of_safe {execution : Execution} {event : Event KernelBuf}
    (safe : compiler.Safe execution) (stands : accessEvent execution = some event) :
    0 ≤ event.index ∧ event.index < compiler.totalTuples := by
  obtain ⟨size, value, declared, held, nonneg, below⟩ := safe
  unfold accessEvent at stands
  rw [held] at stands
  split at stands
  next named valued =>
    rw [named, SPNEDUnifiedCompiler.lookup_arrays (Or.inl rfl)] at declared
    cases declared
    cases valued
    cases stands
    exact ⟨nonneg, below⟩
  next named valued =>
    rw [named, SPNEDUnifiedCompiler.lookup_arrays (Or.inr rfl)] at declared
    cases declared
    cases valued
    cases stands
    exact ⟨nonneg, below⟩
  · cases stands

theorem accesses_safe (totalPos : 1 ≤ compiler.totalTuples) (known : ast.KnownArrays)
    (accepted : compiler.Accepts ast) (reads : ast.ReadsUsable compiler.totalTuples false)
    {outcomes : Nat → Bool} :
    ∀ event ∈ accesses (ast.exec compiler.totalTuples outcomes .initial),
      0 ≤ event.index ∧ event.index < compiler.totalTuples := by
  intro event member
  obtain ⟨execution, logged, stands⟩ := List.mem_filterMap.mp member
  have safe := SPNEDUnifiedCompiler.log_safe totalPos known accepted reads outcomes
  exact index_of_safe (safe execution logged) stands

theorem seqAst_known : seqAst.KnownArrays := by
  simp [seqAst, ASTNode.KnownArrays, ASTNode.arrayNames, bodyArrayNames]

theorem selAst_known : selAst.KnownArrays := by
  simp [selAst, ASTNode.KnownArrays, ASTNode.arrayNames, bodyArrayNames]

theorem seqAst_accepted : compiler.Accepts seqAst := by
  rw [SPNEDUnifiedCompiler.accepts_iff_boundBefore seqAst_known]
  simp [seqAst, ASTNode.BoundBefore, ASTNode.Scoped, BodyScoped]

theorem selAst_accepted : compiler.Accepts selAst := by
  rw [SPNEDUnifiedCompiler.accepts_iff_boundBefore selAst_known]
  simp [selAst, ASTNode.BoundBefore, ASTNode.Scoped, BodyScoped]

/-- The emitted functions, called with `total`, return without having left
vectors of that size. -/
structure EmittedSafe (total : Int) (pred : BitVec 32) (cells : KernelBuf → Int → BitVec 32) :
    Prop where
  sequential : ∃ path final,
    emitSequentialIr.Calls (copyArgs (.ofInt 32 total)) (Memory.fresh cells) path
      (none, final) ∧
    ∀ event ∈ final.trace, 0 ≤ event.index ∧ event.index < total
  selective : ∃ path k final,
    emitSelectiveIr.Calls (selectArgs (.ofInt 32 total) pred) (Memory.fresh cells) path
      (some (.i32 k), final) ∧
    ∀ event ∈ final.trace, 0 ≤ event.index ∧ event.index < total

theorem EmittedSafe.of_verified {total : Int} (nonempty : 1 ≤ (BitVec.ofInt 32 total).toInt)
    (fits : (BitVec.ofInt 32 total).toInt ≤ total) (pred : BitVec 32)
    (cells : KernelBuf → Int → BitVec 32) : EmittedSafe total pred cells := by
  -- The trees are accepted for the length that the functions see.
  let narrowed : SPNEDUnifiedCompiler := ⟨(BitVec.ofInt 32 total).toInt⟩
  constructor
  · obtain ⟨path, final, calls, trace⟩ :=
      emitSequentialIr_refines nonempty (fun _ => false) cells
    refine ⟨path, final, calls, fun event member => ?_⟩
    rw [trace] at member
    have inside : 0 ≤ event.index ∧ event.index < narrowed.totalTuples := by
      apply accesses_safe nonempty seqAst_known seqAst_accepted _ event member
      simp [seqAst, ASTNode.ReadsUsable, BodyReadsUsable]
    exact ⟨inside.1, inside.2.trans_le fits⟩
  · obtain ⟨path, k, final, calls, trace, -⟩ := emitSelectiveIr_refines nonempty pred cells
    refine ⟨path, k, final, calls, fun event member => ?_⟩
    rw [trace] at member
    have inside : 0 ≤ event.index ∧ event.index < narrowed.totalTuples := by
      apply accesses_safe nonempty selAst_known selAst_accepted _ event
        (performed_subset _ _ member)
      simp [selAst, ASTNode.ReadsUsable, BodyReadsUsable, ASTNode.usableAfter,
        bodyWritesOutIdx, ASTNode.writesOutIdx]
    exact ⟨inside.1, inside.2.trans_le fits⟩

/-- A length that the functions see as empty costs a round. -/
theorem EmittedSafe.of_one_round {total : Int} (empty : (BitVec.ofInt 32 total).toInt < 1)
    (positive : 1 ≤ total) (pred : BitVec 32) (cells : KernelBuf → Int → BitVec 32) :
    EmittedSafe total pred cells := by
  have oneRound : BottomTestedLoop.rounds (.ofInt 32 total) = ((1 : Nat) : Int) :=
    BottomTestedLoop.rounds_of_empty empty
  constructor
  · obtain ⟨path, calls⟩ :=
      copyLoop_calls "decode_seq" (.ofInt 32 total) (Memory.fresh cells)
    rw [oneRound] at calls
    refine ⟨path, _, calls, fun event member => ?_⟩
    have inside := (copied_countedLoop (Memory.fresh cells) 1).inside event member
    omega
  · obtain ⟨path, calls, -⟩ := select_calls (.ofInt 32 total) pred (Memory.fresh cells)
    rw [oneRound] at calls
    refine ⟨path, _, _, calls, fun event member => ?_⟩
    have inside := select_trace_inside pred cells 1 (by omega) event member
    omega

/-- The pipeline accepts both trees, whatever total the compiler is made for,
also for none; the functions it emits stay inside vectors of that size exactly
when there is an element. -/
theorem pipeline_safe_iff (compiler : SPNEDUnifiedCompiler) (pred : BitVec 32)
    (cells : KernelBuf → Int → BitVec 32) :
    compiler.Accepts seqAst ∧ compiler.Accepts selAst ∧
      (EmittedSafe compiler.totalTuples pred cells ↔ 1 ≤ compiler.totalTuples) := by
  refine ⟨seqAst_accepted, selAst_accepted, ?_, fun positive => ?_⟩
  · rintro ⟨⟨path', final, calls', inside⟩, -⟩
    obtain ⟨path, calls⟩ := copyLoop_calls "decode_seq" (.ofInt 32 compiler.totalTuples)
      (Memory.fresh cells)
    have atLeastOne := BottomTestedLoop.rounds_pos (.ofInt 32 compiler.totalTuples)
    rw [← Int.toNat_of_nonneg (by omega :
      0 ≤ BottomTestedLoop.rounds (.ofInt 32 compiler.totalTuples))] at calls
    obtain rfl := Function.Calls.memory_eq calls calls'
    have loaded : Event.load .inBuf ((0 : Nat) : Int) ∈ copyTrace
        (BottomTestedLoop.rounds (.ofInt 32 compiler.totalTuples)).toNat :=
      mem_copyTrace_iff.mpr ⟨0, by omega, Or.inl rfl⟩
    rw [← (copied_countedLoop (Memory.fresh cells) _).trace_eq] at loaded
    exact (inside _ loaded).2
  · by_cases empty : (BitVec.ofInt 32 compiler.totalTuples).toInt < 1
    · exact .of_one_round empty positive pred cells
    · refine .of_verified (by omega) ?_ pred cells
      have upper := (BitVec.ofInt 32 compiler.totalTuples).toInt_lt
      by_cases fits : compiler.totalTuples < 2 ^ 31
      · rw [BitVec.toInt_ofInt, Int.bmod_eq_of_le] <;> omega
      · omega

end Pipeline

end Spned.Kernels
