import Spned.ScalabilityDriver
import Spned.WasmBench

/-!
# Batch latencies

`exp3_wasm.cpp` and `exp3_spned.cpp` time `decode` on batches of several sizes.
The first grows one memory by 2000 pages and uses it for all batches; inside its
measuring loops it looks neither at an error nor at a trap.  The second
allocates two vectors for each batch.  Both narrow the size to 32 bits for the
call and divide the measured time by the full one.
-/

namespace Spned.WasmWorker

open CountedLoop LinearMemory Kernels
open TracedMemory (Event)

/-- `(b < 1000) ? 1000 : 10`. -/
def iterations (b : BitVec 64) : Nat :=
  if b < 1000 then 1000 else 10

/-- The memory of the instance and the number of calls that have trapped. -/
structure Measurement where
  memory : Memory
  trapped : Nat

/-- A call whose trap goes unnoticed.  It has then left the memory `interrupted`,
which depends on how the module was compiled. -/
def measuredCall (interrupted : DecodeCall → Memory → Memory) (call : DecodeCall)
    (state : Measurement) : Measurement :=
  match call.run state.memory with
  | some memory => ⟨memory, state.trapped⟩
  | none => ⟨interrupted call state.memory, state.trapped + 1⟩

/-- The calls for one batch, with the same conversions as in `wasm_worker`. -/
def runBatch (interrupted : DecodeCall → Memory → Memory) (state : Measurement)
    (b : BitVec 64) : Measurement :=
  countedLoop 0 (iterations b) (fun _ => measuredCall interrupted (workerArgs b)) state

/-- `main` of `exp3_wasm.cpp`: the warm-up call and the batches, unless growing
the memory fails. -/
def latencyRun (runtime : Runtime) (interrupted : DecodeCall → Memory → Memory)
    (batches : List (BitVec 64)) (memory : Memory) (previous : Nat) : Option Measurement :=
  (runtime.memoryGrow previous 2000).map fun pages =>
    batches.foldl (runBatch interrupted)
      (measuredCall interrupted ⟨0, 400, 100⟩ ⟨grow memory pages, 0⟩)

/-- The batches of both programs. -/
def sourceBatches : List (BitVec 64) :=
  [1, 10, 100, 1000, 10000, 100000, 1000000, 10000000]

variable {runtime : Runtime} {interrupted : DecodeCall → Memory → Memory}
variable {previous pages : Nat} {b : BitVec 64} {batches : List (BitVec 64)}

theorem measuredCall_of_run {call : DecodeCall} {state : Measurement} {memory : Memory}
    (returns : call.run state.memory = some memory) :
    measuredCall interrupted call state = ⟨memory, state.trapped⟩ := by
  rw [measuredCall, returns]

theorem measuredCall_of_trap {call : DecodeCall} {state : Measurement}
    (traps : call.run state.memory = none) :
    measuredCall interrupted call state =
      ⟨interrupted call state.memory, state.trapped + 1⟩ := by
  rw [measuredCall, traps]

theorem iterations_pos (b : BitVec 64) : 1 ≤ iterations b := by
  unfold iterations
  split_ifs <;> decide

/-! ## One call -/

/-- The rounds of the loop that a call for the batch makes. -/
def batchLength (b : BitVec 64) : Nat :=
  (workerArgs b).len.toInt.toNat

theorem batchLength_eq (small : b.toNat < 2 ^ 31) : batchLength b = b.toNat := by
  have narrowed : (workerArgs b).len.toNat = b.toNat := by
    rw [workerArgs, BitVec.toNat_setWidth]
    omega
  rw [batchLength, BitVec.toInt_eq_toNat_of_lt (by omega), narrowed, Int.toNat_natCast]

theorem batchLength_lt (b : BitVec 64) : batchLength b < 2 ^ 31 := by
  have upper := (workerArgs b).len.toInt_lt
  unfold batchLength
  omega

theorem workerArgs_of_pos (nonempty : 0 < batchLength b) :
    (workerArgs b).len.toNat = batchLength b ∧
      (workerArgs b).output.toNat = 4 * batchLength b % 2 ^ 32 := by
  have positive : 0 < (workerArgs b).len.toInt := by
    unfold batchLength at nonempty
    omega
  have unsigned := BitVec.toInt_eq_toNat_of_lt (BitVec.toInt_pos_iff.mp positive.le)
  have len : (workerArgs b).len.toNat = batchLength b := by
    unfold batchLength
    omega
  refine ⟨len, ?_⟩
  have four : (4 : BitVec 64).toNat = 4 := rfl
  rw [← len]
  simp only [workerArgs, BitVec.toNat_setWidth, BitVec.toNat_mul, four]
  omega

/-- A memory below the maximum is too small for a call exactly when it is too
small for the two arrays; the addresses cannot wrap before one is outside. -/
theorem workerArgs_run {memory : Memory} (sizeLt : memory.size < 2 ^ 32) (b : BitVec 64) :
    (workerArgs b).run memory =
      if memory.size < 8 * batchLength b then none
      else some (moved memory 0 (4 * batchLength b) (4 * batchLength b)) := by
  have zero : (workerArgs b).input.toNat = 0 := rfl
  rcases Nat.eq_zero_or_pos (batchLength b) with empty | nonempty
  · have nothing : (workerArgs b).len.toInt ≤ 0 := by
      unfold batchLength at empty
      omega
    rw [empty, if_neg (by omega), moved_zero, DecodeCall.run, copyWords,
      countedLoop_of_le nothing]
  · obtain ⟨len, output⟩ := workerArgs_of_pos nonempty
    have upper := batchLength_lt b
    have lenInt : (workerArgs b).len.toInt = batchLength b := by
      rw [BitVec.toInt_eq_toNat_of_lt (by omega), len]
    split_ifs with tooSmall
    · rw [DecodeCall.run, lenInt]
      by_cases inputOutside : memory.size < 4 * batchLength b
      · apply copyWords_eq_none (by omega : memory.size / 4 < batchLength b)
        intro other same
        exact copyWord_eq_none (Or.inl (by omega))
      · apply copyWords_eq_none
          (by omega : (memory.size - 4 * batchLength b) / 4 < batchLength b)
        intro other same
        exact copyWord_eq_none (Or.inr (by omega))
    · have fits : FitsMemory (workerArgs b) memory.size :=
        fitsMemory_of_room rfl (by omega) len (by omega) (by omega)
      have copies := fits.run_eq sizeLt.le
      rwa [output, len, Nat.mod_eq_of_lt (by omega)] at copies

/-! ## Batches -/

/-- The memory after a batch that started with `memory`. -/
def afterBatch (interrupted : DecodeCall → Memory → Memory) (memory : Memory)
    (b : BitVec 64) : Memory :=
  if memory.size < 8 * batchLength b then (interrupted (workerArgs b))^[iterations b] memory
  else moved memory 0 (4 * batchLength b) (4 * batchLength b)

def trappedCalls (size : Nat) (b : BitVec 64) : Nat :=
  if size < 8 * batchLength b then iterations b else 0

theorem size_iterate (sameSize : ∀ call memory, (interrupted call memory).size = memory.size)
    (call : DecodeCall) (memory : Memory) (times : Nat) :
    ((interrupted call)^[times] memory).size = memory.size := by
  induction times with
  | zero => rfl
  | succ times ih => rw [Function.iterate_succ_apply', sameSize, ih]

theorem size_afterBatch (sameSize : ∀ call memory, (interrupted call memory).size = memory.size)
    (memory : Memory) (b : BitVec 64) : (afterBatch interrupted memory b).size = memory.size := by
  unfold afterBatch
  split_ifs
  · exact size_iterate sameSize _ _ _
  · rfl

/-- Either all calls of a batch trap, or the first one decides and the others
repeat it. -/
theorem runBatch_eq (sameSize : ∀ call memory, (interrupted call memory).size = memory.size)
    {state : Measurement} (sizeLt : state.memory.size < 2 ^ 32) (b : BitVec 64) :
    runBatch interrupted state b =
      ⟨afterBatch interrupted state.memory b,
        state.trapped + trappedCalls state.memory.size b⟩ := by
  unfold runBatch afterBatch trappedCalls
  split_ifs with tooSmall
  · apply countedLoop_rounds fun done (reached : Measurement) =>
      reached = ⟨(interrupted (workerArgs b))^[done] state.memory, state.trapped + done⟩
    · rfl
    · rintro done _ _ rfl
      have size := size_iterate sameSize (workerArgs b) state.memory done
      have traps := workerArgs_run (by rw [size]; exact sizeLt) b
      rw [size, if_pos tooSmall] at traps
      rw [measuredCall_of_trap traps, Function.iterate_succ_apply', Nat.add_assoc]
  · have copies := workerArgs_run sizeLt b
    rw [if_neg tooSmall] at copies
    have again : (workerArgs b).run (moved state.memory 0 (4 * batchLength b)
        (4 * batchLength b)) = some (moved state.memory 0 (4 * batchLength b)
        (4 * batchLength b)) := by
      rw [workerArgs_run (by exact sizeLt), moved_moved _ (Or.inl (by omega))]
      exact if_neg tooSmall
    have atLeastOne := iterations_pos b
    rw [countedLoop_of_lt (by omega)]
    apply countedLoop_preserves fun reached : Measurement =>
      reached = ⟨moved state.memory 0 (4 * batchLength b) (4 * batchLength b), state.trapped + 0⟩
    · rw [measuredCall_of_run copies, Nat.add_zero]
    · rintro _ _ _ _ rfl
      exact measuredCall_of_run again

theorem foldl_runBatch_eq
    (sameSize : ∀ call memory, (interrupted call memory).size = memory.size)
    (batches : List (BitVec 64)) {state : Measurement} (sizeLt : state.memory.size < 2 ^ 32) :
    batches.foldl (runBatch interrupted) state =
      ⟨batches.foldl (afterBatch interrupted) state.memory,
        state.trapped + (batches.map (trappedCalls state.memory.size)).sum⟩ := by
  induction batches generalizing state with
  | nil => rfl
  | cons b rest ih =>
      have size := size_afterBatch sameSize state.memory b
      rw [List.foldl_cons, runBatch_eq sameSize sizeLt, ih (by rw [size]; exact sizeLt),
        List.foldl_cons, List.map_cons, List.sum_cons, size, Nat.add_assoc]

/-- The warm-up call copies, and the batches start on what it leaves. -/
theorem latencyRun_of_grown (lawful : runtime.Lawful)
    (grows : runtime.memoryGrow previous 2000 = some pages) (below : pages < 65536)
    (batches : List (BitVec 64)) (memory : Memory) :
    pages * pageSize < 2 ^ 32 ∧
      latencyRun runtime interrupted batches memory previous =
        some (batches.foldl (runBatch interrupted)
          ⟨moved (grow memory pages) 0 400 400, 0⟩) := by
  obtain ⟨pagesEq, -⟩ := lawful.grown grows
  have asked : 2000 * pageSize ≤ pages * pageSize :=
    Nat.mul_le_mul_right pageSize (by omega)
  have sizeLt : pages * pageSize < 2 ^ 32 := by
    unfold pageSize
    omega
  have warmUp : DecodeCall.run ⟨0, 400, 100⟩ (grow memory pages) =
      some (moved (grow memory pages) 0 400 400) := by
    have fits : FitsMemory ⟨0, 400, 100⟩ (grow memory pages).size := by
      apply fitsMemory_of_room rfl (by decide : _ = 4 * 100) rfl (by decide)
      rw [size_grow]
      unfold pageSize at asked ⊢
      omega
    exact fits.run_eq sizeLt.le
  refine ⟨sizeLt, ?_⟩
  rw [latencyRun, grows, Option.map_some, measuredCall_of_run warmUp]

/-- The calls of the batches that do not fit the memory trap, all of them
unnoticed, and no others; a batch that fits leaves what a single call leaves,
however often it is repeated. -/
theorem latencyRun_eq (lawful : runtime.Lawful)
    (sameSize : ∀ call memory, (interrupted call memory).size = memory.size)
    (grows : runtime.memoryGrow previous 2000 = some pages) (below : pages < 65536)
    (batches : List (BitVec 64)) (memory : Memory) :
    latencyRun runtime interrupted batches memory previous =
      some ⟨batches.foldl (afterBatch interrupted) (moved (grow memory pages) 0 400 400),
        (batches.map (trappedCalls (pages * pageSize))).sum⟩ := by
  obtain ⟨sizeLt, runs⟩ := latencyRun_of_grown lawful grows below batches memory
  rw [runs, foldl_runBatch_eq sameSize batches (by exact sizeLt), Nat.zero_add]
  rfl

/-- The batches of the source in an instance that started with two pages. -/
theorem latencyRun_eq_sourceBatches :
    latencyRun greedyRuntime (fun _ memory => memory) sourceBatches ⟨131072, fun _ => 0⟩ 2 =
      some ⟨sourceBatches.foldl (afterBatch fun _ memory => memory)
          (moved (grow ⟨131072, fun _ => 0⟩ 2002) 0 400 400),
        (sourceBatches.map (trappedCalls (2002 * pageSize))).sum⟩ :=
  latencyRun_eq greedyRuntime_lawful (fun _ _ => rfl) (by simp [greedyRuntime]) (by decide)
    sourceBatches _

/-! ## Both programs -/

/-- One batch of `exp3_spned.cpp`: wherever the vectors have been allocated, the
call copies the batch and stays inside them. -/
def CopiesBatch (b : BitVec 64) : Prop :=
  ∀ heap final, WorkerEnds b heap final → CopiesShare b heap final ∧ StaysInVectors b final

theorem copiesBatch_iff (b : BitVec 64) : CopiesBatch b ↔ 1 ≤ b.toNat ∧ b.toNat < 2 ^ 31 := by
  rw [← workerRounds_eq_iff]
  constructor
  · intro copies
    obtain ⟨final, ends, copied⟩ := workerEnds b fun _ _ => 0
    obtain ⟨share, inside⟩ := copies _ final ends
    have loaded : ∀ index : Nat,
        Event.load .inBuf (index : Int) ∈ final.trace ↔ index < workerRounds b := by
      intro index
      rw [copied.trace_eq, mem_copyTrace_iff]
      simp
    apply le_antisymm
    · by_contra longer
      have last := inside _ ((loaded b.toNat).mpr (by omega))
      exact absurd last.2 (lt_irrefl _)
    · by_contra shorter
      exact lt_irrefl _ ((loaded _).mp (share (workerRounds b) (by omega)).1)
  · intro rounds heap final ends
    have copied := ends.copied
    rw [rounds] at copied
    exact copied.share

/-- The calls that both programs measure copy all of every batch exactly when
each has an element and fits the memory of the sandbox twice. -/
theorem latencies_comparable_iff (lawful : runtime.Lawful)
    (sameSize : ∀ call memory, (interrupted call memory).size = memory.size)
    (grows : runtime.memoryGrow previous 2000 = some pages) (below : pages < 65536)
    {memory : Memory} {final : Measurement}
    (measured : latencyRun runtime interrupted batches memory previous = some final) :
    ((∀ b ∈ batches, CopiesBatch b) ∧ final.trapped = 0 ∧
        ∀ b ∈ batches, batchLength b = b.toNat) ↔
      ∀ b ∈ batches, 1 ≤ b.toNat ∧ 8 * b.toNat ≤ pages * pageSize := by
  obtain ⟨sizeLt, runs⟩ := latencyRun_of_grown lawful grows below batches memory
  rw [runs, foldl_runBatch_eq sameSize batches (by exact sizeLt), Nat.zero_add] at measured
  obtain rfl := Option.some.inj measured
  have untrapped : (batches.map (trappedCalls (pages * pageSize))).sum = 0 ↔
      ∀ b ∈ batches, 8 * batchLength b ≤ pages * pageSize := by
    rw [List.sum_eq_zero_iff, List.forall_mem_map]
    apply forall₂_congr
    intro b _
    have atLeastOne := iterations_pos b
    unfold trappedCalls
    split_ifs <;> omega
  change (_ ∧ (batches.map (trappedCalls (pages * pageSize))).sum = 0 ∧ _) ↔ _
  rw [untrapped]
  constructor
  · rintro ⟨copies, room, length⟩ b member
    have fits := room b member
    rw [length b member] at fits
    exact ⟨((copiesBatch_iff b).mp (copies b member)).1, fits⟩
  · intro fits
    have length : ∀ b ∈ batches, batchLength b = b.toNat := by
      intro b member
      have room := (fits b member).2
      exact batchLength_eq (by omega)
    refine ⟨fun b member => ?_, fun b member => ?_, length⟩
    · have room := fits b member
      exact (copiesBatch_iff b).mpr ⟨room.1, by omega⟩
    · rw [length b member]
      exact (fits b member).2

/-- Both programs copy the batches of the source. -/
theorem latencies_comparable_iff_sourceBatches :
    ∃ final, latencyRun greedyRuntime (fun _ memory => memory) sourceBatches
        ⟨131072, fun _ => 0⟩ 2 = some final ∧
      (∀ b ∈ sourceBatches, CopiesBatch b) ∧ final.trapped = 0 ∧
        ∀ b ∈ sourceBatches, batchLength b = b.toNat := by
  have grows : greedyRuntime.memoryGrow 2 2000 = some 2002 := by
    simp [greedyRuntime]
  have fits : ∀ b ∈ sourceBatches, 1 ≤ b.toNat ∧ 8 * b.toNat ≤ 2002 * pageSize := by
    simp [sourceBatches, pageSize]
  exact ⟨_, rfl, (latencies_comparable_iff greedyRuntime_lawful (fun _ _ => rfl) grows
    (by decide) rfl).mpr fits⟩

end Spned.WasmWorker
