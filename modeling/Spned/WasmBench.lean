import Spned.WasmWorker
import Spned.WordArrays

/-!
# The whole run of the WebAssembly benchmark

`exp1_wasm_bench.py` grows the memory of an instance once and then calls
`decode_seq` twice and `decode_sel` once, all on the same two arrays.
-/

namespace Spned.WasmWorker

open LinearMemory WrittenPrefix StableFilter

/-- `memory.grow`: the old bytes are kept and the new ones are zero. -/
def grow (memory : Memory) (pages : Nat) : Memory where
  size := pages * pageSize
  bytes := fun place => if place < memory.size then memory.bytes place else 0

@[simp]
theorem size_grow (memory : Memory) (pages : Nat) : (grow memory pages).size = pages * pageSize :=
  rfl

/-- `in[i] < pred` of `decode_sel`. -/
def isBelow (pred : BitVec 32) (word : Word) : Bool :=
  word.value.slt pred

/-- The call `decode_sel(in, out, len, pred)`, in linear memory. -/
def DecodeCall.runSel (call : DecodeCall) (pred : BitVec 32) (memory : Memory) :
    Option (BitVec 32 × Memory) :=
  selectWords (isBelow pred) call.input call.output call.len.toInt memory

/-- The calls of `exp1_wasm_bench.py` on the memory of its instance: the warm-up,
the sequential and the selective measurement.  `none` is an exception. -/
def benchRun (runtime : Runtime) (total : Nat) (memory : Memory) (previous : Nat) :
    Option (BitVec 32 × Memory) :=
  (wasmBench runtime previous total).bind fun started =>
    (started.2.run (grow memory started.1)).bind fun memory =>
      (started.2.run memory).bind fun memory =>
        started.2.runSel (runtime.toI32 10) memory

variable {runtime : Runtime} {previous pages total : Nat} {call : DecodeCall}

theorem FitsMemory.arrays {size : Nat} (fits : FitsMemory call size) (sizeLe : size ≤ 2 ^ 32) :
    DisjointArrays call.input call.output call.len.toNat size ∧
      call.input.toNat = 0 ∧ call.output.toNat = 4 * call.len.toNat ∧
      call.len.toInt = call.len.toNat := by
  obtain ⟨input, nonneg, output, -, inputInside, outputInside, -⟩ := fits
  have lenInt : call.len.toInt = call.len.toNat :=
    BitVec.toInt_eq_toNat_of_lt (BitVec.toInt_pos_iff.mp nonneg)
  have outputInt : call.output.toInt = call.output.toNat :=
    BitVec.toInt_eq_toNat_of_lt (BitVec.toInt_pos_iff.mp (by omega))
  have zero : call.input.toNat = 0 := by
    rw [input]
    rfl
  exact ⟨⟨by omega, by omega, Or.inl (by omega), sizeLe⟩, zero, by omega, lenInt⟩

/-- Calling `decode` again on the same arrays leaves the memory as it is. -/
theorem FitsMemory.run_moved {memory : Memory} (fits : FitsMemory call memory.size)
    (sizeLe : memory.size ≤ 2 ^ 32) :
    call.run (moved memory 0 call.output.toNat (4 * call.len.toNat)) =
      some (moved memory 0 call.output.toNat (4 * call.len.toNat)) := by
  obtain ⟨-, -, output, -⟩ := fits.arrays sizeLe
  have again : FitsMemory call
      (moved memory 0 call.output.toNat (4 * call.len.toNat)).size := fits
  rw [again.run_eq sizeLe, moved_moved memory (Or.inl (by omega))]

/-- What a run of the benchmark returns and leaves in the grown memory: the number
of elements below ten, these elements in input order at the front of the output,
behind them the copies that the sequential calls made, and nothing else. -/
structure BenchResult (total : Nat) (grown : Memory) (result : BitVec 32 × Memory) : Prop where
  count : result.1.toInt = (readPrefix (grown.array 0) total).countP (isBelow 10)
  output : readPrefix (result.2.array (4 * total)) total =
    (readPrefix (grown.array 0) total).filter (isBelow 10) ++
      (readPrefix (grown.array 0) total).drop
        ((readPrefix (grown.array 0) total).countP (isBelow 10))
  others : ∀ place : Nat, place < 4 * total ∨ 8 * total ≤ place →
    result.2.bytes place = grown.bytes place

/-- Whenever the memory can be grown, none of the three calls traps. -/
theorem benchRun_selects (lawful : runtime.Lawful)
    (starts : wasmBench runtime previous total = some (pages, call)) (memory : Memory) :
    ∃ result, benchRun runtime total memory previous = some result ∧
      BenchResult total (grow memory pages) result := by
  obtain ⟨⟨fits, atMost⟩, len⟩ := wasmBench_fits lawful starts
  have sizeLe : (grow memory pages).size ≤ 2 ^ 32 := by
    rw [size_grow]
    unfold pageSize
    omega
  have fitsGrown : FitsMemory call (grow memory pages).size := fits
  obtain ⟨arrays, input, output, lenInt⟩ := fitsGrown.arrays sizeLe
  have ten : runtime.toI32 10 = 10 := BitVec.eq_of_toNat_eq (lawful.exact 10 (by decide))
  rw [len] at arrays output lenInt
  have copies := fitsGrown.run_eq sizeLe
  have copiesAgain := fitsGrown.run_moved sizeLe
  rw [len] at copies copiesAgain
  obtain ⟨result, selects, size, compacted, frame⟩ :=
    @selectWords_selects (isBelow 10) call.input call.output total
      (moved (grow memory pages) 0 call.output.toNat (4 * total)) arrays
  rw [input, output] at compacted
  rw [output] at frame
  have apart : 0 + 4 * total ≤ 4 * total ∨ 4 * total + 4 * total ≤ 0 := Or.inl (by omega)
  have source : readPrefix ((moved (grow memory pages) 0 (4 * total) (4 * total)).array 0) total =
      readPrefix ((grow memory pages).array 0) total :=
    readPrefix_congr fun _ below => array_moved_source apart below
  have copied : readPrefix
      ((moved (grow memory pages) 0 (4 * total) (4 * total)).array (4 * total)) total =
      readPrefix ((grow memory pages).array 0) total :=
    readPrefix_congr fun _ below => array_moved below
  have front := compacted.cursor_eq
  have all := compacted.read_all
  rw [kept, source, ← List.countP_eq_length_filter] at front
  rw [source, copied, ← List.countP_eq_length_filter] at all
  refine ⟨result, ?_, front, all, ?_⟩
  · rw [benchRun, starts, Option.bind_some, copies, Option.bind_some, copiesAgain,
      Option.bind_some, DecodeCall.runSel, ten, lenInt, selects]
  · intro place outside
    have bounds := compacted.cursor_bounds
    rw [frame place (by omega), bytes_moved_of_outside _ _ (by omega)]

/-- A thousand tuples in a module of two pages, all zero and so all below ten. -/
theorem benchRun_selects_thousand :
    ∃ result, benchRun greedyRuntime 1000 ⟨131072, fun _ => 0⟩ 2 = some result ∧
      BenchResult 1000 (grow ⟨131072, fun _ => 0⟩ 2002) result := by
  have starts : wasmBench greedyRuntime 2 1000 = some (2002, ⟨0, 4000, 1000⟩) := by
    rw [wasmBench, benchPages_of_small (by decide)]
    rfl
  exact benchRun_selects greedyRuntime_lawful starts _

end Spned.WasmWorker
