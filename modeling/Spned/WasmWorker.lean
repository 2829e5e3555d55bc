import Spned.Binary64
import Spned.LinearMemory

/-!
# The WebAssembly workers

`wasm_worker` of `exp4_wasm.cpp` and the generated `exp1_wasm_bench.py` grow the
linear memory of their module and then let `decode` copy an array at address
zero to the place right behind it.  The worker computes with `size_t` and passes
truncated arguments, the Python program divides as doubles.  Either way a memory
that could be grown is large enough for the arguments that are passed.
-/

namespace Spned.WasmWorker

open LinearMemory

def pageSize : Nat :=
  65536

/-- What the programs call and the repository does not define. -/
structure Runtime where
  /-- `memory_grow` with the previous number of pages and the number of pages to
  grow by: the pages after it, or an error. -/
  memoryGrow : Nat → Nat → Option Nat
  /-- The `i32` that Python passes for an integer. -/
  toI32 : Nat → BitVec 32

/-- A memory grows by the requested pages, up to 65536 pages, and an integer
that an `i32` can hold is passed as it is. -/
structure Runtime.Lawful (runtime : Runtime) : Prop where
  grown : ∀ {previous delta pages}, runtime.memoryGrow previous delta = some pages →
    pages = previous + delta ∧ pages ≤ 65536
  exact : ∀ value, value < 2 ^ 31 → (runtime.toI32 value).toNat = value

/-- The arguments of `decode(in, out, len)` of `pure_decode.c`, and of
`decode_seq` of the benchmark module, which has the same text. -/
structure DecodeCall where
  input : BitVec 32
  output : BitVec 32
  len : BitVec 32

/-- The call: `out[i] = in[i]` for `i < len`, in linear memory. -/
def DecodeCall.run (call : DecodeCall) (memory : Memory) : Option Memory :=
  copyWords call.input call.output call.len.toInt memory

/-- `size_t pages_needed = (workload * 8) / 65536 + 50`. -/
def pagesNeeded (workload : BitVec 64) : BitVec 64 :=
  workload * 8 / 65536 + 50

/-- `args`, with `workload * 4` and `workload` converted to `int32_t`. -/
def workerArgs (workload : BitVec 64) : DecodeCall where
  input := 0
  output := (workload * 4).setWidth 32
  len := workload.setWidth 32

/-- The pages and the call of `wasm_worker`, unless growing the memory fails,
which ends the process. -/
def wasmWorker (runtime : Runtime) (previous : Nat) (workload : BitVec 64) :
    Option (Nat × DecodeCall) :=
  (runtime.memoryGrow previous (pagesNeeded workload).toNat).map fun pages =>
    (pages, workerArgs workload)

/-- Python's `a / b` of natural numbers, as a double; an `OverflowError` when the
quotient is too large. -/
def trueDivision (a b : Nat) : Option ℚ :=
  Binary64.round ((a : ℚ) / b)

/-- `max(2000, int(TOTAL * 8 / 65536) + 10)`. -/
def benchPages (total : Nat) : Option Nat :=
  (trueDivision (total * 8) 65536).map fun quotient => max 2000 (⌊quotient⌋.toNat + 10)

/-- `decode_seq(store, 0, TOTAL * 4, TOTAL)`. -/
def benchArgs (runtime : Runtime) (total : Nat) : DecodeCall where
  input := runtime.toI32 0
  output := runtime.toI32 (total * 4)
  len := runtime.toI32 total

/-- The pages and the call of `exp1_wasm_bench.py`, unless it raises. -/
def wasmBench (runtime : Runtime) (previous total : Nat) : Option (Nat × DecodeCall) :=
  (benchPages total).bind fun delta =>
    (runtime.memoryGrow previous delta).map fun pages => (pages, benchArgs runtime total)

/-! ## Calls that fit -/

/-- The output starts right behind the input, both arrays are inside a memory of
`size` bytes, and no address of the copy loop wraps. -/
structure FitsMemory (call : DecodeCall) (size : Nat) : Prop where
  input_eq : call.input = 0
  len_nonneg : 0 ≤ call.len.toInt
  output_eq : call.output.toInt = 4 * call.len.toInt
  disjoint : ∀ address : Int,
    ¬ ((0 ≤ address ∧ address < 4 * call.len.toInt) ∧
      call.output.toInt ≤ address ∧ address < call.output.toInt + 4 * call.len.toInt)
  inputInside : 4 * call.len.toInt ≤ size
  outputInside : call.output.toInt + 4 * call.len.toInt ≤ size
  unwrapped : ∀ i : Nat, i < call.len.toInt →
    (elementAddress call.input i).toNat = 4 * i ∧
      ((elementAddress call.output i).toNat : Int) = call.output.toInt + 4 * i ∧
      call.output.toInt + 4 * i + 4 ≤ 2 ^ 32

/-- Eight bytes for each of `count` elements are enough, when an `i32` holds
their number. -/
theorem fitsMemory_of_room {call : DecodeCall} {count size : Nat} (input : call.input = 0)
    (output : call.output.toNat = 4 * count) (len : call.len.toNat = count)
    (small : 8 * count < 2 ^ 32) (room : 8 * count ≤ size) : FitsMemory call size := by
  have lenInt : call.len.toInt = count := by
    rw [BitVec.toInt_eq_toNat_of_lt (by omega), len]
  have outputInt : call.output.toInt = 4 * count := by
    rw [BitVec.toInt_eq_toNat_of_lt (by omega), output]
    rfl
  constructor
  · exact input
  · omega
  · omega
  · omega
  · omega
  · omega
  · intro i below
    have zero : (0 : BitVec 32).toNat = 0 := rfl
    rw [input, elementAddress_toNat (by omega), elementAddress_toNat (by omega), zero]
    omega

theorem FitsMemory.run_eq {call : DecodeCall} {memory : Memory}
    (fits : FitsMemory call memory.size) (sizeLe : memory.size ≤ 2 ^ 32) :
    call.run memory =
      some (moved memory 0 call.output.toNat (4 * call.len.toNat)) := by
  obtain ⟨input, nonneg, output, -, inputInside, outputInside, -⟩ := fits
  have lenInt : call.len.toInt = call.len.toNat :=
    BitVec.toInt_eq_toNat_of_lt (BitVec.toInt_pos_iff.mp nonneg)
  have outputInt : call.output.toInt = call.output.toNat :=
    BitVec.toInt_eq_toNat_of_lt (BitVec.toInt_pos_iff.mp (by omega))
  have zero : (0 : BitVec 32).toNat = 0 := rfl
  have arrays : DisjointArrays call.input call.output call.len.toNat memory.size := by
    rw [input]
    exact ⟨by omega, by omega, Or.inl (by omega), sizeLe⟩
  rw [DecodeCall.run, lenInt, copyWords_eq_moved arrays, input, zero]

/-! ## The two programs -/

/-- Eight bytes an element, modulo `2 ^ 64`, in pages. -/
theorem pagesNeeded_toNat (workload : BitVec 64) :
    (pagesNeeded workload).toNat = workload.toNat * 8 % 2 ^ 64 / 65536 + 50 := by
  have eight : (8 : BitVec 64).toNat = 8 := rfl
  have page : (65536 : BitVec 64).toNat = 65536 := rfl
  have slack : (50 : BitVec 64).toNat = 50 := rfl
  rw [pagesNeeded, BitVec.toNat_add, BitVec.toNat_udiv, BitVec.toNat_mul, eight, page, slack]
  omega

/-- A page count that could be reached leaves a workload whose low bits are all
that the truncated arguments carry. -/
theorem workerArgs_fits {workload : BitVec 64} {previous pages : Nat}
    (pages_eq : pages = previous + (pagesNeeded workload).toNat) (atMost : pages ≤ 65536) :
    FitsMemory (workerArgs workload) (pages * pageSize) := by
  have bounded := workload.isLt
  have needed := pagesNeeded_toNat workload
  have four : (4 : BitVec 64).toNat = 4 := rfl
  have output : (workerArgs workload).output.toNat = 4 * (workload.toNat * 8 % 2 ^ 64 / 8) := by
    rw [workerArgs, BitVec.toNat_setWidth, BitVec.toNat_mul, four]
    omega
  have len : (workerArgs workload).len.toNat = workload.toNat * 8 % 2 ^ 64 / 8 := by
    rw [workerArgs, BitVec.toNat_setWidth]
    omega
  exact fitsMemory_of_room rfl output len (by omega) (by unfold pageSize; omega)

/-- Below `2 ^ 53` the quotient is exact and `int` rounds it down. -/
theorem benchPages_of_small {total : Nat} (small : total < 2 ^ 53) :
    benchPages total = some (max 2000 (total * 8 / 65536 + 10)) := by
  have denotes : ((total * 8 : Nat) : ℚ) / (65536 : Nat) = total * 2 ^ (-13 : Int) := by
    push_cast
    ring
  have kept := Binary64.roundToPlace_of_significand small (by decide) denotes
  have finite : ((total * 8 : Nat) : ℚ) / (65536 : Nat) < 2 ^ (1024 : Int) := by
    rw [div_lt_iff₀ (by norm_num)]
    have narrow : total * 8 < 2 ^ 1024 * 65536 := by omega
    exact_mod_cast narrow
  have divides : trueDivision (total * 8) 65536 = some (((total * 8 : Nat) : ℚ) / (65536 : Nat)) := by
    rw [trueDivision, Binary64.round, kept, if_pos finite]
  rw [benchPages, divides, Option.map_some, Rat.floor_natCast_div_natCast]
  congr 2

/-- From there on it asks for more pages than any memory has. -/
theorem le_benchPages_of_large {total delta : Nat} (large : 2 ^ 53 ≤ total)
    (computed : benchPages total = some delta) : 2 ^ 40 ≤ delta := by
  obtain ⟨quotient, divides, rfl⟩ := Option.map_eq_some_iff.mp computed
  have rounded : Binary64.roundToPlace (((total * 8 : Nat) : ℚ) / (65536 : Nat)) = quotient := by
    rw [trueDivision, Binary64.round] at divides
    split_ifs at divides
    exact Option.some.inj divides
  have reached : (2 : ℚ) ^ (40 : Int) ≤ ((total * 8 : Nat) : ℚ) / (65536 : Nat) := by
    rw [le_div_iff₀ (by norm_num)]
    have wide : 2 ^ 40 * 65536 ≤ total * 8 := by omega
    exact_mod_cast wide
  have atLeast := Binary64.zpow_le_roundToPlace (by decide) reached
  rw [rounded] at atLeast
  have floorLe : (2 ^ 40 : Int) ≤ ⌊quotient⌋ := Int.le_floor.mpr (by exact_mod_cast atLeast)
  omega

theorem benchArgs_fits {runtime : Runtime} (lawful : runtime.Lawful)
    {total delta previous pages : Nat} (computed : benchPages total = some delta)
    (pages_eq : pages = previous + delta) (atMost : pages ≤ 65536) :
    FitsMemory (benchArgs runtime total) (pages * pageSize) ∧
      (benchArgs runtime total).len.toNat = total := by
  have needed : total * 8 / 65536 + 10 ≤ delta := by
    by_cases small : total < 2 ^ 53
    · rw [benchPages_of_small small] at computed
      have delta_eq := Option.some.inj computed
      omega
    · have huge := le_benchPages_of_large (by omega) computed
      omega
  have output : (benchArgs runtime total).output.toNat = 4 * total := by
    rw [benchArgs, lawful.exact _ (by omega), Nat.mul_comm]
  have len : (benchArgs runtime total).len.toNat = total := lawful.exact _ (by omega)
  have input : (benchArgs runtime total).input = 0 :=
    BitVec.eq_of_toNat_eq (lawful.exact 0 (by decide))
  exact ⟨fitsMemory_of_room input output len (by omega) (by unfold pageSize; omega), len⟩

variable {runtime : Runtime} {previous pages : Nat} {call : DecodeCall}

theorem wasmWorker_fits (lawful : runtime.Lawful) {workload : BitVec 64}
    (starts : wasmWorker runtime previous workload = some (pages, call)) :
    FitsMemory call (pages * pageSize) ∧ pages ≤ 65536 := by
  obtain ⟨grownPages, grows, result⟩ := Option.map_eq_some_iff.mp starts
  obtain ⟨rfl, rfl⟩ := Prod.mk.inj result
  obtain ⟨pages_eq, atMost⟩ := lawful.grown grows
  exact ⟨workerArgs_fits pages_eq atMost, atMost⟩

theorem wasmBench_fits (lawful : runtime.Lawful) {total : Nat}
    (starts : wasmBench runtime previous total = some (pages, call)) :
    (FitsMemory call (pages * pageSize) ∧ pages ≤ 65536) ∧ call.len.toNat = total := by
  obtain ⟨delta, computed, grown⟩ := Option.bind_eq_some_iff.mp starts
  obtain ⟨grownPages, grows, result⟩ := Option.map_eq_some_iff.mp grown
  obtain ⟨rfl, rfl⟩ := Prod.mk.inj result
  obtain ⟨pages_eq, atMost⟩ := lawful.grown grows
  obtain ⟨fits, len⟩ := benchArgs_fits lawful computed pages_eq atMost
  exact ⟨⟨fits, atMost⟩, len⟩

/-- A call that either program makes copies its input and does not trap. -/
theorem run_of_started (lawful : runtime.Lawful)
    (starts : (∃ workload, wasmWorker runtime previous workload = some (pages, call)) ∨
      ∃ total, wasmBench runtime previous total = some (pages, call))
    {memory : Memory} (grown : memory.size = pages * pageSize) :
    call.run memory = some (moved memory 0 call.output.toNat (4 * call.len.toNat)) := by
  have fits : FitsMemory call (pages * pageSize) ∧ pages ≤ 65536 := by
    rcases starts with ⟨workload, starts⟩ | ⟨total, starts⟩
    · exact wasmWorker_fits lawful starts
    · exact (wasmBench_fits lawful starts).1
  rw [← grown] at fits
  apply fits.1.run_eq
  rw [grown]
  unfold pageSize
  omega

/-- Whenever the memory can be grown, the arguments fit the grown memory: for
every workload of the worker, whose call is the one with its own truncated
arguments, and for every total of the benchmark, which passes it unchanged. -/
theorem started_calls_fit (runtime : Runtime) (lawful : runtime.Lawful) (previous : Nat) :
    (∀ workload pages, runtime.memoryGrow previous (pagesNeeded workload).toNat = some pages →
      wasmWorker runtime previous workload = some (pages, workerArgs workload) ∧
        FitsMemory (workerArgs workload) (pages * pageSize)) ∧
    (∀ total pages call, wasmBench runtime previous total = some (pages, call) →
      FitsMemory call (pages * pageSize) ∧ call.len.toNat = total) := by
  constructor
  · intro workload pages grows
    have starts : wasmWorker runtime previous workload = some (pages, workerArgs workload) :=
      Option.map_eq_some_iff.mpr ⟨pages, grows, rfl⟩
    exact ⟨starts, (wasmWorker_fits lawful starts).1⟩
  · intro total pages call starts
    obtain ⟨⟨fits, -⟩, len⟩ := wasmBench_fits lawful starts
    exact ⟨fits, len⟩

def greedyRuntime : Runtime where
  memoryGrow := fun previous delta =>
    if previous + delta ≤ 65536 then some (previous + delta) else none
  toI32 := BitVec.ofNat 32

theorem greedyRuntime_lawful : greedyRuntime.Lawful where
  grown := fun {previous delta pages} grows => by
    obtain ⟨atMost, rfl⟩ : previous + delta ≤ 65536 ∧ previous + delta = pages := by
      simpa [greedyRuntime] using grows
    exact ⟨rfl, atMost⟩
  exact := fun value below => by
    rw [greedyRuntime, BitVec.toNat_ofNat]
    omega

/-- A thousand tuples, in a module of two pages. -/
theorem started_calls_fit_thousand :
    wasmWorker greedyRuntime 2 1000 = some (52, ⟨0, 4000, 1000⟩) ∧
      FitsMemory ⟨0, 4000, 1000⟩ (52 * pageSize) ∧
      FitsMemory ⟨0, 4000, 1000⟩ (2002 * pageSize) := by
  have fit := started_calls_fit greedyRuntime greedyRuntime_lawful 2
  obtain ⟨starts, fits⟩ := fit.1 1000 52 rfl
  refine ⟨starts, fits, (fit.2 1000 2002 _ ?_).1⟩
  rw [wasmBench, benchPages_of_small (by decide)]
  rfl

end Spned.WasmWorker
