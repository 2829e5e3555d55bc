import Spned.CompactionLoop
import Spned.SelectiveKernel

/-!
# The kernels against their C baselines

`decode` of `pure_decode.c` and `decode_sel` of the WebAssembly baseline in
`exp1_eval.py` test the counter before each round, the emitted functions after
it.  The two agree on every input with at least one element and on no other.
-/

namespace Spned.Kernels

open CountedLoop TracedMemory Ssa

/-- `decode`; the WebAssembly baseline `decode_seq` has the same text. -/
def decode (length : BitVec 32) (memory : KernelMemory) : KernelMemory :=
  countedLoop 0 length.toInt copyElement memory

/-- `if (in[i] < pred) out[idx++] = in[i]`, which reads a selected element twice. -/
def filterElement (pred : BitVec 32) (i : Int) (state : BitVec 32 × KernelMemory) :
    BitVec 32 × KernelMemory :=
  compactElement (fun value => value.slt pred) BitVec.toInt i state

/-- `decode_sel`: the returned count and the final memory. -/
def decodeSel (length pred : BitVec 32) (memory : KernelMemory) : BitVec 32 × KernelMemory :=
  countedLoop 0 length.toInt (filterElement pred) (0, memory)

/-! ## Agreement -/

/-- The same output, and the same indices loaded and stored. -/
def SameEffect (first second : KernelMemory) : Prop :=
  first.cells .outBuf = second.cells .outBuf ∧
    ∀ event, event ∈ first.trace ↔ event ∈ second.trace

def InsideBuffers (length : BitVec 32) (memory : KernelMemory) : Prop :=
  ∀ event ∈ memory.trace, 0 ≤ event.index ∧ event.index < max length.toInt 0

/-- The calls of both emitted functions return what the baselines return, with
the same effect, and stay inside their buffers. -/
structure MatchesBaselines (length pred : BitVec 32) (cells : KernelBuf → Int → BitVec 32) :
    Prop where
  sequential : ∃ path final,
    emitSequentialIr.Calls (copyArgs length) (Memory.fresh cells) path (none, final) ∧
      SameEffect final (decode length (Memory.fresh cells)) ∧ InsideBuffers length final
  selective : ∃ path final,
    emitSelectiveIr.Calls (selectArgs length pred) (Memory.fresh cells) path
        (some (.i32 (decodeSel length pred (Memory.fresh cells)).1), final) ∧
      SameEffect final (decodeSel length pred (Memory.fresh cells)).2 ∧
      InsideBuffers length final

variable {length pred : BitVec 32}

/-- Equal but for the baseline's second load of a selected element. -/
structure SameScan (emitted baseline : BitVec 32 × KernelMemory) : Prop where
  count : emitted.1 = baseline.1
  cells : emitted.2.cells = baseline.2.cells
  trace : ∀ event, event ∈ emitted.2.trace ↔ event ∈ baseline.2.trace

theorem SameScan.next {emitted baseline : BitVec 32 × KernelMemory}
    (same : SameScan emitted baseline) (i : Int) :
    SameScan (selectElement pred i emitted) (filterElement pred i baseline) := by
  obtain ⟨outIdx, emitted⟩ := emitted
  obtain ⟨idx, baseline⟩ := baseline
  obtain ⟨count, cells, trace⟩ := same
  simp only at count cells trace
  subst count
  have sameRead : emitted.read .inBuf i = baseline.read .inBuf i := by
    rw [Memory.read, Memory.read, cells]
  cases selected : (baseline.read .inBuf i).slt pred with
  | true =>
      rw [selectElement, filterElement, compactElement_of_keep selected]
      simp only [sameRead, selected, if_true]
      constructor
      · rfl
      · simp only [Memory.store, Memory.cells_load, cells]
      · intro event
        simp [trace]
  | false =>
      rw [selectElement, filterElement, compactElement_of_skip selected]
      simp only [sameRead, selected, if_false, Bool.false_eq_true]
      exact ⟨rfl, cells, fun event => by simp [trace]⟩

theorem sameScan_countedLoop (pred : BitVec 32) (rounds : Int) (memory : KernelMemory) :
    SameScan (countedLoop 0 rounds (selectElement pred) (0, memory))
      (countedLoop 0 rounds (filterElement pred) (0, memory)) := by
  apply countedLoop_related SameScan
  · exact ⟨rfl, rfl, fun _ => Iff.rfl⟩
  · intro i emitted baseline _ _ same
    exact same.next i

theorem selectElement_trace (pred : BitVec 32) (i : Int) (state : BitVec 32 × KernelMemory) :
    ∃ added, (selectElement pred i state).2.trace = state.2.trace ++ added ∧
      ∀ event ∈ added, event.index = i ∨ event.index = state.1.toInt := by
  rw [selectElement]
  split
  · exact ⟨[.load .inBuf i, .store .outBuf state.1.toInt], by simp, by simp [Event.index]⟩
  · exact ⟨[.load .inBuf i], rfl, by simp [Event.index]⟩

theorem select_trace_inside (pred : BitVec 32) (cells : KernelBuf → Int → BitVec 32)
    (done : Nat) (below : (done : Int) < 2 ^ 31) :
    ∀ event ∈ (countedLoop 0 done (selectElement pred) (0, Memory.fresh cells)).2.trace,
      0 ≤ event.index ∧ event.index < done := by
  induction done with
  | zero => simp [countedLoop_of_le]
  | succ done ih =>
      have selected := selected_countedLoop pred (Memory.fresh cells) done (by omega)
      have cursor := selected.compacted.cursor_bounds
      obtain ⟨added, trace, accessed⟩ := selectElement_trace pred done
        (countedLoop 0 done (selectElement pred) (0, Memory.fresh cells))
      rw [Nat.cast_succ, countedLoop_succ (by omega), trace]
      apply Event.inside_append (ih (by omega))
      intro event member
      rcases accessed event member with element | output
      · omega
      · omega

theorem matchesBaselines_of_nonempty (nonempty : 1 ≤ length.toInt) (pred : BitVec 32)
    (cells : KernelBuf → Int → BitVec 32) : MatchesBaselines length pred cells := by
  have upper := length.toInt_lt
  have roundsEq := BottomTestedLoop.rounds_of_nonempty nonempty
  have lengthEq : length.toInt = length.toInt.toNat := by omega
  constructor
  · obtain ⟨path, calls⟩ := copyLoop_calls "decode_seq" length (Memory.fresh cells)
    rw [roundsEq] at calls
    refine ⟨path, _, calls, ⟨rfl, fun _ => Iff.rfl⟩, ?_⟩
    intro event member
    have copied := copied_countedLoop (Memory.fresh cells) length.toInt.toNat
    rw [← lengthEq] at copied
    have inside := copied.inside event member
    omega
  · obtain ⟨path, calls, -⟩ := select_calls length pred (Memory.fresh cells)
    have same := sameScan_countedLoop pred length.toInt (Memory.fresh cells)
    rw [roundsEq] at calls
    rw [same.count] at calls
    refine ⟨path, _, calls, ⟨congrFun same.cells _, same.trace⟩, ?_⟩
    intro event member
    rw [lengthEq] at member
    have inside := select_trace_inside pred cells _ (by omega) event member
    omega

theorem not_matchesBaselines_of_empty (empty : length.toInt < 1) (pred : BitVec 32)
    (cells : KernelBuf → Int → BitVec 32) : ¬MatchesBaselines length pred cells := by
  rintro ⟨⟨path, final, calls, -, inside⟩, -⟩
  obtain ⟨path', calls'⟩ := copyLoop_calls "decode_seq" length (Memory.fresh cells)
  rw [BottomTestedLoop.rounds_of_empty empty] at calls'
  have copied := copied_countedLoop (Memory.fresh cells) 1
  rw [Nat.cast_one, ← Function.Calls.memory_eq calls calls'] at copied
  have loaded : Event.load .inBuf 0 ∈ final.trace := by
    rw [copied.trace_eq, mem_copyTrace_iff]
    exact ⟨0, Nat.one_pos, Or.inl rfl⟩
  have first := inside _ loaded
  simp only [Event.index] at first
  omega

/-- The emitted functions match the baselines exactly on nonempty inputs. -/
theorem matchesBaselines_iff (length pred : BitVec 32) (cells : KernelBuf → Int → BitVec 32) :
    MatchesBaselines length pred cells ↔ 1 ≤ length.toInt := by
  constructor
  · intro agrees
    by_contra empty
    exact not_matchesBaselines_of_empty (by omega) pred cells agrees
  · intro nonempty
    exact matchesBaselines_of_nonempty nonempty pred cells

/-- A length of zero, as a driver passes when there are fewer tuples than threads. -/
theorem not_matchesBaselines_zero :
    ¬∀ (length pred : BitVec 32) (cells : KernelBuf → Int → BitVec 32),
      MatchesBaselines length pred cells := by
  intro always
  exact not_matchesBaselines_of_empty (by decide) 0 (fun _ _ => 0) (always 0 0 fun _ _ => 0)

end Spned.Kernels
