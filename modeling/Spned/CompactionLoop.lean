import Spned.CopyKernel
import Spned.StableFilter

/-!
# Compacting loops of the C and C++ programs

`if (keep(in[i])) out[cursor++] = in[i];` occurs with a `size_t` cursor in the
native baselines and with an `int` cursor in the scan kernels.  Both are one
round with the reading of the cursor as a parameter, and both leave the stable
filter of the input as long as the cursor does not wrap.
-/

namespace Spned.Kernels

open CountedLoop TracedMemory WrittenPrefix StableFilter

variable {width : Nat}

/-- One round.  A kept element is loaded twice, as in the source. -/
def compactElement (keep : BitVec 32 → Bool) (position : BitVec width → Int) (i : Int)
    (state : BitVec width × KernelMemory) : BitVec width × KernelMemory :=
  let tested := state.2.load .inBuf i
  if keep (state.2.read .inBuf i) then
    (state.1 + 1,
      (tested.load .inBuf i).store .outBuf (position state.1) (tested.read .inBuf i))
  else (state.1, tested)

/-- The cursor counts without wrapping up to `limit`. -/
structure Counts (position : BitVec width → Int) (limit : Int) : Prop where
  zero : position 0 = 0
  next : ∀ cursor, 0 ≤ position cursor → position cursor < limit →
    position (cursor + 1) = position cursor + 1

theorem counts_int : Counts (BitVec.toInt : BitVec 32 → Int) (2 ^ 31 - 1) where
  zero := rfl
  next := fun _ _ below => BottomTestedLoop.toInt_add_one below

/-- A `size_t` used as an index. -/
def sizePosition (cursor : BitVec 64) : Int :=
  cursor.toNat

theorem counts_size : Counts sizePosition (2 ^ 64 - 1) where
  zero := rfl
  next := fun cursor _ below => by
    unfold sizePosition at below ⊢
    have one : (1 : BitVec 64).toNat = 1 := rfl
    rw [BitVec.toNat_add, one, Nat.mod_eq_of_lt (by omega)]
    rfl

/-- The state after `done` rounds from a memory with the given cells. -/
structure Compacting (keep : BitVec 32 → Bool) (position : BitVec width → Int)
    (cells : KernelBuf → Int → BitVec 32) (done : Nat) (state : BitVec width × KernelMemory) :
    Prop where
  compacted : Compacted keep (cells .inBuf) (cells .outBuf) done (position state.1)
    (state.2.cells .outBuf)
  input : state.2.cells .inBuf = cells .inBuf
  inside : ∀ event ∈ state.2.trace, 0 ≤ event.index ∧ event.index < done
  loads : ∀ index < done, Event.load .inBuf (index : Nat) ∈ state.2.trace

variable {keep : BitVec 32 → Bool} {position : BitVec width → Int} {limit : Int}
variable {cells : KernelBuf → Int → BitVec 32} {done : Nat}

theorem compactElement_of_keep {i : Int} {state : BitVec width × KernelMemory}
    (keeps : keep (state.2.read .inBuf i) = true) :
    compactElement keep position i state = (state.1 + 1,
      ((state.2.load .inBuf i).load .inBuf i).store .outBuf (position state.1)
        (state.2.read .inBuf i)) := by
  have reread : (state.2.load .inBuf i).read .inBuf i = state.2.read .inBuf i := rfl
  simp [compactElement, reread, keeps]

theorem compactElement_of_skip {i : Int} {state : BitVec width × KernelMemory}
    (skips : keep (state.2.read .inBuf i) = false) :
    compactElement keep position i state = (state.1, state.2.load .inBuf i) := by
  simp [compactElement, skips]

theorem compactElement_trace (keep : BitVec 32 → Bool) (position : BitVec width → Int) (i : Int)
    (state : BitVec width × KernelMemory) :
    ∃ added, (compactElement keep position i state).2.trace = state.2.trace ++ added ∧
      .load .inBuf i ∈ added ∧
      ∀ event ∈ added, event.index = i ∨ event.index = position state.1 := by
  cases keeps : keep (state.2.read .inBuf i) with
  | true =>
      refine ⟨[.load .inBuf i, .load .inBuf i, .store .outBuf (position state.1)], ?_, ?_, ?_⟩
      · simp [compactElement_of_keep keeps]
      · simp
      · simp [Event.index]
  | false =>
      refine ⟨[.load .inBuf i], ?_, ?_, ?_⟩
      · simp [compactElement_of_skip keeps]
      · simp
      · simp [Event.index]

theorem Compacting.next {state : BitVec width × KernelMemory} (counts : Counts position limit)
    (compacting : Compacting keep position cells done state) (below : (done : Int) < limit) :
    Compacting keep position cells (done + 1) (compactElement keep position done state) := by
  obtain ⟨compacted, input, inside, loads⟩ := compacting
  obtain ⟨nonneg, atMost⟩ := compacted.cursor_bounds
  have current : state.2.read .inBuf done = cells .inBuf done := by
    rw [Memory.read, input]
  obtain ⟨added, trace, loaded, accessed⟩ := compactElement_trace keep position done state
  constructor
  · cases keeps : keep (state.2.read .inBuf done) with
    | true =>
        rw [compactElement_of_keep keeps, counts.next state.1 nonneg (by omega),
          Memory.cells_store_same, Memory.cells_load, Memory.cells_load, current]
        exact compacted.next_of_keep (current ▸ keeps)
    | false =>
        rw [compactElement_of_skip keeps, Memory.cells_load]
        exact compacted.next_of_skip (current ▸ keeps)
  · cases keeps : keep (state.2.read .inBuf done) with
    | true =>
        rw [compactElement_of_keep keeps, Memory.cells_store_of_ne _ (by decide),
          Memory.cells_load, Memory.cells_load, input]
    | false => rw [compactElement_of_skip keeps, Memory.cells_load, input]
  · rw [trace]
    apply Event.inside_append inside
    intro event member
    rcases accessed event member with element | cursor
    · omega
    · omega
  · rw [trace]
    exact Event.loads_append loads loaded

theorem Compacting.start (counts : Counts position limit) :
    Compacting keep position cells 0 (0, Memory.fresh cells) where
  compacted := by
    rw [counts.zero]
    exact .start _ _ _
  input := rfl
  inside := fun _ member => absurd member List.not_mem_nil
  loads := fun _ below => absurd below (Nat.not_lt_zero _)

theorem compacting_countedLoop (counts : Counts position limit) (below : (done : Int) ≤ limit) :
    Compacting keep position cells done
      (countedLoop 0 done (compactElement keep position) (0, Memory.fresh cells)) := by
  apply countedLoop_rounds (Compacting keep position cells)
  · exact .start counts
  · intro before _ state compacting
    exact compacting.next counts (by omega)

end Spned.Kernels
