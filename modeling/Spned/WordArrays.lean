import Spned.BottomTestedLoop
import Spned.LinearMemory
import Spned.StableFilter

/-!
# Arrays of words in linear memory

An array is a view of the memory from a base address on.  Putting a word changes
one element of the view and no byte outside that element.  The compacting loop
`if (keep(source[i])) target[cursor++] = source[i];` leaves the stable filter of
`source` at the front of `target`, and all other bytes as they were.
-/

namespace LinearMemory

open CountedLoop WrittenPrefix StableFilter

/-- The `i32` that the bytes of a word encode, the least significant one first. -/
def Word.value (word : Word) : BitVec 32 :=
  word 3 ++ word 2 ++ word 1 ++ word 0

namespace Memory

/-- The elements of an array at `base`, as many as are asked for. -/
def array (memory : Memory) (base : Nat) (index : Int) : Word :=
  if 0 ≤ index then memory.word (base + 4 * index.toNat) else fun _ => 0

@[simp]
theorem array_natCast (memory : Memory) (base index : Nat) :
    memory.array base index = memory.word (base + 4 * index) := by
  simp [array]

theorem bytes_put_of_outside (memory : Memory) (word : Word) {place other : Nat}
    (outside : other < place ∨ place + 4 ≤ other) :
    (memory.put place word).bytes other = memory.bytes other := by
  simp only [put]
  rw [dif_neg (by omega)]

theorem word_put_same (memory : Memory) (place : Nat) (word : Word) :
    (memory.put place word).word place = word := by
  funext byte
  simp only [Memory.word, put]
  rw [dif_pos (by omega)]
  congr 1
  apply Fin.ext
  simp

theorem word_congr {first second : Memory} {place : Nat}
    (same : ∀ byte < 4, first.bytes (place + byte) = second.bytes (place + byte)) :
    first.word place = second.word place := by
  funext byte
  exact same byte.val byte.isLt

theorem array_put (memory : Memory) (base index : Nat) (word : Word) :
    (memory.put (base + 4 * index) word).array base =
      Function.update (memory.array base) index word := by
  funext other
  by_cases same : other = index
  · subst same
    rw [Function.update_self, array_natCast, word_put_same]
  · rw [Function.update_of_ne same]
    unfold array
    split_ifs with nonneg
    · apply word_congr
      intro byte below
      exact bytes_put_of_outside memory word (by omega)
    · rfl

theorem load_eq_some {memory : Memory} {address : BitVec 32}
    (inside : address.toNat + 4 ≤ memory.size) :
    memory.load address = some (memory.word address.toNat) :=
  if_pos inside

theorem store_eq_some {memory : Memory} {address : BitVec 32}
    (inside : address.toNat + 4 ≤ memory.size) (word : Word) :
    memory.store address word = some (memory.put address.toNat word) :=
  if_pos inside

end Memory

/-! ## Moving an array -/

theorem bytes_moved_of_outside (first : Memory) (source : Nat) {target length place : Nat}
    (outside : place < target ∨ target + length ≤ place) :
    (moved first source target length).bytes place = first.bytes place := by
  simp only [moved]
  rw [if_neg (by omega)]

theorem array_moved {first : Memory} {source target count index : Nat} (below : index < count) :
    (moved first source target (4 * count)).array target index = first.array source index := by
  rw [Memory.array_natCast, Memory.array_natCast]
  funext byte
  simp only [Memory.word, moved]
  rw [if_pos (by omega)]
  congr 1
  omega

theorem array_moved_source {first : Memory} {source target count index : Nat}
    (disjoint : source + 4 * count ≤ target ∨ target + 4 * count ≤ source)
    (below : index < count) :
    (moved first source target (4 * count)).array source index = first.array source index := by
  rw [Memory.array_natCast, Memory.array_natCast]
  apply Memory.word_congr
  intro byte inWord
  exact bytes_moved_of_outside first source (by omega)

/-- Moving the same bytes again changes nothing when they have not been
overwritten. -/
theorem moved_moved (first : Memory) {source target length : Nat}
    (disjoint : source + length ≤ target ∨ target + length ≤ source) :
    moved (moved first source target length) source target length =
      moved first source target length := by
  simp only [moved, Memory.mk.injEq, true_and]
  funext place
  split_ifs with inside overlaps
  · omega
  · rfl
  · rfl

/-! ## Compacting an array -/

/-- One round of the loop, with the cursor.  A kept element is loaded twice. -/
def selectWord (keep : Word → Bool) (source target : BitVec 32) (index : Int)
    (state : BitVec 32 × Memory) : Option (BitVec 32 × Memory) :=
  (state.2.load (elementAddress source index)).bind fun tested =>
    if keep tested then
      (state.2.load (elementAddress source index)).bind fun word =>
        (state.2.store (elementAddress target state.1.toInt) word).map fun memory =>
          (state.1 + 1, memory)
    else some state

def selectWords (keep : Word → Bool) (source target : BitVec 32) (count : Int)
    (memory : Memory) : Option (BitVec 32 × Memory) :=
  countedLoop 0 count (fun index state => state.bind (selectWord keep source target index))
    (some (0, memory))

/-- Cursor and memory after `done` rounds. -/
structure Selecting (keep : Word → Bool) (source target : Nat) (first : Memory) (done : Nat)
    (state : BitVec 32 × Memory) : Prop where
  size : state.2.size = first.size
  compacted : Compacted keep (first.array source) (first.array target) done state.1.toInt
    (state.2.array target)
  frame : ∀ place : Nat, place < target ∨ (target : Int) + 4 * state.1.toInt ≤ place →
    state.2.bytes place = first.bytes place

variable {keep : Word → Bool} {source target : BitVec 32} {count done : Nat} {first : Memory}

theorem Selecting.next (arrays : DisjointArrays source target count first.size)
    {state : BitVec 32 × Memory}
    (selecting : Selecting keep source.toNat target.toNat first done state)
    (below : done < count) :
    ∃ next, selectWord keep source target done state = some next ∧
      Selecting keep source.toNat target.toNat first (done + 1) next := by
  obtain ⟨sourceInside, targetInside, disjoint, sizeLe⟩ := arrays
  obtain ⟨size, compacted, frame⟩ := selecting
  obtain ⟨nonneg, atMost⟩ := compacted.cursor_bounds
  obtain ⟨cursor, cursorEq⟩ : ∃ cursor : Nat, state.1.toInt = cursor :=
    ⟨state.1.toInt.toNat, by omega⟩
  have from_eq := elementAddress_toNat (by omega : source.toNat + 4 * done < 2 ^ 32)
  have to_eq := elementAddress_toNat (by omega : target.toNat + 4 * cursor < 2 ^ 32)
  have loads : state.2.load (elementAddress source done) =
      some (first.array source.toNat done) := by
    rw [Memory.load_eq_some (by omega), from_eq, Memory.array_natCast]
    congr 1
    apply Memory.word_congr
    intro byte inWord
    exact frame _ (by omega)
  rw [selectWord, loads, Option.bind_some]
  cases keeps : keep (first.array source.toNat done) with
  | true =>
      have stores : state.2.store (elementAddress target state.1.toInt)
          (first.array source.toNat done) =
          some (state.2.put (target.toNat + 4 * cursor) (first.array source.toNat done)) := by
        rw [cursorEq, Memory.store_eq_some (by omega), to_eq]
      have advanced : (state.1 + 1).toInt = state.1.toInt + 1 :=
        BottomTestedLoop.toInt_add_one (by omega)
      refine ⟨(state.1 + 1, state.2.put (target.toNat + 4 * cursor)
        (first.array source.toNat done)), ?_, size, ?_, ?_⟩
      · rw [if_pos rfl, Option.bind_some, stores, Option.map_some]
      · rw [Memory.array_put, advanced, ← cursorEq]
        exact compacted.next_of_keep keeps
      · intro place outside
        rw [advanced] at outside
        rw [Memory.bytes_put_of_outside _ _ (by omega)]
        exact frame place (by omega)
  | false =>
      exact ⟨state, if_neg Bool.false_ne_true, size, compacted.next_of_skip keeps, frame⟩

/-- Compacting into a disjoint array does not trap. -/
theorem selectWords_selects (arrays : DisjointArrays source target count first.size) :
    ∃ final, selectWords keep source target count first = some final ∧
      Selecting keep source.toNat target.toNat first count final := by
  apply countedLoop_rounds fun done state =>
    ∃ reached, state = some reached ∧
      Selecting keep source.toNat target.toNat first done reached
  · exact ⟨_, rfl, rfl, .start _ _ _, fun _ _ => rfl⟩
  · rintro done below _ ⟨reached, rfl, selecting⟩
    exact selecting.next arrays below

end LinearMemory
