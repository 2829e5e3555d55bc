import Mathlib.Logic.Function.Basic
import Spned.CountedLoop

/-!
# Byte-addressed linear memory

The memory of a 32-bit WebAssembly instance: `size` bytes, addressed by `i32`
values that are added modulo `2 ^ 32`.  A word is four consecutive bytes.  An
access that does not lie inside the memory traps.
-/

namespace LinearMemory

open CountedLoop

/-- Four bytes in the order of their addresses. -/
abbrev Word := Fin 4 → BitVec 8

structure Memory where
  size : Nat
  bytes : Nat → BitVec 8

/-- The address of element `index` of an array of words at `base`. -/
def elementAddress (base : BitVec 32) (index : Int) : BitVec 32 :=
  base + BitVec.ofInt 32 (4 * index)

theorem elementAddress_toNat {base : BitVec 32} {index : Nat}
    (below : base.toNat + 4 * index < 2 ^ 32) :
    (elementAddress base index).toNat = base.toNat + 4 * index := by
  have offset : (BitVec.ofInt 32 (4 * (index : Int))).toNat = 4 * index := by
    rw [BitVec.toNat_ofInt]
    omega
  rw [elementAddress, BitVec.toNat_add, offset]
  omega

namespace Memory

def word (memory : Memory) (place : Nat) : Word :=
  fun byte => memory.bytes (place + byte.val)

def put (memory : Memory) (place : Nat) (word : Word) : Memory :=
  { memory with
    bytes := fun other =>
      if inside : place ≤ other ∧ other < place + 4 then word ⟨other - place, by omega⟩
      else memory.bytes other }

def load (memory : Memory) (address : BitVec 32) : Option Word :=
  if address.toNat + 4 ≤ memory.size then some (memory.word address.toNat) else none

def store (memory : Memory) (address : BitVec 32) (word : Word) : Option Memory :=
  if address.toNat + 4 ≤ memory.size then some (memory.put address.toNat word) else none

end Memory

/-- `first` with the `length` bytes at `target` replaced by those at `source`. -/
def moved (first : Memory) (source target length : Nat) : Memory :=
  { first with
    bytes := fun place =>
      if target ≤ place ∧ place < target + length then first.bytes (source + (place - target))
      else first.bytes place }

theorem moved_zero (first : Memory) (source target : Nat) : moved first source target 0 = first := by
  have nowhere : ∀ place, ¬ (target ≤ place ∧ place < target + 0) := fun _ => by omega
  simp only [moved, nowhere, if_false]

/-- `target[index] = source[index]`. -/
def copyWord (source target : BitVec 32) (index : Int) (memory : Memory) : Option Memory :=
  (memory.load (elementAddress source index)).bind
    (memory.store (elementAddress target index))

/-- `for (index = 0; index < count; ++index) target[index] = source[index];` with
the traps of its accesses. -/
def copyWords (source target : BitVec 32) (count : Int) (memory : Memory) : Option Memory :=
  countedLoop 0 count (fun index state => state.bind (copyWord source target index))
    (some memory)

/-- Disjoint arrays inside a memory of at most `2 ^ 32` bytes. -/
structure DisjointArrays (source target : BitVec 32) (count size : Nat) : Prop where
  sourceInside : source.toNat + 4 * count ≤ size
  targetInside : target.toNat + 4 * count ≤ size
  disjoint : source.toNat + 4 * count ≤ target.toNat ∨ target.toNat + 4 * count ≤ source.toNat
  sizeLe : size ≤ 2 ^ 32

variable {source target : BitVec 32} {count size : Nat} {first : Memory}

theorem copyWord_moved (arrays : DisjointArrays source target count first.size) {index : Nat}
    (below : index < count) :
    copyWord source target index (moved first source.toNat target.toNat (4 * index)) =
      some (moved first source.toNat target.toNat (4 * (index + 1))) := by
  obtain ⟨sourceInside, targetInside, disjoint, sizeLe⟩ := arrays
  have from_eq := elementAddress_toNat (by omega : source.toNat + 4 * index < 2 ^ 32)
  have to_eq := elementAddress_toNat (by omega : target.toNat + 4 * index < 2 ^ 32)
  rw [copyWord, Memory.load, from_eq, if_pos (by change _ ≤ first.size; omega),
    Option.bind_some, Memory.store, to_eq, if_pos (by change _ ≤ first.size; omega)]
  congr 1
  simp only [Memory.put, moved, Memory.mk.injEq, true_and]
  funext place
  -- The word being moved is behind the bytes moved so far, and its source has
  -- not been overwritten.
  by_cases inWord : target.toNat + 4 * index ≤ place ∧ place < target.toNat + 4 * index + 4
  · rw [dif_pos inWord, if_pos (by omega), Memory.word]
    simp only
    rw [if_neg (by omega)]
    congr 1
    omega
  · rw [dif_neg inWord]
    split_ifs with before after after
    · rfl
    · omega
    · omega
    · rfl

/-- Copying between disjoint arrays does not trap and moves all their bytes. -/
theorem copyWords_eq_moved (arrays : DisjointArrays source target count first.size) :
    copyWords source target count first =
      some (moved first source.toNat target.toNat (4 * count)) := by
  apply countedLoop_rounds fun done state =>
    state = some (moved first source.toNat target.toNat (4 * done))
  · rw [Nat.mul_zero, moved_zero]
  · rintro done below _ rfl
    exact copyWord_moved arrays below

theorem copyWord_size {memory memory' : Memory} {index : Int}
    (copies : copyWord source target index memory = some memory') :
    memory'.size = memory.size := by
  obtain ⟨word, -, stores⟩ := Option.bind_eq_some_iff.mp copies
  rw [Memory.store] at stores
  split at stores
  · cases stores
    rfl
  · cases stores

theorem copyWords_succ (done : Nat) (first : Memory) :
    copyWords source target (done + 1 : Nat) first =
      (copyWords source target done first).bind (copyWord source target done) := by
  rw [copyWords, Nat.cast_succ, countedLoop_succ (by omega)]
  rfl

theorem copyWords_size {done : Nat} {memory : Memory}
    (copies : copyWords source target done first = some memory) : memory.size = first.size := by
  induction done generalizing memory with
  | zero =>
      cases copies
      rfl
  | succ done ih =>
      rw [copyWords_succ] at copies
      obtain ⟨before, earlier, last⟩ := Option.bind_eq_some_iff.mp copies
      rw [copyWord_size last, ih earlier]

/-- A load or a store behind the memory traps. -/
theorem copyWord_eq_none {memory : Memory} {index : Nat}
    (outside : (source.toNat + 4 * index < 2 ^ 32 ∧ memory.size < source.toNat + 4 * index + 4) ∨
      (target.toNat + 4 * index < 2 ^ 32 ∧ memory.size < target.toNat + 4 * index + 4)) :
    copyWord source target index memory = none := by
  rw [copyWord, Option.bind_eq_none_iff]
  intro word loads
  rcases outside with ⟨unwrapped, behind⟩ | ⟨unwrapped, behind⟩
  · rw [Memory.load, elementAddress_toNat unwrapped, if_neg (by omega)] at loads
    cases loads
  · rw [Memory.store, elementAddress_toNat unwrapped, if_neg (by omega)]

/-- A copy traps when one of its words does in every memory of that size. -/
theorem copyWords_eq_none {index : Nat} (below : index < count)
    (traps : ∀ memory, memory.size = first.size → copyWord source target index memory = none) :
    copyWords source target count first = none := by
  induction count with
  | zero => omega
  | succ count ih =>
      rw [copyWords_succ, Option.bind_eq_none_iff]
      intro memory copied
      by_cases last : index = count
      · rw [← last]
        exact traps memory (copyWords_size copied)
      · rw [ih (by omega)] at copied
        cases copied

end LinearMemory
