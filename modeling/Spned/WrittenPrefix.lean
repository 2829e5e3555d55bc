import Mathlib.Data.List.Basic
import Mathlib.Logic.Function.Basic
import Mathlib.Logic.Nontrivial.Defs

/-!
# Writing a list to the front of a buffer

The contents of an unbounded row of cells after a list has been written to its
first cells.  Copying, filtering and decoding loops all have an output of this
form, which then grows by one element at its end.
-/

namespace WrittenPrefix

variable {α β : Type*}

/-- The cells `0, …, values.length - 1` hold `values`, all others are kept. -/
def writePrefix (cells : Int → α) (values : List α) : Int → α :=
  fun index => if 0 ≤ index then (values[index.toNat]?).getD (cells index) else cells index

def readPrefix (cells : Int → α) (length : Nat) : List α :=
  (List.range length).map fun index : Nat => cells index

@[simp]
theorem writePrefix_nil (cells : Int → α) : writePrefix cells [] = cells := by
  funext index
  simp [writePrefix]

theorem writePrefix_of_lt (cells : Int → α) (values : List α) {index : Nat}
    (inside : index < values.length) : writePrefix cells values index = values[index] := by
  simp [writePrefix, inside]

theorem writePrefix_of_outside (cells : Int → α) (values : List α) {index : Int}
    (outside : index < 0 ∨ values.length ≤ index) :
    writePrefix cells values index = cells index := by
  unfold writePrefix
  split_ifs with nonneg
  · have beyond : values.length ≤ index.toNat := by omega
    simp [List.getElem?_eq_none beyond]
  · rfl

theorem writePrefix_map (apply : α → β) (cells : Int → α) (values : List α) (index : Int) :
    apply (writePrefix cells values index) =
      writePrefix (fun index => apply (cells index)) (values.map apply) index := by
  unfold writePrefix
  split_ifs with nonneg
  · cases found : values[index.toNat]? with
    | none => simp [found]
    | some value => simp [found]
  · rfl

theorem writePrefix_writePrefix (cells : Int → α) {first second : List α}
    (same : first.length = second.length) :
    writePrefix (writePrefix cells first) second = writePrefix cells second := by
  funext index
  by_cases inside : 0 ≤ index ∧ index < second.length
  · obtain ⟨offset, rfl⟩ := Int.eq_ofNat_of_zero_le inside.1
    have within : offset < second.length := by omega
    rw [writePrefix_of_lt _ _ within, writePrefix_of_lt _ _ within]
  · rw [writePrefix_of_outside _ _ (by omega), writePrefix_of_outside _ _ (by omega),
      writePrefix_of_outside _ _ (by omega)]

theorem writePrefix_append_singleton (cells : Int → α) (values : List α) (value : α) :
    writePrefix cells (values ++ [value]) =
      Function.update (writePrefix cells values) values.length value := by
  funext index
  by_cases next : index = values.length
  · subst index
    rw [Function.update_self, writePrefix_of_lt _ _ (by simp)]
    simp
  · rw [Function.update_of_ne next]
    by_cases inside : 0 ≤ index ∧ index < values.length
    · obtain ⟨offset, rfl⟩ := Int.eq_ofNat_of_zero_le inside.1
      have within : offset < values.length := by omega
      rw [writePrefix_of_lt _ _ (by simp; omega), writePrefix_of_lt _ _ within]
      exact List.getElem_append_left within
    · rw [writePrefix_of_outside _ _ (by simp; omega),
        writePrefix_of_outside _ _ (by omega)]

@[simp]
theorem readPrefix_length (cells : Int → α) (length : Nat) :
    (readPrefix cells length).length = length := by
  simp [readPrefix]

@[simp]
theorem readPrefix_zero (cells : Int → α) : readPrefix cells 0 = [] :=
  rfl

theorem readPrefix_succ (cells : Int → α) (length : Nat) :
    readPrefix cells (length + 1) = readPrefix cells length ++ [cells length] := by
  simp [readPrefix, List.range_succ]

theorem readPrefix_writePrefix (cells : Int → α) (values : List α) :
    readPrefix (writePrefix cells values) values.length = values := by
  apply List.ext_getElem
  · simp
  · intro index _ inside
    simp only [readPrefix, List.getElem_map, List.getElem_range]
    exact writePrefix_of_lt cells values inside

@[simp]
theorem getElem_readPrefix (cells : Int → α) {length index : Nat}
    (inside : index < (readPrefix cells length).length) :
    (readPrefix cells length)[index] = cells index := by
  simp [readPrefix]

theorem readPrefix_congr {first second : Int → α} {length : Nat}
    (same : ∀ index : Nat, index < length → first index = second index) :
    readPrefix first length = readPrefix second length :=
  List.map_congr_left fun index member => same index (List.mem_range.mp member)

/-- Past the values that have been written the old cells show. -/
theorem readPrefix_writePrefix_of_le (cells : Int → α) {values : List α} {length : Nat}
    (short : values.length ≤ length) :
    readPrefix (writePrefix cells values) length =
      values ++ (readPrefix cells length).drop values.length := by
  apply List.ext_getElem
  · simp only [readPrefix_length, List.length_append, List.length_drop]
    omega
  · intro index _ _
    rw [getElem_readPrefix]
    by_cases front : index < values.length
    · rw [writePrefix_of_lt _ _ front, List.getElem_append_left front]
    · have behind : values.length + (index - values.length) = index := by omega
      rw [writePrefix_of_outside _ _ (by omega), List.getElem_append_right (by omega)]
      simp [behind]

/-- Written over every possible buffer, different lists leave different cells. -/
theorem eq_of_writePrefix_eq [Nontrivial α] {first second : List α}
    (same : ∀ cells : Int → α, writePrefix cells first = writePrefix cells second) :
    first = second := by
  -- A longer list would show at the cell after the shorter one, over a buffer
  -- that differs from it there.
  have length_le : ∀ {short long : List α},
      (∀ cells : Int → α, writePrefix cells short = writePrefix cells long) →
        long.length ≤ short.length := by
    intro short long same
    by_contra notLonger
    have longer := Nat.lt_of_not_le notLonger
    obtain ⟨other, different⟩ := exists_ne long[short.length]
    have cell := congrFun (same fun _ => other) short.length
    rw [writePrefix_of_outside _ _ (Or.inr (Int.le_refl _)), writePrefix_of_lt _ _ longer] at cell
    exact different cell
  have lengthEq : first.length = second.length :=
    Nat.le_antisymm (length_le fun cells => (same cells).symm) (length_le same)
  apply List.ext_getElem lengthEq
  intro index inFirst inSecond
  have cell := congrFun (same fun _ => first[index]) index
  rwa [writePrefix_of_lt _ _ inFirst, writePrefix_of_lt _ _ inSecond] at cell

end WrittenPrefix
