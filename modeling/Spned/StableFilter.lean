import Spned.WrittenPrefix

/-!
# Stable filters by compaction

A loop that looks at one cell after the other and writes the ones it keeps to
the front of an output, through a cursor of its own.  What it leaves is the
filter of the input, in input order; the cursor counts the kept cells and never
passes the number of cells looked at.
-/

namespace StableFilter

open WrittenPrefix

variable {α : Type*} {keep : α → Bool} {cells input initial output : Int → α}
variable {done : Nat} {cursor : Int}

/-- The kept values among the first `length` cells, in their order. -/
def kept (keep : α → Bool) (cells : Int → α) (length : Nat) : List α :=
  (readPrefix cells length).filter keep

theorem kept_succ_of_keep (keeps : keep (cells done) = true) :
    kept keep cells (done + 1) = kept keep cells done ++ [cells done] := by
  rw [kept, readPrefix_succ, List.filter_append, List.filter_singleton, keeps]
  rfl

theorem kept_succ_of_skip (skips : keep (cells done) = false) :
    kept keep cells (done + 1) = kept keep cells done := by
  rw [kept, readPrefix_succ, List.filter_append, List.filter_singleton, skips]
  exact List.append_nil _

theorem kept_length_le (keep : α → Bool) (cells : Int → α) (length : Nat) :
    (kept keep cells length).length ≤ length := by
  simpa [kept] using List.length_filter_le keep (readPrefix cells length)

/-- The cursor and the output once `done` cells of `input` have been looked at. -/
structure Compacted (keep : α → Bool) (input initial : Int → α) (done : Nat) (cursor : Int)
    (output : Int → α) : Prop where
  cursor_eq : cursor = (kept keep input done).length
  output_eq : output = writePrefix initial (kept keep input done)

namespace Compacted

theorem start (keep : α → Bool) (input initial : Int → α) :
    Compacted keep input initial 0 0 initial :=
  ⟨rfl, (writePrefix_nil initial).symm⟩

theorem next_of_keep (compacted : Compacted keep input initial done cursor output)
    (keeps : keep (input done) = true) :
    Compacted keep input initial (done + 1) (cursor + 1)
      (Function.update output cursor (input done)) := by
  obtain ⟨rfl, rfl⟩ := compacted
  constructor
  · simp [kept_succ_of_keep keeps]
  · rw [kept_succ_of_keep keeps, writePrefix_append_singleton]

theorem next_of_skip (compacted : Compacted keep input initial done cursor output)
    (skips : keep (input done) = false) :
    Compacted keep input initial (done + 1) cursor output := by
  obtain ⟨rfl, rfl⟩ := compacted
  constructor <;> rw [kept_succ_of_skip skips]

theorem cursor_bounds (compacted : Compacted keep input initial done cursor output) :
    0 ≤ cursor ∧ cursor ≤ done := by
  have short := kept_length_le keep input done
  have counted := compacted.cursor_eq
  omega

/-- In front of the cursor stands the filtered input. -/
theorem read_front (compacted : Compacted keep input initial done cursor output) :
    readPrefix output cursor.toNat = (readPrefix input done).filter keep := by
  obtain ⟨rfl, rfl⟩ := compacted
  rw [Int.toNat_natCast, readPrefix_writePrefix]
  rfl

/-- Behind the filtered input the output is as it was. -/
theorem read_all (compacted : Compacted keep input initial done cursor output) :
    readPrefix output done = (readPrefix input done).filter keep ++
      (readPrefix initial done).drop ((readPrefix input done).filter keep).length := by
  rw [compacted.output_eq]
  exact readPrefix_writePrefix_of_le initial (kept_length_le keep input done)

theorem outside (compacted : Compacted keep input initial done cursor output) {index : Int}
    (beyond : index < 0 ∨ cursor ≤ index) : output index = initial index := by
  obtain ⟨rfl, rfl⟩ := compacted
  exact writePrefix_of_outside _ _ beyond

end Compacted

end StableFilter
