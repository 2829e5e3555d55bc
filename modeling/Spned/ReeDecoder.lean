import Spned.CountedLoop
import Spned.MicroCompilerLoops
import Spned.WrittenPrefix

/-!
# The run-end-encoding decoder

The tree of `parse_ree_decoder` with the meaning its comments give it: a load
from `in_val` or `in_len` assigns `val` or `run`, and a store is followed by the
increment of `out_idx` that the tree leaves out.  Read so, the tree runs as
Listing 1.  A nested-loop invariant puts every access at its row and the output
index at the partial sums of the runs, whatever the run lengths are.  The bound
on them then justifies the hard-wired environment of the verifier.
-/

namespace Spned.MicroCompiler

open CountedLoop IntervalDomain WrittenPrefix

/-- The variables, the contents of the arrays, and the accesses executed so far. -/
structure DecoderState where
  vars : String → Int
  arrays : String → Int → Int
  log : List Execution

namespace DecoderState

def assign (state : DecoderState) (name : String) (value : Int) : DecoderState :=
  { state with vars := Function.update state.vars name value }

def record (state : DecoderState) (access : Access) : DecoderState :=
  { state with log := state.log ++ [⟨access, state.vars⟩] }

/-- `val = in_val[i]; run = in_len[i]`: the variable a load is assigned to. -/
def loadTarget : String → Option String
  | "in_val" => some "val"
  | "in_len" => some "run"
  | _ => none

def load (state : DecoderState) (arrayName : String) (index : ASTNode) : DecoderState :=
  let state := state.record ⟨arrayName, index⟩
  match loadTarget arrayName, index.eval state.vars with
  | some name, some position => state.assign name (state.arrays arrayName position)
  | _, _ => state

/-- `out[out_idx] = val; out_idx = out_idx + 1`. -/
def store (state : DecoderState) (arrayName : String) (index value : ASTNode) :
    DecoderState :=
  let state := state.record ⟨arrayName, index⟩
  match index.eval state.vars, value.eval state.vars with
  | some position, some stored =>
      let written := Function.update (state.arrays arrayName) position stored
      { state with
        arrays := Function.update state.arrays arrayName written
        vars := Function.update state.vars "out_idx" (state.vars "out_idx" + 1) }
  | _, _ => state

end DecoderState

mutual

/-- The run of a tree.  A bound or index that is not a sum has no meaning here
and its statement is skipped. -/
def ASTNode.run : ASTNode → DecoderState → DecoderState
  | .arrayLoad arrayName index, state => state.load arrayName index
  | .arrayStore arrayName index value, state => state.store arrayName index value
  | .forLoop iterator start stop body, state =>
      match start.eval state.vars, stop.eval state.vars with
      | some lower, some upper =>
          countedLoop lower upper
            (fun counter state => runBody body (state.assign iterator counter)) state
      | _, _ => state
  | .const _, state | .var _, state | .add _ _, state => state

def runBody : List ASTNode → DecoderState → DecoderState
  | [], state => state
  | stmt :: rest, state => runBody rest (stmt.run state)

end

/-! ## Listing 1 -/

structure Cursor where
  out : Int → Int
  outIdx : Int

def Cursor.push (cursor : Cursor) (val : Int) : Cursor where
  out := Function.update cursor.out cursor.outIdx val
  outIdx := cursor.outIdx + 1

/-- The program in the comments of `parse_ree_decoder`. -/
def listing1 (batchSize : Int) (inVal inLen : Int → Int) (cursor : Cursor) : Cursor :=
  countedLoop 0 batchSize
    (fun i cursor =>
      let val := inVal i
      let run := inLen i
      countedLoop 0 run (fun _ cursor => cursor.push val) cursor)
    cursor

/-! ## The loops of the tree -/

def innerRound (j : Int) (state : DecoderState) : DecoderState :=
  (state.assign "j" j).store "out" (.var "out_idx") (.var "val")

def loadRow (i : Int) (state : DecoderState) : DecoderState :=
  ((state.assign "i" i).load "in_val" (.var "i")).load "in_len" (.var "i")

def outerRound (i : Int) (state : DecoderState) : DecoderState :=
  countedLoop 0 ((loadRow i state).vars "run") innerRound (loadRow i state)

theorem innerRound_eq (j : Int) (state : DecoderState) :
    innerRound j state =
      { vars := Function.update (Function.update state.vars "j" j) "out_idx"
          (state.vars "out_idx" + 1)
        arrays := Function.update state.arrays "out"
          (Function.update (state.arrays "out") (state.vars "out_idx") (state.vars "val"))
        log := state.log ++
          [⟨⟨"out", .var "out_idx"⟩, Function.update state.vars "j" j⟩] } :=
  rfl

theorem loadRow_eq (i : Int) (state : DecoderState) :
    loadRow i state =
      { vars := Function.update (Function.update (Function.update state.vars "i" i) "val"
          (state.arrays "in_val" i)) "run" (state.arrays "in_len" i)
        arrays := state.arrays
        log := state.log ++ [⟨⟨"in_val", .var "i"⟩, Function.update state.vars "i" i⟩] ++
          [⟨⟨"in_len", .var "i"⟩, Function.update (Function.update state.vars "i" i) "val"
            (state.arrays "in_val" i)⟩] } :=
  rfl

theorem run_parseReeDecoder (compiler : SPNEDMicroCompiler) (state : DecoderState) :
    compiler.parseReeDecoder.run state = countedLoop 0 compiler.batchSize outerRound state := by
  simp [SPNEDMicroCompiler.parseReeDecoder, ASTNode.run, runBody, ASTNode.eval, ASTNode.toSum,
    SumExpr.eval]
  rfl

/-! ## The decoded runs -/

/-- `inVal 0` repeated `inLen 0` times, then `inVal 1` repeated `inLen 1` times,
and so on for the first `rows` runs. -/
def expansion {α : Type*} (inVal : Int → α) (inLen : Int → Int) (rows : Nat) : List α :=
  (List.range rows).flatMap fun row : Nat => List.replicate (inLen row).toNat (inVal row)

theorem expansion_succ {α : Type*} (inVal : Int → α) (inLen : Int → Int) (rows : Nat) :
    expansion inVal inLen (rows + 1) =
      expansion inVal inLen rows ++ List.replicate (inLen rows).toNat (inVal rows) := by
  simp [expansion, List.range_succ]

theorem map_expansion {α β : Type*} (apply : α → β) (inVal : Int → α) (inLen : Int → Int)
    (rows : Nat) :
    (expansion inVal inLen rows).map apply =
      expansion (fun row => apply (inVal row)) inLen rows := by
  simp [expansion, List.map_flatMap]

def sumRuns (inLen : Int → Int) (rows : Nat) : Int :=
  ((List.range rows).map fun row : Nat => max 0 (inLen row)).sum

theorem sumRuns_succ (inLen : Int → Int) (rows : Nat) :
    sumRuns inLen (rows + 1) = sumRuns inLen rows + max 0 (inLen rows) := by
  simp [sumRuns, List.range_succ]

theorem expansion_length {α : Type*} (inVal : Int → α) (inLen : Int → Int) (rows : Nat) :
    (expansion inVal inLen rows).length = sumRuns inLen rows := by
  induction rows with
  | zero => rfl
  | succ rows ih =>
      have runLength : ((inLen rows).toNat : Int) = max 0 (inLen rows) := by omega
      simp [expansion_succ, sumRuns_succ, ih, runLength]

theorem sumRuns_nonneg (inLen : Int → Int) (rows : Nat) : 0 ≤ sumRuns inLen rows := by
  rw [← expansion_length inLen]
  exact Int.natCast_nonneg _

theorem sumRuns_mono (inLen : Int → Int) {row rows : Nat} (within : row ≤ rows) :
    sumRuns inLen row ≤ sumRuns inLen rows := by
  induction within with
  | refl => exact le_refl _
  | step within ih =>
      rw [Nat.succ_eq_add_one, sumRuns_succ]
      omega

theorem sumRuns_le {inLen : Int → Int} {maxRunLen : Int} (nonneg : 0 ≤ maxRunLen) {rows : Nat}
    (bounded : ∀ row < rows, inLen (row : Nat) ≤ maxRunLen) :
    sumRuns inLen rows ≤ rows * maxRunLen := by
  induction rows with
  | zero => simp [sumRuns]
  | succ rows ih =>
      have earlier := ih fun row below => bounded row (by omega)
      have last := bounded rows (by omega)
      rw [sumRuns_succ, Nat.cast_succ, add_one_mul]
      omega

/-! ## The invariant -/

namespace SPNEDMicroCompiler

variable {compiler : SPNEDMicroCompiler} {first state : DecoderState} {row : Nat}

/-- Before the first inner loop `j` has its initial value, from then on that of
some round. -/
def InnerCounter (compiler : SPNEDMicroCompiler) (first : DecoderState) (j : Int) : Prop :=
  j = first.vars "j" ∨
    ∃ row : Nat, (row : Int) < compiler.batchSize ∧ 0 ≤ j ∧ j < first.arrays "in_len" row

/-- An access executed in row `row` of a run from `first`: a load where the row
starts, or the store of round `j`. -/
structure AtRow (compiler : SPNEDMicroCompiler) (first : DecoderState) (row : Nat)
    (execution : Execution) : Prop where
  inside : (row : Int) < compiler.batchSize
  i : execution.valuation "i" = row
  j : compiler.InnerCounter first (execution.valuation "j")
  outIdx :
    (execution.access = ⟨"in_val", .var "i"⟩ ∨ execution.access = ⟨"in_len", .var "i"⟩) ∧
        execution.valuation "out_idx" = sumRuns (first.arrays "in_len") row ∨
      execution.access = ⟨"out", .var "out_idx"⟩ ∧
        0 ≤ execution.valuation "j" ∧ execution.valuation "j" < first.arrays "in_len" row ∧
        execution.valuation "out_idx" =
          sumRuns (first.arrays "in_len") row + execution.valuation "j"

/-- The state of a run from `first` that has written `values`. -/
structure Decoding (compiler : SPNEDMicroCompiler) (first : DecoderState) (values : List Int)
    (state : DecoderState) : Prop where
  inVal : state.arrays "in_val" = first.arrays "in_val"
  inLen : state.arrays "in_len" = first.arrays "in_len"
  out : state.arrays "out" = writePrefix (first.arrays "out") values
  outIdx : state.vars "out_idx" = values.length
  j : compiler.InnerCounter first (state.vars "j")
  log : ∀ execution ∈ state.log, ∃ row, compiler.AtRow first row execution
  stored : ∀ index : Nat, index < values.length → ∃ execution ∈ state.log,
    execution.access = ⟨"out", .var "out_idx"⟩ ∧ execution.valuation "out_idx" = index

theorem Decoding.innerRound {values : List Int} (decoding : compiler.Decoding first values state)
    (inside : (row : Int) < compiler.batchSize) (i : state.vars "i" = row) {j : Nat}
    (started : values.length = sumRuns (first.arrays "in_len") row + j)
    (below : (j : Int) < first.arrays "in_len" row) :
    compiler.Decoding first (values ++ [state.vars "val"]) (innerRound j state) := by
  obtain ⟨inVal, inLen, out, outIdx, -, log, stored⟩ := decoding
  have round : compiler.InnerCounter first j := Or.inr ⟨row, inside, Int.natCast_nonneg j, below⟩
  rw [innerRound_eq]
  constructor
  · simpa using inVal
  · simpa using inLen
  · simp [out, outIdx, writePrefix_append_singleton]
  · simp [outIdx]
  · simpa using round
  · intro execution member
    rcases List.mem_append.mp member with earlier | last
    · exact log execution earlier
    · rw [List.mem_singleton.mp last]
      refine ⟨row, inside, by simpa using i, by simpa using round, Or.inr ⟨rfl, ?_, ?_, ?_⟩⟩
      · simp
      · simpa using below
      · simp [outIdx, started]
  · intro index short
    rcases Nat.lt_succ_iff_lt_or_eq.mp (by simpa using short) with earlier | rfl
    · obtain ⟨execution, member, stores, atIndex⟩ := stored index earlier
      exact ⟨execution, List.mem_append_left _ member, stores, atIndex⟩
    · exact ⟨_, List.mem_append_right _ (List.mem_singleton.mpr rfl), rfl, by simp [outIdx]⟩

/-- In row `row` of a run from `first`, after `done` rounds of the inner loop: the
row and its value stay fixed while the run grows. -/
structure InnerLoop (compiler : SPNEDMicroCompiler) (first : DecoderState) (row done : Nat)
    (current : DecoderState) : Prop where
  decoding : compiler.Decoding first
    (expansion (first.arrays "in_val") (first.arrays "in_len") row ++
      List.replicate done (first.arrays "in_val" row)) current
  i : current.vars "i" = row
  val : current.vars "val" = first.arrays "in_val" row

theorem InnerLoop.next {done : Nat} {current : DecoderState}
    (reached : compiler.InnerLoop first row done current)
    (inside : (row : Int) < compiler.batchSize)
    (below : (done : Int) < first.arrays "in_len" row) :
    compiler.InnerLoop first row (done + 1) (innerRound done current) := by
  obtain ⟨decoding, i, val⟩ := reached
  have next := decoding.innerRound inside i (by simp [expansion_length]) below
  rw [val, List.append_assoc, ← List.replicate_succ'] at next
  exact ⟨next, by simpa [innerRound_eq] using i, by simpa [innerRound_eq] using val⟩

theorem Decoding.loadRow {values : List Int} (decoding : compiler.Decoding first values state)
    (inside : (row : Int) < compiler.batchSize)
    (started : values.length = sumRuns (first.arrays "in_len") row) :
    compiler.Decoding first values (loadRow row state) := by
  obtain ⟨inVal, inLen, out, outIdx, j, log, stored⟩ := decoding
  rw [loadRow_eq]
  constructor
  · exact inVal
  · exact inLen
  · exact out
  · simpa using outIdx
  · simpa using j
  · intro execution member
    rcases List.mem_append.mp member with before | second
    · rcases List.mem_append.mp before with earlier | loaded
      · exact log execution earlier
      · rw [List.mem_singleton.mp loaded]
        refine ⟨row, inside, by simp, by simpa using j, Or.inl ⟨Or.inl rfl, ?_⟩⟩
        simp [outIdx, started]
    · rw [List.mem_singleton.mp second]
      refine ⟨row, inside, by simp, by simpa using j, Or.inl ⟨Or.inr rfl, ?_⟩⟩
      simp [outIdx, started]
  · intro index short
    obtain ⟨execution, member, stores, atIndex⟩ := stored index short
    exact ⟨execution, List.mem_append_left _ (List.mem_append_left _ member), stores, atIndex⟩

theorem Decoding.outerRound
    (decoding : compiler.Decoding first
      (expansion (first.arrays "in_val") (first.arrays "in_len") row) state)
    (inside : (row : Int) < compiler.batchSize) :
    compiler.Decoding first
      (expansion (first.arrays "in_val") (first.arrays "in_len") (row + 1))
      (outerRound row state) := by
  have run : (MicroCompiler.loadRow row state).vars "run" = first.arrays "in_len" row := by
    simp [loadRow_eq, decoding.inLen]
  have written : compiler.InnerLoop first row (first.arrays "in_len" row).toNat
      (countedLoop 0 ((first.arrays "in_len" row).toNat : Int) MicroCompiler.innerRound
        (MicroCompiler.loadRow row state)) := by
    apply countedLoop_rounds (compiler.InnerLoop first row)
    · refine ⟨?_, ?_, ?_⟩
      · simpa using decoding.loadRow inside (expansion_length _ _ row)
      · simp [loadRow_eq]
      · simp [loadRow_eq, decoding.inVal]
    · intro done below current reached
      exact reached.next inside (by omega)
  rw [MicroCompiler.outerRound, run, countedLoop_toNat, expansion_succ]
  exact written.decoding

theorem decoding_run (compiler : SPNEDMicroCompiler) (outIdx : first.vars "out_idx" = 0)
    (log : first.log = []) :
    compiler.Decoding first
      (expansion (first.arrays "in_val") (first.arrays "in_len") compiler.batchSize.toNat)
      (compiler.parseReeDecoder.run first) := by
  rw [run_parseReeDecoder, countedLoop_toNat]
  apply countedLoop_rounds fun row => compiler.Decoding first
    (expansion (first.arrays "in_val") (first.arrays "in_len") row)
  · constructor
    · rfl
    · rfl
    · simp [expansion]
    · simpa [expansion] using outIdx
    · exact Or.inl rfl
    · simp [log]
    · simp [expansion]
  · intro row below state decoding
    exact decoding.outerRound (by omega)

/-! ## Runs of bounded length -/

/-- What holds of every access executed in a run from `first`.  Before the first
round of an inner loop `j` still has its initial value, and a load of a decoder
without capacity finds `out_idx` at zero. -/
structure Covered (compiler : SPNEDMicroCompiler) (first : DecoderState)
    (execution : Execution) : Prop where
  occurs : execution.access ∈ compiler.parseReeDecoder.statementAccesses
  i : 0 ≤ execution.valuation "i" ∧ execution.valuation "i" ≤ compiler.batchSize - 1
  j : execution.valuation "j" = first.vars "j" ∨
    0 ≤ execution.valuation "j" ∧ execution.valuation "j" ≤ compiler.maxRunLen - 1
  outIdx : 0 ≤ execution.valuation "out_idx" ∧
    execution.valuation "out_idx" ≤ max 0 (compiler.outCapacity - 1)
  store : execution.access.arrayName = "out" →
    (0 ≤ execution.valuation "j" ∧ execution.valuation "j" ≤ compiler.maxRunLen - 1) ∧
      execution.valuation "out_idx" ≤ compiler.outCapacity - 1

theorem mem_parseReeDecoder_accesses {access : Access} :
    access ∈ compiler.parseReeDecoder.statementAccesses ↔
      access = ⟨"in_val", .var "i"⟩ ∨ access = ⟨"in_len", .var "i"⟩ ∨
        access = ⟨"out", .var "out_idx"⟩ := by
  simp [parseReeDecoder, ASTNode.statementAccesses, bodyStatementAccesses]

/-- Where a run of the decoder may start. -/
structure DecoderInput (compiler : SPNEDMicroCompiler) (first : DecoderState) : Prop where
  batch : 0 ≤ compiler.batchSize
  runLen : 0 ≤ compiler.maxRunLen
  bounded : ∀ k : Nat, k < compiler.batchSize → first.arrays "in_len" k ≤ compiler.maxRunLen
  outIdx : first.vars "out_idx" = 0
  log : first.log = []

/-- Row `row` starts at most at `row * max_run_len`. -/
theorem DecoderInput.room (input : compiler.DecoderInput first)
    (inside : (row : Int) < compiler.batchSize) :
    sumRuns (first.arrays "in_len") row ≤ compiler.outCapacity - compiler.maxRunLen := by
  have started : sumRuns (first.arrays "in_len") row ≤ row * compiler.maxRunLen :=
    sumRuns_le input.runLen fun k below => input.bounded k (by omega)
  have next : ((row : Int) + 1) * compiler.maxRunLen ≤ compiler.outCapacity :=
    Int.mul_le_mul_of_nonneg_right (by omega) input.runLen
  rw [add_one_mul] at next
  omega

theorem DecoderInput.innerCounter (input : compiler.DecoderInput first) {j : Int}
    (counter : compiler.InnerCounter first j) :
    j = first.vars "j" ∨ 0 ≤ j ∧ j ≤ compiler.maxRunLen - 1 := by
  rcases counter with initial | ⟨row, inside, nonneg, below⟩
  · exact Or.inl initial
  · have bounded := input.bounded row inside
    exact Or.inr ⟨nonneg, by omega⟩

theorem AtRow.covered {execution : Execution} (atRow : compiler.AtRow first row execution)
    (input : compiler.DecoderInput first) : compiler.Covered first execution := by
  obtain ⟨inside, i, j, outIdx⟩ := atRow
  have bounded := input.bounded row inside
  have runLen := input.runLen
  have room := input.room inside
  have nonneg := sumRuns_nonneg (first.arrays "in_len") row
  have rowBounds : 0 ≤ execution.valuation "i" ∧
      execution.valuation "i" ≤ compiler.batchSize - 1 := by omega
  rcases outIdx with ⟨loads, start⟩ | ⟨stores, jNonneg, jBelow, position⟩
  · refine ⟨?_, rowBounds, input.innerCounter j, ?_, ?_⟩
    · exact mem_parseReeDecoder_accesses.mpr (loads.imp_right Or.inl)
    · rcases runLen.eq_or_lt with zero | positive
      · have empty : compiler.outCapacity = 0 := by rw [outCapacity, ← zero, mul_zero]
        omega
      · omega
    · intro isOut
      rcases loads with isVal | isLen
      · rw [isVal] at isOut
        simp at isOut
      · rw [isLen] at isOut
        simp at isOut
  · refine ⟨?_, rowBounds, input.innerCounter j, by omega, fun _ => by omega⟩
    exact mem_parseReeDecoder_accesses.mpr (Or.inr (Or.inr stores))

theorem passes_parseReeDecoder {access : Access}
    (occurs : access ∈ compiler.parseReeDecoder.statementAccesses) : compiler.Passes access := by
  have below : ∀ size : Int, ((size - 1 : Int) : WithTop Int) < (size : WithTop Int) := by
    intro size
    exact WithTop.coe_lt_coe.mpr (by omega)
  rcases mem_parseReeDecoder_accesses.mp occurs with rfl | rfl | rfl
  · exact ⟨compiler.batchSize, rfl, le_refl 0, below _⟩
  · exact ⟨compiler.batchSize, rfl, le_refl 0, below _⟩
  · exact ⟨compiler.outCapacity, rfl, le_refl 0, below _⟩

theorem verifySafety_parseReeDecoder (compiler : SPNEDMicroCompiler) :
    compiler.verifySafety compiler.parseReeDecoder = .ok true :=
  (verifySafety_eq_ok_iff _).mpr fun _ occurs => passes_parseReeDecoder occurs

/-- The verifier's own check puts a covered access inside its array. -/
theorem Covered.inBounds {execution : Execution} (covered : compiler.Covered first execution) :
    compiler.InBounds execution.valuation execution.access := by
  obtain ⟨name, index, within⟩ : ∃ name, execution.access.index = .var name ∧
      (compiler.envGet name).Contains (execution.valuation name) := by
    simp only [envGet_contains_iff]
    rcases mem_parseReeDecoder_accesses.mp covered.occurs with same | same | same
    · exact ⟨"i", by rw [same], covered.i⟩
    · exact ⟨"i", by rw [same], covered.i⟩
    · exact ⟨"out_idx", by rw [same], covered.outIdx.1, (covered.store (by rw [same])).2⟩
  have sum : execution.access.index.IsSum := by
    rw [index]
    rfl
  apply inBounds_of_passes sum (passes_parseReeDecoder covered.occurs)
  intro used member
  rw [index] at member
  rwa [List.mem_singleton.mp member]

/-! ## Listing 1 and the tree -/

/-- A run of the tree and a run of Listing 1 at the same point. -/
structure SameCursor (first state : DecoderState) (cursor : Cursor) : Prop where
  out : state.arrays "out" = cursor.out
  outIdx : state.vars "out_idx" = cursor.outIdx
  inVal : state.arrays "in_val" = first.arrays "in_val"
  inLen : state.arrays "in_len" = first.arrays "in_len"

theorem SameCursor.innerRound {cursor : Cursor} (same : SameCursor first state cursor)
    (j : Int) : SameCursor first (innerRound j state) (cursor.push (state.vars "val")) := by
  obtain ⟨out, outIdx, inVal, inLen⟩ := same
  rw [innerRound_eq]
  constructor
  · simp [Cursor.push, out, outIdx]
  · simp [Cursor.push, outIdx]
  · simpa using inVal
  · simpa using inLen

/-- Inside row `i`, whose value has been loaded. -/
structure SameRow (first : DecoderState) (i : Int) (state : DecoderState) (cursor : Cursor) :
    Prop where
  same : SameCursor first state cursor
  val : state.vars "val" = first.arrays "in_val" i

theorem SameRow.next {i : Int} {cursor : Cursor} (row : SameRow first i state cursor) (j : Int) :
    SameRow first i (innerRound j state) (cursor.push (first.arrays "in_val" i)) := by
  obtain ⟨same, val⟩ := row
  have next := same.innerRound j
  rw [val] at next
  exact ⟨next, by simpa [innerRound_eq] using val⟩

theorem SameCursor.outerRound {cursor : Cursor} (same : SameCursor first state cursor)
    (i : Int) :
    SameCursor first (outerRound i state)
      (countedLoop 0 (first.arrays "in_len" i)
        (fun _ cursor => cursor.push (first.arrays "in_val" i)) cursor) := by
  obtain ⟨out, outIdx, inVal, inLen⟩ := same
  have run : (loadRow i state).vars "run" = first.arrays "in_len" i := by
    simp [loadRow_eq, inLen]
  rw [MicroCompiler.outerRound, run]
  have row : SameRow first i
      (countedLoop 0 (first.arrays "in_len" i) MicroCompiler.innerRound (loadRow i state))
      (countedLoop 0 (first.arrays "in_len" i)
        (fun _ cursor => cursor.push (first.arrays "in_val" i)) cursor) := by
    apply countedLoop_related (SameRow first i)
    · refine ⟨⟨out, ?_, inVal, inLen⟩, ?_⟩
      · simpa [loadRow_eq] using outIdx
      · simp [loadRow_eq, inVal]
    · intro j current cursor _ _ row
      exact row.next j
  exact row.same

theorem run_eq_listing1 (compiler : SPNEDMicroCompiler) (first : DecoderState) :
    SameCursor first (compiler.parseReeDecoder.run first)
      (listing1 compiler.batchSize (first.arrays "in_val") (first.arrays "in_len")
        ⟨first.arrays "out", first.vars "out_idx"⟩) := by
  rw [run_parseReeDecoder]
  apply countedLoop_related (SameCursor first)
  · exact ⟨rfl, rfl, rfl, rfl⟩
  · intro i state cursor _ _ same
    exact same.outerRound i

/-! ## Safety and correctness -/

/-- The decoder is accepted, stays inside the three intervals of the verifier
wherever they are not empty, and writes the decoded runs. -/
theorem parseReeDecoder_decodes (compiler : SPNEDMicroCompiler) (first : DecoderState)
    (input : compiler.DecoderInput first) :
    compiler.verifySafety compiler.parseReeDecoder = .ok true ∧
      (∀ execution ∈ (compiler.parseReeDecoder.run first).log,
        compiler.Covered first execution ∧
          compiler.InBounds execution.valuation execution.access) ∧
      (compiler.parseReeDecoder.run first).vars "out_idx" =
        sumRuns (first.arrays "in_len") compiler.batchSize.toNat ∧
      (compiler.parseReeDecoder.run first).arrays "out" =
        writePrefix (first.arrays "out")
          (expansion (first.arrays "in_val") (first.arrays "in_len")
            compiler.batchSize.toNat) ∧
      listing1 compiler.batchSize (first.arrays "in_val") (first.arrays "in_len")
          ⟨first.arrays "out", 0⟩ =
        ⟨(compiler.parseReeDecoder.run first).arrays "out",
          (compiler.parseReeDecoder.run first).vars "out_idx"⟩ := by
  have decoding := decoding_run compiler input.outIdx input.log
  have same := run_eq_listing1 compiler first
  rw [input.outIdx] at same
  refine ⟨verifySafety_parseReeDecoder compiler, ?_, ?_, decoding.out, ?_⟩
  · intro execution executed
    obtain ⟨row, atRow⟩ := decoding.log execution executed
    have covered := atRow.covered input
    exact ⟨covered, covered.inBounds⟩
  · rw [decoding.outIdx, expansion_length]
  · rw [same.out, same.outIdx]

/-- A call with `in_val = [7, 9]`, `in_len = [2, 0]`. -/
def sampleInput : DecoderState where
  vars := fun _ => 0
  arrays := fun name index =>
    if name = "in_val" then if index = 0 then 7 else 9
    else if name = "in_len" then if index = 0 then 2 else 0
    else 0
  log := []

theorem parseReeDecoder_decodes_sample :
    ((⟨2, 3⟩ : SPNEDMicroCompiler).parseReeDecoder.run sampleInput).vars "out_idx" = 2 ∧
      ((⟨2, 3⟩ : SPNEDMicroCompiler).parseReeDecoder.run sampleInput).arrays "out" =
        writePrefix (fun _ => 0) [7, 7] := by
  have input : (⟨2, 3⟩ : SPNEDMicroCompiler).DecoderInput sampleInput :=
    ⟨by decide, by decide, fun k _ => by
      by_cases zero : k = 0 <;> simp [sampleInput, zero], rfl, rfl⟩
  obtain ⟨-, -, outIdx, out, -⟩ := parseReeDecoder_decodes ⟨2, 3⟩ sampleInput input
  exact ⟨outIdx, out⟩

/-- Read for every access, the three intervals fail a decoder without capacity:
the load of the only, empty run finds `out_idx` at zero, above the end `-1` of
its interval. -/
theorem not_intervals_of_zero_maxRunLen :
    ¬∀ (compiler : SPNEDMicroCompiler) (first : DecoderState), compiler.DecoderInput first →
      ∀ execution ∈ (compiler.parseReeDecoder.run first).log,
        0 ≤ execution.valuation "out_idx" ∧
          execution.valuation "out_idx" ≤ compiler.outCapacity - 1 := by
  intro always
  let zeros : DecoderState := ⟨fun _ => 0, fun _ _ => 0, []⟩
  have input : (⟨1, 0⟩ : SPNEDMicroCompiler).DecoderInput zeros :=
    ⟨by decide, by decide, fun _ _ => le_refl 0, rfl, rfl⟩
  have loaded : ⟨⟨"in_val", .var "i"⟩, Function.update zeros.vars "i" 0⟩ ∈
      ((⟨1, 0⟩ : SPNEDMicroCompiler).parseReeDecoder.run zeros).log := by
    rw [run_parseReeDecoder, countedLoop_of_lt (by decide),
      countedLoop_of_le (by decide)]
    exact List.mem_cons_self
  exact absurd (always ⟨1, 0⟩ zeros input _ loaded).2 (by decide)

end SPNEDMicroCompiler

end Spned.MicroCompiler
