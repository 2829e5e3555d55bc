import Spned.ReeDecoder

/-!
# The decoder on unchecked run lengths

`verify_safety` accepts the decoder for every batch, since it never sees the run
lengths.  The bound `max_run_len` on them is a promise of the caller.  Without
it the run still writes the decoded runs one cell after the other, and it stays
inside its arrays exactly when all of them together fit the capacity.
-/

namespace Spned.MicroCompiler

open WrittenPrefix

/-- A state in which Listing 1 may be entered. -/
def decoderStart (vars : String → Int) (arrays : String → Int → Int) : DecoderState where
  vars := Function.update vars "out_idx" 0
  arrays := arrays
  log := []

namespace SPNEDMicroCompiler

variable {compiler : SPNEDMicroCompiler}

/-- A store falls into its row, before the end of the last one. -/
theorem AtRow.store_before_end {first : DecoderState} {row : Nat} {execution : Execution}
    (atRow : compiler.AtRow first row execution)
    (stores : execution.access = ⟨"out", .var "out_idx"⟩) :
    0 ≤ execution.valuation "out_idx" ∧
      execution.valuation "out_idx" <
        sumRuns (first.arrays "in_len") compiler.batchSize.toNat := by
  obtain ⟨inside, -, -, ⟨isVal | isLen, -⟩ | ⟨-, nonneg, below, outIdx⟩⟩ := atRow
  · simp [stores] at isVal
  · simp [stores] at isLen
  · have started := sumRuns_nonneg (first.arrays "in_len") row
    have ended := sumRuns_mono (first.arrays "in_len")
      (by omega : row + 1 ≤ compiler.batchSize.toNat)
    rw [sumRuns_succ] at ended
    omega

theorem inBounds_var_iff {arrayName name : String} {valuation : String → Int} {size : Int}
    (declared : compiler.arrays.lookup arrayName = some size) :
    compiler.InBounds valuation ⟨arrayName, .var name⟩ ↔
      0 ≤ valuation name ∧ valuation name < size := by
  constructor
  · rintro ⟨size', value, declared', evaluates, bounds⟩
    obtain rfl := Option.some.inj (declared.symm.trans declared')
    cases evaluates
    exact bounds
  · intro bounds
    exact ⟨size, valuation name, declared, rfl, bounds⟩

/-- The accepted decoder leaves its arrays exactly when the decoded runs do not
fit the capacity; what it writes is the same in either case. -/
theorem parseReeDecoder_safe_iff (compiler : SPNEDMicroCompiler) (vars : String → Int)
    (arrays : String → Int → Int) :
    let final := compiler.parseReeDecoder.run (decoderStart vars arrays)
    compiler.verifySafety compiler.parseReeDecoder = .ok true ∧
    final.arrays "out" = writePrefix (arrays "out")
      (expansion (arrays "in_val") (arrays "in_len") compiler.batchSize.toNat) ∧
    ((∀ execution ∈ final.log, compiler.InBounds execution.valuation execution.access) ↔
      sumRuns (arrays "in_len") compiler.batchSize.toNat ≤ max 0 compiler.outCapacity) := by
  intro final
  have decoding : compiler.Decoding (decoderStart vars arrays)
      (expansion (arrays "in_val") (arrays "in_len") compiler.batchSize.toNat) final :=
    decoding_run compiler rfl rfl
  have length := expansion_length (arrays "in_val") (arrays "in_len") compiler.batchSize.toNat
  refine ⟨verifySafety_parseReeDecoder compiler, decoding.out, ?_⟩
  constructor
  · intro safe
    by_contra tooLong
    obtain ⟨last, lastEq⟩ : ∃ last : Nat,
        sumRuns (arrays "in_len") compiler.batchSize.toNat = last + 1 :=
      ⟨(sumRuns (arrays "in_len") compiler.batchSize.toNat - 1).toNat, by omega⟩
    obtain ⟨execution, member, stores, atLast⟩ := decoding.stored last (by omega)
    have inside := safe execution member
    rw [stores, inBounds_var_iff rfl, atLast] at inside
    omega
  · intro fits execution member
    obtain ⟨row, atRow⟩ := decoding.log execution member
    have inside := atRow.inside
    have i := atRow.i
    rcases atRow.outIdx with ⟨isVal | isLen, -⟩ | ⟨stores, -⟩
    · rw [isVal, inBounds_var_iff rfl]
      omega
    · rw [isLen, inBounds_var_iff rfl]
      omega
    · have written : 0 ≤ execution.valuation "out_idx" ∧ execution.valuation "out_idx" <
          sumRuns (arrays "in_len") compiler.batchSize.toNat := atRow.store_before_end stores
      rw [stores, inBounds_var_iff rfl]
      omega

end SPNEDMicroCompiler

end Spned.MicroCompiler
