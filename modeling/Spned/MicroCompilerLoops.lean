import Mathlib.Data.Int.Range
import Spned.MicroCompilerExactness

/-!
# Concrete runs of loop programs

`ForLoop(v, s, e, body)` runs `body` for `v = s, …, e - 1`, with `s` and `e`
evaluated in the enclosing valuation.  The verifier ignores the iterator and
both bounds: it reads every name from its fixed environment.  A run is therefore
in bounds when its accesses stay inside that environment, and a name with a
value outside of it is enough to leave an array.
-/

namespace Spned.MicroCompiler

open IntervalDomain

/-- One executed access with the valuation it was executed under. -/
structure Execution where
  access : Access
  valuation : String → Int

mutual

def ASTNode.executions (valuation : String → Int) : ASTNode → List Execution
  | .arrayLoad arrayName index => [⟨⟨arrayName, index⟩, valuation⟩]
  | .arrayStore arrayName index _ => [⟨⟨arrayName, index⟩, valuation⟩]
  | .forLoop iterator start stop body =>
      match start.eval valuation, stop.eval valuation with
      | some lower, some upper =>
          (Int.range lower upper).flatMap fun counter =>
            bodyExecutions (Function.update valuation iterator counter) body
      | _, _ => []
  | .const _ | .var _ | .add _ _ => []

def bodyExecutions (valuation : String → Int) : List ASTNode → List Execution
  | [] => []
  | stmt :: rest => stmt.executions valuation ++ bodyExecutions valuation rest

end

theorem mem_bodyExecutions {valuation : String → Int} {body : List ASTNode}
    {execution : Execution} :
    execution ∈ bodyExecutions valuation body ↔
      ∃ stmt ∈ body, execution ∈ stmt.executions valuation :=
  mem_collectBody_iff rfl fun _ _ => rfl

/-- Loop nests whose indices and bounds are sums over the iterators in scope,
with no access inside an expression and every array declared. -/
inductive SPNEDMicroCompiler.LoopProgram (compiler : SPNEDMicroCompiler) :
    List String → ASTNode → Prop where
  | arrayLoad {scope arrayName index} (sum : index.IsSum)
      (closed : ∀ name ∈ index.vars, name ∈ scope)
      (declared : compiler.Declares ⟨arrayName, index⟩) :
      LoopProgram compiler scope (.arrayLoad arrayName index)
  | arrayStore {scope arrayName index value} (sum : index.IsSum)
      (closed : ∀ name ∈ index.vars, name ∈ scope) (valueSum : value.IsSum)
      (declared : compiler.Declares ⟨arrayName, index⟩) :
      LoopProgram compiler scope (.arrayStore arrayName index value)
  | forLoop {scope iterator start stop body} (startSum : start.IsSum) (stopSum : stop.IsSum)
      (startClosed : ∀ name ∈ start.vars, name ∈ scope)
      (stopClosed : ∀ name ∈ stop.vars, name ∈ scope)
      (bodyProgram : ∀ stmt ∈ body, LoopProgram compiler (iterator :: scope) stmt) :
      LoopProgram compiler scope (.forLoop iterator start stop body)

namespace SPNEDMicroCompiler

variable {compiler : SPNEDMicroCompiler}

/-- Every executed access is an occurrence in statement position, with an index
that is a sum. -/
theorem LoopProgram.execution_access {scope : List String} {node : ASTNode}
    (program : compiler.LoopProgram scope node) {valuation : String → Int}
    {execution : Execution} (executed : execution ∈ node.executions valuation) :
    execution.access ∈ node.statementAccesses ∧ execution.access.index.IsSum := by
  induction program generalizing valuation with
  | arrayLoad sum _ _ =>
      cases List.mem_singleton.mp executed
      exact ⟨List.mem_singleton.mpr rfl, sum⟩
  | arrayStore sum _ _ _ =>
      cases List.mem_singleton.mp executed
      exact ⟨List.mem_singleton.mpr rfl, sum⟩
  | @forLoop scope iterator start stop body _ _ _ _ bodyProgram bodyIH =>
      rw [ASTNode.executions] at executed
      split at executed
      · obtain ⟨counter, _, inBody⟩ := List.mem_flatMap.mp executed
        obtain ⟨stmt, stmtMem, inStmt⟩ := mem_bodyExecutions.mp inBody
        have occurrence := bodyIH stmt stmtMem inStmt
        exact ⟨mem_bodyStatementAccesses.mpr ⟨stmt, stmtMem, occurrence.1⟩, occurrence.2⟩
      · cases executed

/-- An accepted program stays in bounds along every run whose accesses read
only values the environment of the verifier allows. -/
theorem LoopProgram.executions_inBounds {scope : List String} {ast : ASTNode}
    (program : compiler.LoopProgram scope ast) (accepted : compiler.verifySafety ast = .ok true)
    {valuation : String → Int}
    (within : ∀ execution ∈ ast.executions valuation,
      ∀ name ∈ execution.access.index.vars,
        (compiler.envGet name).Contains (execution.valuation name)) :
    ∀ execution ∈ ast.executions valuation,
      compiler.InBounds execution.valuation execution.access := by
  intro execution executed
  obtain ⟨occurs, sum⟩ := program.execution_access executed
  have passes := (verifySafety_eq_ok_iff ast).mp accepted execution.access occurs
  exact inBounds_of_passes sum passes (within execution executed)

/-! ## Leaving the environment -/

/-- `for name in value .. value + 1: out[name + shift]`. -/
def escapeProgram (name : String) (value shift : Int) : ASTNode :=
  .forLoop name (.const value) (.const (value + 1))
    [.arrayLoad "out" (.add (.var name) (.const shift))]

theorem loopProgram_single_load {name arrayName : String} {lower upper : Int}
    {index : ASTNode} (sum : index.IsSum) (closed : ∀ other ∈ index.vars, other = name)
    (declared : compiler.Declares ⟨arrayName, index⟩) :
    compiler.LoopProgram []
      (.forLoop name (.const lower) (.const upper) [.arrayLoad arrayName index]) := by
  apply LoopProgram.forLoop (by rfl) (by rfl)
  · simp [ASTNode.vars, ASTNode.toSum, SumExpr.vars]
  · simp [ASTNode.vars, ASTNode.toSum, SumExpr.vars]
  · intro stmt member
    obtain rfl := List.mem_singleton.mp member
    exact LoopProgram.arrayLoad sum (by simpa using closed) declared

theorem escapeProgram_isLoopProgram (name : String) (value shift : Int) :
    compiler.LoopProgram [] (escapeProgram name value shift) :=
  loopProgram_single_load (by rfl) (by simp [ASTNode.vars, ASTNode.toSum, SumExpr.vars])
    ⟨compiler.outCapacity, by simp [arrays, List.lookup_cons]⟩

theorem verifySafety_escapeProgram {name : String} {value shift : Int}
    (shiftNonneg : 0 ≤ shift)
    (fits : compiler.envHigh name + shift < compiler.outCapacity) :
    compiler.verifySafety (escapeProgram name value shift) = .ok true := by
  rw [verifySafety_eq_ok_iff]
  intro access member
  obtain rfl : access = ⟨"out", .add (.var name) (.const shift)⟩ := by
    simpa [escapeProgram, ASTNode.statementAccesses, bodyStatementAccesses] using member
  refine ⟨compiler.outCapacity, by simp [arrays, List.lookup_cons], ?_, ?_⟩
  · simpa [evaluate, envGet_eq] using shiftNonneg
  · simp only [evaluate, envGet_eq, Interval.high_add]
    exact_mod_cast fits

theorem executions_escapeProgram (valuation : String → Int) (name : String)
    (value shift : Int) :
    (escapeProgram name value shift).executions valuation =
      [⟨⟨"out", .add (.var name) (.const shift)⟩, Function.update valuation name value⟩] := by
  simp [escapeProgram, ASTNode.executions, bodyExecutions, ASTNode.eval, ASTNode.toSum,
    SumExpr.eval, Int.range]

theorem not_inBounds_escapeProgram {valuation : String → Int} {name : String} {shift : Int}
    (outside : valuation name + shift < 0 ∨ compiler.outCapacity ≤ valuation name + shift) :
    ¬ compiler.InBounds valuation ⟨"out", .add (.var name) (.const shift)⟩ := by
  rintro ⟨size, value, declared, evaluates, above, below⟩
  have sizeEq : compiler.outCapacity = size := by
    simpa [arrays, List.lookup_cons] using declared
  have valueEq : valuation name + shift = value := by
    simpa [ASTNode.eval, ASTNode.toSum, SumExpr.eval] using evaluates
  omega

theorem envHigh_lt_outCapacity (batchPos : 1 ≤ compiler.batchSize)
    (runPos : 1 ≤ compiler.maxRunLen) (name : String) :
    compiler.envHigh name < compiler.outCapacity := by
  have batchLe : compiler.batchSize ≤ compiler.outCapacity :=
    le_mul_of_one_le_right (by omega) runPos
  have runLe : compiler.maxRunLen ≤ compiler.outCapacity :=
    le_mul_of_one_le_left (by omega) batchPos
  unfold envHigh
  split_ifs <;> omega

/-- Any value outside the environment, bound to its name by a loop, takes some
accepted program out of bounds. -/
theorem exists_accepted_escape (batchPos : 1 ≤ compiler.batchSize)
    (runPos : 1 ≤ compiler.maxRunLen) {name : String} {value : Int}
    (outside : ¬ (compiler.envGet name).Contains value) :
    ∃ ast, compiler.LoopProgram [] ast ∧ compiler.verifySafety ast = .ok true ∧
      ∀ valuation, ∃ execution ∈ ast.executions valuation,
        execution.valuation name = value ∧
          ¬ compiler.InBounds execution.valuation execution.access := by
  have highLt := envHigh_lt_outCapacity batchPos runPos name
  have highNonneg := envHigh_nonneg batchPos runPos name
  have leaves : ∃ shift, 0 ≤ shift ∧ compiler.envHigh name + shift < compiler.outCapacity ∧
      (value + shift < 0 ∨ compiler.outCapacity ≤ value + shift) := by
    rw [envGet_contains_iff, not_and_or] at outside
    rcases outside with negative | large
    · exact ⟨0, by omega, by omega, Or.inl (by omega)⟩
    · exact ⟨compiler.outCapacity - 1 - compiler.envHigh name, by omega, by omega,
        Or.inr (by omega)⟩
  obtain ⟨shift, shiftNonneg, fits, escapes⟩ := leaves
  refine ⟨escapeProgram name value shift, escapeProgram_isLoopProgram name value shift,
    verifySafety_escapeProgram shiftNonneg fits, fun valuation => ?_⟩
  rw [executions_escapeProgram]
  refine ⟨_, List.mem_singleton.mpr rfl, by simp, ?_⟩
  exact not_inBounds_escapeProgram (by simpa using escapes)

/-- Acceptance is sound along every run whose accesses stay inside the
environment of the verifier, and no single value outside of it can be let in:
some accepted program then leaves an array. -/
theorem verifySafety_sound_inside_env (batchPos : 1 ≤ compiler.batchSize)
    (runPos : 1 ≤ compiler.maxRunLen) :
    (∀ ast, compiler.LoopProgram [] ast → compiler.verifySafety ast = .ok true →
      ∀ valuation,
        (∀ execution ∈ ast.executions valuation, ∀ name ∈ execution.access.index.vars,
          (compiler.envGet name).Contains (execution.valuation name)) →
        ∀ execution ∈ ast.executions valuation,
          compiler.InBounds execution.valuation execution.access) ∧
    (∀ name value, ¬ (compiler.envGet name).Contains value →
      ∃ ast, compiler.LoopProgram [] ast ∧ compiler.verifySafety ast = .ok true ∧
        ∀ valuation, ∃ execution ∈ ast.executions valuation,
          execution.valuation name = value ∧
            ¬ compiler.InBounds execution.valuation execution.access) :=
  ⟨fun _ program accepted _ within => program.executions_inBounds accepted within,
    fun _ _ outside => exists_accepted_escape batchPos runPos outside⟩

theorem verifySafety_sound_inside_env_scan :
    let compiler : SPNEDMicroCompiler := ⟨2, 2⟩
    let ast : ASTNode := .forLoop "i" (.const 0) (.const 2) [.arrayLoad "in_val" (.var "i")]
    (∀ execution ∈ ast.executions (fun _ => 0),
      compiler.InBounds execution.valuation execution.access) ∧
    ∃ ast, compiler.LoopProgram [] ast ∧ compiler.verifySafety ast = .ok true ∧
      ∀ valuation, ∃ execution ∈ ast.executions valuation,
        execution.valuation "i" = 2 ∧
          ¬ compiler.InBounds execution.valuation execution.access := by
  intro compiler ast
  have sound := @verifySafety_sound_inside_env compiler (by decide) (by decide)
  refine ⟨sound.1 ast ?_ rfl _ ?_, sound.2 "i" 2 ?_⟩
  · exact loopProgram_single_load (by rfl)
      (by simp [ASTNode.vars, ASTNode.toSum, SumExpr.vars]) ⟨2, rfl⟩
  · simp [ast, ASTNode.executions, bodyExecutions, ASTNode.eval, ASTNode.toSum, ASTNode.vars,
      SumExpr.eval, SumExpr.vars, Int.range, List.range_succ, envGet_contains_iff, envHigh,
      compiler]
  · simp [envGet_contains_iff, envHigh, compiler]

/-- `for k in 0 .. 2: in_val[k]` over an array of one cell is accepted: `k` is
unknown to the environment, which takes it for zero. -/
theorem verifySafety_accepts_unknown_iterator :
    let compiler : SPNEDMicroCompiler := ⟨1, 1⟩
    let ast : ASTNode := .forLoop "k" (.const 0) (.const 2) [.arrayLoad "in_val" (.var "k")]
    compiler.LoopProgram [] ast ∧ compiler.verifySafety ast = .ok true ∧
      ∃ execution ∈ ast.executions (fun _ => 0),
        ¬ compiler.InBounds execution.valuation execution.access := by
  intro compiler ast
  refine ⟨?_, rfl, ⟨⟨"in_val", .var "k"⟩, Function.update (fun _ => 0) "k" 1⟩, ?_, ?_⟩
  · exact loopProgram_single_load (by rfl)
      (by simp [ASTNode.vars, ASTNode.toSum, SumExpr.vars]) ⟨1, rfl⟩
  · simp [ast, ASTNode.executions, bodyExecutions, ASTNode.eval, ASTNode.toSum, SumExpr.eval,
      Int.range, List.range_succ]
  · simp [InBounds, arrays, ASTNode.eval, ASTNode.toSum, SumExpr.eval, compiler]

end SPNEDMicroCompiler

end Spned.MicroCompiler
