import Spned.MicroCompilerExactness

/-!
# Which accesses the verifier sees

`traverse_and_verify` recurses through statements and `evaluate` through
expressions; neither calls the other on a stored value, on a loop bound or on
an expression that stands as a statement.  An access in such a position is
hidden: the walk never compares its index with an array.  An access inside a
checked index is not visited either, but it makes the interval of that index
infinite, so the check fails.
-/

namespace Spned.MicroCompiler

mutual

def ASTNode.accesses : ASTNode → List Access
  | .const _ | .var _ => []
  | .add left right => left.accesses ++ right.accesses
  | .arrayLoad arrayName index => ⟨arrayName, index⟩ :: index.accesses
  | .arrayStore arrayName index value =>
      ⟨arrayName, index⟩ :: (index.accesses ++ value.accesses)
  | .forLoop _ start stop body => start.accesses ++ stop.accesses ++ bodyAccesses body

def bodyAccesses : List ASTNode → List Access
  | [] => []
  | stmt :: rest => stmt.accesses ++ bodyAccesses rest

end

mutual

/-- The accesses below a stored value, below a loop bound, or below an `Add`
that stands as a statement. -/
def ASTNode.hiddenAccesses : ASTNode → List Access
  | .const _ | .var _ | .arrayLoad _ _ => []
  | .add left right => left.accesses ++ right.accesses
  | .arrayStore _ _ value => value.accesses
  | .forLoop _ start stop body =>
      start.accesses ++ stop.accesses ++ bodyHiddenAccesses body

def bodyHiddenAccesses : List ASTNode → List Access
  | [] => []
  | stmt :: rest => stmt.hiddenAccesses ++ bodyHiddenAccesses rest

end

theorem mem_bodyAccesses {body : List ASTNode} {access : Access} :
    access ∈ bodyAccesses body ↔ ∃ stmt ∈ body, access ∈ stmt.accesses :=
  mem_collectBody_iff rfl fun _ _ => rfl

theorem mem_bodyHiddenAccesses {body : List ASTNode} {access : Access} :
    access ∈ bodyHiddenAccesses body ↔ ∃ stmt ∈ body, access ∈ stmt.hiddenAccesses :=
  mem_collectBody_iff rfl fun _ _ => rfl

/-- An access node is in statement position, hidden, or inside the index of an
access in statement position. -/
theorem ASTNode.mem_accesses_iff (node : ASTNode) {access : Access} :
    access ∈ node.accesses ↔
      access ∈ node.statementAccesses ∨ access ∈ node.hiddenAccesses ∨
        ∃ outer ∈ node.statementAccesses, access ∈ outer.index.accesses := by
  induction node with
  | const val => simp [accesses, statementAccesses, hiddenAccesses]
  | var name => simp [accesses, statementAccesses, hiddenAccesses]
  | add left right => simp [accesses, statementAccesses, hiddenAccesses]
  | arrayLoad arrayName index => simp [accesses, statementAccesses, hiddenAccesses]
  | arrayStore arrayName index value =>
      simp only [accesses, statementAccesses, hiddenAccesses, List.mem_cons,
        List.mem_append, List.not_mem_nil, or_false, exists_eq_left]
      grind
  | forLoop iterator start stop body startIH stopIH bodyIH =>
      simp only [accesses, statementAccesses, hiddenAccesses, List.mem_append,
        mem_bodyAccesses, mem_bodyStatementAccesses, mem_bodyHiddenAccesses]
      constructor
      · rintro (inBounds | ⟨stmt, stmtMem, inStmt⟩)
        · exact Or.inr (Or.inl (Or.inl inBounds))
        · rcases (bodyIH stmt stmtMem).mp inStmt with
            statement | hidden | ⟨outer, outerMem, inIndex⟩
          · exact Or.inl ⟨stmt, stmtMem, statement⟩
          · exact Or.inr (Or.inl (Or.inr ⟨stmt, stmtMem, hidden⟩))
          · exact Or.inr (Or.inr ⟨outer, ⟨stmt, stmtMem, outerMem⟩, inIndex⟩)
      · rintro (⟨stmt, stmtMem, statement⟩ | (inBounds | ⟨stmt, stmtMem, hidden⟩) |
          ⟨outer, ⟨stmt, stmtMem, outerMem⟩, inIndex⟩)
        · exact Or.inr ⟨stmt, stmtMem, (bodyIH stmt stmtMem).mpr (Or.inl statement)⟩
        · exact Or.inl inBounds
        · exact Or.inr ⟨stmt, stmtMem, (bodyIH stmt stmtMem).mpr (Or.inr (Or.inl hidden))⟩
        · exact Or.inr ⟨stmt, stmtMem,
            (bodyIH stmt stmtMem).mpr (Or.inr (Or.inr ⟨outer, outerMem, inIndex⟩))⟩

namespace SPNEDMicroCompiler

variable {compiler : SPNEDMicroCompiler}

/-- A finite interval is evidence that `evaluate` met no access on its way. -/
theorem accesses_eq_nil_of_evaluate {node : ASTNode}
    (finite : (compiler.evaluate node).high ≠ ⊤) : node.accesses = [] := by
  induction node with
  | const val => rfl
  | var name => rfl
  | add left right leftIH rightIH =>
      have sides : (compiler.evaluate left).high ≠ ⊤ ∧ (compiler.evaluate right).high ≠ ⊤ := by
        simpa [evaluate, WithTop.add_eq_top, not_or] using finite
      simp [ASTNode.accesses, leftIH sides.1, rightIH sides.2]
  | arrayLoad arrayName index => exact absurd rfl finite
  | arrayStore arrayName index value => exact absurd rfl finite
  | forLoop iterator start stop body => exact absurd rfl finite

theorem index_accesses_eq_nil_of_passes {access : Access} (passes : compiler.Passes access) :
    access.index.accesses = [] := by
  obtain ⟨size, _, within⟩ := passes
  exact accesses_eq_nil_of_evaluate (ne_top_of_lt within.2)

/-- Acceptance vouches for every access of the tree exactly when each hidden
access happens to pass the check as well (or the tree is rejected anyway, for
an access in statement position). -/
theorem verifySafety_covers_iff (compiler : SPNEDMicroCompiler) (ast : ASTNode) :
    (compiler.verifySafety ast = .ok true → ∀ access ∈ ast.accesses, compiler.Passes access) ↔
      (∃ access ∈ ast.statementAccesses, ¬ compiler.Passes access) ∨
        ∀ access ∈ ast.hiddenAccesses, compiler.Passes access := by
  rw [verifySafety_eq_ok_iff]
  constructor
  · intro covers
    by_cases accepted : ∀ access ∈ ast.statementAccesses, compiler.Passes access
    · exact Or.inr fun access hidden =>
        covers accepted access (ast.mem_accesses_iff.mpr (Or.inr (Or.inl hidden)))
    · push Not at accepted
      exact Or.inl accepted
  · rintro condition accepted access member
    rcases condition with ⟨failing, failingMem, fails⟩ | hiddenPass
    · exact absurd (accepted failing failingMem) fails
    rcases ast.mem_accesses_iff.mp member with statement | hidden | ⟨outer, outerMem, inIndex⟩
    · exact accepted access statement
    · exact hiddenPass access hidden
    · rw [index_accesses_eq_nil_of_passes (accepted outer outerMem)] at inIndex
      cases inIndex

/-- `out[out_idx] = in_val[-1]` is accepted: the load below the stored value is
never looked at. -/
theorem verifySafety_misses_stored_load :
    let compiler : SPNEDMicroCompiler := ⟨1, 1⟩
    let ast : ASTNode := .arrayStore "out" (.var "out_idx") (.arrayLoad "in_val" (.const (-1)))
    (∀ access ∈ ast.accesses, compiler.Declares access) ∧
      compiler.verifySafety ast = .ok true ∧
      ∃ access ∈ ast.accesses, ¬ compiler.Passes access := by
  refine ⟨?_, rfl, ⟨"in_val", .const (-1)⟩, by simp [ASTNode.accesses], ?_⟩
  · simp [ASTNode.accesses, Declares, arrays, List.lookup_cons]
  · simp [Passes, evaluate, IntervalDomain.Interval.Within]

end SPNEDMicroCompiler

end Spned.MicroCompiler
