import Spned.MicroCompilerExactness
import Spned.UnifiedVerifier

/-!
# What the Python verifiers report

Both verifiers stop at the first access that fails, in the order of the text.
`verify_ast` reports an access of an undeclared array or one whose variable no
loop has bound so far, whatever `total_tuples` is; `verify_safety` reports an
access that some valuation of its environment takes out of the array, and
everything before it is safe under all of them.
-/

namespace Spned.UnifiedToolchain

/-- An access as `verify_ast` meets it, and whether a loop entered before has
bound its variable. -/
structure Visit where
  name : String
  bound : Bool
  deriving DecidableEq

mutual

def ASTNode.visits (scope : List String) : ASTNode → List Visit
  | .arrayAccess name idxVar => [⟨name, decide (idxVar ∈ scope)⟩]
  | .loop boundVar body => bodyVisits (boundVar :: scope) body
  | .selectiveLoop boundVar _ body => bodyVisits (boundVar :: "out_idx" :: scope) body

def bodyVisits (scope : List String) : List ASTNode → List Visit
  | [] => []
  | stmt :: rest => stmt.visits scope ++ bodyVisits (stmt.binders ++ scope) rest

end

namespace SPNEDUnifiedCompiler

variable (compiler : SPNEDUnifiedCompiler)

/-- What is raised at the access. -/
def fault (visit : Visit) : Option PyError :=
  match compiler.arrays.lookup visit.name with
  | none => some (.keyError visit.name)
  | some _ =>
      if visit.bound then none
      else some (.valueError ("Bounds Check Failed for " ++ visit.name ++ " at [0, inf]"))

/-- The dict with the given names bound. -/
def dict (names : List String) : Env :=
  fun name => if name ∈ names then some compiler.counterInterval else none

/-- The result of a walk that binds `names`, given the first fault. -/
def outcome (names : List String) : Option PyError → Except PyError Env
  | none => .ok (compiler.dict names)
  | some raised => .error raised

variable {compiler}

theorem dict_congr {first second : List String}
    (same : ∀ name, name ∈ first ↔ name ∈ second) : compiler.dict first = compiler.dict second := by
  funext name
  simp only [dict, same]

theorem update_dict (bound : String) (names : List String) :
    Function.update (compiler.dict names) bound (some compiler.counterInterval) =
      compiler.dict (bound :: names) := by
  funext name
  by_cases same : name = bound
  · simp [dict, same]
  · simp [dict, same]

theorem lookup_eq_some {name : String} {size : Int}
    (declared : compiler.arrays.lookup name = some size) : size = compiler.totalTuples := by
  simp only [arrays, List.lookup_cons, List.lookup_nil] at declared
  split at declared
  · exact (Option.some.inj declared).symm
  · split at declared
    · exact (Option.some.inj declared).symm
    · cases declared

theorem verifyAst_arrayAccess (scope : List String) (name idxVar : String) :
    compiler.verifyAst (compiler.dict scope) (.arrayAccess name idxVar) =
      compiler.outcome scope (compiler.fault ⟨name, decide (idxVar ∈ scope)⟩) := by
  have infinite : Interval.repr ⟨0, ⊤⟩ = "[0, inf]" := rfl
  have inside : compiler.counterInterval.reaches compiler.totalTuples = false :=
    IntervalDomain.Interval.reaches_eq_false_iff.mpr (WithTop.coe_lt_coe.mpr (by omega))
  have nonneg : ¬ compiler.counterInterval.low < 0 := lt_irrefl 0
  cases declared : compiler.arrays.lookup name with
  | none =>
      by_cases bound : idxVar ∈ scope <;>
        simp [verifyAst, dict, bound, boundsCheck, declared, nonneg, fault, outcome, Bind.bind,
          Except.bind]
  | some size =>
      obtain rfl := lookup_eq_some declared
      by_cases bound : idxVar ∈ scope
      · simp [verifyAst, dict, bound, boundsCheck, declared, nonneg, inside, fault, outcome,
          Bind.bind, Except.bind, pure, Except.pure]
      · simp [verifyAst, dict, bound, boundsCheck, declared, infinite, fault, outcome, Bind.bind,
          Except.bind, String.append_assoc]

theorem verifyBody_eq {body : List ASTNode}
    (stmtEq : ∀ stmt ∈ body, ∀ scope, compiler.verifyAst (compiler.dict scope) stmt =
      compiler.outcome (stmt.binders ++ scope) ((stmt.visits scope).findSome? compiler.fault))
    (scope : List String) :
    compiler.verifyBody (compiler.dict scope) body =
      compiler.outcome (bodyBinders body ++ scope)
        ((bodyVisits scope body).findSome? compiler.fault) := by
  induction body generalizing scope with
  | nil => rfl
  | cons stmt rest ih =>
      have restEq := ih (fun other member => stmtEq other (by simp [member]))
        (stmt.binders ++ scope)
      have same : compiler.dict (bodyBinders rest ++ (stmt.binders ++ scope)) =
          compiler.dict (bodyBinders (stmt :: rest) ++ scope) := by
        apply dict_congr
        intro name
        simp only [bodyBinders, List.mem_append]
        grind
      rw [verifyBody, stmtEq stmt (by simp), bodyVisits, List.findSome?_append]
      cases (stmt.visits scope).findSome? compiler.fault with
      | some raised => rfl
      | none =>
          simp only [outcome, Bind.bind, Except.bind, Option.none_or] at restEq ⊢
          rw [restEq, same]

/-- From a dict that binds `scope`, the walk raises the first fault of its
visits or binds the binders of the tree. -/
theorem verifyAst_eq (node : ASTNode) (scope : List String) :
    compiler.verifyAst (compiler.dict scope) node =
      compiler.outcome (node.binders ++ scope)
        ((node.visits scope).findSome? compiler.fault) := by
  induction node generalizing scope with
  | arrayAccess name idxVar =>
      rw [verifyAst_arrayAccess, ASTNode.visits, List.findSome?_singleton]
      rfl
  | loop boundVar body bodyIH =>
      have same : compiler.dict (bodyBinders body ++ boundVar :: scope) =
          compiler.dict ((ASTNode.loop boundVar body).binders ++ scope) := by
        apply dict_congr
        intro name
        simp only [ASTNode.binders, List.mem_append, List.mem_cons]
        grind
      rw [verifyAst, update_dict, verifyBody_eq bodyIH, ASTNode.visits]
      simp only [outcome, same]
  | selectiveLoop boundVar predVar body bodyIH =>
      have swapped : compiler.dict ("out_idx" :: boundVar :: scope) =
          compiler.dict (boundVar :: "out_idx" :: scope) := by
        apply dict_congr
        intro name
        simp only [List.mem_cons]
        grind
      have same : compiler.dict (bodyBinders body ++ boundVar :: "out_idx" :: scope) =
          compiler.dict ((ASTNode.selectiveLoop boundVar predVar body).binders ++ scope) := by
        apply dict_congr
        intro name
        simp only [ASTNode.binders, List.mem_append, List.mem_cons]
        grind
      rw [verifyAst, update_dict, update_dict, swapped, verifyBody_eq bodyIH, ASTNode.visits]
      simp only [outcome, same]

/-- `verify_ast(ast, {})` raises at the first access that is unbound or of an
undeclared array, with its name in the error, and otherwise leaves a dict that
binds exactly the loop variables; none of this depends on the size. -/
theorem verifyAst_reports (ast : ASTNode) :
    compiler.verifyAst (fun _ => none) ast =
      match (ast.visits []).findSome? compiler.fault with
      | none => .ok (compiler.dict ast.binders)
      | some raised => .error raised := by
  have empty : (fun _ => none : Env) = compiler.dict [] := by
    funext name
    simp [dict]
  rw [empty, verifyAst_eq, List.append_nil]
  rfl

end SPNEDUnifiedCompiler

end Spned.UnifiedToolchain

namespace Spned.MicroCompiler

/-- An access in statement position, with the words of its message. -/
structure Visit where
  wording : String
  access : Access

mutual

def ASTNode.visits : ASTNode → List Visit
  | .arrayLoad arrayName index => [⟨"越界读取", ⟨arrayName, index⟩⟩]
  | .arrayStore arrayName index _ => [⟨"越界写入", ⟨arrayName, index⟩⟩]
  | .forLoop _ _ _ body => bodyVisits body
  | .const _ | .var _ | .add _ _ => []

def bodyVisits : List ASTNode → List Visit
  | [] => []
  | stmt :: rest => stmt.visits ++ bodyVisits rest

end

theorem bodyVisits_map {body : List ASTNode}
    (stmtMap : ∀ stmt ∈ body, stmt.visits.map Visit.access = stmt.statementAccesses) :
    (bodyVisits body).map Visit.access = bodyStatementAccesses body := by
  induction body with
  | nil => rfl
  | cons stmt rest ih =>
      rw [bodyVisits, bodyStatementAccesses, List.map_append, stmtMap stmt (by simp),
        ih fun other member => stmtMap other (by simp [member])]

theorem ASTNode.visits_map (node : ASTNode) :
    node.visits.map Visit.access = node.statementAccesses := by
  induction node with
  | const val => rfl
  | var name => rfl
  | add left right => rfl
  | arrayLoad arrayName index => rfl
  | arrayStore arrayName index value => rfl
  | forLoop iterator start stop body startIH stopIH bodyIH => exact bodyVisits_map bodyIH

namespace SPNEDMicroCompiler

variable (compiler : SPNEDMicroCompiler)

def message (visit : Visit) : String :=
  "[验证失败] " ++ visit.wording ++ " " ++ visit.access.arrayName ++ ": 索引 " ++
    (compiler.evaluate visit.access.index).repr

/-- What is raised at the access. -/
def fault (visit : Visit) : Option PyError :=
  match compiler.checkAccess visit.wording visit.access.arrayName visit.access.index with
  | .ok _ => none
  | .error raised => some raised

/-- The result of a walk, given the first fault. -/
def outcome : Option PyError → Except PyError Unit
  | none => .ok ()
  | some raised => .error raised

variable {compiler}

theorem checkAccess_eq (visit : Visit) :
    compiler.checkAccess visit.wording visit.access.arrayName visit.access.index =
      outcome (compiler.fault visit) := by
  unfold fault
  cases compiler.checkAccess visit.wording visit.access.arrayName visit.access.index <;> rfl

theorem traverseBody_eq {body : List ASTNode}
    (stmtEq : ∀ stmt ∈ body, compiler.traverseAndVerify stmt =
      outcome (stmt.visits.findSome? compiler.fault)) :
    compiler.traverseBody body = outcome ((bodyVisits body).findSome? compiler.fault) := by
  induction body with
  | nil => rfl
  | cons stmt rest ih =>
      rw [traverseBody, stmtEq stmt (by simp), bodyVisits, List.findSome?_append,
        ih fun other member => stmtEq other (by simp [member])]
      cases stmt.visits.findSome? compiler.fault <;> rfl

theorem traverseAndVerify_eq (node : ASTNode) :
    compiler.traverseAndVerify node = outcome (node.visits.findSome? compiler.fault) := by
  induction node with
  | const val => rfl
  | var name => rfl
  | add left right => rfl
  | arrayLoad arrayName index =>
      rw [ASTNode.visits, List.findSome?_singleton]
      exact checkAccess_eq ⟨_, ⟨arrayName, index⟩⟩
  | arrayStore arrayName index value =>
      rw [ASTNode.visits, List.findSome?_singleton]
      exact checkAccess_eq ⟨_, ⟨arrayName, index⟩⟩
  | forLoop iterator start stop body startIH stopIH bodyIH => exact traverseBody_eq bodyIH

theorem verifySafety_eq_error_iff {ast : ASTNode} {raised : PyError} :
    compiler.verifySafety ast = .error raised ↔
      ast.visits.findSome? compiler.fault = some raised := by
  rw [verifySafety, traverseAndVerify_eq]
  cases ast.visits.findSome? compiler.fault <;>
    simp [outcome, Bind.bind, Except.bind, pure, Except.pure]

theorem fault_eq_none_iff {visit : Visit} :
    compiler.fault visit = none ↔ compiler.Passes visit.access := by
  rw [← checkAccess_eq_ok_iff, checkAccess_eq]
  cases compiler.fault visit <;> simp [outcome]

theorem fault_of_not_passes {visit : Visit} (declared : compiler.Declares visit.access)
    (fails : ¬ compiler.Passes visit.access) :
    compiler.fault visit = some (.valueError (compiler.message visit)) := by
  obtain ⟨size, sizeEq⟩ := declared
  have checked : compiler.checkAccess visit.wording visit.access.arrayName visit.access.index =
      .error (.valueError (compiler.message visit)) :=
    boundsCheck_eq_error sizeEq fun within => fails ⟨size, sizeEq, within⟩
  rw [fault, checked]

/-- The error of `verify_safety` names an access that some valuation of its
environment takes out of the array; the accesses before it are safe under every
valuation. -/
theorem verifySafety_blames (batchPos : 1 ≤ compiler.batchSize)
    (runPos : 1 ≤ compiler.maxRunLen) {ast : ASTNode}
    (sums : ∀ access ∈ ast.statementAccesses, access.index.IsSum)
    (declared : ∀ access ∈ ast.statementAccesses, compiler.Declares access) (raised : PyError) :
    compiler.verifySafety ast = .error raised ↔
      ∃ before visit after, ast.visits = before ++ visit :: after ∧
        (∀ earlier ∈ before, ∀ valuation, compiler.InEnv valuation →
          compiler.InBounds valuation earlier.access) ∧
        (∃ valuation, compiler.InEnv valuation ∧ ¬ compiler.InBounds valuation visit.access) ∧
        raised = .valueError (compiler.message visit) := by
  have visited : ∀ visit ∈ ast.visits, visit.access ∈ ast.statementAccesses := by
    intro visit member
    rw [← ast.visits_map]
    exact List.mem_map_of_mem member
  have passes_iff : ∀ visit ∈ ast.visits, (compiler.Passes visit.access ↔
      ∀ valuation, compiler.InEnv valuation → compiler.InBounds valuation visit.access) :=
    fun visit member => passes_iff_forall_inBounds batchPos runPos
      (sums _ (visited visit member)) (declared _ (visited visit member))
  rw [verifySafety_eq_error_iff, List.findSome?_eq_some_iff]
  constructor
  · rintro ⟨before, visit, after, split, raises, quiet⟩
    have member : visit ∈ ast.visits := by simp [split]
    have fails : ¬ compiler.Passes visit.access := by
      rw [← fault_eq_none_iff, raises]
      exact Option.some_ne_none raised
    refine ⟨before, visit, after, split, fun earlier earlierMem => ?_, ?_, ?_⟩
    · have earlierVisited : earlier ∈ ast.visits := by simp [split, earlierMem]
      exact (passes_iff earlier earlierVisited).mp (fault_eq_none_iff.mp (quiet earlier earlierMem))
    · have violated := mt (passes_iff visit member).mpr fails
      push Not at violated
      exact violated
    · rw [fault_of_not_passes (declared _ (visited visit member)) fails] at raises
      exact (Option.some.inj raises).symm
  · rintro ⟨before, visit, after, split, safe, ⟨valuation, inside, leaves⟩, rfl⟩
    have member : visit ∈ ast.visits := by simp [split]
    have fails : ¬ compiler.Passes visit.access := fun passes =>
      leaves ((passes_iff visit member).mp passes valuation inside)
    refine ⟨before, visit, after, split,
      fault_of_not_passes (declared _ (visited visit member)) fails, fun earlier earlierMem => ?_⟩
    have earlierVisited : earlier ∈ ast.visits := by simp [split, earlierMem]
    exact fault_eq_none_iff.mpr ((passes_iff earlier earlierVisited).mpr (safe earlier earlierMem))

/-- A scan that stores one cell too far, before an access that fails as well. -/
theorem verifySafety_blames_store :
    let compiler : SPNEDMicroCompiler := ⟨2, 3⟩
    let ast : ASTNode := .forLoop "i" (.const 0) (.const 2)
      [.arrayLoad "in_val" (.var "i"),
        .arrayStore "out" (.add (.var "out_idx") (.const 1)) (.var "val"),
        .arrayLoad "in_len" (.const 7)]
    compiler.verifySafety ast = .error (.valueError "[验证失败] 越界写入 out: 索引 [1, 6]") ∧
      ∃ visit ∈ ast.visits,
        (∃ valuation, compiler.InEnv valuation ∧ ¬ compiler.InBounds valuation visit.access) ∧
        compiler.message visit = "[验证失败] 越界写入 out: 索引 [1, 6]" := by
  intro compiler ast
  have raised : compiler.verifySafety ast =
      .error (.valueError "[验证失败] 越界写入 out: 索引 [1, 6]") :=
    rfl
  have sums : ∀ access ∈ ast.statementAccesses, access.index.IsSum := by
    simp [ast, ASTNode.statementAccesses, bodyStatementAccesses, ASTNode.IsSum, ASTNode.toSum]
  have declared : ∀ access ∈ ast.statementAccesses, compiler.Declares access := by
    simp [ast, ASTNode.statementAccesses, bodyStatementAccesses, Declares, arrays,
      List.lookup_cons]
  obtain ⟨before, visit, after, split, -, violated, message⟩ :=
    (verifySafety_blames (by decide) (by decide) sums declared _).mp raised
  refine ⟨raised, visit, by simp [split], violated, ?_⟩
  injection message with same
  exact same.symm

end SPNEDMicroCompiler

end Spned.MicroCompiler
