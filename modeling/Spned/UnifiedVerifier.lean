import Mathlib.Algebra.Order.Ring.Int
import Spned.BoundsCheck

/-!
# The unified toolchain's verifier

`SPNEDUnifiedCompiler.verify_ast` of `spned_unified_toolchain.py`.  The
environment is one mutable dict for the whole tree: a loop writes its binding
on entry and nothing is removed on exit, so the walk passes the dict on from
each statement to the next.
-/

namespace Spned.UnifiedToolchain

inductive ASTNode where
  | arrayAccess (name idxVar : String)
  | loop (boundVar : String) (body : List ASTNode)
  | selectiveLoop (boundVar predVar : String) (body : List ASTNode)

/-- Induction over syntax trees with one hypothesis for each statement of a
loop body. -/
@[elab_as_elim, induction_eliminator]
theorem ASTNode.induction {motive : ASTNode → Prop}
    (arrayAccess : ∀ name idxVar, motive (.arrayAccess name idxVar))
    (loop : ∀ boundVar body, (∀ stmt ∈ body, motive stmt) → motive (.loop boundVar body))
    (selectiveLoop : ∀ boundVar predVar body, (∀ stmt ∈ body, motive stmt) →
      motive (.selectiveLoop boundVar predVar body))
    (node : ASTNode) : motive node :=
  @ASTNode.rec motive (fun body => ∀ stmt ∈ body, motive stmt)
    arrayAccess loop selectiveLoop
    (fun _ member => absurd member List.not_mem_nil)
    (fun _ _ headHolds tailHolds _ member =>
      (List.mem_cons.mp member).elim (fun equal => equal ▸ headHolds) (tailHolds _))
    node

structure SPNEDUnifiedCompiler where
  totalTuples : Int := 100000000

/-- The `env` dict of `verify_ast`. -/
abbrev Env := String → Option Interval

namespace SPNEDUnifiedCompiler

variable (compiler : SPNEDUnifiedCompiler)

def arrays : List (String × Int) :=
  [("in_buf", compiler.totalTuples), ("out_buf", compiler.totalTuples)]

/-- `Interval(0, self.total_tuples - 1)`, the only interval ever bound. -/
def counterInterval : Interval :=
  ⟨0, ((compiler.totalTuples - 1 : Int) : WithTop Int)⟩

mutual

/-- The result is the dict as the call leaves it; the call itself returns
`True` whenever it does not raise. -/
def verifyAst (env : Env) : ASTNode → Except PyError Env
  | .arrayAccess name idxVar => do
      let idxInt := (env idxVar).getD ⟨0, ⊤⟩
      let message := "Bounds Check Failed for " ++ name ++ " at " ++ idxInt.repr
      boundsCheck compiler.arrays message name idxInt
      return env
  | .loop boundVar body =>
      verifyBody (Function.update env boundVar (some compiler.counterInterval)) body
  | .selectiveLoop boundVar _ body =>
      verifyBody
        (Function.update
          (Function.update env boundVar (some compiler.counterInterval))
          "out_idx" (some compiler.counterInterval))
        body

/-- `for stmt in ast_node.body: self.verify_ast(stmt, env)`. -/
def verifyBody (env : Env) : List ASTNode → Except PyError Env
  | [] => .ok env
  | stmt :: rest => do
      let env ← verifyAst env stmt
      verifyBody env rest

end

/-- `verify_ast(ast, {})` returns `True`. -/
def Accepts (ast : ASTNode) : Prop :=
  ∃ env, compiler.verifyAst (fun _ => none) ast = .ok env

end SPNEDUnifiedCompiler

/-! ## Binding order -/

mutual

def ASTNode.arrayNames : ASTNode → List String
  | .arrayAccess name _ => [name]
  | .loop _ body => bodyArrayNames body
  | .selectiveLoop _ _ body => bodyArrayNames body

def bodyArrayNames : List ASTNode → List String
  | [] => []
  | stmt :: rest => stmt.arrayNames ++ bodyArrayNames rest

end

/-- The tree accesses `in_buf` and `out_buf` only. -/
def ASTNode.KnownArrays (node : ASTNode) : Prop :=
  ∀ name ∈ node.arrayNames, name = "in_buf" ∨ name = "out_buf"

mutual

/-- The names bound in the dict by walking the statement. -/
def ASTNode.binders : ASTNode → List String
  | .arrayAccess _ _ => []
  | .loop boundVar body => boundVar :: bodyBinders body
  | .selectiveLoop boundVar _ body => boundVar :: "out_idx" :: bodyBinders body

def bodyBinders : List ASTNode → List String
  | [] => []
  | stmt :: rest => stmt.binders ++ bodyBinders rest

end

mutual

/-- Every access reads a name in scope.  A loop adds its own names for its body;
of a statement that is finished, the names it `leaves` stay in scope. -/
def ASTNode.Scoped (leaves : ASTNode → List String) (scope : List String) : ASTNode → Prop
  | .arrayAccess _ idxVar => idxVar ∈ scope
  | .loop boundVar body => BodyScoped leaves (boundVar :: scope) body
  | .selectiveLoop boundVar _ body => BodyScoped leaves (boundVar :: "out_idx" :: scope) body

def BodyScoped (leaves : ASTNode → List String) (scope : List String) : List ASTNode → Prop
  | [] => True
  | stmt :: rest => stmt.Scoped leaves scope ∧ BodyScoped leaves (leaves stmt ++ scope) rest

end

/-- Every access reads a name that is in scope or is bound by a loop entered
earlier in the walk, whether that loop encloses the access or not. -/
def ASTNode.BoundBefore (scope : List String) (node : ASTNode) : Prop :=
  node.Scoped ASTNode.binders scope

def BodyBoundBefore (scope : List String) (body : List ASTNode) : Prop :=
  BodyScoped ASTNode.binders scope body

theorem mem_bodyArrayNames {body : List ASTNode} {name : String} :
    name ∈ bodyArrayNames body ↔ ∃ stmt ∈ body, name ∈ stmt.arrayNames :=
  mem_collectBody_iff rfl fun _ _ => rfl

theorem knownArrays_loop_iff {boundVar : String} {body : List ASTNode} :
    (ASTNode.loop boundVar body).KnownArrays ↔ ∀ stmt ∈ body, stmt.KnownArrays := by
  simp only [ASTNode.KnownArrays, ASTNode.arrayNames, mem_bodyArrayNames]
  exact ⟨fun known stmt stmtMem name nameMem => known name ⟨stmt, stmtMem, nameMem⟩,
    fun known name ⟨stmt, stmtMem, nameMem⟩ => known stmt stmtMem name nameMem⟩

theorem knownArrays_selectiveLoop_iff {boundVar predVar : String} {body : List ASTNode} :
    (ASTNode.selectiveLoop boundVar predVar body).KnownArrays ↔
      ∀ stmt ∈ body, stmt.KnownArrays :=
  @knownArrays_loop_iff boundVar body

section Scoping

variable {leaves more : ASTNode → List String}

theorem bodyScoped_mono {body : List ASTNode} (left : ∀ stmt, leaves stmt ⊆ more stmt)
    (stmtMono : ∀ stmt ∈ body, ∀ {scope wider : List String},
      stmt.Scoped leaves scope → scope ⊆ wider → stmt.Scoped more wider)
    {scope wider : List String} (bound : BodyScoped leaves scope body)
    (included : scope ⊆ wider) : BodyScoped more wider body := by
  induction body generalizing scope wider with
  | nil => trivial
  | cons stmt rest ih =>
      refine ⟨stmtMono stmt (by simp) bound.1 included, ?_⟩
      apply ih (fun other member => stmtMono other (by simp [member])) bound.2
      intro name member
      rcases List.mem_append.mp member with stays | inScope
      · exact List.mem_append_left _ (left stmt stays)
      · exact List.mem_append_right _ (included inScope)

/-- With more names in scope, or left there, no access loses its name. -/
theorem ASTNode.Scoped.mono {node : ASTNode} {scope wider : List String}
    (bound : node.Scoped leaves scope) (left : ∀ stmt, leaves stmt ⊆ more stmt)
    (included : scope ⊆ wider) : node.Scoped more wider := by
  induction node generalizing scope wider with
  | arrayAccess name idxVar => exact included bound
  | loop boundVar body bodyIH =>
      exact bodyScoped_mono left bodyIH bound (List.cons_subset_cons _ included)
  | selectiveLoop boundVar predVar body bodyIH =>
      exact bodyScoped_mono left bodyIH bound
        (List.cons_subset_cons _ (List.cons_subset_cons _ included))

theorem BodyBoundBefore.mono {body : List ASTNode} {scope wider : List String}
    (bound : BodyBoundBefore scope body) (included : scope ⊆ wider) :
    BodyBoundBefore wider body := by
  have same : ∀ stmt : ASTNode, stmt.binders ⊆ stmt.binders := fun _ => List.Subset.refl _
  exact bodyScoped_mono same (fun _ _ _ _ stmtBound => stmtBound.mono same) bound included

theorem bodyBoundBefore_cons_iff {stmt : ASTNode} {rest : List ASTNode} {scope : List String} :
    BodyBoundBefore scope (stmt :: rest) ↔
      stmt.BoundBefore scope ∧ BodyBoundBefore (stmt.binders ++ scope) rest :=
  Iff.rfl

end Scoping

namespace SPNEDUnifiedCompiler

variable {compiler : SPNEDUnifiedCompiler}

/-- The dict binds exactly the names of the scope, all to the one interval. -/
def Describes (compiler : SPNEDUnifiedCompiler) (env : Env) (scope : List String) : Prop :=
  ∀ name, env name = if name ∈ scope then some compiler.counterInterval else none

theorem Describes.update {env : Env} {scope : List String}
    (describes : compiler.Describes env scope) (bound : String) :
    compiler.Describes (Function.update env bound (some compiler.counterInterval))
      (bound :: scope) := by
  intro name
  by_cases same : name = bound
  · simp [same]
  · simp [describes name, same]

theorem Describes.congr {env : Env} {scope other : List String}
    (describes : compiler.Describes env scope)
    (same : ∀ name, name ∈ scope ↔ name ∈ other) : compiler.Describes env other := by
  intro name
  simp only [describes name, same]

/-- A walk either succeeds, with every access bound before it is met and the
dict extended by the binders, or raises with some access unbound. -/
def Walked (compiler : SPNEDUnifiedCompiler) (scope binders : List String)
    (boundBefore : Prop) (outcome : Except PyError Env) : Prop :=
  (boundBefore ∧ ∃ env, outcome = .ok env ∧ compiler.Describes env (binders ++ scope)) ∨
    (¬ boundBefore ∧ ∃ raised, outcome = .error raised)

theorem Walked.enter {scope entered binders inner : List String} {boundBefore : Prop}
    {outcome : Except PyError Env}
    (walked : compiler.Walked entered inner boundBefore outcome)
    (same : ∀ name, name ∈ inner ++ entered ↔ name ∈ binders ++ scope) :
    compiler.Walked scope binders boundBefore outcome := by
  rcases walked with ⟨bound, env, succeeded, describes⟩ | failed
  · exact Or.inl ⟨bound, env, succeeded, describes.congr same⟩
  · exact Or.inr failed

theorem verifyBody_walked {body : List ASTNode}
    (stmtWalked : ∀ stmt ∈ body, ∀ {env : Env} {scope : List String},
      compiler.Describes env scope →
        compiler.Walked scope stmt.binders (stmt.BoundBefore scope)
          (compiler.verifyAst env stmt))
    {env : Env} {scope : List String} (describes : compiler.Describes env scope) :
    compiler.Walked scope (bodyBinders body) (BodyBoundBefore scope body)
      (compiler.verifyBody env body) := by
  induction body generalizing env scope with
  | nil => exact Or.inl ⟨trivial, env, rfl, describes⟩
  | cons stmt rest ih =>
      rcases stmtWalked stmt (by simp) describes with
        ⟨bound, next, succeeded, extended⟩ | ⟨unbound, raised, failed⟩
      · have restWalked := ih (fun other member => stmtWalked other (by simp [member])) extended
        simp only [bodyBoundBefore_cons_iff, bound, true_and, verifyBody, succeeded, bodyBinders]
        apply restWalked.enter
        intro name
        simp only [List.mem_append]
        grind
      · refine Or.inr ⟨fun bound => unbound bound.1, raised, ?_⟩
        simp [verifyBody, failed, Bind.bind, Except.bind]

theorem verifyAst_walked (node : ASTNode) (known : node.KnownArrays) {env : Env}
    {scope : List String} (describes : compiler.Describes env scope) :
    compiler.Walked scope node.binders (node.BoundBefore scope)
      (compiler.verifyAst env node) := by
  induction node generalizing env scope with
  | arrayAccess name idxVar =>
      have declared : compiler.arrays.lookup name = some compiler.totalTuples := by
        rcases known name (by simp [ASTNode.arrayNames]) with rfl | rfl <;>
          simp [arrays, List.lookup_cons]
      by_cases bound : idxVar ∈ scope
      · have passes : ∀ message, boundsCheck compiler.arrays message name
            compiler.counterInterval = .ok () := by
          intro message
          refine boundsCheck_eq_ok_iff.mpr ⟨_, declared, le_refl _, ?_⟩
          exact WithTop.coe_lt_coe.mpr (by omega)
        refine Or.inl ⟨bound, env, ?_, describes⟩
        simp [verifyAst, describes idxVar, bound, passes, Bind.bind, Except.bind, pure,
          Except.pure]
      · refine Or.inr ⟨bound, ?_⟩
        simp [verifyAst, describes idxVar, bound, boundsCheck, declared, Bind.bind, Except.bind]
  | loop boundVar body bodyIH =>
      have stmtKnown := knownArrays_loop_iff.mp known
      have bodyWalked := verifyBody_walked
        (fun stmt member _ _ => bodyIH stmt member (stmtKnown stmt member))
        (describes.update boundVar)
      apply bodyWalked.enter
      intro name
      simp only [ASTNode.binders, List.mem_append, List.mem_cons]
      grind
  | selectiveLoop boundVar predVar body bodyIH =>
      have stmtKnown := knownArrays_selectiveLoop_iff.mp known
      have entered : compiler.Describes _ (boundVar :: "out_idx" :: scope) :=
        ((describes.update boundVar).update "out_idx").congr fun name => by
          simp only [List.mem_cons]
          grind
      have bodyWalked := verifyBody_walked
        (fun stmt member _ _ => bodyIH stmt member (stmtKnown stmt member)) entered
      apply bodyWalked.enter
      intro name
      simp only [ASTNode.binders, List.mem_append, List.mem_cons]
      grind

/-- The verifier accepts exactly the trees in which every access is bound
before it is met. -/
theorem accepts_iff_boundBefore {ast : ASTNode} (known : ast.KnownArrays) :
    compiler.Accepts ast ↔ ast.BoundBefore [] := by
  have empty : compiler.Describes (fun _ => none) [] := fun name => by simp
  rcases verifyAst_walked ast known empty with
    ⟨bound, env, succeeded, _⟩ | ⟨unbound, raised, failed⟩
  · exact ⟨fun _ => bound, fun _ => ⟨env, succeeded⟩⟩
  · refine ⟨fun ⟨env, succeeded⟩ => ?_, fun bound => absurd bound unbound⟩
    rw [failed] at succeeded
    cases succeeded

end SPNEDUnifiedCompiler

end Spned.UnifiedToolchain
