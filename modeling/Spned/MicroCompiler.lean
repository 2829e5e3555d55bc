import Spned.BoundsCheck

/-!
# The micro compiler's front end

`SPNEDMicroCompiler` of `spned_micro_compiler.py`: the syntax trees it builds,
the hard-wired tree of the run-end-encoding decoder, and the verifier, which
walks the statements of a tree and compares the interval of every index with
the declared size of its array.
-/

namespace Spned.MicroCompiler

/-- The node classes.  As in Python, any node may stand in any child position. -/
inductive ASTNode where
  | const (val : Int)
  | var (name : String)
  | add (left right : ASTNode)
  | arrayLoad (arrayName : String) (index : ASTNode)
  | arrayStore (arrayName : String) (index value : ASTNode)
  | forLoop (iterator : String) (start «end» : ASTNode) (body : List ASTNode)

/-- Induction over syntax trees with one hypothesis for each statement of a
loop body. -/
@[elab_as_elim, induction_eliminator]
theorem ASTNode.induction {motive : ASTNode → Prop}
    (const : ∀ val, motive (.const val))
    (var : ∀ name, motive (.var name))
    (add : ∀ left right, motive left → motive right → motive (.add left right))
    (arrayLoad : ∀ arrayName index, motive index → motive (.arrayLoad arrayName index))
    (arrayStore : ∀ arrayName index value, motive index → motive value →
      motive (.arrayStore arrayName index value))
    (forLoop : ∀ iterator start stop body, motive start → motive stop →
      (∀ stmt ∈ body, motive stmt) → motive (.forLoop iterator start stop body))
    (node : ASTNode) : motive node :=
  @ASTNode.rec motive (fun body => ∀ stmt ∈ body, motive stmt)
    const var add arrayLoad arrayStore forLoop
    (fun _ member => absurd member List.not_mem_nil)
    (fun _ _ headHolds tailHolds _ member =>
      (List.mem_cons.mp member).elim (fun equal => equal ▸ headHolds) (tailHolds _))
    node

/-- One occurrence of an array access: the array and its index. -/
structure Access where
  arrayName : String
  index : ASTNode

mutual

/-- The loads and stores in statement position, at any loop depth. -/
def ASTNode.statementAccesses : ASTNode → List Access
  | .arrayLoad arrayName index => [⟨arrayName, index⟩]
  | .arrayStore arrayName index _ => [⟨arrayName, index⟩]
  | .forLoop _ _ _ body => bodyStatementAccesses body
  | .const _ | .var _ | .add _ _ => []

def bodyStatementAccesses : List ASTNode → List Access
  | [] => []
  | stmt :: rest => stmt.statementAccesses ++ bodyStatementAccesses rest

end

theorem mem_bodyStatementAccesses {body : List ASTNode} {access : Access} :
    access ∈ bodyStatementAccesses body ↔
      ∃ stmt ∈ body, access ∈ stmt.statementAccesses :=
  mem_collectBody_iff rfl fun _ _ => rfl

/-- The attributes `__init__` stores; the others are computed from these. -/
structure SPNEDMicroCompiler where
  batchSize : Int := 10000
  maxRunLen : Int := 256

namespace SPNEDMicroCompiler

variable (compiler : SPNEDMicroCompiler)

def outCapacity : Int :=
  compiler.batchSize * compiler.maxRunLen

def arrays : List (String × Int) :=
  [("in_val", compiler.batchSize),
    ("in_len", compiler.batchSize),
    ("out", compiler.outCapacity)]

/-- The syntax tree of Listing 1.  The assignments to `val` and `run` are kept
as the bare loads and the increment of `out_idx` is left out. -/
def parseReeDecoder : ASTNode :=
  let innerBody := [ASTNode.arrayStore "out" (.var "out_idx") (.var "val")]
  let innerLoop := ASTNode.forLoop "j" (.const 0) (.var "run") innerBody
  let outerBody :=
    [ASTNode.arrayLoad "in_val" (.var "i"),
      ASTNode.arrayLoad "in_len" (.var "i"),
      innerLoop]
  .forLoop "i" (.const 0) (.const compiler.batchSize) outerBody

/-- The environment of `verify_safety`; the walk never changes it. -/
def env : List (String × Interval) :=
  [("i", ⟨0, ((compiler.batchSize - 1 : Int) : WithTop Int)⟩),
    ("j", ⟨0, ((compiler.maxRunLen - 1 : Int) : WithTop Int)⟩),
    ("out_idx", ⟨0, ((compiler.outCapacity - 1 : Int) : WithTop Int)⟩)]

/-- `env.get(name, Interval(0, 0))`. -/
def envGet (name : String) : Interval :=
  (compiler.env.lookup name).getD ⟨0, ((0 : Int) : WithTop Int)⟩

def evaluate : ASTNode → Interval
  | .const val => ⟨val, (val : WithTop Int)⟩
  | .var name => compiler.envGet name
  | .add left right => (evaluate left).add (evaluate right)
  | .arrayLoad _ _ | .arrayStore _ _ _ | .forLoop _ _ _ _ => ⟨0, ⊤⟩

/-- The load and the store branch differ in the `wording` of their message
only. -/
def checkAccess (wording arrayName : String) (index : ASTNode) :
    Except PyError Unit :=
  let idxInt := compiler.evaluate index
  let message := "[验证失败] " ++ wording ++ " " ++ arrayName ++ ": 索引 " ++ idxInt.repr
  boundsCheck compiler.arrays message arrayName idxInt

mutual

def traverseAndVerify : ASTNode → Except PyError Unit
  | .arrayLoad arrayName index => compiler.checkAccess "越界读取" arrayName index
  | .arrayStore arrayName index _ => compiler.checkAccess "越界写入" arrayName index
  | .forLoop _ _ _ body => traverseBody body
  | .const _ | .var _ | .add _ _ => .ok ()

/-- `for stmt in node.body: traverse_and_verify(stmt)`. -/
def traverseBody : List ASTNode → Except PyError Unit
  | [] => .ok ()
  | stmt :: rest => do
      traverseAndVerify stmt
      traverseBody rest

end

def verifySafety (ast : ASTNode) : Except PyError Bool := do
  compiler.traverseAndVerify ast
  return true

end SPNEDMicroCompiler

/-! ## What acceptance means -/

namespace SPNEDMicroCompiler

variable {compiler : SPNEDMicroCompiler}

/-- The abstract interval of the index lies inside the declared array. -/
def Passes (compiler : SPNEDMicroCompiler) (access : Access) : Prop :=
  ∃ size, compiler.arrays.lookup access.arrayName = some size ∧
    (compiler.evaluate access.index).Within 0 size

def Declares (compiler : SPNEDMicroCompiler) (access : Access) : Prop :=
  ∃ size, compiler.arrays.lookup access.arrayName = some size

theorem checkAccess_eq_ok_iff {wording arrayName : String} {index : ASTNode} :
    compiler.checkAccess wording arrayName index = .ok () ↔
      compiler.Passes ⟨arrayName, index⟩ :=
  boundsCheck_eq_ok_iff

theorem traverseBody_eq_ok_iff {body : List ASTNode} :
    compiler.traverseBody body = .ok () ↔
      ∀ stmt ∈ body, compiler.traverseAndVerify stmt = .ok () := by
  induction body with
  | nil => simp [traverseBody]
  | cons stmt rest ih =>
      cases outcome : compiler.traverseAndVerify stmt with
      | error raised => simp [traverseBody, outcome, Bind.bind, Except.bind]
      | ok _ => simp [traverseBody, outcome, Bind.bind, Except.bind, ih]

/-- The walk succeeds exactly when every access in statement position passes
the check under the fixed environment. -/
theorem traverseAndVerify_eq_ok_iff (node : ASTNode) :
    compiler.traverseAndVerify node = .ok () ↔
      ∀ access ∈ node.statementAccesses, compiler.Passes access := by
  induction node with
  | const val => simp [traverseAndVerify, ASTNode.statementAccesses]
  | var name => simp [traverseAndVerify, ASTNode.statementAccesses]
  | add left right => simp [traverseAndVerify, ASTNode.statementAccesses]
  | arrayLoad arrayName index =>
      simp [traverseAndVerify, ASTNode.statementAccesses, checkAccess_eq_ok_iff]
  | arrayStore arrayName index value =>
      simp [traverseAndVerify, ASTNode.statementAccesses, checkAccess_eq_ok_iff]
  | forLoop iterator start stop body startIH stopIH bodyIH =>
      rw [traverseAndVerify, traverseBody_eq_ok_iff, ASTNode.statementAccesses]
      simp only [mem_bodyStatementAccesses]
      constructor
      · rintro walked access ⟨stmt, stmtMem, accessMem⟩
        exact (bodyIH stmt stmtMem).mp (walked stmt stmtMem) access accessMem
      · intro passes stmt stmtMem
        exact (bodyIH stmt stmtMem).mpr fun access accessMem =>
          passes access ⟨stmt, stmtMem, accessMem⟩

theorem verifySafety_eq_ok_iff (ast : ASTNode) :
    compiler.verifySafety ast = .ok true ↔
      ∀ access ∈ ast.statementAccesses, compiler.Passes access := by
  rw [← traverseAndVerify_eq_ok_iff]
  cases outcome : compiler.traverseAndVerify ast <;>
    simp [verifySafety, outcome, Bind.bind, Except.bind, pure, Except.pure]

end SPNEDMicroCompiler

end Spned.MicroCompiler
