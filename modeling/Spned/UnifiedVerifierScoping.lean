import Mathlib.Data.List.Perm.Basic
import Spned.UnifiedVerifier

/-!
# Scoping of the unified verifier

A binding outlives its loop, since the dict is never restored.  The verdict
thus follows the order of the walk and not the nesting of the loops: an access
placed after a finished loop is accepted, and swapping the two rejects the tree.
Where every access lies inside a loop that binds its variable, the order of
siblings does not matter.
-/

namespace Spned.UnifiedToolchain

/-- Every access lies inside a loop that binds its index variable; a selective
loop also binds `out_idx`.  A finished statement leaves nothing behind. -/
def ASTNode.LexicallyScoped (scope : List String) (node : ASTNode) : Prop :=
  node.Scoped (fun _ => []) scope

mutual

/-- The loop variables bound by walking the statement, without the `out_idx` of
its selective loops. -/
def ASTNode.boundVars : ASTNode → List String
  | .arrayAccess _ _ => []
  | .loop boundVar body | .selectiveLoop boundVar _ body => boundVar :: bodyBoundVars body

def bodyBoundVars : List ASTNode → List String
  | [] => []
  | stmt :: rest => stmt.boundVars ++ bodyBoundVars rest

end

/-- Every access reads the variable of a loop entered earlier in the walk, or
`out_idx` inside a selective loop. -/
def ASTNode.BoundByLoop (scope : List String) (node : ASTNode) : Prop :=
  node.Scoped ASTNode.boundVars scope

/-- Every access is bound earlier in the walk, but some of them by nothing other
than the `out_idx` of a selective loop that has finished. -/
def ASTNode.RestsOnStaleOutIdx (node : ASTNode) : Prop :=
  node.BoundBefore [] ∧ ¬ node.BoundByLoop []

/-- The trees obtained by reordering the statements of loop bodies, at any
depth and any number of times. -/
inductive ASTNode.SiblingPerm : ASTNode → ASTNode → Prop where
  | refl (node : ASTNode) : SiblingPerm node node
  | trans {first second third : ASTNode} :
      SiblingPerm first second → SiblingPerm second third → SiblingPerm first third
  | loop {boundVar : String} {body body' : List ASTNode} :
      body.Perm body' → SiblingPerm (.loop boundVar body) (.loop boundVar body')
  | loopBody {boundVar : String} {stmt stmt' : ASTNode} (before after : List ASTNode) :
      SiblingPerm stmt stmt' →
        SiblingPerm (.loop boundVar (before ++ stmt :: after))
          (.loop boundVar (before ++ stmt' :: after))
  | selectiveLoop {boundVar predVar : String} {body body' : List ASTNode} :
      body.Perm body' →
        SiblingPerm (.selectiveLoop boundVar predVar body) (.selectiveLoop boundVar predVar body')
  | selectiveLoopBody {boundVar predVar : String} {stmt stmt' : ASTNode}
      (before after : List ASTNode) :
      SiblingPerm stmt stmt' →
        SiblingPerm (.selectiveLoop boundVar predVar (before ++ stmt :: after))
          (.selectiveLoop boundVar predVar (before ++ stmt' :: after))

theorem bodyLexicallyScoped_iff {body : List ASTNode} {scope : List String} :
    BodyScoped (fun _ => []) scope body ↔ ∀ stmt ∈ body, stmt.LexicallyScoped scope := by
  induction body with
  | nil => simp [BodyScoped]
  | cons stmt rest ih => simp [BodyScoped, ASTNode.LexicallyScoped, ih]

theorem lexicallyScoped_loop_iff {boundVar : String} {body : List ASTNode}
    {scope : List String} :
    (ASTNode.loop boundVar body).LexicallyScoped scope ↔
      ∀ stmt ∈ body, stmt.LexicallyScoped (boundVar :: scope) :=
  bodyLexicallyScoped_iff

theorem lexicallyScoped_selectiveLoop_iff {boundVar predVar : String} {body : List ASTNode}
    {scope : List String} :
    (ASTNode.selectiveLoop boundVar predVar body).LexicallyScoped scope ↔
      ∀ stmt ∈ body, stmt.LexicallyScoped (boundVar :: "out_idx" :: scope) :=
  bodyLexicallyScoped_iff

theorem bodyBoundVars_subset {body : List ASTNode}
    (stmtSubset : ∀ stmt ∈ body, stmt.boundVars ⊆ stmt.binders) :
    bodyBoundVars body ⊆ bodyBinders body := by
  intro name member
  have varsIff : name ∈ bodyBoundVars body ↔ ∃ stmt ∈ body, name ∈ stmt.boundVars :=
    mem_collectBody_iff rfl fun _ _ => rfl
  have bindersIff : name ∈ bodyBinders body ↔ ∃ stmt ∈ body, name ∈ stmt.binders :=
    mem_collectBody_iff rfl fun _ _ => rfl
  obtain ⟨stmt, stmtMem, bound⟩ := varsIff.mp member
  exact bindersIff.mpr ⟨stmt, stmtMem, stmtSubset stmt stmtMem bound⟩

theorem ASTNode.boundVars_subset (node : ASTNode) : node.boundVars ⊆ node.binders := by
  induction node with
  | arrayAccess name idxVar => exact List.Subset.refl _
  | loop boundVar body bodyIH => exact List.cons_subset_cons _ (bodyBoundVars_subset bodyIH)
  | selectiveLoop boundVar predVar body bodyIH =>
      apply List.cons_subset_cons
      exact List.subset_cons_of_subset _ (bodyBoundVars_subset bodyIH)

theorem ASTNode.BoundByLoop.boundBefore {node : ASTNode} {scope : List String}
    (bound : node.BoundByLoop scope) : node.BoundBefore scope :=
  bound.mono ASTNode.boundVars_subset (List.Subset.refl scope)

theorem ASTNode.LexicallyScoped.boundByLoop {node : ASTNode} {scope : List String}
    (lexical : node.LexicallyScoped scope) : node.BoundByLoop scope :=
  lexical.mono (fun stmt => List.nil_subset stmt.boundVars) (List.Subset.refl scope)

namespace ASTNode.SiblingPerm

/-- A property of loops that holds of a body exactly when it holds of each of
its statements does not see their order. -/
theorem forall_body_iff {Property : ASTNode → Prop} {body body' : List ASTNode}
    (permuted : body.Perm body') :
    (∀ stmt ∈ body, Property stmt) ↔ ∀ stmt ∈ body', Property stmt :=
  forall_congr' fun _ => by rw [permuted.mem_iff]

theorem forall_replaced_iff {Property : ASTNode → Prop} {stmt stmt' : ASTNode}
    (before after : List ASTNode) (same : Property stmt ↔ Property stmt') :
    (∀ other ∈ before ++ stmt :: after, Property other) ↔
      ∀ other ∈ before ++ stmt' :: after, Property other := by
  simp only [List.forall_mem_append, List.forall_mem_cons, same]

theorem lexicallyScoped_iff {first second : ASTNode} (permuted : first.SiblingPerm second)
    (scope : List String) : first.LexicallyScoped scope ↔ second.LexicallyScoped scope := by
  induction permuted generalizing scope with
  | refl node => rfl
  | trans _ _ firstIH secondIH => exact (firstIH scope).trans (secondIH scope)
  | loop permuted => simp only [lexicallyScoped_loop_iff, forall_body_iff permuted]
  | loopBody before after _ stmtIH =>
      simp only [lexicallyScoped_loop_iff]
      exact forall_replaced_iff before after (stmtIH _)
  | selectiveLoop permuted =>
      simp only [lexicallyScoped_selectiveLoop_iff, forall_body_iff permuted]
  | selectiveLoopBody before after _ stmtIH =>
      simp only [lexicallyScoped_selectiveLoop_iff]
      exact forall_replaced_iff before after (stmtIH _)

theorem knownArrays_iff {first second : ASTNode} (permuted : first.SiblingPerm second) :
    first.KnownArrays ↔ second.KnownArrays := by
  induction permuted with
  | refl node => rfl
  | trans _ _ firstIH secondIH => exact firstIH.trans secondIH
  | loop permuted => simp only [knownArrays_loop_iff, forall_body_iff permuted]
  | loopBody before after _ stmtIH =>
      simp only [knownArrays_loop_iff]
      exact forall_replaced_iff before after stmtIH
  | selectiveLoop permuted => simp only [knownArrays_selectiveLoop_iff, forall_body_iff permuted]
  | selectiveLoopBody before after _ stmtIH =>
      simp only [knownArrays_selectiveLoop_iff]
      exact forall_replaced_iff before after stmtIH

end ASTNode.SiblingPerm

namespace SPNEDUnifiedCompiler

variable {compiler : SPNEDUnifiedCompiler}

/-- Trees that rest on a stale `out_idx` aside, the verifier accepts exactly those
in which every access comes after the entry of a loop that binds its variable.
A lexically scoped tree is accepted in every order of its siblings. -/
theorem accepts_iff_boundByLoop (compiler : SPNEDUnifiedCompiler) {ast : ASTNode}
    (known : ast.KnownArrays) :
    (¬ ast.RestsOnStaleOutIdx → (compiler.Accepts ast ↔ ast.BoundByLoop [])) ∧
      (ast.LexicallyScoped [] → ∀ other, ast.SiblingPerm other → compiler.Accepts other) := by
  constructor
  · intro fresh
    rw [accepts_iff_boundBefore known]
    constructor
    · intro bound
      by_contra notByLoop
      exact fresh ⟨bound, notByLoop⟩
    · exact ASTNode.BoundByLoop.boundBefore
  · intro lexical other permuted
    have otherLexical := (permuted.lexicallyScoped_iff []).mp lexical
    have otherKnown := permuted.knownArrays_iff.mp known
    exact (accepts_iff_boundBefore otherKnown).mpr otherLexical.boundByLoop.boundBefore

/-- The sequential decoder's tree of the toolchain's own pipeline. -/
theorem accepts_iff_boundByLoop_sequential :
    let compiler : SPNEDUnifiedCompiler := {}
    let ast : ASTNode := .loop "i" [.arrayAccess "in_buf" "i", .arrayAccess "out_buf" "i"]
    compiler.Accepts ast ∧ ∀ other, ast.SiblingPerm other → compiler.Accepts other := by
  intro compiler ast
  have known : ast.KnownArrays := by
    simp [ast, ASTNode.KnownArrays, ASTNode.arrayNames, bodyArrayNames]
  have lexical : ast.LexicallyScoped [] := by
    simp [ast, ASTNode.LexicallyScoped, ASTNode.Scoped, BodyScoped]
  have bound := lexical.boundByLoop
  obtain ⟨decides, everyOrder⟩ := accepts_iff_boundByLoop compiler known
  exact ⟨(decides fun stale => stale.2 bound).mpr bound, everyOrder lexical⟩

/-- An access after the loop that binds its variable is accepted; before it, in
the same body, it is rejected. -/
theorem accepts_access_after_loop :
    let compiler : SPNEDUnifiedCompiler := {}
    let ast : ASTNode := .loop "x" [.loop "i" [], .arrayAccess "in_buf" "i"]
    let swapped : ASTNode := .loop "x" [.arrayAccess "in_buf" "i", .loop "i" []]
    ast.KnownArrays ∧ ast.SiblingPerm swapped ∧ ¬ ast.LexicallyScoped [] ∧
      compiler.Accepts ast ∧ ¬ compiler.Accepts swapped := by
  intro compiler ast swapped
  have known : ast.KnownArrays := by
    simp [ast, ASTNode.KnownArrays, ASTNode.arrayNames, bodyArrayNames]
  have permuted : ast.SiblingPerm swapped := .loop (List.Perm.swap _ _ _)
  refine ⟨known, permuted, ?_, ?_, ?_⟩
  · simp [ast, ASTNode.LexicallyScoped, ASTNode.Scoped, BodyScoped]
  · apply (accepts_iff_boundBefore known).mpr
    simp [ast, ASTNode.BoundBefore, ASTNode.Scoped, BodyScoped, ASTNode.binders, bodyBinders]
  · rw [accepts_iff_boundBefore (permuted.knownArrays_iff.mp known)]
    simp [swapped, ASTNode.BoundBefore, ASTNode.Scoped, BodyScoped]

end SPNEDUnifiedCompiler

end Spned.UnifiedToolchain
