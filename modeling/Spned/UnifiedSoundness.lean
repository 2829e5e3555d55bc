import Spned.UnifiedRun

/-!
# Soundness of the unified verifier

Counters stay in range and every access the verifier accepts has its variable
bound, so an accepted tree can only go wrong on `out_idx`: the verifier gives it
`[0, N - 1]` from the entry of the first selective loop on, while a finished
selective loop may leave it at `N` and a selective loop around another one may
push it further.  Following the tree once or twice per loop tells exactly where
that happens.
-/

namespace Spned.UnifiedToolchain

open CountedLoop

mutual

/-- Whether `out_idx` is a valid index after the statement in every run, given
whether it was before. -/
def ASTNode.usableAfter : ASTNode → Bool → Bool
  | .arrayAccess _ _, usable => usable
  | .loop boundVar body, usable => bodyUsableAfter body (boundVar == "out_idx" || usable)
  | .selectiveLoop _ _ _, _ => false

def bodyUsableAfter : List ASTNode → Bool → Bool
  | [], usable => usable
  | stmt :: rest, usable => bodyUsableAfter rest (stmt.usableAfter usable)

end

mutual

/-- No access reads `out_idx` where it may be out of range.  A loop body is
followed for the first iteration and, if there is one, for a later iteration:
a selective loop starts that one in range unless its body writes `out_idx`. -/
def ASTNode.ReadsUsable (total : Int) : ASTNode → Bool → Prop
  | .arrayAccess _ idxVar, usable => idxVar = "out_idx" → usable = true
  | .loop boundVar body, usable =>
      let first := boundVar == "out_idx" || usable
      BodyReadsUsable total body first ∧
        (1 < total →
          BodyReadsUsable total body (boundVar == "out_idx" || bodyUsableAfter body first))
  | .selectiveLoop boundVar _ body, _ =>
      BodyReadsUsable total body true ∧
        (1 < total →
          BodyReadsUsable total body (boundVar == "out_idx" || !bodyWritesOutIdx body))

def BodyReadsUsable (total : Int) : List ASTNode → Bool → Prop
  | [], _ => True
  | stmt :: rest, usable =>
      stmt.ReadsUsable total usable ∧ BodyReadsUsable total rest (stmt.usableAfter usable)

end

/-! ## The flag of `out_idx` -/

/-- A body leaves the flag alone, or sets it whatever it was before. -/
theorem bodyUsableAfter_cases {body : List ASTNode}
    (stmtCases : ∀ stmt ∈ body, (∀ usable, stmt.usableAfter usable = usable) ∨
      ∃ set, ∀ usable, stmt.usableAfter usable = set) :
    (∀ usable, bodyUsableAfter body usable = usable) ∨
      ∃ set, ∀ usable, bodyUsableAfter body usable = set := by
  induction body with
  | nil => exact Or.inl fun _ => rfl
  | cons stmt rest ih =>
      rcases ih fun other member => stmtCases other (by simp [member]) with keeps | ⟨set, sets⟩
      · rcases stmtCases stmt (by simp) with stmtKeeps | ⟨set, stmtSets⟩
        · exact Or.inl fun usable => by simp [bodyUsableAfter, keeps, stmtKeeps]
        · exact Or.inr ⟨set, fun usable => by simp [bodyUsableAfter, keeps, stmtSets]⟩
      · exact Or.inr ⟨set, fun usable => by simp [bodyUsableAfter, sets]⟩

theorem ASTNode.usableAfter_cases (node : ASTNode) :
    (∀ usable, node.usableAfter usable = usable) ∨
      ∃ set, ∀ usable, node.usableAfter usable = set := by
  induction node with
  | arrayAccess name idxVar => exact Or.inl fun _ => rfl
  | loop boundVar body bodyIH =>
      rcases bodyUsableAfter_cases bodyIH with keeps | ⟨set, sets⟩
      · by_cases outIdx : boundVar = "out_idx"
        · exact Or.inr ⟨true, fun usable => by simp [usableAfter, keeps, outIdx]⟩
        · exact Or.inl fun usable => by simp [usableAfter, keeps, outIdx]
      · exact Or.inr ⟨set, fun usable => sets _⟩
  | selectiveLoop boundVar predVar body => exact Or.inr ⟨false, fun _ => rfl⟩

theorem bodyUsableAfter_later (boundVar : String) (body : List ASTNode) (usable : Bool) :
    bodyUsableAfter body
        (boundVar == "out_idx" || bodyUsableAfter body (boundVar == "out_idx" || usable)) =
      bodyUsableAfter body (boundVar == "out_idx" || usable) := by
  rcases @bodyUsableAfter_cases body (fun stmt _ => stmt.usableAfter_cases) with
    keeps | ⟨set, sets⟩
  · simp [keeps]
  · simp [sets]

namespace SPNEDUnifiedCompiler

variable {compiler : SPNEDUnifiedCompiler}

/-- The access read a variable with a value, and the value is an index of the
array. -/
def Safe (compiler : SPNEDUnifiedCompiler) (execution : Execution) : Prop :=
  ∃ size value, compiler.arrays.lookup execution.name = some size ∧
    execution.value = some value ∧ 0 ≤ value ∧ value < size

theorem lookup_arrays {name : String} (known : name = "in_buf" ∨ name = "out_buf") :
    compiler.arrays.lookup name = some compiler.totalTuples := by
  rcases known with rfl | rfl <;> simp [arrays, List.lookup_cons]

/-! ## Trees that never read a stale `out_idx` are safe -/

/-- What holds at a program point with the names of `scope` bound. -/
structure Invariant (compiler : SPNEDUnifiedCompiler) (scope : List String) (usable : Bool)
    (state : State) : Prop where
  bound : ∀ name ∈ scope, state.store name ≠ none
  counters : state.CountersWithin compiler.totalTuples
  outIdx : usable = true →
    ∃ value, state.store "out_idx" = some value ∧ 0 ≤ value ∧ value < compiler.totalTuples
  logged : ∀ execution ∈ state.log, compiler.Safe execution

namespace Invariant

variable {scope : List String} {usable : Bool} {state : State}

theorem mono (holds : compiler.Invariant scope usable state) {narrower : List String}
    (included : narrower ⊆ scope) : compiler.Invariant narrower usable state :=
  { holds with bound := fun name member => holds.bound name (included member) }

theorem set_usable (holds : compiler.Invariant scope usable state) {flag : Bool}
    (outIdx : flag = true →
      ∃ value, state.store "out_idx" = some value ∧ 0 ≤ value ∧ value < compiler.totalTuples) :
    compiler.Invariant scope flag state :=
  { holds with outIdx := outIdx }

theorem assign (holds : compiler.Invariant scope usable state) {counter : Int}
    (above : 0 ≤ counter) (below : counter < compiler.totalTuples) (name : String) :
    compiler.Invariant (name :: scope) (name == "out_idx" || usable)
      (state.assign name counter) := by
  refine ⟨?_, holds.counters.assign above below name, ?_, holds.logged⟩
  · intro other member
    by_cases same : other = name
    · simp [same]
    · simpa [same] using holds.bound other (by simpa [same] using member)
  · intro flag
    by_cases isOutIdx : name = "out_idx"
    · exact ⟨counter, by simp [isOutIdx], above, below⟩
    · obtain ⟨value, held, bounds⟩ := holds.outIdx (by simpa [isOutIdx] using flag)
      exact ⟨value, by simpa [Ne.symm isOutIdx] using held, bounds⟩

theorem advance (holds : compiler.Invariant scope usable state) (outcomes : Nat → Bool) :
    compiler.Invariant scope false (state.advance outcomes) := by
  refine ⟨?_, ?_, fun flag => absurd flag Bool.false_ne_true, holds.logged⟩
  · intro name member
    rw [Ne, State.store_advance_eq_none_iff]
    exact holds.bound name member
  · intro name notOutIdx value held
    rw [State.store_advance_of_ne outcomes state notOutIdx] at held
    exact holds.counters name notOutIdx value held

end Invariant

def Carries (compiler : SPNEDUnifiedCompiler) (outcomes : Nat → Bool) (node : ASTNode) : Prop :=
  ∀ {scope : List String} {usable : Bool} {state : State}, node.BoundBefore scope →
    node.ReadsUsable compiler.totalTuples usable → compiler.Invariant scope usable state →
    compiler.Invariant (node.binders ++ scope) (node.usableAfter usable)
      (node.exec compiler.totalTuples outcomes state)

theorem execBody_invariant {outcomes : Nat → Bool} {body : List ASTNode}
    (stmtCarries : ∀ stmt ∈ body, compiler.Carries outcomes stmt) {scope : List String}
    {usable : Bool} {state : State} (bound : BodyBoundBefore scope body)
    (reads : BodyReadsUsable compiler.totalTuples body usable)
    (holds : compiler.Invariant scope usable state) :
    compiler.Invariant (bodyBinders body ++ scope) (bodyUsableAfter body usable)
      (execBody compiler.totalTuples outcomes body state) := by
  induction body generalizing scope usable state with
  | nil => exact holds
  | cons stmt rest ih =>
      have afterStmt := stmtCarries stmt (by simp) bound.1 reads.1 holds
      have afterRest := ih (fun other member => stmtCarries other (by simp [member]))
        bound.2 reads.2 afterStmt
      apply afterRest.mono
      intro name member
      simp only [bodyBinders, List.mem_append] at member ⊢
      grind

/-- What holds at the start of each iteration of a plain loop. -/
structure LoopInvariant (compiler : SPNEDUnifiedCompiler) (boundVar : String)
    (body : List ASTNode) (scope : List String) (usable : Bool) (counter : Int)
    (state : State) : Prop where
  first : counter = 0 → compiler.Invariant scope usable state
  later : 0 < counter → compiler.Invariant (bodyBinders body ++ boundVar :: scope)
    (bodyUsableAfter body (boundVar == "out_idx" || usable)) state

/-- After the first iteration the names that the body binds are in scope, which
leaves no access unbound. -/
theorem LoopInvariant.round {outcomes : Nat → Bool} {boundVar : String} {body : List ASTNode}
    {scope : List String} {usable : Bool} {counter : Int} {state : State}
    (stmtCarries : ∀ stmt ∈ body, compiler.Carries outcomes stmt)
    (bound : BodyBoundBefore (boundVar :: scope) body)
    (reads : (ASTNode.loop boundVar body).ReadsUsable compiler.totalTuples usable)
    (above : 0 ≤ counter) (below : counter < compiler.totalTuples)
    (holds : compiler.LoopInvariant boundVar body scope usable counter state) :
    compiler.LoopInvariant boundVar body scope usable (counter + 1)
      (execBody compiler.totalTuples outcomes body (state.assign boundVar counter)) := by
  obtain ⟨readsFirst, readsLater⟩ := reads
  refine ⟨fun zero => by omega, fun _ => ?_⟩
  rcases eq_or_lt_of_le above with rfl | positive
  · exact execBody_invariant stmtCarries bound readsFirst
      ((holds.first rfl).assign (le_refl 0) below boundVar)
  · have boundLater : BodyBoundBefore (boundVar :: (bodyBinders body ++ boundVar :: scope))
        body := by
      apply bound.mono
      intro name member
      simp only [List.mem_append, List.mem_cons] at member ⊢
      grind
    have after := execBody_invariant stmtCarries boundLater (readsLater (by omega))
      ((holds.later positive).assign above below boundVar)
    rw [bodyUsableAfter_later] at after
    apply after.mono
    intro name member
    exact List.mem_append_right _ (List.mem_cons_of_mem _ member)

theorem loop_carries (totalPos : 1 ≤ compiler.totalTuples) {outcomes : Nat → Bool}
    {boundVar : String} {body : List ASTNode}
    (stmtCarries : ∀ stmt ∈ body, compiler.Carries outcomes stmt) :
    compiler.Carries outcomes (.loop boundVar body) := by
  intro scope usable state bound reads holds
  have enters : compiler.LoopInvariant boundVar body scope usable 0 state :=
    ⟨fun _ => holds, fun positive => absurd positive (lt_irrefl 0)⟩
  have carries : ∀ counter middle, 0 ≤ counter → counter < compiler.totalTuples →
      compiler.LoopInvariant boundVar body scope usable counter middle →
      compiler.LoopInvariant boundVar body scope usable (counter + 1)
        (execBody compiler.totalTuples outcomes body (middle.assign boundVar counter)) :=
    fun _ _ above below carried => carried.round stmtCarries bound reads above below
  have atExit := countedLoop_invariant (by omega)
    (compiler.LoopInvariant boundVar body scope usable) enters carries
  apply (atExit.later (by omega)).mono
  intro name member
  simp only [ASTNode.binders, List.mem_append, List.mem_cons] at member ⊢
  grind

/-- One selective iteration over a body that leaves `out_idx` alone: the cursor
never overtakes the counter. -/
theorem selective_round_outIdx {total : Int} {outcomes : Nat → Bool} {body : List ASTNode}
    (silent : bodyWritesOutIdx body = false) {boundVar : String} {counter value : Int}
    {state : State} (above : 0 ≤ counter) (held : state.store "out_idx" = some value)
    (nonneg : 0 ≤ value) (atMost : value ≤ counter) :
    ∃ next, ((execBody total outcomes body (state.assign boundVar counter)).advance
        outcomes).store "out_idx" = some next ∧ 0 ≤ next ∧ next ≤ counter + 1 := by
  have entered : ∃ before, (state.assign boundVar counter).store "out_idx" = some before ∧
      0 ≤ before ∧ before ≤ counter := by
    by_cases isOutIdx : "out_idx" = boundVar
    · exact ⟨counter, by simp [isOutIdx], above, le_refl counter⟩
    · exact ⟨value, by simpa [isOutIdx] using held, nonneg, atMost⟩
  obtain ⟨before, heldBefore, nonnegBefore, atMostBefore⟩ := entered
  rw [← @store_outIdx_execBody total outcomes body silent] at heldBefore
  rw [State.store_advance_outIdx outcomes _ heldBefore]
  refine ⟨_, rfl, ?_⟩
  split_ifs <;> omega

/-- What holds at the start of each iteration of a selective loop. -/
structure SelectiveInvariant (compiler : SPNEDUnifiedCompiler) (boundVar : String)
    (body : List ASTNode) (scope : List String) (counter : Int) (state : State) : Prop where
  first : counter = 0 → compiler.Invariant ("out_idx" :: scope) true state
  later : 0 < counter →
    compiler.Invariant (bodyBinders body ++ boundVar :: "out_idx" :: scope) false state
  silent : bodyWritesOutIdx body = false →
    ∃ value, state.store "out_idx" = some value ∧ 0 ≤ value ∧ value ≤ counter

namespace SelectiveInvariant

variable {boundVar : String} {body : List ASTNode} {scope : List String} {state : State}
variable {outcomes : Nat → Bool}

theorem first_round (stmtCarries : ∀ stmt ∈ body, compiler.Carries outcomes stmt)
    (totalPos : 1 ≤ compiler.totalTuples)
    (bound : BodyBoundBefore (boundVar :: "out_idx" :: scope) body)
    (reads : BodyReadsUsable compiler.totalTuples body true)
    (holds : compiler.SelectiveInvariant boundVar body scope 0 state) :
    compiler.Invariant (bodyBinders body ++ boundVar :: "out_idx" :: scope) false
      ((execBody compiler.totalTuples outcomes body (state.assign boundVar 0)).advance
        outcomes) := by
  have entered := (holds.first rfl).assign (le_refl 0) (by omega) boundVar
  rw [Bool.or_true] at entered
  exact (execBody_invariant stmtCarries bound reads entered).advance outcomes

theorem later_round (stmtCarries : ∀ stmt ∈ body, compiler.Carries outcomes stmt)
    (bound : BodyBoundBefore (boundVar :: "out_idx" :: scope) body)
    (reads : BodyReadsUsable compiler.totalTuples body
      (boundVar == "out_idx" || !bodyWritesOutIdx body))
    {counter : Int} (positive : 0 < counter) (below : counter < compiler.totalTuples)
    (holds : compiler.SelectiveInvariant boundVar body scope counter state) :
    compiler.Invariant (bodyBinders body ++ boundVar :: "out_idx" :: scope) false
      ((execBody compiler.totalTuples outcomes body (state.assign boundVar counter)).advance
        outcomes) := by
  have inRange : (!bodyWritesOutIdx body) = true →
      ∃ value, state.store "out_idx" = some value ∧ 0 ≤ value ∧
        value < compiler.totalTuples := by
    intro silent
    obtain ⟨value, held, nonneg, atMost⟩ := holds.silent (by simpa using silent)
    exact ⟨value, held, nonneg, by omega⟩
  have entered := ((holds.later positive).set_usable inRange).assign (by omega) below boundVar
  have boundLater : BodyBoundBefore
      (boundVar :: (bodyBinders body ++ boundVar :: "out_idx" :: scope)) body := by
    apply bound.mono
    intro name member
    simp only [List.mem_append, List.mem_cons] at member ⊢
    grind
  have after := execBody_invariant stmtCarries boundLater reads entered
  apply (after.advance outcomes).mono
  intro name member
  exact List.mem_append_right _ (List.mem_cons_of_mem _ member)

end SelectiveInvariant

theorem selectiveLoop_carries (totalPos : 1 ≤ compiler.totalTuples) {outcomes : Nat → Bool}
    {boundVar predVar : String} {body : List ASTNode}
    (stmtCarries : ∀ stmt ∈ body, compiler.Carries outcomes stmt) :
    compiler.Carries outcomes (.selectiveLoop boundVar predVar body) := by
  intro scope usable state bound reads holds
  have enters : compiler.SelectiveInvariant boundVar body scope 0 (state.assign "out_idx" 0) :=
    { first := fun _ => by simpa using holds.assign (le_refl 0) (by omega) "out_idx"
      later := fun positive => absurd positive (lt_irrefl 0)
      silent := fun _ => ⟨0, by simp, le_refl 0, le_refl 0⟩ }
  have carries : ∀ counter middle, 0 ≤ counter → counter < compiler.totalTuples →
      compiler.SelectiveInvariant boundVar body scope counter middle →
      compiler.SelectiveInvariant boundVar body scope (counter + 1)
        ((execBody compiler.totalTuples outcomes body
          (middle.assign boundVar counter)).advance outcomes) := by
    intro counter middle above below carried
    refine ⟨fun zero => by omega, fun _ => ?_, fun silent => ?_⟩
    · rcases eq_or_lt_of_le above with rfl | positive
      · exact carried.first_round stmtCarries totalPos bound reads.1
      · exact carried.later_round stmtCarries bound (reads.2 (by omega)) positive below
    · obtain ⟨value, held, nonneg, atMost⟩ := carried.silent silent
      exact selective_round_outIdx silent above held nonneg atMost
  have atExit := countedLoop_invariant (by omega)
    (compiler.SelectiveInvariant boundVar body scope) enters carries
  apply (atExit.later (by omega)).mono
  intro name member
  simp only [ASTNode.binders, List.mem_append, List.mem_cons] at member ⊢
  grind

theorem exec_carries (totalPos : 1 ≤ compiler.totalTuples) (outcomes : Nat → Bool)
    (node : ASTNode) (known : node.KnownArrays) : compiler.Carries outcomes node := by
  induction node with
  | arrayAccess name idxVar =>
      intro scope usable state bound reads holds
      refine ⟨holds.bound, holds.counters, holds.outIdx, ?_⟩
      intro execution member
      rcases List.mem_append.mp member with earlier | latest
      · exact holds.logged execution earlier
      obtain rfl := List.mem_singleton.mp latest
      obtain ⟨value, held⟩ := Option.ne_none_iff_exists'.mp (holds.bound idxVar bound)
      have inRange : 0 ≤ value ∧ value < compiler.totalTuples := by
        by_cases isOutIdx : idxVar = "out_idx"
        · obtain ⟨other, otherHeld, bounds⟩ := holds.outIdx (reads isOutIdx)
          rw [← isOutIdx, held] at otherHeld
          obtain rfl := Option.some.inj otherHeld
          exact bounds
        · exact holds.counters idxVar isOutIdx value held
      exact ⟨compiler.totalTuples, value,
        lookup_arrays (known name (by simp [ASTNode.arrayNames])), held, inRange⟩
  | loop boundVar body bodyIH =>
      exact loop_carries totalPos fun stmt member =>
        bodyIH stmt member (knownArrays_loop_iff.mp known stmt member)
  | selectiveLoop boundVar predVar body bodyIH =>
      exact selectiveLoop_carries totalPos fun stmt member =>
        bodyIH stmt member (knownArrays_selectiveLoop_iff.mp known stmt member)

theorem Invariant.initial (compiler : SPNEDUnifiedCompiler) :
    compiler.Invariant [] false State.initial where
  bound := fun _ member => absurd member List.not_mem_nil
  counters := fun _ _ _ held => absurd held.symm (by simp [State.initial])
  outIdx := fun up => absurd up Bool.false_ne_true
  logged := fun _ member => absurd member List.not_mem_nil

/-- An accepted tree that never reads a stale `out_idx` has safe runs only. -/
theorem log_safe (totalPos : 1 ≤ compiler.totalTuples) {ast : ASTNode}
    (known : ast.KnownArrays) (accepted : compiler.Accepts ast)
    (reads : ast.ReadsUsable compiler.totalTuples false) (outcomes : Nat → Bool) :
    ∀ execution ∈ (ast.exec compiler.totalTuples outcomes .initial).log,
      compiler.Safe execution := by
  have bound := (accepts_iff_boundBefore known).mp accepted
  exact (exec_carries totalPos outcomes ast known bound reads (.initial compiler)).logged

end SPNEDUnifiedCompiler

end Spned.UnifiedToolchain
