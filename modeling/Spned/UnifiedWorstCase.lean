import Spned.UnifiedSoundness

/-!
# The worst run of a selective tree

With every predicate outcome true `out_idx` is as large as it gets, and the
flag of `usableAfter` is then exact: where it is down, `out_idx` has no value or
one past the arrays.  A tree that reads it there has an unsafe run, so the
trees on which the verifier is sound are exactly those that never do.
-/

namespace Spned.UnifiedToolchain

open CountedLoop

def allMatch : Nat → Bool := fun _ => true

/-- The flag tells whether `out_idx` is a valid index. -/
structure Exact (total : Int) (usable : Bool) (state : State) : Prop where
  inRange : usable = true →
    ∃ value, state.store "out_idx" = some value ∧ 0 ≤ value ∧ value < total
  beyond : usable = false → ∀ value, state.store "out_idx" = some value → total ≤ value

theorem Exact.assign {total : Int} {usable : Bool} {state : State}
    (exact : Exact total usable state) {counter : Int} (above : 0 ≤ counter)
    (below : counter < total) (name : String) :
    Exact total (name == "out_idx" || usable) (state.assign name counter) := by
  by_cases isOutIdx : name = "out_idx"
  · refine ⟨fun _ => ⟨counter, by simp [isOutIdx], above, below⟩, fun down => ?_⟩
    simp [isOutIdx] at down
  · have unchanged : (state.assign name counter).store "out_idx" = state.store "out_idx" := by
      simp [Ne.symm isOutIdx]
    rw [beq_eq_false_iff_ne.mpr isOutIdx, Bool.false_or]
    exact ⟨by rw [unchanged]; exact exact.inRange, by rw [unchanged]; exact exact.beyond⟩

theorem State.store_advance_allMatch {state : State} {value : Int}
    (held : state.store "out_idx" = some value) :
    (state.advance allMatch).store "out_idx" = some (value + 1) := by
  rw [State.store_advance_outIdx allMatch state held]
  rfl

namespace SPNEDUnifiedCompiler

variable {compiler : SPNEDUnifiedCompiler}

structure Determined (compiler : SPNEDUnifiedCompiler) (usable writes : Bool)
    (reads : Prop) (final : State) : Prop where
  exact : Exact compiler.totalTuples usable final
  written : writes = true →
    ∃ value, final.store "out_idx" = some value ∧ compiler.totalTuples - 1 ≤ value
  reads : (∀ execution ∈ final.log, compiler.Safe execution) → reads

def Determines (compiler : SPNEDUnifiedCompiler) (node : ASTNode) : Prop :=
  ∀ {usable : Bool} {state : State}, Exact compiler.totalTuples usable state →
    compiler.Determined (node.usableAfter usable) node.writesOutIdx
      (node.ReadsUsable compiler.totalTuples usable)
      (node.exec compiler.totalTuples allMatch state)

theorem mem_log_execBody (totalPos : 1 ≤ compiler.totalTuples) (body : List ASTNode)
    {state : State} {execution : Execution} (logged : execution ∈ state.log) :
    execution ∈ (execBody compiler.totalTuples allMatch body state).log :=
  execBody_preserves (fun state => execution ∈ state.log)
    (fun stmt _ _ member => stmt.mem_log_exec totalPos member) logged

theorem execBody_determined (totalPos : 1 ≤ compiler.totalTuples) {body : List ASTNode}
    (stmtDetermines : ∀ stmt ∈ body, compiler.Determines stmt) {usable : Bool}
    {state : State} (exact : Exact compiler.totalTuples usable state) :
    compiler.Determined (bodyUsableAfter body usable) (bodyWritesOutIdx body)
      (BodyReadsUsable compiler.totalTuples body usable)
      (execBody compiler.totalTuples allMatch body state) := by
  induction body generalizing usable state with
  | nil => exact ⟨exact, fun writes => absurd writes Bool.false_ne_true, fun _ => trivial⟩
  | cons stmt rest ih =>
      have afterStmt := stmtDetermines stmt (by simp) exact
      have afterRest := ih (fun other member => stmtDetermines other (by simp [member]))
        afterStmt.exact
      refine ⟨afterRest.exact, fun writes => ?_, fun safe => ⟨?_, afterRest.reads safe⟩⟩
      · cases restWrites : bodyWritesOutIdx rest with
        | true => exact afterRest.written restWrites
        | false =>
            rw [execBody, store_outIdx_execBody restWrites]
            exact afterStmt.written (by simpa [bodyWritesOutIdx, restWrites] using writes)
      · exact afterStmt.reads fun execution member =>
          safe execution (mem_log_execBody totalPos rest member)

/-- Safety of a loop's log at its end is safety of the logs of its first two
rounds, which are still part of it. -/
theorem safe_rounds (totalPos : 1 ≤ compiler.totalTuples) {round : Int → State → State}
    {state : State}
    (safe : ∀ execution ∈ (countedLoop 0 compiler.totalTuples round state).log,
      compiler.Safe execution)
    (keepsLog : ∀ counter middle execution,
      execution ∈ middle.log → execution ∈ (round counter middle).log) :
    (∀ execution ∈ (round 0 state).log, compiler.Safe execution) ∧
      (1 < compiler.totalTuples →
        ∀ execution ∈ (round 1 (round 0 state)).log, compiler.Safe execution) := by
  have reachesEnd : ∀ lower middle execution, execution ∈ middle.log →
      execution ∈ (countedLoop lower compiler.totalTuples round middle).log := by
    intro lower middle execution logged
    exact countedLoop_preserves (fun state : State => execution ∈ state.log) logged
      fun counter middle _ _ member => keepsLog counter middle execution member
  rw [countedLoop_of_lt (by omega)] at safe
  constructor
  · intro execution member
    exact safe execution (reachesEnd _ _ execution member)
  · intro more execution member
    rw [countedLoop_of_lt (by omega)] at safe
    exact safe execution (reachesEnd _ _ execution member)

/-! ## Plain loops -/

structure LoopDetermined (compiler : SPNEDUnifiedCompiler) (boundVar : String)
    (body : List ASTNode) (usable : Bool) (counter : Int) (state : State) : Prop where
  first : counter = 0 → Exact compiler.totalTuples usable state
  later : 0 < counter → Exact compiler.totalTuples
    (bodyUsableAfter body (boundVar == "out_idx" || usable)) state
  written : 0 < counter → bodyWritesOutIdx body = true →
    ∃ value, state.store "out_idx" = some value ∧ compiler.totalTuples - 1 ≤ value
  counted : 0 < counter → bodyWritesOutIdx body = false → boundVar = "out_idx" →
    state.store "out_idx" = some (counter - 1)

theorem loop_round_determined (totalPos : 1 ≤ compiler.totalTuples) {body : List ASTNode}
    (stmtDetermines : ∀ stmt ∈ body, compiler.Determines stmt) {boundVar : String}
    {usable : Bool} {counter : Int} (above : 0 ≤ counter)
    (below : counter < compiler.totalTuples) {state : State}
    (holds : compiler.LoopDetermined boundVar body usable counter state) :
    compiler.LoopDetermined boundVar body usable (counter + 1)
      (execBody compiler.totalTuples allMatch body (state.assign boundVar counter)) := by
  have leaves : ∃ reads, compiler.Determined
      (bodyUsableAfter body (boundVar == "out_idx" || usable)) (bodyWritesOutIdx body) reads
      (execBody compiler.totalTuples allMatch body (state.assign boundVar counter)) := by
    rcases eq_or_lt_of_le above with rfl | positive
    · exact ⟨_, execBody_determined totalPos stmtDetermines
        ((holds.first rfl).assign (le_refl 0) below boundVar)⟩
    · have after := execBody_determined totalPos stmtDetermines
        ((holds.later positive).assign above below boundVar)
      rw [bodyUsableAfter_later] at after
      exact ⟨_, after⟩
  obtain ⟨reads, after⟩ := leaves
  refine ⟨fun zero => by omega, fun _ => after.exact, fun _ => after.written, ?_⟩
  intro _ silent isOutIdx
  rw [store_outIdx_execBody silent]
  simp [isOutIdx]

theorem loop_determines (totalPos : 1 ≤ compiler.totalTuples) {boundVar : String}
    {body : List ASTNode} (stmtDetermines : ∀ stmt ∈ body, compiler.Determines stmt) :
    compiler.Determines (.loop boundVar body) := by
  intro usable state exact
  have enters : compiler.LoopDetermined boundVar body usable 0 state :=
    ⟨fun _ => exact, fun positive => absurd positive (lt_irrefl 0),
      fun positive => absurd positive (lt_irrefl 0),
      fun positive => absurd positive (lt_irrefl 0)⟩
  have carries : ∀ counter middle, 0 ≤ counter → counter < compiler.totalTuples →
      compiler.LoopDetermined boundVar body usable counter middle →
      compiler.LoopDetermined boundVar body usable (counter + 1)
        (execBody compiler.totalTuples allMatch body (middle.assign boundVar counter)) :=
    fun counter middle above below holds =>
      loop_round_determined totalPos stmtDetermines above below holds
  have atExit := countedLoop_invariant (by omega)
    (compiler.LoopDetermined boundVar body usable) enters carries
  refine ⟨atExit.later (by omega), fun writes => ?_, fun safe => ?_⟩
  · cases bodyWrites : bodyWritesOutIdx body with
    | true => exact atExit.written (by omega) bodyWrites
    | false =>
        have isOutIdx : boundVar = "out_idx" := by
          simpa [ASTNode.writesOutIdx, bodyWrites] using writes
        exact ⟨_, atExit.counted (by omega) bodyWrites isOutIdx, le_refl _⟩
  · rw [ASTNode.exec] at safe
    obtain ⟨safeFirst, safeSecond⟩ := safe_rounds totalPos safe
      fun _ _ _ member => mem_log_execBody totalPos body member
    have firstRound := execBody_determined totalPos stmtDetermines
      (exact.assign (le_refl 0) (by omega) boundVar)
    refine ⟨firstRound.reads safeFirst, fun more => ?_⟩
    have afterFirst := carries 0 state (le_refl 0) (by omega) enters
    have secondRound := execBody_determined totalPos stmtDetermines
      ((afterFirst.later (by omega)).assign (by omega) more boundVar)
    exact secondRound.reads (safeSecond more)

/-! ## Selective loops -/

/-- What holds at the start of each iteration of a selective loop: a body that
leaves `out_idx` alone keeps it equal to the counter, any other body has pushed
it past the arrays. -/
structure SelectiveDetermined (compiler : SPNEDUnifiedCompiler) (body : List ASTNode)
    (counter : Int) (state : State) : Prop where
  first : counter = 0 → state.store "out_idx" = some 0
  counted : bodyWritesOutIdx body = false → state.store "out_idx" = some counter
  pushed : 0 < counter → bodyWritesOutIdx body = true →
    ∃ value, state.store "out_idx" = some value ∧ compiler.totalTuples ≤ value

namespace SelectiveDetermined

variable {body : List ASTNode} {state : State}

theorem exact_first (totalPos : 1 ≤ compiler.totalTuples)
    (holds : compiler.SelectiveDetermined body 0 state) (boundVar : String) :
    Exact compiler.totalTuples true (state.assign boundVar 0) := by
  have entry : Exact compiler.totalTuples true state :=
    ⟨fun _ => ⟨0, holds.first rfl, le_refl 0, by omega⟩, fun down => by cases down⟩
  simpa using entry.assign (le_refl 0) (by omega) boundVar

theorem exact_later {counter : Int} (positive : 0 < counter)
    (below : counter < compiler.totalTuples)
    (holds : compiler.SelectiveDetermined body counter state) (boundVar : String) :
    Exact compiler.totalTuples (boundVar == "out_idx" || !bodyWritesOutIdx body)
      (state.assign boundVar counter) := by
  have entry : Exact compiler.totalTuples (!bodyWritesOutIdx body) state := by
    constructor
    · intro silent
      exact ⟨counter, holds.counted (by simpa using silent), by omega, below⟩
    · intro writes value held
      obtain ⟨pushed, pushedHeld, large⟩ := holds.pushed positive (by simpa using writes)
      rw [held] at pushedHeld
      obtain rfl := Option.some.inj pushedHeld
      exact large
  exact entry.assign (by omega) below boundVar

theorem round (totalPos : 1 ≤ compiler.totalTuples)
    (stmtDetermines : ∀ stmt ∈ body, compiler.Determines stmt) {counter : Int}
    (above : 0 ≤ counter) (below : counter < compiler.totalTuples)
    (holds : compiler.SelectiveDetermined body counter state) (boundVar : String) :
    compiler.SelectiveDetermined body (counter + 1)
      ((execBody compiler.totalTuples allMatch body (state.assign boundVar counter)).advance
        allMatch) := by
  refine ⟨fun zero => by omega, fun silent => ?_, fun _ writes => ?_⟩
  · apply State.store_advance_allMatch
    rw [store_outIdx_execBody silent]
    by_cases isOutIdx : "out_idx" = boundVar
    · simp [isOutIdx]
    · simpa [isOutIdx] using holds.counted silent
  · have entry : ∃ usable, Exact compiler.totalTuples usable (state.assign boundVar counter) := by
      rcases eq_or_lt_of_le above with rfl | positive
      · exact ⟨_, holds.exact_first totalPos boundVar⟩
      · exact ⟨_, holds.exact_later positive below boundVar⟩
    obtain ⟨usable, exact⟩ := entry
    obtain ⟨value, held, large⟩ :=
      (execBody_determined totalPos stmtDetermines exact).written writes
    exact ⟨value + 1, State.store_advance_allMatch held, by omega⟩

end SelectiveDetermined

theorem selectiveLoop_determines (totalPos : 1 ≤ compiler.totalTuples)
    {boundVar predVar : String} {body : List ASTNode}
    (stmtDetermines : ∀ stmt ∈ body, compiler.Determines stmt) :
    compiler.Determines (.selectiveLoop boundVar predVar body) := by
  intro usable state _
  have enters : compiler.SelectiveDetermined body 0 (state.assign "out_idx" 0) :=
    ⟨fun _ => by simp, fun _ => by simp, fun positive => absurd positive (lt_irrefl 0)⟩
  have carries : ∀ counter middle, 0 ≤ counter → counter < compiler.totalTuples →
      compiler.SelectiveDetermined body counter middle →
      compiler.SelectiveDetermined body (counter + 1)
        ((execBody compiler.totalTuples allMatch body (middle.assign boundVar counter)).advance
          allMatch) :=
    fun counter middle above below holds =>
      holds.round totalPos stmtDetermines above below boundVar
  have atExit := countedLoop_invariant (by omega)
    (compiler.SelectiveDetermined body) enters carries
  have past : ∃ value, ((ASTNode.selectiveLoop boundVar predVar body).exec compiler.totalTuples
      allMatch state).store "out_idx" = some value ∧ compiler.totalTuples ≤ value := by
    cases bodyWrites : bodyWritesOutIdx body with
    | true => exact atExit.pushed (by omega) bodyWrites
    | false => exact ⟨_, atExit.counted bodyWrites, le_refl _⟩
  obtain ⟨value, held, large⟩ := past
  refine ⟨⟨fun up => absurd up Bool.false_ne_true, fun _ other otherHeld => ?_⟩,
    fun _ => ⟨value, held, by omega⟩, fun safe => ?_⟩
  · obtain rfl := Option.some.inj (held.symm.trans otherHeld)
    exact large
  · rw [ASTNode.exec] at safe
    obtain ⟨safeFirst, safeSecond⟩ := safe_rounds totalPos safe
      fun _ _ _ member => mem_log_execBody totalPos body member
    have firstRound := execBody_determined totalPos stmtDetermines
      (enters.exact_first totalPos boundVar)
    refine ⟨firstRound.reads safeFirst, fun more => ?_⟩
    have afterFirst := carries 0 _ (le_refl 0) (by omega) enters
    have secondRound := execBody_determined totalPos stmtDetermines
      (afterFirst.exact_later (by omega) more boundVar)
    exact secondRound.reads (safeSecond more)

theorem exec_determines (totalPos : 1 ≤ compiler.totalTuples) (node : ASTNode)
    (known : node.KnownArrays) : compiler.Determines node := by
  induction node with
  | arrayAccess name idxVar =>
      intro usable state exact
      refine ⟨⟨exact.inRange, exact.beyond⟩, fun writes => absurd writes Bool.false_ne_true,
        fun safe isOutIdx => ?_⟩
      obtain ⟨size, value, declared, held, above, below⟩ :=
        safe ⟨name, idxVar, state.store idxVar⟩ (by simp [ASTNode.exec])
      have sizeEq : compiler.totalTuples = size := by
        have found := @lookup_arrays compiler _
          (known name (by simp [ASTNode.arrayNames]))
        exact Option.some.inj (found.symm.trans declared)
      by_contra notUsable
      have large := exact.beyond (by simpa using notUsable) value (isOutIdx ▸ held)
      omega
  | loop boundVar body bodyIH =>
      exact loop_determines totalPos fun stmt member =>
        bodyIH stmt member (knownArrays_loop_iff.mp known stmt member)
  | selectiveLoop boundVar predVar body bodyIH =>
      exact selectiveLoop_determines totalPos fun stmt member =>
        bodyIH stmt member (knownArrays_selectiveLoop_iff.mp known stmt member)

/-- On an accepted tree every run is safe if and only if no access reads
`out_idx` where a finished or an enclosing selective loop may have pushed it out
of range. -/
theorem verifyAst_sound_iff (totalPos : 1 ≤ compiler.totalTuples) {ast : ASTNode}
    (known : ast.KnownArrays) (accepted : compiler.Accepts ast) :
    (∀ outcomes, ∀ execution ∈ (ast.exec compiler.totalTuples outcomes .initial).log,
      compiler.Safe execution) ↔
    ast.ReadsUsable compiler.totalTuples false := by
  constructor
  · intro safe
    have unset : Exact compiler.totalTuples false State.initial :=
      ⟨fun up => absurd up Bool.false_ne_true,
        fun _ _ held => absurd held.symm (by simp [State.initial])⟩
    exact (exec_determines totalPos ast known unset).reads (safe allMatch)
  · intro reads outcomes
    exact log_safe totalPos known accepted reads outcomes

/-- The selective decoder's tree of the toolchain's own pipeline, at four
tuples. -/
theorem verifyAst_sound_iff_selective :
    let compiler : SPNEDUnifiedCompiler := ⟨4⟩
    let ast : ASTNode :=
      .selectiveLoop "i" "pred" [.arrayAccess "in_buf" "i", .arrayAccess "out_buf" "out_idx"]
    (∀ outcomes, ∀ execution ∈ (ast.exec compiler.totalTuples outcomes .initial).log,
      compiler.Safe execution) ↔
    ast.ReadsUsable compiler.totalTuples false := by
  intro compiler ast
  have known : ast.KnownArrays := by
    simp [ast, ASTNode.KnownArrays, ASTNode.arrayNames, bodyArrayNames]
  refine verifyAst_sound_iff (by decide) known ((accepts_iff_boundBefore known).mpr ?_)
  simp [ast, ASTNode.BoundBefore, ASTNode.Scoped, BodyScoped]

/-- With one tuple that matches, an access placed after a selective loop reads
`out_buf[1]`. -/
theorem verifyAst_accepts_stale_outIdx :
    let compiler : SPNEDUnifiedCompiler := ⟨1⟩
    let ast : ASTNode :=
      .loop "i" [.selectiveLoop "j" "pred" [], .arrayAccess "out_buf" "out_idx"]
    ast.KnownArrays ∧ compiler.Accepts ast ∧
      ∃ execution ∈ (ast.exec compiler.totalTuples allMatch .initial).log,
        execution = ⟨"out_buf", "out_idx", some 1⟩ ∧ ¬ compiler.Safe execution := by
  intro compiler ast
  have known : ast.KnownArrays := by
    simp [ast, ASTNode.KnownArrays, ASTNode.arrayNames, bodyArrayNames]
  refine ⟨known, (accepts_iff_boundBefore known).mpr ?_, _, ?_, rfl, ?_⟩
  · simp [ast, ASTNode.BoundBefore, ASTNode.Scoped, BodyScoped, ASTNode.binders, bodyBinders]
  · exact List.mem_singleton.mpr rfl
  · simp [Safe, arrays, List.lookup_cons, compiler]

end SPNEDUnifiedCompiler

end Spned.UnifiedToolchain
