import Spned.UnifiedVerifier
import Spned.CountedLoop

/-!
# Concrete runs of the unified toolchain's trees

One variable store serves the whole program.  A loop leaves its counter at the
last value; a selective loop resets `out_idx` on entry and advances it at the
end of each iteration whose predicate came out true, as the emitted kernel
does.  The outcomes are an arbitrary sequence, consumed one per iteration.
-/

namespace Spned.UnifiedToolchain

open CountedLoop

/-- One executed access, with what its index variable held. -/
structure Execution where
  name : String
  idxVar : String
  value : Option Int

structure State where
  store : String → Option Int
  /-- Predicate outcomes consumed so far. -/
  ticks : Nat
  log : List Execution

namespace State

def initial : State := ⟨fun _ => none, 0, []⟩

def assign (state : State) (name : String) (value : Int) : State :=
  { state with store := Function.update state.store name (some value) }

/-- The end of a selective iteration: `phi [out_idx + 1, match], [out_idx, loop]`. -/
def advance (outcomes : Nat → Bool) (state : State) : State :=
  { state with
    store := if outcomes state.ticks then
        Function.update state.store "out_idx" ((state.store "out_idx").map (· + 1))
      else state.store
    ticks := state.ticks + 1 }

@[simp]
theorem store_assign (state : State) (name : String) (value : Int) :
    (state.assign name value).store = Function.update state.store name (some value) :=
  rfl

@[simp]
theorem log_assign (state : State) (name : String) (value : Int) :
    (state.assign name value).log = state.log :=
  rfl

@[simp]
theorem log_advance (outcomes : Nat → Bool) (state : State) :
    (state.advance outcomes).log = state.log :=
  rfl

theorem store_advance_of_ne (outcomes : Nat → Bool) (state : State) {name : String}
    (other : name ≠ "out_idx") : (state.advance outcomes).store name = state.store name := by
  unfold advance
  split_ifs <;> simp [other]

theorem store_advance_outIdx (outcomes : Nat → Bool) (state : State) {value : Int}
    (holds : state.store "out_idx" = some value) :
    (state.advance outcomes).store "out_idx" =
      some (if outcomes state.ticks then value + 1 else value) := by
  unfold advance
  split_ifs <;> simp [holds]

theorem store_advance_eq_none_iff (outcomes : Nat → Bool) (state : State) (name : String) :
    (state.advance outcomes).store name = none ↔ state.store name = none := by
  by_cases other : name = "out_idx"
  · subst name
    unfold advance
    split_ifs <;> simp
  · rw [store_advance_of_ne outcomes state other]

end State

mutual

def ASTNode.exec (total : Int) (outcomes : Nat → Bool) : ASTNode → State → State
  | .arrayAccess name idxVar, state =>
      { state with log := state.log ++ [⟨name, idxVar, state.store idxVar⟩] }
  | .loop boundVar body, state =>
      countedLoop 0 total
        (fun counter state => execBody total outcomes body (state.assign boundVar counter))
        state
  | .selectiveLoop boundVar _ body, state =>
      countedLoop 0 total
        (fun counter state =>
          (execBody total outcomes body (state.assign boundVar counter)).advance outcomes)
        (state.assign "out_idx" 0)

def execBody (total : Int) (outcomes : Nat → Bool) : List ASTNode → State → State
  | [], state => state
  | stmt :: rest, state => execBody total outcomes rest (stmt.exec total outcomes state)

end

/-! ## What every run preserves -/

section Preserved

variable {total : Int} {outcomes : Nat → Bool}

theorem execBody_preserves (Property : State → Prop) {body : List ASTNode}
    (stmtPreserves : ∀ stmt ∈ body, ∀ {state : State}, Property state →
      Property (stmt.exec total outcomes state))
    {state : State} (holds : Property state) :
    Property (execBody total outcomes body state) := by
  induction body generalizing state with
  | nil => exact holds
  | cons stmt rest ih =>
      exact ih (fun other member => stmtPreserves other (by simp [member]))
        (stmtPreserves stmt (by simp) holds)

/-- What the primitive state changes preserve, every statement preserves. -/
theorem ASTNode.exec_preserves (totalPos : 1 ≤ total) (Property : State → Prop)
    (onAccess : ∀ name idxVar (state : State), Property state →
      Property { state with log := state.log ++ [⟨name, idxVar, state.store idxVar⟩] })
    (onAssign : ∀ name counter (state : State), 0 ≤ counter → counter < total →
      Property state → Property (state.assign name counter))
    (onAdvance : ∀ state : State, Property state → Property (state.advance outcomes))
    (node : ASTNode) {state : State} (holds : Property state) :
    Property (node.exec total outcomes state) := by
  induction node generalizing state with
  | arrayAccess name idxVar => exact onAccess name idxVar state holds
  | loop boundVar body bodyIH =>
      apply countedLoop_preserves Property holds
      intro counter middle above below carried
      exact execBody_preserves Property bodyIH (onAssign _ _ _ above below carried)
  | selectiveLoop boundVar predVar body bodyIH =>
      apply countedLoop_preserves Property
        (onAssign _ _ _ (le_refl 0) (by omega) holds)
      intro counter middle above below carried
      exact onAdvance _
        (execBody_preserves Property bodyIH (onAssign _ _ _ above below carried))

theorem ASTNode.mem_log_exec (totalPos : 1 ≤ total) (node : ASTNode) {state : State}
    {execution : Execution} (logged : execution ∈ state.log) :
    execution ∈ (node.exec total outcomes state).log :=
  node.exec_preserves totalPos (fun state => execution ∈ state.log)
    (fun _ _ _ member => List.mem_append_left _ member)
    (fun _ _ _ _ _ member => member) (fun _ member => member) logged

/-- Away from `out_idx` every stored value is a counter of some loop. -/
def State.CountersWithin (total : Int) (state : State) : Prop :=
  ∀ name, name ≠ "out_idx" → ∀ value, state.store name = some value →
    0 ≤ value ∧ value < total

theorem State.CountersWithin.assign {state : State} (within : state.CountersWithin total)
    {counter : Int} (above : 0 ≤ counter) (below : counter < total) (name : String) :
    (state.assign name counter).CountersWithin total := by
  intro other notOutIdx value holds
  by_cases same : other = name
  · subst other
    obtain rfl : counter = value := by simpa using holds
    exact ⟨above, below⟩
  · exact within other notOutIdx value (by simpa [same] using holds)

end Preserved

/-! ## Where `out_idx` is written -/

mutual

def ASTNode.writesOutIdx : ASTNode → Bool
  | .arrayAccess _ _ => false
  | .loop boundVar body => boundVar == "out_idx" || bodyWritesOutIdx body
  | .selectiveLoop _ _ _ => true

def bodyWritesOutIdx : List ASTNode → Bool
  | [] => false
  | stmt :: rest => stmt.writesOutIdx || bodyWritesOutIdx rest

end

section Frame

variable {total : Int} {outcomes : Nat → Bool}

theorem bodyWritesOutIdx_eq_false_iff {body : List ASTNode} :
    bodyWritesOutIdx body = false ↔ ∀ stmt ∈ body, stmt.writesOutIdx = false := by
  induction body with
  | nil => simp [bodyWritesOutIdx]
  | cons stmt rest ih => simp [bodyWritesOutIdx, ih]

theorem ASTNode.store_outIdx_exec (node : ASTNode) (silent : node.writesOutIdx = false)
    (state : State) :
    (node.exec total outcomes state).store "out_idx" = state.store "out_idx" := by
  induction node generalizing state with
  | arrayAccess name idxVar => rfl
  | loop boundVar body bodyIH =>
      obtain ⟨notOutIdx, bodySilent⟩ : boundVar ≠ "out_idx" ∧ bodyWritesOutIdx body = false := by
        simpa [writesOutIdx] using silent
      apply countedLoop_preserves
        (fun final : State => final.store "out_idx" = state.store "out_idx") rfl
      intro counter middle _ _ unchanged
      apply execBody_preserves
        (fun final : State => final.store "out_idx" = state.store "out_idx")
      · intro stmt member before same
        rw [bodyIH stmt member (bodyWritesOutIdx_eq_false_iff.mp bodySilent stmt member), same]
      · simpa [notOutIdx.symm] using unchanged
  | selectiveLoop boundVar predVar body => cases silent

theorem store_outIdx_execBody {body : List ASTNode} (silent : bodyWritesOutIdx body = false)
    (state : State) :
    (execBody total outcomes body state).store "out_idx" = state.store "out_idx" := by
  apply execBody_preserves (fun final : State => final.store "out_idx" = state.store "out_idx")
    _ rfl
  intro stmt member before same
  rw [stmt.store_outIdx_exec (bodyWritesOutIdx_eq_false_iff.mp silent stmt member), same]

end Frame

end Spned.UnifiedToolchain
