import Spned.IntervalDomain

/-!
# The bounds check of both Python verifiers

`spned_micro_compiler.py` and `spned_unified_toolchain.py` each define their own
`Interval` class and compare it with a declared array in the same way:
`idx_int.low < 0 or idx_int.high >= self.arrays[name]` raises `ValueError`.
Both walk the statements of a loop body in order.
-/

namespace Spned

/-- Python's `Interval(low, high)`; the only infinite end the code builds is
`high = float('inf')`.  (Python raises `OverflowError` when an integer beyond
the range of a float is added to that end; here the sum stays infinite, and the
check that follows raises instead.) -/
abbrev Interval := IntervalDomain.Interval Int

namespace Interval

def reprHigh : WithTop Int → String
  | none => "inf"
  | some value => toString value

/-- `Interval.__repr__`. -/
def repr (interval : Interval) : String :=
  "[" ++ toString interval.low ++ ", " ++ reprHigh interval.high ++ "]"

end Interval

/-- The exceptions the verifiers let through. -/
inductive PyError where
  | valueError (message : String)
  | keyError (key : String)

/-- The size is looked up only after the lower end has passed. -/
def boundsCheck (arrays : List (String × Int)) (message name : String)
    (idxInt : Interval) : Except PyError Unit :=
  if idxInt.low < 0 then
    .error (.valueError message)
  else
    match arrays.lookup name with
    | none => .error (.keyError name)
    | some size =>
        if idxInt.reaches size then
          .error (.valueError message)
        else
          .ok ()

theorem boundsCheck_eq_ok_iff {arrays : List (String × Int)} {message name : String}
    {idxInt : Interval} :
    boundsCheck arrays message name idxInt = .ok () ↔
      ∃ size, arrays.lookup name = some size ∧ idxInt.Within 0 size := by
  unfold boundsCheck
  by_cases negative : idxInt.low < 0
  · simp [negative, IntervalDomain.Interval.Within, not_le.mpr negative]
  · cases declared : arrays.lookup name with
    | none => simp [negative]
    | some size =>
        simp [negative, IntervalDomain.Interval.Within, not_lt.mp negative,
          ← IntervalDomain.Interval.reaches_eq_false_iff]

/-- On a declared array only the message tells that the check has failed. -/
theorem boundsCheck_eq_error {arrays : List (String × Int)} {message name : String}
    {idxInt : Interval} {size : Int} (declared : arrays.lookup name = some size)
    (outside : ¬ idxInt.Within 0 size) :
    boundsCheck arrays message name idxInt = .error (.valueError message) := by
  unfold boundsCheck
  by_cases negative : idxInt.low < 0
  · simp [negative]
  · have reached : idxInt.reaches size = true := by
      by_contra short
      apply outside
      exact ⟨not_lt.mp negative,
        IntervalDomain.Interval.reaches_eq_false_iff.mp (Bool.not_eq_true _ ▸ short)⟩
    simp [negative, declared, reached]

/-- What is collected from the statements of a body, one after the other. -/
theorem mem_collectBody_iff {Stmt α : Type*} {collect : Stmt → List α}
    {collectBody : List Stmt → List α} (nil : collectBody [] = [])
    (cons : ∀ stmt rest, collectBody (stmt :: rest) = collect stmt ++ collectBody rest)
    {body : List Stmt} {item : α} :
    item ∈ collectBody body ↔ ∃ stmt ∈ body, item ∈ collect stmt := by
  induction body with
  | nil => simp [nil]
  | cons stmt rest ih => simp [cons, ih]

end Spned
