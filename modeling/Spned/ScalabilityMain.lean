import Mathlib.Data.List.TakeWhile
import Spned.MultiCoreRun

/-!
# The main program of the multi-core driver

`main` of `exp4_spned.cpp` reads the number of tuples from the environment, runs
the threads of six configurations one after the other and divides the number by
the time of each.  The number is what the threads have copied in all of the
configurations exactly when 64 divides it and an `int32_t` can hold it.
-/

namespace Spned.Kernels

open TracedMemory Ssa DeterministicRun Interleaving

/-! ## Reading the number of tuples -/

/-- What `std::stoull` throws. -/
inductive StdException where
  | invalidArgument
  | outOfRange
  deriving DecidableEq

/-- `isspace`: a blank, or one of the five control characters from tab on. -/
def isSpace (c : Char) : Bool :=
  c.toNat == 32 || (9 ≤ c.toNat && c.toNat ≤ 13)

/-- The sign and what follows it. -/
def splitSign : List Char → Bool × List Char
  | '-' :: rest => (true, rest)
  | '+' :: rest => (false, rest)
  | unsigned => (false, unsigned)

/-- `std::stoull(text)`: white space, a sign and decimal digits, the value of which
is negated modulo `2 ^ 64` after a minus.  What follows the digits is not read. -/
def stoull (text : List Char) : Except StdException (BitVec 64) :=
  let (negative, unsigned) := splitSign (text.dropWhile isSpace)
  let digits := unsigned.takeWhile Char.isDigit
  if digits = [] then .error .invalidArgument
  else
    let value := Nat.ofDigitChars 10 digits 0
    if 2 ^ 64 ≤ value then .error .outOfRange
    else .ok (if negative then -BitVec.ofNat 64 value else BitVec.ofNat 64 value)

/-- `get_total_tuples`, given the value of `SPNED_TOTAL_TUPLES`. -/
def getTotalTuples (envP : Option String) : Except StdException (BitVec 64) :=
  match envP with
  | some text => stoull text.toList
  | none => .ok 100000000

theorem not_isSpace_of_isDigit {c : Char} (digit : c.isDigit = true) : isSpace c = false := by
  have lowest : '0'.toNat = 48 := rfl
  have highest : '9'.toNat = 57 := rfl
  have bounds := Char.isDigit_iff_toNat.mp digit
  simp [isSpace]
  omega

theorem splitSign_of_isDigit {c : Char} {rest : List Char} (digit : c.isDigit = true) :
    splitSign (c :: rest) = (false, c :: rest) := by
  unfold splitSign
  split
  · simp_all
  · simp_all
  · rfl

/-- Reading a printed number gives it back, as long as 64 bits hold it. -/
theorem stoull_toString (n : Nat) :
    stoull (toString n).toList =
      if 2 ^ 64 ≤ n then .error .outOfRange else .ok (BitVec.ofNat 64 n) := by
  have printed : (toString n).toList = Nat.toDigits 10 n := Nat.toList_repr
  have digits : ∀ c ∈ Nat.toDigits 10 n, c.isDigit = true :=
    fun c member => Nat.isDigit_of_mem_toDigits (by decide) (by decide) member
  have value : Nat.ofDigitChars 10 (Nat.toDigits 10 n) 0 = n := Nat.ofDigitChars_ten_toDigits
  have nonempty : Nat.toDigits 10 n ≠ [] := Nat.toDigits_ne_nil
  rw [printed]
  generalize Nat.toDigits 10 n = text at digits value nonempty
  cases text with
  | nil => exact absurd rfl nonempty
  | cons c rest =>
      have first := digits c (by simp)
      have all : (c :: rest).takeWhile Char.isDigit = c :: rest :=
        List.takeWhile_eq_self_iff.mpr digits
      simp only [stoull, List.dropWhile_cons, not_isSpace_of_isDigit first,
        Bool.false_eq_true, if_false, splitSign_of_isDigit first, all, value]
      simp

/-! ## The configurations -/

def threadsConfig : List (BitVec 32) :=
  [1, 4, 8, 16, 32, 64]

theorem threadsConfig_bounds {t : BitVec 32} (member : t ∈ threadsConfig) :
    1 ≤ t.toInt ∧ t.toNat ∣ 64 := by
  simp only [threadsConfig, List.mem_cons, List.not_mem_nil, or_false] at member
  rcases member with rfl | rfl | rfl | rfl | rfl | rfl <;> decide

/-- The shares are even in all configurations when they are for 64 threads and
for one. -/
theorem forall_evenShares_iff {total : BitVec 64} :
    (∀ t ∈ threadsConfig, EvenShares total t) ↔
      1 ≤ total.toNat ∧ 64 ∣ total.toNat ∧ total.toNat < 2 ^ 31 := by
  constructor
  · intro even
    have alone := even 1 (by decide)
    have most := even 64 (by decide)
    refine ⟨alone.nonempty, most.divides, ?_⟩
    have fits := alone.fits
    have one : (1 : BitVec 32).toNat = 1 := rfl
    rwa [one, Nat.div_one] at fits
  · rintro ⟨nonempty, divides, fits⟩ t member
    obtain ⟨positive, config⟩ := threadsConfig_bounds member
    exact
      { nonempty := nonempty
        positive := positive
        divides := config.trans divides
        fits := (Nat.div_le_self _ _).trans_lt fits }

/-- The threads of every configuration, in every order, have copied the number
of tuples that its line of the output is computed from. -/
def EveryLineCounts (envP : Option String) : Prop :=
  ∃ total, getTotalTuples envP = .ok total ∧
    ∀ t ∈ threadsConfig, ∀ (heap : Fin t.toNat → KernelBuf → Int → BitVec 32) schedule pool,
      (driverThreads total t heap).run emitSequentialIr.threadStep schedule = some pool →
      pool.Joined → pool.shared.trace.countP Event.isStore = total.toNat

/-- With a printed number in the environment, every line of the output counts
what has been copied exactly when 64 divides the number and an `int32_t` can
hold it. -/
theorem everyLineCounts_iff (n : Nat) :
    EveryLineCounts (some (toString n)) ↔ 1 ≤ n ∧ 64 ∣ n ∧ n < 2 ^ 31 := by
  have reads := stoull_toString n
  constructor
  · rintro ⟨total, parsed, counts⟩
    rw [getTotalTuples, reads] at parsed
    split at parsed
    · cases parsed
    next narrow =>
      obtain rfl := Except.ok.inj parsed
      have value : (BitVec.ofNat 64 n).toNat = n := by
        rw [BitVec.toNat_ofNat]
        omega
      rw [← value]
      apply forall_evenShares_iff.mp
      intro t member
      obtain ⟨schedule, pool, executes, joined⟩ :=
        driverThreads_exists_joined (BitVec.ofNat 64 n) t fun _ _ _ => 0
      have counted := counts t member _ schedule pool executes joined
      rw [countP_isStore_of_joined _ executes joined] at counted
      exact evenShares_of_count (threadsConfig_bounds member).1 counted
  · rintro ⟨nonempty, divides, fits⟩
    have value : (BitVec.ofNat 64 n).toNat = n := by
      rw [BitVec.toNat_ofNat]
      omega
    refine ⟨BitVec.ofNat 64 n, ?_, fun t member heap schedule pool executes joined => ?_⟩
    · rw [getTotalTuples, reads, if_neg (by omega)]
    · have even := forall_evenShares_iff.mpr
        (by rw [value]; exact ⟨nonempty, divides, fits⟩) t member
      rw [countP_isStore_of_joined heap executes joined, even.workerRounds_eq,
        perThread_toNat _ even.positive, Nat.mul_div_cancel' even.divides]

end Spned.Kernels
