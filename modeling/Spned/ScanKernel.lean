import Spned.CompactionLoop

/-!
# The exported scan kernels

`scan_seq` and `scan_sel` of `pure_scan.c`.  The host passes any `int` as the
length, while the two static buffers have `MAX_SIZE` elements each: the kernels
compare the counter with the length only.
-/

namespace Spned.Kernels

open CountedLoop TracedMemory WrittenPrefix StableFilter

def maxSize : Int :=
  100000000

def scanSeq (len : BitVec 32) (memory : KernelMemory) : KernelMemory :=
  countedLoop 0 len.toInt copyElement memory

/-- `in_buf[i] % 10 == 0`, with the remainder that has the sign of the element. -/
def remainderZero (value : BitVec 32) : Bool :=
  value.srem 10 == 0

/-- The returned `out_idx` and the final memory. -/
def scanSel (len : BitVec 32) (memory : KernelMemory) : BitVec 32 × KernelMemory :=
  countedLoop 0 len.toInt (compactElement remainderZero BitVec.toInt) (0, memory)

theorem remainderZero_iff (value : BitVec 32) :
    remainderZero value = true ↔ (10 : Int) ∣ value.toInt := by
  have ten : (10 : BitVec 32).toInt = 10 := by decide
  have zero : (0 : BitVec 32).toInt = 0 := by decide
  rw [remainderZero, beq_iff_eq, Int.dvd_iff_tmod_eq_zero, ← BitVec.toInt_inj,
    BitVec.toInt_srem, ten, zero]

theorem remainderZero_eq : remainderZero = fun value => decide ((10 : Int) ∣ value.toInt) := by
  funext value
  rw [Bool.eq_iff_iff, remainderZero_iff, decide_eq_true_iff]

/-! ## What a call should do -/

def InsideStaticBuffers (memory : KernelMemory) : Prop :=
  ∀ event ∈ memory.trace, 0 ≤ event.index ∧ event.index < maxSize

/-- `scan_seq` copies the first `len` elements inside the buffers. -/
structure ScanSeqCorrect (len : BitVec 32) (cells : KernelBuf → Int → BitVec 32) : Prop where
  inside : InsideStaticBuffers (scanSeq len (Memory.fresh cells))
  copied : ∀ j : Int, 0 ≤ j → j < len.toInt →
    (scanSeq len (Memory.fresh cells)).cells .outBuf j = cells .inBuf j
  rest : ∀ j : Int, j < 0 ∨ len.toInt ≤ j →
    (scanSeq len (Memory.fresh cells)).cells .outBuf j = cells .outBuf j

def multiplesOfTen (cells : Int → BitVec 32) (length : Nat) : List (BitVec 32) :=
  (readPrefix cells length).filter fun value => decide ((10 : Int) ∣ value.toInt)

/-- `scan_sel` returns the number `k` of multiples of ten and leaves them in
the first `k` elements of `out_buf`, inside the buffers. -/
structure ScanSelCorrect (len : BitVec 32) (cells : KernelBuf → Int → BitVec 32) : Prop where
  inside : InsideStaticBuffers (scanSel len (Memory.fresh cells)).2
  count : (scanSel len (Memory.fresh cells)).1.toInt =
    (multiplesOfTen (cells .inBuf) len.toInt.toNat).length
  front : readPrefix ((scanSel len (Memory.fresh cells)).2.cells .outBuf)
      (scanSel len (Memory.fresh cells)).1.toInt.toNat =
    multiplesOfTen (cells .inBuf) len.toInt.toNat
  rest : ∀ j : Int, j < 0 ∨ (scanSel len (Memory.fresh cells)).1.toInt ≤ j →
    (scanSel len (Memory.fresh cells)).2.cells .outBuf j = cells .outBuf j

/-! ## What it does -/

variable {len : BitVec 32} {cells : KernelBuf → Int → BitVec 32}

theorem copied_scanSeq (len : BitVec 32) (cells : KernelBuf → Int → BitVec 32) :
    Copied (Memory.fresh cells) len.toInt.toNat (scanSeq len (Memory.fresh cells)) := by
  rw [scanSeq, countedLoop_toNat]
  exact copied_countedLoop _ _

theorem compacting_scanSel (len : BitVec 32) (cells : KernelBuf → Int → BitVec 32) :
    Compacting remainderZero BitVec.toInt cells len.toInt.toNat
      (scanSel len (Memory.fresh cells)) := by
  have upper := len.toInt_lt
  rw [scanSel, countedLoop_toNat]
  exact compacting_countedLoop counts_int (by omega)

theorem scanSeqCorrect_iff (len : BitVec 32) (cells : KernelBuf → Int → BitVec 32) :
    ScanSeqCorrect len cells ↔ len.toInt ≤ maxSize := by
  have copied := copied_scanSeq len cells
  constructor
  · intro correct
    -- A longer scan loads the element behind the last one.
    by_contra long
    have positive : 0 ≤ maxSize := by decide
    have behind : Event.load .inBuf maxSize ∈ (scanSeq len (Memory.fresh cells)).trace := by
      rw [copied.trace_eq, mem_copyTrace_iff]
      exact ⟨maxSize.toNat, by omega, Or.inl rfl⟩
    exact absurd (correct.inside _ behind).2 (by simp [Event.index])
  · intro short
    constructor
    · intro event member
      have inside := copied.inside event member
      have nonneg : 0 ≤ maxSize := by decide
      omega
    · intro j nonneg below
      obtain ⟨index, rfl⟩ := Int.eq_ofNat_of_zero_le nonneg
      exact copied.output_of_lt (by omega)
    · intro j outside
      exact copied.output_of_outside (by omega)

theorem scanSelCorrect_iff (len : BitVec 32) (cells : KernelBuf → Int → BitVec 32) :
    ScanSelCorrect len cells ↔ len.toInt ≤ maxSize := by
  have compacting := compacting_scanSel len cells
  constructor
  · intro correct
    by_contra long
    have positive : 0 ≤ maxSize := by decide
    have behind := compacting.loads maxSize.toNat (by omega)
    have inside := (correct.inside _ behind).2
    simp only [Event.index] at inside
    omega
  · intro short
    have kept_eq : kept remainderZero (cells .inBuf) len.toInt.toNat =
        multiplesOfTen (cells .inBuf) len.toInt.toNat := by
      rw [kept, multiplesOfTen, remainderZero_eq]
    constructor
    · intro event member
      have inside := compacting.inside event member
      have lower : 0 ≤ maxSize := by decide
      omega
    · rw [compacting.compacted.cursor_eq, kept_eq]
    · rw [compacting.compacted.read_front, ← kept_eq]
      rfl
    · exact fun j outside => compacting.compacted.outside outside

/-- Both kernels do what they should exactly on the lengths the buffers hold;
a negative length counts as zero. -/
theorem scanKernels_correct_iff (len : BitVec 32) (cells : KernelBuf → Int → BitVec 32) :
    ScanSeqCorrect len cells ∧ ScanSelCorrect len cells ↔ len.toInt ≤ maxSize := by
  rw [scanSeqCorrect_iff, scanSelCorrect_iff, and_self]

/-- One element more than the buffers hold. -/
theorem not_scanKernels_correct_past_end :
    ¬ ∀ (len : BitVec 32) (cells : KernelBuf → Int → BitVec 32),
      ScanSeqCorrect len cells ∧ ScanSelCorrect len cells := by
  intro always
  have fits := (scanSelCorrect_iff 100000001 fun _ _ => 0).mp (always 100000001 fun _ _ => 0).2
  exact absurd fits (by decide)

end Spned.Kernels
