import Mathlib.Algebra.BigOperators.Group.Finset.Basic
import Mathlib.Algebra.BigOperators.Group.Finset.Piecewise
import Spned.TracedMemory

/-!
# Buffers with owners

One memory whose buffers are numbered by an owner and a name.  The part of an
owner is a memory of its own: the accesses of the owner act on it alone, and
its trace is what the whole trace says about the owner's buffers.
-/

namespace TracedMemory.Memory

variable {ι Buf α : Type*} [DecidableEq ι]

/-- What a memory holds of the buffers of one owner, and their accesses. -/
def part (memory : Memory (ι × Buf) α) (owner : ι) : Memory Buf α where
  cells := fun buf => memory.cells (owner, buf)
  trace := (memory.trace.filter fun event => event.buf.1 = owner).map (Event.map Prod.snd)

variable (memory : Memory (ι × Buf) α) (owner : ι) (buf : Buf) (index : Int)

theorem read_part : (memory.part owner).read buf index = memory.read (owner, buf) index :=
  rfl

theorem part_load : (memory.load (owner, buf) index).part owner =
    (memory.part owner).load buf index := by
  simp [part, load, Event.buf, Event.map]

theorem part_load_of_ne {other : ι} (different : other ≠ owner) :
    (memory.load (owner, buf) index).part other = memory.part other := by
  simp [part, load, Event.buf, Ne.symm different]

theorem mem_part_trace {memory : Memory (ι × Buf) α} {event : Event (ι × Buf)}
    (member : event ∈ memory.trace) :
    event.map Prod.snd ∈ (memory.part event.buf.1).trace :=
  List.mem_map_of_mem (List.mem_filter.mpr ⟨member, decide_eq_true rfl⟩)

theorem exists_of_mem_part_trace {memory : Memory (ι × Buf) α} {owner : ι} {event : Event Buf}
    (member : event ∈ (memory.part owner).trace) :
    ∃ access ∈ memory.trace, access.map Prod.snd = event := by
  obtain ⟨access, filtered, mapped⟩ := List.mem_map.mp member
  exact ⟨access, (List.mem_filter.mp filtered).1, mapped⟩

theorem countP_trace [Fintype ι] (memory : Memory (ι × Buf) α) (test : Event Buf → Bool) :
    memory.trace.countP (fun event => test (event.map Prod.snd)) =
      ∑ owner, (memory.part owner).trace.countP test := by
  simp only [part, List.countP_map, List.countP_filter, Function.comp_def]
  induction memory.trace with
  | nil => simp
  | cons event rest ih =>
      simp only [List.countP_cons, ih, Finset.sum_add_distrib]
      congr 1
      cases test (event.map Prod.snd) <;> simp

variable [DecidableEq Buf]

theorem count_trace (memory : Memory (ι × Buf) α) (event : Event (ι × Buf)) :
    memory.trace.count event =
      (memory.part event.buf.1).trace.count (event.map Prod.snd) := by
  simp only [part, List.count, List.countP_map, List.countP_filter, Function.comp_def]
  apply List.countP_congr
  intro other _
  cases event <;> cases other <;> simp [Event.buf, Event.map, Prod.ext_iff] <;> grind

theorem part_store (value : α) : (memory.store (owner, buf) index value).part owner =
    (memory.part owner).store buf index value := by
  simp only [part, store, Memory.mk.injEq]
  constructor
  · funext other
    by_cases same : other = buf
    · subst same
      simp
    · simp [same]
  · simp [Event.buf, Event.map]

theorem part_store_of_ne {other : ι} (different : other ≠ owner) (value : α) :
    (memory.store (owner, buf) index value).part other = memory.part other := by
  simp [part, store, Event.buf, different, Ne.symm different]

end TracedMemory.Memory
