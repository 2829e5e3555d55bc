import Mathlib.Logic.Function.Basic

/-!
# Buffers with an access trace

Disjoint buffers, each an unbounded row of cells, together with the trace of
the loads and stores performed so far.  A buffer has no size of its own:
whether an access is inside the allocation is a question about the trace.
-/

namespace TracedMemory

inductive Event (Buf : Type*) where
  | load (buf : Buf) (index : Int)
  | store (buf : Buf) (index : Int)
  deriving DecidableEq

namespace Event

variable {Buf : Type*}

def buf : Event Buf → Buf
  | .load buf _ | .store buf _ => buf

def index : Event Buf → Int
  | .load _ index | .store _ index => index

def isStore : Event Buf → Bool
  | .load _ _ => false
  | .store _ _ => true

def map {Buf' : Type*} (rename : Buf → Buf') : Event Buf → Event Buf'
  | .load buf index => .load (rename buf) index
  | .store buf index => .store (rename buf) index

@[simp]
theorem index_map {Buf' : Type*} (rename : Buf → Buf') (event : Event Buf) :
    (event.map rename).index = event.index := by
  cases event <;> rfl

@[simp]
theorem isStore_map {Buf' : Type*} (rename : Buf → Buf') (event : Event Buf) :
    (event.map rename).isStore = event.isStore := by
  cases event <;> rfl

variable {trace added : List (Event Buf)} {done : Nat}

/-- A round that stays among the first `done + 1` cells. -/
theorem inside_append (inside : ∀ event ∈ trace, 0 ≤ event.index ∧ event.index < done)
    (round : ∀ event ∈ added, 0 ≤ event.index ∧ event.index ≤ done) :
    ∀ event ∈ trace ++ added, 0 ≤ event.index ∧ event.index < (done + 1 : Nat) := by
  intro event member
  rcases List.mem_append.mp member with before | current
  · have earlier := inside event before
    omega
  · have reached := round event current
    omega

theorem loads_append {buf : Buf} (loads : ∀ index < done, .load buf (index : Nat) ∈ trace)
    (current : .load buf done ∈ added) :
    ∀ index < done + 1, .load buf (index : Nat) ∈ trace ++ added := by
  intro index below
  rcases Nat.lt_succ_iff_lt_or_eq.mp below with earlier | rfl
  · exact List.mem_append_left added (loads index earlier)
  · exact List.mem_append_right trace current

end Event

structure Memory (Buf α : Type*) where
  cells : Buf → Int → α
  trace : List (Event Buf)

namespace Memory

variable {Buf α : Type*}

def fresh (cells : Buf → Int → α) : Memory Buf α := ⟨cells, []⟩

def read (memory : Memory Buf α) (buf : Buf) (index : Int) : α :=
  memory.cells buf index

def load (memory : Memory Buf α) (buf : Buf) (index : Int) : Memory Buf α :=
  { memory with trace := memory.trace ++ [.load buf index] }

def store [DecidableEq Buf] (memory : Memory Buf α) (buf : Buf) (index : Int)
    (value : α) : Memory Buf α where
  cells := Function.update memory.cells buf
    (Function.update (memory.cells buf) index value)
  trace := memory.trace ++ [.store buf index]

@[simp]
theorem cells_fresh (cells : Buf → Int → α) : (fresh cells).cells = cells :=
  rfl

@[simp]
theorem trace_fresh (cells : Buf → Int → α) : (fresh cells).trace = [] :=
  rfl

@[simp]
theorem cells_load (memory : Memory Buf α) (buf : Buf) (index : Int) :
    (memory.load buf index).cells = memory.cells :=
  rfl

@[simp]
theorem trace_load (memory : Memory Buf α) (buf : Buf) (index : Int) :
    (memory.load buf index).trace = memory.trace ++ [.load buf index] :=
  rfl

@[simp]
theorem trace_store [DecidableEq Buf] (memory : Memory Buf α) (buf : Buf) (index : Int)
    (value : α) : (memory.store buf index value).trace = memory.trace ++ [.store buf index] :=
  rfl

@[simp]
theorem cells_store_same [DecidableEq Buf] (memory : Memory Buf α) (buf : Buf) (index : Int)
    (value : α) :
    (memory.store buf index value).cells buf =
      Function.update (memory.cells buf) index value := by
  simp [store]

theorem cells_store_of_ne [DecidableEq Buf] (memory : Memory Buf α) {buf other : Buf}
    (distinct : other ≠ buf) (index : Int) (value : α) :
    (memory.store buf index value).cells other = memory.cells other := by
  simp [store, distinct]

end Memory

end TracedMemory
