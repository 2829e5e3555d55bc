import Spned.DeterministicRun
import Spned.TracedMemory

/-!
# Functions in static single assignment form

The fragment of LLVM IR that scalar copy and filter loops need: `i32`
arithmetic modulo `2^32`, signed comparison, typed pointers into disjoint
buffers, and phi nodes.  One step executes one instruction; taking an edge
evaluates all phi nodes of the target block at once, with the registers of the
source block.  An ill-typed or undefined operand makes the machine stuck.
-/

namespace Ssa

open TracedMemory DeterministicRun

variable {Reg Label Buf : Type*}

inductive Operand (Reg : Type*) where
  | reg (name : Reg)
  | const (value : BitVec 32)
  deriving DecidableEq

/-- A pointer is a buffer with an offset counted in elements. -/
inductive Value (Buf : Type*) where
  | i32 (value : BitVec 32)
  | i1 (value : Bool)
  | ptr (buf : Buf) (offset : Int)

inductive Instr (Reg : Type*) where
  | gep (dst : Reg) (base index : Operand Reg)
  | load (dst : Reg) (address : Operand Reg)
  | store (value address : Operand Reg)
  | add (dst : Reg) (left right : Operand Reg)
  | icmpSlt (dst : Reg) (left right : Operand Reg)
  deriving DecidableEq

structure Phi (Reg Label : Type*) where
  dst : Reg
  incoming : List (Label × Operand Reg)

inductive Terminator (Reg Label : Type*) where
  | br (target : Label)
  | cbranch (cond : Operand Reg) (ifTrue ifFalse : Label)
  | retVoid
  | ret (value : Operand Reg)

structure Block (Reg Label : Type*) where
  phis : List (Phi Reg Label)
  body : List (Instr Reg)
  terminator : Terminator Reg Label

structure Function (Reg Label : Type*) where
  name : String
  params : List Reg
  entry : Label
  blocks : Label → Block Reg Label

abbrev Registers (Reg Buf : Type*) := Reg → Option (Value Buf)

/-- The program counter is a block with the instructions still to execute. -/
structure Config (Reg Label Buf : Type*) where
  label : Label
  rest : List (Instr Reg)
  regs : Registers Reg Buf
  memory : Memory Buf (BitVec 32)

abbrev Result (Buf : Type*) := Option (Value Buf) × Memory Buf (BitVec 32)

def Operand.eval (regs : Registers Reg Buf) : Operand Reg → Option (Value Buf)
  | .reg name => regs name
  | .const value => some (.i32 value)

variable [DecidableEq Reg] [DecidableEq Label] [DecidableEq Buf]

/-- The index of `gep` is sign-extended to the width of a pointer. -/
def Instr.exec (regs : Registers Reg Buf) (memory : Memory Buf (BitVec 32)) :
    Instr Reg → Option (Registers Reg Buf × Memory Buf (BitVec 32))
  | .gep dst base index =>
      match base.eval regs, index.eval regs with
      | some (.ptr buf offset), some (.i32 index) =>
          some (Function.update regs dst (some (.ptr buf (offset + index.toInt))), memory)
      | _, _ => none
  | .load dst address =>
      match address.eval regs with
      | some (.ptr buf index) =>
          some (Function.update regs dst (some (.i32 (memory.read buf index))),
            memory.load buf index)
      | _ => none
  | .store value address =>
      match value.eval regs, address.eval regs with
      | some (.i32 value), some (.ptr buf index) => some (regs, memory.store buf index value)
      | _, _ => none
  | .add dst left right =>
      match left.eval regs, right.eval regs with
      | some (.i32 left), some (.i32 right) =>
          some (Function.update regs dst (some (.i32 (left + right))), memory)
      | _, _ => none
  | .icmpSlt dst left right =>
      match left.eval regs, right.eval regs with
      | some (.i32 left), some (.i32 right) =>
          some (Function.update regs dst (some (.i1 (left.slt right))), memory)
      | _, _ => none

def execBody : List (Instr Reg) → Registers Reg Buf → Memory Buf (BitVec 32) →
    Option (Registers Reg Buf × Memory Buf (BitVec 32))
  | [], regs, memory => some (regs, memory)
  | instr :: rest, regs, memory =>
      (instr.exec regs memory).bind fun effect => execBody rest effect.1 effect.2

/-- The configurations in which the instructions of straight-line code are executed. -/
def bodyPath (label : Label) : List (Instr Reg) → Registers Reg Buf →
    Memory Buf (BitVec 32) → List (Config Reg Label Buf)
  | [], _, _ => []
  | instr :: rest, regs, memory =>
      ⟨label, instr :: rest, regs, memory⟩ ::
        match instr.exec regs memory with
        | some effect => bodyPath label rest effect.1 effect.2
        | none => []

/-- Assign the phi nodes in turn, each from the registers `old` of the edge. -/
def enterPhis (source : Label) (old : Registers Reg Buf) :
    List (Phi Reg Label) → Registers Reg Buf → Option (Registers Reg Buf)
  | [], regs => some regs
  | phi :: rest, regs =>
      match (phi.incoming.lookup source).bind (Operand.eval old) with
      | some value => enterPhis source old rest (Function.update regs phi.dst (some value))
      | none => none

omit [DecidableEq Buf] in
theorem enterPhis_cons {source : Label} {old regs : Registers Reg Buf} {phi : Phi Reg Label}
    {rest : List (Phi Reg Label)} {operand : Operand Reg} {value : Value Buf}
    (incoming : phi.incoming.lookup source = some operand)
    (evaluates : operand.eval old = some value) :
    enterPhis source old (phi :: rest) regs =
      enterPhis source old rest (Function.update regs phi.dst (some value)) := by
  simp [enterPhis, incoming, evaluates]

namespace Function

variable (function : Function Reg Label)

/-- Take the edge from the block of `config` to `target`. -/
def enter (config : Config Reg Label Buf) (target : Label) : Option (Config Reg Label Buf) :=
  (enterPhis config.label config.regs (function.blocks target).phis config.regs).map fun regs =>
    { label := target
      rest := (function.blocks target).body
      regs := regs
      memory := config.memory }

def step (config : Config Reg Label Buf) : Option (Config Reg Label Buf ⊕ Result Buf) :=
  match config.rest with
  | instr :: rest =>
      (instr.exec config.regs config.memory).map fun effect =>
        .inl { config with rest := rest, regs := effect.1, memory := effect.2 }
  | [] =>
      match (function.blocks config.label).terminator with
      | .br target => (function.enter config target).map .inl
      | .cbranch cond ifTrue ifFalse =>
          match cond.eval config.regs with
          | some (.i1 true) => (function.enter config ifTrue).map .inl
          | some (.i1 false) => (function.enter config ifFalse).map .inl
          | _ => none
      | .retVoid => some (.inr (none, config.memory))
      | .ret value =>
          match value.eval config.regs with
          | some returned => some (.inr (some returned, config.memory))
          | none => none

def start (args : List (Value Buf)) (memory : Memory Buf (BitVec 32)) :
    Config Reg Label Buf where
  label := function.entry
  rest := (function.blocks function.entry).body
  regs := fun name => (function.params.zip args).lookup name
  memory := memory

/-- The call terminates, through the configurations of `path`, with `result`. -/
def Calls (args : List (Value Buf)) (memory : Memory Buf (BitVec 32))
    (path : List (Config Reg Label Buf)) (result : Result Buf) : Prop :=
  Run function.step (function.start args memory) path result

theorem Calls.deterministic {function : Function Reg Label} {args : List (Value Buf)}
    {memory : Memory Buf (BitVec 32)} {path path' : List (Config Reg Label Buf)}
    {result result' : Result Buf} (first : function.Calls args memory path result)
    (second : function.Calls args memory path' result') : path = path' ∧ result = result' :=
  Run.deterministic first second

theorem Calls.memory_eq {function : Function Reg Label} {args : List (Value Buf)}
    {memory final final' : Memory Buf (BitVec 32)} {path path' : List (Config Reg Label Buf)}
    {value value' : Option (Value Buf)}
    (first : function.Calls args memory path (value, final))
    (second : function.Calls args memory path' (value', final')) : final = final' :=
  congrArg Prod.snd (first.deterministic second).2

theorem body_path (label : Label) {body : List (Instr Reg)} {regs regs' : Registers Reg Buf}
    {memory memory' : Memory Buf (BitVec 32)}
    (executes : execBody body regs memory = some (regs', memory')) :
    Path function.step ⟨label, body, regs, memory⟩ (bodyPath label body regs memory)
      ⟨label, [], regs', memory'⟩ := by
  induction body generalizing regs memory with
  | nil =>
      cases executes
      exact .refl _
  | cons instr rest ih =>
      obtain ⟨effect, first, remaining⟩ := Option.bind_eq_some_iff.mp executes
      have moves : function.step ⟨label, instr :: rest, regs, memory⟩ =
          some (.inl ⟨label, rest, effect.1, effect.2⟩) := by
        simp [step, first]
      rw [bodyPath, first]
      exact .advance moves (ih remaining)

theorem step_br {label target : Label} {regs regs' : Registers Reg Buf}
    {memory : Memory Buf (BitVec 32)} (jumps : (function.blocks label).terminator = .br target)
    (phis : enterPhis label regs (function.blocks target).phis regs = some regs') :
    function.step ⟨label, [], regs, memory⟩ =
      some (.inl ⟨target, (function.blocks target).body, regs', memory⟩) := by
  simp [step, jumps, enter, phis]

theorem step_cbranch {label ifTrue ifFalse : Label} {cond : Operand Reg} {taken : Bool}
    {regs regs' : Registers Reg Buf} {memory : Memory Buf (BitVec 32)}
    (jumps : (function.blocks label).terminator = .cbranch cond ifTrue ifFalse)
    (tested : cond.eval regs = some (.i1 taken))
    (phis : enterPhis label regs
      (function.blocks (if taken then ifTrue else ifFalse)).phis regs = some regs') :
    function.step ⟨label, [], regs, memory⟩ =
      some (.inl ⟨if taken then ifTrue else ifFalse,
        (function.blocks (if taken then ifTrue else ifFalse)).body, regs', memory⟩) := by
  cases taken <;> simp_all [step, enter]

end Function

end Ssa
