import Spned.Interleaving
import Spned.OwnedMemory
import Spned.SsaFunction

/-!
# Threads of one address space

Threads call functions on one memory whose buffers have owners.  A thread that
is given pointers into its own buffers only has no way to compute any other
pointer, so it acts on its part of the memory as on a memory of its own, and on
nothing else.
-/

namespace Ssa

open TracedMemory DeterministicRun Interleaving

variable {ι Reg Label Buf : Type*}

/-- A value of a thread, its pointers pointing into buffers of `owner`. -/
def Value.own (owner : ι) : Value Buf → Value (ι × Buf)
  | .i32 value => .i32 value
  | .i1 value => .i1 value
  | .ptr buf offset => .ptr (owner, buf) offset

def Registers.own (owner : ι) (regs : Registers Reg Buf) : Registers Reg (ι × Buf) :=
  fun name => (regs name).map (Value.own owner)

theorem Operand.eval_own (owner : ι) (regs : Registers Reg Buf) (operand : Operand Reg) :
    operand.eval (Registers.own owner regs) = (operand.eval regs).map (Value.own owner) := by
  cases operand <;> rfl

variable [DecidableEq Reg]

theorem Registers.own_update (owner : ι) (regs : Registers Reg Buf) (name : Reg)
    (value : Value Buf) :
    Registers.own owner (Function.update regs name (some value)) =
      Function.update (Registers.own owner regs) name (some (value.own owner)) := by
  funext other
  by_cases same : other = name
  · subst same
    simp [own]
  · simp [own, same]

variable [DecidableEq ι] [DecidableEq Buf]

/-- `memory` becomes `memory'` by a change of `owner` to its part. -/
structure OwnChange (owner : ι) (memory memory' : Memory (ι × Buf) (BitVec 32))
    (part' : Memory Buf (BitVec 32)) : Prop where
  own : memory'.part owner = part'
  others : ∀ other, other ≠ owner → memory'.part other = memory.part other

/-- An instruction that succeeds on the part of a thread does the same on the
whole memory. -/
theorem Instr.exec_own {owner : ι} {regs : Registers Reg Buf}
    {memory : Memory (ι × Buf) (BitVec 32)} {instr : Instr Reg}
    {effect : Registers Reg Buf × Memory Buf (BitVec 32)}
    (executes : instr.exec regs (memory.part owner) = some effect) :
    ∃ memory', instr.exec (Registers.own owner regs) memory =
        some (Registers.own owner effect.1, memory') ∧
      OwnChange owner memory memory' effect.2 := by
  cases instr with
  | gep dst base index =>
      simp only [exec] at executes
      split at executes
      next buf offset index baseIs indexIs =>
        cases executes
        refine ⟨memory, ?_, rfl, fun _ _ => rfl⟩
        simp [exec, Operand.eval_own, baseIs, indexIs, Value.own, Registers.own_update]
      · cases executes
  | load dst address =>
      simp only [exec] at executes
      split at executes
      next buf index addressIs =>
        cases executes
        refine ⟨memory.load (owner, buf) index, ?_, memory.part_load owner buf index,
          fun _ different => memory.part_load_of_ne owner buf index different⟩
        simp [exec, Operand.eval_own, addressIs, Value.own, Registers.own_update,
          Memory.read_part]
      · cases executes
  | store value address =>
      simp only [exec] at executes
      split at executes
      next value buf index valueIs addressIs =>
        cases executes
        refine ⟨memory.store (owner, buf) index value, ?_,
          memory.part_store owner buf index value,
          fun _ different => memory.part_store_of_ne owner buf index different value⟩
        simp [exec, Operand.eval_own, valueIs, addressIs, Value.own]
      · cases executes
  | add dst left right =>
      simp only [exec] at executes
      split at executes
      next left right leftIs rightIs =>
        cases executes
        refine ⟨memory, ?_, rfl, fun _ _ => rfl⟩
        simp [exec, Operand.eval_own, leftIs, rightIs, Value.own, Registers.own_update]
      · cases executes
  | icmpSlt dst left right =>
      simp only [exec] at executes
      split at executes
      next left right leftIs rightIs =>
        cases executes
        refine ⟨memory, ?_, rfl, fun _ _ => rfl⟩
        simp [exec, Operand.eval_own, leftIs, rightIs, Value.own, Registers.own_update]
      · cases executes

omit [DecidableEq ι] [DecidableEq Buf] in
theorem enterPhis_own [DecidableEq Label] (owner : ι) (source : Label)
    (old : Registers Reg Buf) (phis : List (Phi Reg Label)) (regs : Registers Reg Buf) :
    enterPhis source (Registers.own owner old) phis (Registers.own owner regs) =
      (enterPhis source old phis regs).map (Registers.own owner) := by
  induction phis generalizing regs with
  | nil => rfl
  | cons phi rest ih =>
      simp only [enterPhis]
      cases incoming : phi.incoming.lookup source with
      | none => rfl
      | some operand =>
          simp only [Option.bind_some, Operand.eval_own]
          cases operand.eval old with
          | none => rfl
          | some value =>
              rw [Option.map_some]
              simp only
              rw [← Registers.own_update]
              exact ih _

/-! ## Steps of threads -/

/-- Where a thread is in its function, without the memory. -/
structure Thread (Reg Label Buf : Type*) where
  label : Label
  rest : List (Instr Reg)
  regs : Registers Reg Buf

def Config.thread (config : Config Reg Label Buf) : Thread Reg Label Buf :=
  ⟨config.label, config.rest, config.regs⟩

abbrev ThreadState (Reg Label Buf : Type*) := Thread Reg Label Buf ⊕ Option (Value Buf)

variable [DecidableEq Label]

/-- A step of a thread that executes `function` on the shared memory. -/
def Function.threadStep (function : Function Reg Label) :
    Machine ι (Thread Reg Label (ι × Buf)) (Option (Value (ι × Buf)))
      (Memory (ι × Buf) (BitVec 32)) :=
  fun _ thread memory =>
    (function.step ⟨thread.label, thread.rest, thread.regs, memory⟩).map fun
      | .inl config => (.inl config.thread, config.memory)
      | .inr (value, memory) => (.inr value, memory)

/-- The thread of `owner` that corresponds to a machine on its own memory. -/
def ownThread (owner : ι) : Config Reg Label Buf ⊕ Result Buf → ThreadState Reg Label (ι × Buf) :=
  Sum.map
    (fun config => ⟨config.label, config.rest, Registers.own owner config.regs⟩)
    (fun result => result.1.map (Value.own owner))

def memoryOf : Config Reg Label Buf ⊕ Result Buf → Memory Buf (BitVec 32) :=
  Sum.elim Config.memory Prod.snd

/-- A thread on the shared memory, and the machine that it is on its part. -/
def Sees (owner : ι) (state : ThreadState Reg Label (ι × Buf))
    (memory : Memory (ι × Buf) (BitVec 32)) (own : Config Reg Label Buf ⊕ Result Buf) : Prop :=
  state = ownThread owner own ∧ memory.part owner = memoryOf own

omit [DecidableEq Buf] in
theorem Function.enter_own (function : Function Reg Label) {owner : ι} {target : Label}
    {label : Label} {rest : List (Instr Reg)} {regs : Registers Reg Buf}
    {memory : Memory (ι × Buf) (BitVec 32)} {next : Config Reg Label Buf}
    (enters : function.enter ⟨label, rest, regs, memory.part owner⟩ target = some next) :
    function.enter ⟨label, rest, Registers.own owner regs, memory⟩ target =
        some ⟨next.label, next.rest, Registers.own owner next.regs, memory⟩ ∧
      memory.part owner = next.memory := by
  obtain ⟨regs', phis, rfl⟩ := Option.map_eq_some_iff.mp enters
  simp only at phis
  exact ⟨by simp [enter, enterPhis_own, phis], rfl⟩

/-- What a machine does on the part of a thread, the thread does on the whole
memory, and the other parts stay as they are. -/
theorem Function.threadStep_own (function : Function Reg Label) {owner : ι}
    {memory : Memory (ι × Buf) (BitVec 32)} {config : Config Reg Label Buf}
    (part : memory.part owner = config.memory) {next : Config Reg Label Buf ⊕ Result Buf}
    (moves : function.step config = some next) :
    ∃ memory', function.threadStep owner
        ⟨config.label, config.rest, Registers.own owner config.regs⟩ memory =
          some (ownThread owner next, memory') ∧
      OwnChange owner memory memory' (memoryOf next) := by
  obtain ⟨label, rest, regs, alone⟩ := config
  obtain rfl : memory.part owner = alone := part
  simp only [threadStep]
  cases rest with
  | cons instr rest =>
      obtain ⟨effect, executes, rfl⟩ := Option.map_eq_some_iff.mp moves
      obtain ⟨memory', acts, change⟩ := Instr.exec_own executes
      exact ⟨memory', by simp [step, acts, ownThread, Config.thread], change⟩
  | nil =>
      have unchanged : ∀ {next : Config Reg Label Buf ⊕ Result Buf},
          memory.part owner = memoryOf next → OwnChange owner memory memory (memoryOf next) :=
        fun same => ⟨same, fun _ _ => rfl⟩
      simp only [step] at moves ⊢
      cases terminator : (function.blocks label).terminator with
      | br target =>
          rw [terminator] at moves
          obtain ⟨config, enters, rfl⟩ := Option.map_eq_some_iff.mp moves
          obtain ⟨enters', same⟩ := function.enter_own enters
          exact ⟨memory, by simp [enters', ownThread, Config.thread], unchanged same⟩
      | cbranch cond ifTrue ifFalse =>
          rw [terminator] at moves
          simp only [Operand.eval_own] at moves ⊢
          split at moves
          next taken =>
            obtain ⟨config, enters, rfl⟩ := Option.map_eq_some_iff.mp moves
            obtain ⟨enters', same⟩ := function.enter_own enters
            exact ⟨memory, by simp [taken, Value.own, enters', ownThread, Config.thread],
              unchanged same⟩
          next skipped =>
            obtain ⟨config, enters, rfl⟩ := Option.map_eq_some_iff.mp moves
            obtain ⟨enters', same⟩ := function.enter_own enters
            exact ⟨memory, by simp [skipped, Value.own, enters', ownThread, Config.thread],
              unchanged same⟩
          · cases moves
      | retVoid =>
          rw [terminator] at moves
          cases moves
          exact ⟨memory, by simp [ownThread], unchanged rfl⟩
      | ret value =>
          rw [terminator] at moves
          simp only [Operand.eval_own] at moves ⊢
          cases evaluates : value.eval regs with
          | none =>
              rw [evaluates] at moves
              cases moves
          | some returned =>
              rw [evaluates] at moves
              cases moves
              exact ⟨memory, by simp [ownThread], unchanged rfl⟩

theorem Function.threads_isolated (function : Function Reg Label) :
    Isolated
      (function.threadStep : Machine ι (Thread Reg Label (ι × Buf)) (Option (Value (ι × Buf)))
        (Memory (ι × Buf) (BitVec 32)))
      (fun _ => function.step) Sees where
  running := fun sees => ⟨_, sees.1⟩
  finished := fun sees => ⟨_, sees.1⟩
  moves := by
    rintro owner state memory config next ⟨same, part⟩ solos
    obtain rfl := Sum.inl.inj same
    obtain ⟨memory', acts, change⟩ := function.threadStep_own part solos
    refine ⟨_, acts, ⟨rfl, change.own⟩, ?_⟩
    rintro other different left right ⟨sameOther, partOther⟩
    exact ⟨sameOther, (change.others other different).trans partOther⟩

/-- Every owner calls the function with pointers into its own buffers. -/
def Function.threads (function : Function Reg Label) (args : ι → List (Value Buf))
    (memory : Memory (ι × Buf) (BitVec 32)) :
    Pool ι (Thread Reg Label (ι × Buf)) (Option (Value (ι × Buf)))
      (Memory (ι × Buf) (BitVec 32)) where
  workers := fun owner =>
    .inl (function.start ((args owner).map (Value.own owner)) memory).thread
  shared := memory

omit [DecidableEq ι] [DecidableEq Label] [DecidableEq Buf] in
theorem Function.start_own (function : Function Reg Label) (owner : ι) (args : List (Value Buf))
    (memory : Memory (ι × Buf) (BitVec 32)) (alone : Memory Buf (BitVec 32)) :
    (function.start (args.map (Value.own owner)) memory).regs =
      Registers.own owner (function.start args alone).regs := by
  funext name
  simp only [start, Registers.own, List.zip_map_right]
  induction function.params.zip args with
  | nil => rfl
  | cons pair rest ih =>
      obtain ⟨param, arg⟩ := pair
      cases found : name == param with
      | true => simp [List.lookup_cons, found]
      | false => simpa [List.lookup_cons, found] using ih

/-- After a schedule each thread has made the steps of its own call that it was
chosen for, whatever the others did in between. -/
theorem Function.threads_reached (function : Function Reg Label) {args : ι → List (Value Buf)}
    {memory : Memory (ι × Buf) (BitVec 32)} {paths : ι → List (Config Reg Label Buf)}
    {results : ι → Result Buf}
    (calls : ∀ owner, function.Calls (args owner) (memory.part owner) (paths owner)
      (results owner))
    {schedule : List ι} {final}
    (executes : (function.threads args memory).run function.threadStep schedule = some final) :
    Reached Sees paths results (fun owner => schedule.count owner) final := by
  have starts : Reached Sees paths results (fun _ => 0) (function.threads args memory) := by
    intro owner
    refine ⟨Nat.zero_le _, ?_⟩
    rw [Run.position_zero (calls owner)]
    refine ⟨congrArg Sum.inl ?_, rfl⟩
    simp only [Config.thread, function.start_own owner (args owner) memory (memory.part owner)]
    rfl
  simpa using function.threads_isolated.run_reached calls starts executes

/-! ## Traces grow -/

omit [DecidableEq ι] in
theorem Instr.exec_trace {instr : Instr Reg} {regs : Registers Reg Buf}
    {memory : Memory Buf (BitVec 32)} {effect : Registers Reg Buf × Memory Buf (BitVec 32)}
    (executes : instr.exec regs memory = some effect) : memory.trace <+: effect.2.trace := by
  cases instr <;> simp only [exec] at executes <;> split at executes <;> cases executes <;> simp

omit [DecidableEq ι] in
theorem Function.step_trace (function : Function Reg Label) {config : Config Reg Label Buf}
    {next : Config Reg Label Buf ⊕ Result Buf} (moves : function.step config = some next) :
    config.memory.trace <+: (memoryOf next).trace := by
  obtain ⟨label, rest, regs, memory⟩ := config
  have edge : ∀ {target : Label} {next : Config Reg Label Buf ⊕ Result Buf},
      (function.enter ⟨label, [], regs, memory⟩ target).map Sum.inl = some next →
      memory.trace <+: (memoryOf next).trace := by
    intro target next taken
    obtain ⟨config, enters, rfl⟩ := Option.map_eq_some_iff.mp taken
    obtain ⟨regs', -, rfl⟩ := Option.map_eq_some_iff.mp enters
    exact List.prefix_rfl
  cases rest with
  | cons instr rest =>
      obtain ⟨effect, executes, rfl⟩ := Option.map_eq_some_iff.mp moves
      exact Instr.exec_trace executes
  | nil =>
      simp only [step] at moves
      cases terminator : (function.blocks label).terminator with
      | br target =>
          rw [terminator] at moves
          exact edge moves
      | cbranch cond ifTrue ifFalse =>
          rw [terminator] at moves
          simp only at moves
          split at moves
          · exact edge moves
          · exact edge moves
          · cases moves
      | retVoid =>
          rw [terminator] at moves
          cases moves
          exact List.prefix_rfl
      | ret value =>
          rw [terminator] at moves
          simp only at moves
          split at moves
          · cases moves
            exact List.prefix_rfl
          · cases moves

omit [DecidableEq ι] in
/-- At any time of a call its trace is the beginning of the final one. -/
theorem Calls.trace_prefix {function : Function Reg Label} {config : Config Reg Label Buf}
    {path : List (Config Reg Label Buf)} {result : Result Buf}
    (run : Run function.step config path result) (steps : Nat) :
    (memoryOf (position path result steps)).trace <+: result.2.trace := by
  induction run generalizing steps with
  | finish halts =>
      cases steps with
      | zero => exact function.step_trace halts
      | succ steps => exact List.prefix_rfl
  | advance moves rest ih =>
      cases steps with
      | zero =>
          have first := ih 0
          rw [rest.position_zero] at first
          exact (function.step_trace moves).trans first
      | succ steps => exact ih steps

end Ssa
