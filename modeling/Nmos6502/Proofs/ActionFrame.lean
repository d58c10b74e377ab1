import Mathlib.Logic.Function.Iterate
import Nmos6502.Proofs.CleanFailure

/-! # What an instruction leaves alone

The operations compute registers from registers. None of these computations moves the
program counter, which only the length of an operand, a jump or a return does, and no
instruction moves the stack pointer out of page one. In memory an instruction changes the
cells that its effect lists and no other. Relations that every instruction keeps between
two states hold along both runs.
-/
namespace Nmos6502

def Action.Keeps (P : Registers → Prop) : Action → Prop
  | .read result | .pull result => ∀ r byte, P r → P (result r byte)
  | .transfer result => ∀ r, P r → P (result r)
  | _ => True

theorem Operation.keeps_pc (operation : Operation) (pc : UInt16) :
    operation.action.Keeps (·.pc = pc) := by
  cases operation
  all_goals first
    | exact trivial
    | exact fun _ h => h
    | exact fun _ _ h => h

theorem Operation.keeps_onStack (operation : Operation) :
    operation.action.Keeps (OnStack ·.sp) := by
  cases operation
  case txs => exact fun _ _ => onStack_stackAddress _
  all_goals first
    | exact trivial
    | exact fun _ h => h
    | exact fun _ _ h => h

theorem Action.onStack_of_effect {action : Action} (hk : action.Keeps (OnStack ·.sp))
    {r : Registers} (hr : OnStack r.sp) {m : Memory} {mode : AddressingMode} {effect : Effect}
    (h : action.effect r m mode = .ok effect) : OnStack effect.registers.sp := by
  cases action with
  | read result =>
    obtain ⟨byte,-,h⟩ := bind_eq_ok_iff.mp h
    cases h
    exact hk (r.skip mode.operandSize) byte hr
  | store | jump =>
    obtain ⟨address,-,h⟩ := bind_eq_ok_iff.mp h
    cases h
    exact hr
  | modify change =>
    obtain ⟨byte,-,h⟩ := bind_eq_ok_iff.mp h
    split at h
    · cases h
      exact hr
    · obtain ⟨address,-,h⟩ := bind_eq_ok_iff.mp h
      cases h
      exact hr
  | count change =>
    obtain ⟨address,-,h⟩ := bind_eq_ok_iff.mp h
    obtain ⟨byte,-,h⟩ := bind_eq_ok_iff.mp h
    cases h
    exact hr
  | transfer result =>
    cases h
    exact hk r hr
  | branch flag value =>
    simp only [Action.effect] at h
    split at h <;> cases h <;> exact hr
  | call =>
    obtain ⟨address,-,h⟩ := bind_eq_ok_iff.mp h
    cases h
    exact onStack_slotBelow (onStack_slotBelow hr)
  | interrupt =>
    cases h
    exact onStack_slotBelow (onStack_slotBelow (onStack_slotBelow hr))
  | leave =>
    cases h
    exact onStack_slotAbove (onStack_slotAbove hr)
  | resume =>
    cases h
    exact onStack_slotAbove (onStack_slotAbove (onStack_slotAbove hr))
  | push byte =>
    cases h
    exact onStack_slotBelow hr
  | pull result =>
    cases h
    exact hk { r with sp := slotAbove r.sp } _ (onStack_slotAbove hr)

def Effect.cells (effect : Effect) : List UInt16 := effect.writes.map (·.1)

theorem Memory.read_writeAll_of_notMem {writes : List (UInt16 × UInt8)} {m : Memory}
    {address : UInt16} (h : address ∉ writes.map (·.1)) :
    (m.writeAll writes).read address = m.read address := by
  induction writes generalizing m with
  | nil => rfl
  | cons write writes ih =>
    simp only [List.map_cons, List.mem_cons, not_or] at h
    rw [writeAll_cons, ih h.2, read_write_of_ne m write.2 (Ne.symm h.1)]

namespace Cpu
variable {c : Cpu}

/-- The state after an instruction, also after one that fails. -/
def next (c : Cpu) : Cpu := c.execute.1

theorem next_of_effect {opcode : Opcode} {effect : Effect} (h : decode c.opcodeByte = some opcode)
    (he : opcode.operation.action.effect c.fetched.toRegisters c.memory opcode.mode = .ok effect) :
    c.next = c.fetched.apply effect (opcode.cycles + effect.penalty) := by
  rw [next, execute_of_effect h he]

theorem exists_next_of_decode {opcode : Opcode} (h : decode c.opcodeByte = some opcode) :
    ∃ effect elapsed, opcode.operation.action.effect c.fetched.toRegisters c.memory opcode.mode =
        .ok effect ∧ elapsed = opcode.cycles + effect.penalty ∧
      c.next = c.fetched.apply effect elapsed ∧ c.execute = (c.next, .ok elapsed) := by
  obtain ⟨effect,elapsed,heffect,helapsed,-,hexecute⟩ := exists_execute_of_decode h
  have hnext : c.next = c.fetched.apply effect elapsed := by rw [next, hexecute]
  exact ⟨effect,elapsed,heffect,helapsed,hnext,by rw [hnext, hexecute]⟩

theorem exists_execute_next {opcode : Opcode} (h : decode c.opcodeByte = some opcode) :
    ∃ elapsed, c.execute = (c.next, .ok elapsed) := by
  obtain ⟨-,elapsed,-,-,-,hexecute⟩ := exists_next_of_decode h
  exact ⟨elapsed,hexecute⟩

/-- The cells that the next instruction writes. -/
def writtenCells (c : Cpu) : List UInt16 :=
  match decode c.opcodeByte with
  | none => []
  | some opcode =>
    match opcode.operation.action.effect c.fetched.toRegisters c.memory opcode.mode with
    | .ok effect => effect.cells
    | .error _ => []

theorem writtenCells_of_effect {opcode : Opcode} {effect : Effect}
    (h : decode c.opcodeByte = some opcode)
    (he : opcode.operation.action.effect c.fetched.toRegisters c.memory opcode.mode = .ok effect) :
    c.writtenCells = effect.cells := by
  simp only [writtenCells, h, he]

theorem read_next_of_notMem {address : UInt16} (h : address ∉ c.writtenCells) :
    c.next.memory.read address = c.memory.read address := by
  rcases c.execute_cases with ⟨-,hexecute⟩ | ⟨opcode,effect,elapsed,hdecode,heffect,-,hexecute⟩
  · rw [next, hexecute]
    rfl
  · rw [writtenCells_of_effect hdecode heffect] at h
    rw [next, hexecute]
    exact Memory.read_writeAll_of_notMem h

theorem onStack_next (h : OnStack c.sp) : OnStack c.next.sp := by
  rcases c.execute_cases with ⟨-,hexecute⟩ | ⟨opcode,effect,elapsed,-,heffect,-,hexecute⟩
  · rw [next, hexecute]
    exact h
  · have hfetched : OnStack c.fetched.sp := h
    rw [next, hexecute]
    exact Action.onStack_of_effect opcode.operation.keeps_onStack hfetched heffect

/-- Two runs side by side. If an instruction has the same outcome in related states and leaves
related states, then so does every instruction of a run that meets the same condition. -/
theorem runs_related {R : Cpu → Cpu → Prop} {P : Cpu → Prop}
    (hstep : ∀ c d, R c d → P c → c.execute.2 = d.execute.2 ∧ R c.next d.next)
    {d : Cpu} (h : R c d) {n : ℕ} (hP : ∀ k < n, P (next^[k] c)) :
    ∀ k < n, (next^[k] c).execute.2 = (next^[k] d).execute.2 ∧
      R (next^[k + 1] c) (next^[k + 1] d) := by
  have hrun : ∀ k ≤ n, R (next^[k] c) (next^[k] d) := by
    intro k hk
    induction k with
    | zero => exact h
    | succ k ih =>
      rw [Function.iterate_succ_apply', Function.iterate_succ_apply']
      exact (hstep _ _ (ih (Nat.le_of_succ_le hk)) (hP k hk)).2
  intro k hk
  rw [Function.iterate_succ_apply', Function.iterate_succ_apply']
  exact hstep _ _ (hrun k (Nat.le_of_lt hk)) (hP k hk)

end Cpu
end Nmos6502
