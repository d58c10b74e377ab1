import Mathlib.Algebra.GroupWithZero.Nat
import Nmos6502.Proofs.Effects

/-! # What stops the processor

An action works in some addressing modes and has no operand in the others. The
instruction set gives every operation modes in which its action works, so that a
documented opcode is always carried out, in eight cycles at most. An undocumented one
stops the processor before anything but the program counter has changed.
-/
namespace Nmos6502

/-- The modes that name a cell, or a place to go to. -/
def AddressingMode.hasAddress : AddressingMode → Bool
  | .implicit | .accumulator | .immediate => false
  | _ => true

/-- The modes in which an action finds what it works on. -/
def Action.accepts : Action → AddressingMode → Bool
  | .read _, mode => mode != .implicit
  | .store _, mode | .count _, mode | .jump, mode | .call, mode => mode.hasAddress
  | .modify _, mode => mode == .accumulator || mode.hasAddress
  | _, _ => true

def Action.mostPenalty : Action → AddressingMode → ℕ
  | .read _, mode | .store _, mode | .modify _, mode | .count _, mode | .jump, mode | .call, mode =>
    if mode = .absoluteX ∨ mode = .absoluteY then 1 else 0
  | .branch _ _, _ => 2
  | _, _ => 0

section
variable {r : Registers} {m : Memory} {mode : AddressingMode}

theorem exists_effectiveAddress_iff :
    (∃ address, effectiveAddress r m mode = .ok address) ↔ mode.hasAddress = true := by
  cases mode <;> simp [effectiveAddress, effectiveAddress?, AddressingMode.hasAddress]

theorem exists_operandByte_iff :
    (∃ byte, operandByte r m mode = .ok byte) ↔ mode ≠ .implicit := by
  cases mode <;> simp [operandByte, effectiveAddress, effectiveAddress?, Except.map]

theorem crossingCycle_le (base address : UInt16) : crossingCycle base address ≤ 1 := by
  unfold crossingCycle
  split <;> omega

theorem indexingCycles_le :
    indexingCycles r m mode ≤ if mode = .absoluteX ∨ mode = .absoluteY then 1 else 0 := by
  cases mode <;> simp [indexingCycles, crossingCycle_le]

/-- An action has an effect exactly in the modes that it accepts. -/
theorem Action.exists_effect_iff {action : Action} :
    (∃ effect, action.effect r m mode = .ok effect) ↔ action.accepts mode = true := by
  cases action with
  | read result =>
    simp [effect, accepts, bind_eq_ok_iff, ← exists_operandByte_iff (r := r) (m := m)]
  | store | jump | call =>
    simp [effect, accepts, bind_eq_ok_iff, ← exists_effectiveAddress_iff (r := r) (m := m)]
  | modify change =>
    by_cases hmode : mode = .accumulator
    · subst hmode
      exact ⟨fun _ => rfl,fun _ => ⟨_,rfl⟩⟩
    · simp only [effect, if_neg hmode, bind_eq_ok_iff, accepts]
      constructor
      · rintro ⟨_,_,-,address,haddress,-⟩
        simp [exists_effectiveAddress_iff.mp ⟨address,haddress⟩]
      · intro h
        have haddress : mode.hasAddress = true := by simpa [hmode] using h
        have hread : mode ≠ .implicit := by
          rintro rfl
          cases haddress
        obtain ⟨address,haddress⟩ := exists_effectiveAddress_iff (r := r) (m := m).mpr haddress
        obtain ⟨byte,hbyte⟩ := exists_operandByte_iff (r := r) (m := m).mpr hread
        exact ⟨_,byte,hbyte,address,haddress,rfl⟩
  | count change =>
    simp only [effect, bind_eq_ok_iff, accepts, ← exists_effectiveAddress_iff (r := r) (m := m)]
    constructor
    · rintro ⟨_,address,haddress,-⟩
      exact ⟨address,haddress⟩
    · rintro ⟨address,haddress⟩
      obtain ⟨byte,hbyte⟩ := exists_operandByte_of_effectiveAddress haddress
      exact ⟨_,address,haddress,byte,hbyte,rfl⟩
  | branch flag value =>
    simp only [effect, accepts]
    split <;> simp
  | _ => simp [effect, accepts]

theorem Action.penalty_le {action : Action} {effect : Effect}
    (h : action.effect r m mode = .ok effect) : effect.penalty ≤ action.mostPenalty mode := by
  cases action with
  | read | store | jump | call =>
    obtain ⟨_,-,h⟩ := bind_eq_ok_iff.mp h
    cases h
    exact indexingCycles_le
  | modify change =>
    obtain ⟨_,-,h⟩ := bind_eq_ok_iff.mp h
    split at h
    · cases h
      exact Nat.zero_le _
    · obtain ⟨_,-,h⟩ := bind_eq_ok_iff.mp h
      cases h
      exact indexingCycles_le
  | count change =>
    obtain ⟨_,-,h⟩ := bind_eq_ok_iff.mp h
    obtain ⟨_,-,h⟩ := bind_eq_ok_iff.mp h
    cases h
    exact indexingCycles_le
  | branch flag value =>
    simp only [Action.effect] at h
    split at h
    · cases h
      have hcrossing := crossingCycle_le (r.skip 1).pc (branchTarget (r.skip 1).pc (m.read r.pc))
      simp only [Effect.penalty, mostPenalty]
      omega
    · cases h
      exact Nat.zero_le _
  | _ =>
    cases h
    exact Nat.zero_le _

end

theorem Opcode.accepts_of_mem_documented :
    ∀ row ∈ documented, row.2.operation.action.accepts row.2.mode = true := by
  decide +kernel

theorem Opcode.elapsed_le_of_mem_documented :
    ∀ row ∈ documented, row.2.cycles + row.2.operation.action.mostPenalty row.2.mode ≤ 8 := by
  decide +kernel

theorem decode_eq_none_iff {byte : UInt8} :
    decode byte = none ↔ ∀ opcode, (byte, opcode) ∉ Opcode.documented := by
  constructor
  · intro h opcode hmem
    rw [decode, Opcode.lookup_of_mem_documented _ hmem] at h
    cases h
  · intro h
    cases hdecode : decode byte with
    | none => rfl
    | some opcode => exact absurd (mem_documented_of_decode hdecode) (h opcode)

theorem exists_effect_of_mem_documented {row : UInt8 × Opcode} (h : row ∈ Opcode.documented)
    (r : Registers) (m : Memory) :
    ∃ effect, row.2.operation.action.effect r m row.2.mode = .ok effect ∧
      row.2.cycles + effect.penalty ≤ 8 := by
  obtain ⟨effect,heffect⟩ := Action.exists_effect_iff.mpr (Opcode.accepts_of_mem_documented row h)
  have hpenalty := Action.penalty_le heffect
  have helapsed := Opcode.elapsed_le_of_mem_documented row h
  exact ⟨effect,heffect,by omega⟩

namespace Cpu
variable {c : Cpu}

theorem exists_execute_of_decode {opcode : Opcode} (h : decode c.opcodeByte = some opcode) :
    ∃ effect elapsed, opcode.operation.action.effect c.fetched.toRegisters c.memory opcode.mode =
        .ok effect ∧ elapsed = opcode.cycles + effect.penalty ∧ elapsed ≤ 8 ∧
      c.execute = (c.fetched.apply effect elapsed, .ok elapsed) := by
  obtain ⟨effect,heffect,helapsed⟩ := exists_effect_of_mem_documented
    (mem_documented_of_decode h) c.fetched.toRegisters c.memory
  exact ⟨effect,_,heffect,rfl,helapsed,execute_of_effect h heffect⟩

theorem execute_cases (c : Cpu) :
    (decode c.opcodeByte = none ∧
      c.execute = (c.fetched, .error (.invalidOpcode c.opcodeByte))) ∨
    ∃ opcode effect elapsed, decode c.opcodeByte = some opcode ∧
      opcode.operation.action.effect c.fetched.toRegisters c.memory opcode.mode = .ok effect ∧
      elapsed ≤ 8 ∧ c.execute = (c.fetched.apply effect elapsed, .ok elapsed) := by
  cases h : decode c.opcodeByte with
  | none => exact .inl ⟨rfl,execute_of_undocumented h⟩
  | some opcode =>
    obtain ⟨effect,elapsed,heffect,-,helapsed,hexecute⟩ := exists_execute_of_decode h
    exact .inr ⟨opcode,effect,elapsed,rfl,heffect,helapsed,hexecute⟩

/-- The processor stops at an undocumented opcode and at nothing else. All that changes then
is the program counter, and nothing is counted. The sum of cycles never leaves its 64 bits, and no
opcode of the instruction set fails on its way, in any state. -/
theorem execute_error_iff (hc : c.cycles < 2 ^ 64 - 8) :
    (∀ fault, c.execute.2 = .error fault ↔
      (∀ opcode, (c.memory.read c.pc, opcode) ∉ Opcode.documented) ∧
        fault = .invalidOpcode (c.memory.read c.pc)) ∧
    (∀ fault, c.execute.2 = .error fault →
      c.execute.1 = { c with pc := c.pc + 1, memoryCycles := 0, extraCycles := 0 }) ∧
    (∀ elapsed, c.execute.2 = .ok elapsed →
      c.execute.1.cycles = c.cycles + elapsed ∧ c.execute.1.cycles < 2 ^ 64) ∧
    ∀ row ∈ Opcode.documented, ∀ before : Cpu,
      ∃ after, (Machine.perform row.2.mode row.2.operation.action).run before = .ok () after := by
  have htable : ∀ row ∈ Opcode.documented, ∀ before : Cpu,
      ∃ after, (Machine.perform row.2.mode row.2.operation.action).run before = .ok () after := by
    intro row hrow before
    obtain ⟨effect,heffect,-⟩ :=
      exists_effect_of_mem_documented hrow before.toRegisters before.memory
    exact ⟨_,Machine.run_perform_eq_ok_iff.mpr ⟨effect,heffect,rfl⟩⟩
  rcases c.execute_cases with ⟨hdecode,hexecute⟩ | ⟨opcode,effect,elapsed,hdecode,-,hle,hexecute⟩
  · rw [hexecute]
    refine ⟨?_,?_,?_,htable⟩
    · intro fault
      constructor
      · intro h
        cases h
        exact ⟨decode_eq_none_iff.mp hdecode,rfl⟩
      · rintro ⟨-,rfl⟩
        rfl
    · intro fault h
      rfl
    · intro n h
      cases h
  · rw [hexecute]
    refine ⟨?_,?_,?_,htable⟩
    · intro fault
      constructor
      · intro h
        cases h
      · rintro ⟨hnone,-⟩
        exact absurd (mem_documented_of_decode hdecode) (hnone opcode)
    · intro fault h
      cases h
    · intro n h
      cases h
      have hbound : c.cycles + elapsed < 2 ^ 64 := by omega
      exact ⟨rfl,hbound⟩

theorem execute_undocumented_at_memory_end : ∃ c : Cpu, c.pc = 0xFFFF ∧ c.cycles = 2 ^ 64 - 9 ∧
    c.execute.2 = .error (.invalidOpcode 0x02) ∧ c.execute.1.pc = 0 := by
  let c : Cpu := ⟨⟨1,2,3,0xFFFF,stackTop,.powerUp⟩,Memory.zero.write 0xFFFF 0x02,2 ^ 64 - 9,1,2⟩
  have hbyte : c.memory.read c.pc = 0x02 := Memory.read_write_self ..
  have hnone : ∀ opcode, (c.memory.read c.pc, opcode) ∉ Opcode.documented := by
    rw [hbyte]
    exact decode_eq_none_iff.mp (by decide)
  obtain ⟨herror,hclean,-,-⟩ := execute_error_iff (c := c) (by decide)
  have hfault : c.execute.2 = .error (.invalidOpcode (c.memory.read c.pc)) :=
    (herror _).mpr ⟨hnone,rfl⟩
  have hwrap : (0xFFFF : UInt16) + 1 = 0 := by decide
  exact ⟨c,rfl,rfl,hbyte ▸ hfault,by rw [hclean _ hfault]; exact hwrap⟩

end Cpu
end Nmos6502
