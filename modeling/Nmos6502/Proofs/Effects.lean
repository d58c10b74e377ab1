import Nmos6502.Execution
import Nmos6502.Proofs.Outcome

/-! # Effects

What an action comes to, without the steps that lead there: the registers, the bytes that are
written, and the cycles that are counted beside those of the opcode. An action is carried out
exactly if it has an effect, and the processor then differs from before by that effect. One that
has none fails with the same fault, somewhere on its way.
-/
namespace Nmos6502

/-- The cell that an instruction works on, if its mode names one. -/
def effectiveAddress? (r : Registers) (m : Memory) : AddressingMode → Option UInt16
  | .implicit | .accumulator | .immediate => none
  | .zeroPage => some (m.read r.pc).toUInt16
  | .zeroPageX => some (m.read r.pc + r.x).toUInt16
  | .zeroPageY => some (m.read r.pc + r.y).toUInt16
  | .absolute => some (m.readWord r.pc)
  | .absoluteX => some (m.readWord r.pc + r.x.toUInt16)
  | .absoluteY => some (m.readWord r.pc + r.y.toUInt16)
  | .indirectX => some (m.readWord (m.read r.pc + r.x).toUInt16)
  | .indirectY => some (m.readWord (m.read r.pc).toUInt16 + r.y.toUInt16)
  | .indirect => some (m.readWord (m.readWord r.pc))
  | .relative => some (branchTarget (r.pc + 1) (m.read r.pc))

def effectiveAddress (r : Registers) (m : Memory) (mode : AddressingMode) : Except Fault UInt16 :=
  match effectiveAddress? r m mode with
  | some address => .ok address
  | none => .error (if mode = .implicit then .implicitModeRead else .noEffectiveAddress mode)

def operandByte (r : Registers) (m : Memory) (mode : AddressingMode) : Except Fault UInt8 :=
  match mode with
  | .accumulator => .ok r.a
  | .immediate | .relative => .ok (m.read r.pc)
  | _ => (effectiveAddress r m mode).map m.read

def crossingCycle (base address : UInt16) : ℕ := if crossesPage base address then 1 else 0

def indexingCycles (r : Registers) (m : Memory) : AddressingMode → ℕ
  | .absoluteX => crossingCycle (m.readWord r.pc) (m.readWord r.pc + r.x.toUInt16)
  | .absoluteY => crossingCycle (m.readWord r.pc) (m.readWord r.pc + r.y.toUInt16)
  | _ => 0

structure Effect where
  registers : Registers
  writes : List (UInt16 × UInt8) := []
  memoryCycles : ℕ := 0
  extraCycles : ℕ := 0

def Effect.penalty (effect : Effect) : ℕ := effect.memoryCycles + effect.extraCycles

def Memory.writeAll (m : Memory) (writes : List (UInt16 × UInt8)) : Memory :=
  writes.foldl (fun m write => m.write write.1 write.2) m

@[simp] theorem Memory.writeAll_nil (m : Memory) : m.writeAll [] = m := rfl

@[simp] theorem Memory.writeAll_cons (m : Memory) (write : UInt16 × UInt8)
    (writes : List (UInt16 × UInt8)) :
    m.writeAll (write :: writes) = (m.write write.1 write.2).writeAll writes := rfl

/-- The effect of an action on a processor whose program counter is behind the opcode. -/
def Action.effect (r : Registers) (m : Memory) (mode : AddressingMode) :
    Action → Except Fault Effect
  | .read result => do
    let byte ← operandByte r m mode
    .ok {
      registers := result (r.skip mode.operandSize) byte
      memoryCycles := indexingCycles r m mode }
  | .store byte => do
    let address ← effectiveAddress r m mode
    .ok {
      registers := r.skip mode.operandSize
      writes := [(address, byte r)]
      memoryCycles := indexingCycles r m mode }
  | .modify change => do
    let byte ← operandByte r m mode
    let changed := change byte r.status.carry
    let next := ((r.skip mode.operandSize).setFlag .carry changed.carry).withResult changed.byte
    if mode = .accumulator then .ok { registers := { next with a := changed.byte } }
    else
      let address ← effectiveAddress r m mode
      .ok {
        registers := next
        writes := [(address, changed.byte)]
        memoryCycles := indexingCycles r m mode }
  | .count change => do
    let address ← effectiveAddress r m mode
    let byte ← operandByte r m mode
    .ok {
      registers := (r.skip mode.operandSize).withResult (change byte)
      writes := [(address, change byte)]
      memoryCycles := indexingCycles r m mode }
  | .transfer result => .ok { registers := result r }
  | .branch flag value =>
    let next := r.skip 1
    let target := branchTarget next.pc (m.read r.pc)
    if r.status.get flag = value then
      .ok {
        registers := { next with pc := target }
        extraCycles := 1 + crossingCycle next.pc target }
    else .ok { registers := next }
  | .jump => do
    let address ← effectiveAddress r m mode
    .ok { registers := { r with pc := address }, memoryCycles := indexingCycles r m mode }
  | .call => do
    let address ← effectiveAddress r m mode
    let next := r.skip mode.operandSize
    .ok {
      registers := { next with pc := address, sp := slotBelow (slotBelow r.sp) }
      writes := pushes r.sp [highByte next.pc, lowByte next.pc]
      memoryCycles := indexingCycles r m mode }
  | .leave =>
    let first := slotAbove r.sp
    let second := slotAbove first
    .ok { registers := { r with pc := word (m.read first) (m.read second), sp := second } }
  | .interrupt =>
    let next := r.skip 1
    let frame := pushes r.sp [highByte next.pc, lowByte next.pc, r.status.toByte]
    .ok {
      registers := { r.setFlag .brk true with
        pc := (m.writeAll frame).readWord interruptVector
        sp := slotBelow (slotBelow (slotBelow r.sp)) }
      writes := frame }
  | .resume =>
    let first := slotAbove r.sp
    let second := slotAbove first
    let third := slotAbove second
    .ok { registers := { r with
      pc := word (m.read second) (m.read third)
      sp := third
      status := Status.restore (m.read first) } }
  | .push byte => .ok { registers := { r with sp := slotBelow r.sp }, writes := [(r.sp, byte r)] }
  | .pull result =>
    let slot := slotAbove r.sp
    .ok { registers := result { r with sp := slot } (m.read slot) }

namespace Cpu

def opcodeByte (c : Cpu) : UInt8 := c.memory.read c.pc

/-- The state behind the fetch of an opcode, with both counts at the start. -/
def fetched (c : Cpu) : Cpu := { c with pc := c.pc + 1, memoryCycles := 0, extraCycles := 0 }

/-- The state behind the operand bytes of a mode. -/
def passed (c : Cpu) (mode : AddressingMode) : Cpu :=
  { c with
    pc := c.pc + UInt16.ofNat mode.operandSize
    memoryCycles := c.memoryCycles + indexingCycles c.toRegisters c.memory mode }

def apply (c : Cpu) (effect : Effect) (cycles : ℕ) : Cpu where
  toRegisters := effect.registers
  memory := c.memory.writeAll effect.writes
  cycles := c.cycles + cycles
  memoryCycles := c.memoryCycles + effect.memoryCycles
  extraCycles := c.extraCycles + effect.extraCycles

@[simp] theorem memory_fetched (c : Cpu) : c.fetched.memory = c.memory := rfl

@[simp] theorem pc_fetched (c : Cpu) : c.fetched.pc = c.pc + 1 := rfl

end Cpu

section
variable {r : Registers} {m : Memory} {mode : AddressingMode}

theorem effectiveAddress_eq_ok_iff {address : UInt16} :
    effectiveAddress r m mode = .ok address ↔ effectiveAddress? r m mode = some address := by
  unfold effectiveAddress
  split <;> simp_all

theorem exists_operandByte_of_effectiveAddress {address : UInt16}
    (h : effectiveAddress r m mode = .ok address) : ∃ byte, operandByte r m mode = .ok byte := by
  cases mode with
  | implicit | accumulator | immediate => cases h
  | _ => exact ⟨_,rfl⟩

theorem mode_eq_implicit_of_fault {fault : Fault} (h : operandByte r m mode = .error fault) :
    mode = .implicit ∧ fault = .implicitModeRead := by
  cases mode with
  | implicit =>
    cases h
    exact ⟨rfl,rfl⟩
  | _ => cases h

end

namespace Cpu

theorem passed_accumulator (c : Cpu) : c.passed .accumulator = c := by
  simp [passed, AddressingMode.operandSize, indexingCycles]

end Cpu

namespace Machine
variable {c : Cpu} {mode : AddressingMode} {fault : Fault}

theorem run_fetchWord (c : Cpu) :
    fetchWord.run c = .ok (c.memory.readWord c.pc) { c with pc := c.pc + 2 } := by
  have htwo : c.pc + 1 + 1 = c.pc + 2 := UInt16.add_assoc ..
  rw [← htwo]
  rfl

theorem run_indexedAbsolute (c : Cpu) (index : UInt8) :
    (indexedAbsolute index).run c =
      let base := c.memory.readWord c.pc
      let address := base + index.toUInt16
      .ok ⟨address,c.memory.read address⟩ { c with
        pc := c.pc + 2, memoryCycles := c.memoryCycles + crossingCycle base address } := by
  simp only [indexedAbsolute, EStateM.run_bind, run_fetchWord, crossingCycle]
  split <;> rfl

theorem run_operand {byte : UInt8} (h : operandByte c.toRegisters c.memory mode = .ok byte) :
    (operand mode).run c =
      .ok ⟨effectiveAddress? c.toRegisters c.memory mode,byte⟩ (c.passed mode) := by
  cases mode with
  | implicit => cases h
  | accumulator =>
    cases h
    rw [Cpu.passed_accumulator]
    rfl
  | absolute | indirect =>
    cases h
    simp only [operand, EStateM.run_bind, run_fetchWord]
    rfl
  | absoluteX | absoluteY =>
    cases h
    simp only [operand, EStateM.run_bind, EStateM.run_get, run_indexedAbsolute]
    rfl
  | _ =>
    cases h
    rfl

theorem run_branchTo (c : Cpu) (target : UInt16) :
    (branchTo target).run c = .ok ()
      { c with
        pc := target
        extraCycles := c.extraCycles + (1 + crossingCycle c.pc target) } := by
  simp only [branchTo, EStateM.run_bind, EStateM.run_modify, EStateM.run_get, crossingCycle]
  split <;> rfl

theorem run_addressFor {address : UInt16}
    (h : effectiveAddress c.toRegisters c.memory mode = .ok address) (byte : UInt8) (d : Cpu) :
    (Found.addressFor ⟨effectiveAddress? c.toRegisters c.memory mode,byte⟩ mode).run d =
      .ok address d := by
  rw [effectiveAddress_eq_ok_iff.mp h]
  rfl

theorem run_addressFor_of_fault {byte : UInt8}
    (hb : operandByte c.toRegisters c.memory mode = .ok byte)
    (h : effectiveAddress c.toRegisters c.memory mode = .error fault) (d : Cpu) :
    (Found.addressFor ⟨effectiveAddress? c.toRegisters c.memory mode,byte⟩ mode).run d =
      .error fault d := by
  cases mode with
  | implicit => cases hb
  | accumulator | immediate =>
    cases h
    rfl
  | _ => cases h

/-- An action that has an effect is carried out, and that effect is all that it has. -/
theorem run_perform {action : Action} {effect : Effect}
    (h : action.effect c.toRegisters c.memory mode = .ok effect) :
    (perform mode action).run c = .ok () (c.apply effect 0) := by
  cases action with
  | read result =>
    obtain ⟨byte,hbyte,h⟩ := bind_eq_ok_iff.mp h
    cases h
    simp only [perform, EStateM.run_bind, run_operand hbyte]
    rfl
  | store byte =>
    obtain ⟨address,haddress,h⟩ := bind_eq_ok_iff.mp h
    obtain ⟨value,hvalue⟩ := exists_operandByte_of_effectiveAddress haddress
    cases h
    simp only [perform, EStateM.run_bind, EStateM.run_get, run_operand hvalue,
      run_addressFor haddress]
    rfl
  | modify change =>
    obtain ⟨byte,hbyte,h⟩ := bind_eq_ok_iff.mp h
    by_cases hmode : mode = .accumulator
    · rw [if_pos hmode] at h
      cases h
      subst hmode
      simp only [perform, EStateM.run_bind, EStateM.run_get, run_operand hbyte]
      rfl
    · rw [if_neg hmode] at h
      obtain ⟨address,haddress,h⟩ := bind_eq_ok_iff.mp h
      cases h
      simp only [perform, EStateM.run_bind, EStateM.run_get, EStateM.run_modify, if_neg hmode,
        run_operand hbyte, run_addressFor haddress]
      rfl
  | count change =>
    obtain ⟨address,haddress,h⟩ := bind_eq_ok_iff.mp h
    obtain ⟨byte,hbyte,h⟩ := bind_eq_ok_iff.mp h
    cases h
    simp only [perform, EStateM.run_bind, run_operand hbyte, run_addressFor haddress]
    rfl
  | branch flag value =>
    have hoffset : operandByte c.toRegisters c.memory .relative = .ok (c.memory.read c.pc) := rfl
    have htarget : effectiveAddress c.toRegisters c.memory .relative =
      .ok (branchTarget (c.pc + 1) (c.memory.read c.pc)) := rfl
    simp only [perform, EStateM.run_bind, EStateM.run_get, run_operand hoffset,
      run_addressFor htarget]
    simp only [Action.effect] at h
    split at h
    · rename_i htaken
      cases h
      rw [if_pos (show (c.passed .relative).status.get flag = value from htaken), run_branchTo]
      rfl
    · rename_i hpassed
      cases h
      rw [if_neg (show ¬ (c.passed .relative).status.get flag = value from hpassed)]
      rfl
  | jump | call =>
    obtain ⟨address,haddress,h⟩ := bind_eq_ok_iff.mp h
    obtain ⟨byte,hbyte⟩ := exists_operandByte_of_effectiveAddress haddress
    cases h
    simp only [perform, EStateM.run_bind, run_operand hbyte, run_addressFor haddress]
    rfl
  | _ =>
    cases h
    rfl

theorem exists_run_of_fault (h : effectiveAddress c.toRegisters c.memory mode = .error fault)
    (rest : Found → UInt16 → Machine Unit) :
    ∃ d, (do let found ← operand mode; rest found (← found.addressFor mode)).run c =
      .error fault d := by
  cases hb : operandByte c.toRegisters c.memory mode with
  | error =>
    obtain ⟨rfl,-⟩ := mode_eq_implicit_of_fault hb
    cases h
    exact ⟨c,rfl⟩
  | ok byte =>
    exact ⟨c.passed mode,by
      simp only [EStateM.run_bind, run_operand hb, run_addressFor_of_fault hb h]⟩

theorem exists_run_perform_of_fault {action : Action}
    (h : action.effect c.toRegisters c.memory mode = .error fault) :
    ∃ d, (perform mode action).run c = .error fault d := by
  cases action with
  | read result =>
    rcases bind_eq_error_iff.mp h with hbyte | ⟨byte,-,h⟩
    · obtain ⟨rfl,rfl⟩ := mode_eq_implicit_of_fault hbyte
      exact ⟨c,rfl⟩
    · cases h
  | store | jump | call =>
    rcases bind_eq_error_iff.mp h with haddress | ⟨address,-,h⟩
    · exact exists_run_of_fault haddress _
    · cases h
  | modify change =>
    rcases bind_eq_error_iff.mp h with hbyte | ⟨byte,hbyte,h⟩
    · obtain ⟨rfl,rfl⟩ := mode_eq_implicit_of_fault hbyte
      exact ⟨c,rfl⟩
    · split at h
      · cases h
      · rename_i hmode
        rcases bind_eq_error_iff.mp h with haddress | ⟨address,-,h⟩
        -- the carry is set by now
        · refine ⟨(c.passed mode).setFlag .carry (change byte c.status.carry).carry,?_⟩
          simp only [perform, EStateM.run_bind, EStateM.run_get, EStateM.run_modify, if_neg hmode,
            run_operand hbyte, run_addressFor_of_fault hbyte haddress]
          rfl
        · cases h
  | count change =>
    rcases bind_eq_error_iff.mp h with haddress | ⟨address,haddress,h⟩
    · exact exists_run_of_fault haddress _
    · obtain ⟨byte,hbyte⟩ := exists_operandByte_of_effectiveAddress haddress
      rw [hbyte] at h
      cases h
  | branch flag value =>
    simp only [Action.effect] at h
    split at h <;> cases h
  | _ => cases h

/-- An action is carried out exactly if it has an effect, which is then what it comes to. -/
theorem run_perform_eq_ok_iff {action : Action} {d : Cpu} :
    (perform mode action).run c = .ok () d ↔
      ∃ effect, action.effect c.toRegisters c.memory mode = .ok effect ∧ d = c.apply effect 0 := by
  constructor
  · intro h
    cases heffect : action.effect c.toRegisters c.memory mode with
    | error fault =>
      obtain ⟨e,he⟩ := exists_run_perform_of_fault heffect
      cases h.symm.trans he
    | ok effect =>
      cases h.symm.trans (run_perform heffect)
      exact ⟨effect,rfl,rfl⟩
  · rintro ⟨effect,heffect,rfl⟩
    exact run_perform heffect

end Machine

namespace Cpu
variable {c : Cpu}

theorem run_fetchOpcode (c : Cpu) : Machine.fetchOpcode.run c = .ok c.opcodeByte c.fetched := rfl

theorem run_retire (opcode : Opcode) (effect : Effect) :
    (Machine.retire opcode).run (c.fetched.apply effect 0) =
      .ok (opcode.cycles + effect.penalty)
        (c.fetched.apply effect (opcode.cycles + effect.penalty)) := by
  have hcounted : opcode.cycles + (c.fetched.apply effect 0).memoryCycles +
      (c.fetched.apply effect 0).extraCycles = opcode.cycles + effect.penalty := by
    simp only [apply, fetched, Effect.penalty]
    omega
  simp only [Machine.retire, EStateM.run_bind, EStateM.run_get, EStateM.run_modify, hcounted]
  rfl

theorem execute_of_undocumented (h : decode c.opcodeByte = none) :
    c.execute = (c.fetched, .error (.invalidOpcode c.opcodeByte)) := by
  simp only [execute, Machine.instruction, EStateM.run_bind, run_fetchOpcode, h]
  rfl

theorem execute_of_effect {opcode : Opcode} {effect : Effect}
    (h : decode c.opcodeByte = some opcode)
    (he : opcode.operation.action.effect c.fetched.toRegisters c.memory opcode.mode = .ok effect) :
    c.execute = (c.fetched.apply effect (opcode.cycles + effect.penalty),
      .ok (opcode.cycles + effect.penalty)) := by
  have hperform := Machine.run_perform (c := c.fetched) he
  simp only [execute, Machine.instruction, EStateM.run_bind, run_fetchOpcode, h, hperform,
    run_retire]

end Cpu
end Nmos6502
