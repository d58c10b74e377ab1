import Nmos6502.Proofs.CycleCount
import Nmos6502.Proofs.StraightLine
import Nmos6502.Proofs.WrittenCells

/-! # Where operands lie

The cell of an operand, in numbers, from the bytes behind the opcode: an index counts modulo 256
in page zero and modulo 65536 elsewhere, and an address kept in memory has its high byte in the
next cell, also where that is the first cell of the next page. Whatever an operation reads,
stores, changes or jumps to is at that cell.
-/
namespace Nmos6502

def Memory.wordAt (m : Memory) (pointer : ℕ) : ℕ :=
  (m.read (UInt16.ofNat pointer)).toNat + 256 * (m.read (UInt16.ofNat ((pointer + 1) % 65536))).toNat

namespace Cpu

def operandLow (c : Cpu) : ℕ := (c.memory.read (c.pc + 1)).toNat

/-- The cell that the next instruction works on in a mode, or jumps to. -/
def cell? (c : Cpu) : AddressingMode → Option ℕ
  | .zeroPage => some c.operandLow
  | .zeroPageX => some ((c.operandLow + c.x.toNat) % 256)
  | .zeroPageY => some ((c.operandLow + c.y.toNat) % 256)
  | .absolute => some c.operandWord
  | .absoluteX => some ((c.operandWord + c.x.toNat) % 65536)
  | .absoluteY => some ((c.operandWord + c.y.toNat) % 65536)
  | .indirectX => some (c.memory.wordAt ((c.operandLow + c.x.toNat) % 256))
  | .indirectY => some ((c.memory.wordAt c.operandLow + c.y.toNat) % 65536)
  | .indirect => some (c.memory.wordAt c.operandWord)
  | .implicit | .accumulator | .immediate | .relative => none

/-- The byte that the next instruction finds in a mode. -/
def operand? (c : Cpu) : AddressingMode → Option UInt8
  | .accumulator => some c.a
  | .immediate => some (c.memory.read (c.pc + 1))
  | mode => (c.cell? mode).map fun cell => c.memory.read (UInt16.ofNat cell)

/-- An instruction reads, writes and jumps where its mode says, and goes on behind its operand. -/
structure FollowsMode (c : Cpu) (opcode : Opcode) (d : Cpu) : Prop where
  read : ∀ result, opcode.operation.action = .read result →
    ∃ byte, c.operand? opcode.mode = some byte ∧
      d.toRegisters = result (c.toRegisters.skip opcode.size) byte ∧ d.memory = c.memory
  store : ∀ byte, opcode.operation.action = .store byte →
    ∃ cell, c.cell? opcode.mode = some cell ∧
      d.memory = c.memory.write (UInt16.ofNat cell) (byte c.fetched.toRegisters)
  modify : ∀ change, opcode.operation.action = .modify change → opcode.mode ≠ .accumulator →
    ∃ cell, c.cell? opcode.mode = some cell ∧
      d.memory = c.memory.write (UInt16.ofNat cell)
        (change (c.memory.read (UInt16.ofNat cell)) c.status.carry).byte
  count : ∀ change, opcode.operation.action = .count change →
    ∃ cell, c.cell? opcode.mode = some cell ∧
      d.memory = c.memory.write (UInt16.ofNat cell) (change (c.memory.read (UInt16.ofNat cell)))
  jump : opcode.operation.action = .jump ∨ opcode.operation.action = .call →
    c.cell? opcode.mode = some d.pc.toNat
  passes : opcode.operation.diverts = false → d.pc = c.pc + UInt16.ofNat opcode.size

/-- What the operations do with the operand. -/
structure UsesOperand (c : Cpu) (opcode : Opcode) (d : Cpu) : Prop where
  lda : opcode.operation = .lda → c.operand? opcode.mode = some d.a
  ldx : opcode.operation = .ldx → c.operand? opcode.mode = some d.x
  ldy : opcode.operation = .ldy → c.operand? opcode.mode = some d.y
  sta : opcode.operation = .sta → ∃ cell, c.cell? opcode.mode = some cell ∧
    d.memory = c.memory.write (UInt16.ofNat cell) c.a
  stx : opcode.operation = .stx → ∃ cell, c.cell? opcode.mode = some cell ∧
    d.memory = c.memory.write (UInt16.ofNat cell) c.x
  sty : opcode.operation = .sty → ∃ cell, c.cell? opcode.mode = some cell ∧
    d.memory = c.memory.write (UInt16.ofNat cell) c.y
  inc : opcode.operation = .inc → ∃ cell, c.cell? opcode.mode = some cell ∧
    d.memory = c.memory.write (UInt16.ofNat cell) (c.memory.read (UInt16.ofNat cell) + 1)
  dec : opcode.operation = .dec → ∃ cell, c.cell? opcode.mode = some cell ∧
    d.memory = c.memory.write (UInt16.ofNat cell) (c.memory.read (UInt16.ofNat cell) - 1)
  and : opcode.operation = .and → ∃ byte, c.operand? opcode.mode = some byte ∧ d.a = c.a &&& byte
  ora : opcode.operation = .ora → ∃ byte, c.operand? opcode.mode = some byte ∧ d.a = c.a ||| byte
  eor : opcode.operation = .eor → ∃ byte, c.operand? opcode.mode = some byte ∧ d.a = c.a ^^^ byte
  bit : opcode.operation = .bit → ∃ byte, c.operand? opcode.mode = some byte ∧ d.a = c.a ∧
    d.status.zero = (c.a &&& byte == 0) ∧ d.status.negative = byte.toNat.testBit 7 ∧
    d.status.overflow = byte.toNat.testBit 6
  jmp_absolute : opcode.operation = .jmp → opcode.mode = .absolute → d.pc.toNat = c.operandWord
  jmp_indirect : opcode.operation = .jmp → opcode.mode = .indirect →
    d.pc.toNat = c.memory.wordAt c.operandWord

end Cpu

theorem sign_eq_testBit (byte : UInt8) : sign byte = byte.toNat.testBit 7 := by
  have hlt := byte.toNat_lt
  rw [sign, Nat.testBit_eq_decide_div_mod_eq, decide_eq_decide]
  omega

theorem and_mask_ne_zero (byte : UInt8) {mask : UInt8} {i : ℕ} (h : mask.toNat = 2 ^ i) :
    (byte &&& mask != 0) = byte.toNat.testBit i := by
  have hbit : ∀ j, (byte &&& mask).toNat.testBit j = (byte.toNat.testBit j && decide (i = j)) := by
    intro j
    rw [UInt8.toNat_and, h, Nat.testBit_and, Nat.testBit_two_pow]
  cases hi : byte.toNat.testBit i with
  | false =>
    have hnone : byte &&& mask = 0 := by
      apply UInt8.toNat_inj.mp
      apply Nat.eq_of_testBit_eq
      intro j
      rw [hbit, UInt8.toNat_zero, Nat.zero_testBit]
      by_cases hj : i = j
      · rw [← hj, hi, Bool.false_and]
      · rw [decide_eq_false hj, Bool.and_false]
    rw [hnone]
    rfl
  | true =>
    rw [bne_iff_ne]
    intro hnone
    have hself := hbit i
    rw [hnone, UInt8.toNat_zero, Nat.zero_testBit, hi, decide_eq_true rfl] at hself
    exact Bool.noConfusion hself

theorem Memory.toNat_readWord (m : Memory) (address : UInt16) :
    (m.readWord address).toNat = m.wordAt address.toNat := by
  have hnext : UInt16.ofNat ((address.toNat + 1) % 65536) = address + 1 := by
    rw [← UInt16.toNat_inj, UInt16.toNat_add, UInt16.toNat_ofNat', Nat.mod_mod]
    rfl
  rw [readWord, toNat_word, wordAt, hnext, UInt16.ofNat_toNat]

namespace Cpu
variable {c : Cpu} {opcode : Opcode}

theorem toNat_effectiveAddress? (c : Cpu) {mode : AddressingMode} (hm : mode ≠ .relative) :
    (effectiveAddress? c.fetched.toRegisters c.memory mode).map UInt16.toNat = c.cell? mode := by
  have hlow : (c.memory.read c.fetched.pc).toNat = c.operandLow := rfl
  have hword := c.toNat_readWord_fetched
  have hx : c.fetched.x = c.x := rfl
  have hy : c.fetched.y = c.y := rfl
  cases mode with
  | relative => exact absurd rfl hm
  | implicit | accumulator | immediate => rfl
  | _ =>
    simp only [effectiveAddress?, cell?, Option.map_some, UInt8.toNat_toUInt16, UInt8.toNat_add,
      UInt16.toNat_add, Memory.toNat_readWord, hlow, hword, hx, hy]

theorem cell?_of_effectiveAddress {mode : AddressingMode} (hm : mode ≠ .relative)
    {address : UInt16} (h : effectiveAddress c.fetched.toRegisters c.memory mode = .ok address) :
    c.cell? mode = some address.toNat := by
  rw [← c.toNat_effectiveAddress? hm, effectiveAddress_eq_ok_iff.mp h, Option.map_some]

theorem operand?_of_effectiveAddress {mode : AddressingMode} (hm : mode ≠ .relative)
    {address : UInt16} (h : effectiveAddress c.fetched.toRegisters c.memory mode = .ok address) :
    c.operand? mode = some (c.memory.read address) := by
  have hcell := cell?_of_effectiveAddress hm h
  cases mode with
  | implicit | accumulator | immediate | relative => cases hcell
  | _ => simp only [operand?, hcell, Option.map_some, UInt16.ofNat_toNat]

theorem operand?_of_operandByte {mode : AddressingMode} (hm : mode ≠ .relative) {byte : UInt8}
    (h : operandByte c.fetched.toRegisters c.memory mode = .ok byte) :
    c.operand? mode = some byte := by
  cases mode with
  | relative => exact absurd rfl hm
  | accumulator | immediate =>
    cases h
    rfl
  | _ =>
    simp only [operandByte] at h
    obtain ⟨address,haddress,rfl⟩ := map_eq_ok_iff.mp h
    exact operand?_of_effectiveAddress hm haddress

theorem skip_fetched (c : Cpu) (count : ℕ) :
    c.fetched.toRegisters.skip count = c.toRegisters.skip (1 + count) := by
  rw [Registers.skip, Registers.skip, UInt16.ofNat_add, ← UInt16.add_assoc]
  rfl

theorem mode_ne_relative (h : decode c.opcodeByte = some opcode)
    (hb : ∀ flag value, opcode.operation.action ≠ .branch flag value) :
    opcode.mode ≠ .relative := by
  intro hmode
  obtain ⟨flag,value,haction⟩ := Operation.exists_branch_iff.mpr
    ((isBranch_iff_of_decode h).mpr hmode)
  exact hb flag value haction

theorem next_of_read (h : decode c.opcodeByte = some opcode) {result : Registers → UInt8 → Registers}
    (ha : opcode.operation.action = .read result) :
    ∃ byte, c.operand? opcode.mode = some byte ∧
      c.next.toRegisters = result (c.toRegisters.skip opcode.size) byte ∧
      c.next.memory = c.memory := by
  have hmode : opcode.mode ≠ .relative := mode_ne_relative h (by simp [ha])
  obtain ⟨effect,elapsed,heffect,-,hnext,-⟩ := exists_next_of_decode h
  rw [ha] at heffect
  obtain ⟨byte,hbyte,heffect⟩ := bind_eq_ok_iff.mp heffect
  cases heffect
  rw [hnext, Opcode.size, ← skip_fetched]
  exact ⟨byte,operand?_of_operandByte hmode hbyte,rfl,rfl⟩

theorem next_of_store (h : decode c.opcodeByte = some opcode) {byte : Registers → UInt8}
    (ha : opcode.operation.action = .store byte) :
    ∃ cell, c.cell? opcode.mode = some cell ∧
      c.next.memory = c.memory.write (UInt16.ofNat cell) (byte c.fetched.toRegisters) := by
  have hmode : opcode.mode ≠ .relative := mode_ne_relative h (by simp [ha])
  obtain ⟨effect,elapsed,heffect,-,hnext,-⟩ := exists_next_of_decode h
  rw [ha] at heffect
  obtain ⟨address,haddress,heffect⟩ := bind_eq_ok_iff.mp heffect
  cases heffect
  rw [hnext]
  refine ⟨address.toNat,cell?_of_effectiveAddress hmode haddress,?_⟩
  rw [UInt16.ofNat_toNat]
  rfl

theorem next_of_modify (h : decode c.opcodeByte = some opcode) {change : UInt8 → Bool → Changed}
    (ha : opcode.operation.action = .modify change) :
    ∃ byte, c.operand? opcode.mode = some byte ∧
      let changed := change byte c.status.carry
      let registers := ((c.toRegisters.skip opcode.size).setFlag .carry changed.carry).withResult
        changed.byte
      (opcode.mode = .accumulator ∧ c.next.toRegisters = { registers with a := changed.byte } ∧
        c.next.memory = c.memory) ∨
      ∃ cell, c.cell? opcode.mode = some cell ∧ byte = c.memory.read (UInt16.ofNat cell) ∧
        c.next.toRegisters = registers ∧
        c.next.memory = c.memory.write (UInt16.ofNat cell) changed.byte := by
  have hmode : opcode.mode ≠ .relative := mode_ne_relative h (by simp [ha])
  obtain ⟨effect,elapsed,heffect,-,hnext,-⟩ := exists_next_of_decode h
  rw [ha] at heffect
  obtain ⟨byte,hbyte,heffect⟩ := bind_eq_ok_iff.mp heffect
  have hoperand := operand?_of_operandByte hmode hbyte
  refine ⟨byte,hoperand,?_⟩
  rw [hnext, Opcode.size, ← skip_fetched]
  split at heffect
  · rename_i haccumulator
    cases heffect
    exact .inl ⟨haccumulator,rfl,rfl⟩
  · obtain ⟨address,haddress,heffect⟩ := bind_eq_ok_iff.mp heffect
    cases heffect
    have hread := operand?_of_effectiveAddress hmode haddress
    refine .inr ⟨address.toNat,cell?_of_effectiveAddress hmode haddress,?_,rfl,?_⟩
    · rw [UInt16.ofNat_toNat]
      exact Option.some_inj.mp (hoperand.symm.trans hread)
    · rw [UInt16.ofNat_toNat]
      rfl

theorem memory_next_of_modify (h : decode c.opcodeByte = some opcode)
    {change : UInt8 → Bool → Changed} (ha : opcode.operation.action = .modify change)
    (hm : opcode.mode ≠ .accumulator) :
    ∃ cell, c.cell? opcode.mode = some cell ∧ c.next.memory = c.memory.write (UInt16.ofNat cell)
      (change (c.memory.read (UInt16.ofNat cell)) c.status.carry).byte := by
  obtain ⟨byte,-,hnext⟩ := next_of_modify h ha
  rcases hnext with ⟨haccumulator,-⟩ | ⟨cell,hcell,rfl,-,hmemory⟩
  · exact absurd haccumulator hm
  · exact ⟨cell,hcell,hmemory⟩

theorem next_of_count (h : decode c.opcodeByte = some opcode) {change : UInt8 → UInt8}
    (ha : opcode.operation.action = .count change) :
    ∃ cell, c.cell? opcode.mode = some cell ∧
      let byte := change (c.memory.read (UInt16.ofNat cell))
      c.next.toRegisters = (c.toRegisters.skip opcode.size).withResult byte ∧
        c.next.memory = c.memory.write (UInt16.ofNat cell) byte := by
  have hmode : opcode.mode ≠ .relative := mode_ne_relative h (by simp [ha])
  obtain ⟨effect,elapsed,heffect,-,hnext,-⟩ := exists_next_of_decode h
  rw [ha] at heffect
  obtain ⟨address,haddress,heffect⟩ := bind_eq_ok_iff.mp heffect
  obtain ⟨byte,hbyte,heffect⟩ := bind_eq_ok_iff.mp heffect
  cases heffect
  have hread := operand?_of_effectiveAddress hmode haddress
  obtain rfl := Option.some_inj.mp ((operand?_of_operandByte hmode hbyte).symm.trans hread)
  rw [hnext, Opcode.size, ← skip_fetched]
  refine ⟨address.toNat,cell?_of_effectiveAddress hmode haddress,?_⟩
  rw [UInt16.ofNat_toNat]
  exact ⟨rfl,rfl⟩

theorem memory_next_of_count (h : decode c.opcodeByte = some opcode) {change : UInt8 → UInt8}
    (ha : opcode.operation.action = .count change) :
    ∃ cell, c.cell? opcode.mode = some cell ∧ c.next.memory = c.memory.write (UInt16.ofNat cell)
      (change (c.memory.read (UInt16.ofNat cell))) := by
  obtain ⟨cell,hcell,-,hmemory⟩ := next_of_count h ha
  exact ⟨cell,hcell,hmemory⟩

theorem next_of_jump (h : decode c.opcodeByte = some opcode)
    (ha : opcode.operation.action = .jump ∨ opcode.operation.action = .call) :
    c.cell? opcode.mode = some c.next.pc.toNat := by
  have hmode : opcode.mode ≠ .relative := mode_ne_relative h (by rcases ha with ha | ha <;> simp [ha])
  obtain ⟨effect,elapsed,heffect,-,hnext,-⟩ := exists_next_of_decode h
  rw [hnext]
  rcases ha with ha | ha
  all_goals
    rw [ha] at heffect
    obtain ⟨address,haddress,heffect⟩ := bind_eq_ok_iff.mp heffect
    cases heffect
    exact cell?_of_effectiveAddress hmode haddress

theorem followsMode_next (h : decode c.opcodeByte = some opcode) : c.FollowsMode opcode c.next where
  read _ ha := next_of_read h ha
  store _ ha := next_of_store h ha
  modify _ ha hm := memory_next_of_modify h ha hm
  count _ ha := memory_next_of_count h ha
  jump ha := next_of_jump h ha
  passes hd := pc_next h hd

theorem register_next_of_read (h : decode c.opcodeByte = some opcode)
    {result : Registers → UInt8 → Registers} (ha : opcode.operation.action = .read result)
    {register : Registers → UInt8} {f : UInt8 → UInt8 → UInt8}
    (hf : ∀ r byte, register (result r byte) = f r.a byte) :
    ∃ byte, c.operand? opcode.mode = some byte ∧ register c.next.toRegisters = f c.a byte := by
  obtain ⟨byte,hbyte,hregisters,-⟩ := next_of_read h ha
  refine ⟨byte,hbyte,?_⟩
  rw [hregisters, hf]
  rfl

theorem operand?_eq_of_load (h : decode c.opcodeByte = some opcode)
    {result : Registers → UInt8 → Registers} (ha : opcode.operation.action = .read result)
    {register : Registers → UInt8} (hf : ∀ r byte, register (result r byte) = byte) :
    c.operand? opcode.mode = some (register c.next.toRegisters) := by
  obtain ⟨byte,hbyte,hloaded⟩ := register_next_of_read (f := fun _ byte => byte) h ha hf
  rw [hbyte, hloaded]

theorem usesOperand_next (h : decode c.opcodeByte = some opcode) :
    c.UsesOperand opcode c.next := by
  constructor
  case lda | ldx | ldy =>
    exact fun ho => operand?_eq_of_load h (congrArg Operation.action ho) fun _ _ => rfl
  case sta | stx | sty => exact fun ho => next_of_store h (congrArg Operation.action ho)
  case inc | dec => exact fun ho => memory_next_of_count h (congrArg Operation.action ho)
  case and | ora | eor =>
    exact fun ho => register_next_of_read h (congrArg Operation.action ho) fun _ _ => rfl
  case bit =>
    intro ho
    obtain ⟨byte,hbyte,hregisters,-⟩ := next_of_read h (congrArg Operation.action ho)
    have ha : c.next.a = ((c.toRegisters.skip opcode.size).testBits byte).a :=
      congrArg Registers.a hregisters
    have hmask : (0x40 : UInt8).toNat = 2 ^ 6 := rfl
    refine ⟨byte,hbyte,ha,congrArg (·.status.zero) hregisters,?_,?_⟩
    · rw [← sign_eq_testBit]
      exact congrArg (·.status.negative) hregisters
    · rw [← and_mask_ne_zero byte hmask]
      exact congrArg (·.status.overflow) hregisters
  case jmp_absolute =>
    intro ho hmode
    have hcell := next_of_jump h (.inl (congrArg Operation.action ho))
    rw [hmode] at hcell
    exact (Option.some_inj.mp hcell).symm
  case jmp_indirect =>
    intro ho hmode
    have hcell := next_of_jump h (.inl (congrArg Operation.action ho))
    rw [hmode] at hcell
    exact (Option.some_inj.mp hcell).symm

/-- A documented opcode works on the cell of its mode: what it loads, stores, counts, combines or
tests is there, what it jumps to is its address, and unless it diverts it goes on behind its
operand. -/
theorem operand_cells_exact (h : (c.memory.read c.pc, opcode) ∈ Opcode.documented) :
    (∃ elapsed, c.execute = (c.next, .ok elapsed)) ∧ c.FollowsMode opcode c.next ∧
      c.UsesOperand opcode c.next := by
  have hdecode : decode c.opcodeByte = some opcode := Opcode.lookup_of_mem_documented _ h
  exact ⟨exists_execute_next hdecode,followsMode_next hdecode,usesOperand_next hdecode⟩

/-- The opcode of a store is the last byte of memory and its operand the first, the index leads
to the end of page zero, and the address there has its high byte in page one. -/
theorem operand_cells_exact_wrapped : ∃ c : Cpu, c.pc = 0xFFFF ∧ c.operandLow = 0xF0 ∧
    c.x = 0x0F ∧ (c.memory.read c.pc, ⟨.sta,.indirectX,6⟩) ∈ Opcode.documented ∧
    c.cell? .indirectX = some 0x1234 ∧ c.next.memory = c.memory.write 0x1234 0x5A ∧
    c.next.pc = 0x0001 := by
  let m := (((Memory.zero.write 0xFFFF 0x81).write 0x0000 0xF0).write 0x00FF 0x34).write 0x0100 0x12
  let c : Cpu := ⟨⟨0x5A,0x0F,0,0xFFFF,stackTop,.powerUp⟩,m,0,0,0⟩
  have hread : m.read 0xFFFF = 0x81 ∧ m.read 0x0000 = 0xF0 ∧ m.read 0x00FF = 0x34 ∧
      m.read 0x0100 = 0x12 := by
    simp [m, Memory.read_write]
  obtain ⟨hcode,hoperand,hlow,hhigh⟩ := hread
  have hdocumented : (c.memory.read c.pc, ⟨.sta,.indirectX,6⟩) ∈ Opcode.documented := by
    rw [show c.memory.read c.pc = 0x81 from hcode]
    exact mem_documented_of_decode rfl
  have hbehind : c.operandLow = 0xF0 := by
    have hwrap : (0xFFFF : UInt16) + 1 = 0x0000 := by decide
    change (m.read (0xFFFF + 1)).toNat = 0xF0
    rw [hwrap, hoperand]
    rfl
  have hcell : c.cell? .indirectX = some 0x1234 := by
    have hx : c.x.toNat = 0x0F := rfl
    have hword : m.wordAt 0xFF = 0x1234 := by
      rw [Memory.wordAt, show UInt16.ofNat 0xFF = 0x00FF from rfl, hlow,
        show UInt16.ofNat ((0xFF + 1) % 65536) = 0x0100 from rfl, hhigh]
      rfl
    rw [cell?, hbehind, hx]
    exact congrArg some hword
  obtain ⟨-,hmode,huses⟩ := operand_cells_exact hdocumented
  obtain ⟨cell,hstored,hmemory⟩ := huses.sta rfl
  cases hcell.symm.trans hstored
  have hpc : (0xFFFF : UInt16) + UInt16.ofNat 2 = 0x0001 := by decide
  exact ⟨c,rfl,hbehind,rfl,hdocumented,hcell,hmemory,(hmode.passes rfl).trans hpc⟩

end Cpu
end Nmos6502
