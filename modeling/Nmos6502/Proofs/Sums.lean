import Nmos6502.Proofs.RegisterFrame

/-! # Sums and differences

Addition and subtraction are exact: accumulator and carry together hold the sum of two bytes and
the old carry, a difference is right modulo 256, and overflow reports a result that has no place
between -128 and 127 when the bytes count in two's complement. This holds in every addressing
mode and whatever the decimal flag says. A subtraction always leaves the carry clear.
-/
namespace Nmos6502

/-- A number that a byte can stand for in two's complement. -/
def FitsByte (n : ℤ) : Prop := -128 ≤ n ∧ n ≤ 127

instance (n : ℤ) : Decidable (FitsByte n) := inferInstanceAs (Decidable (_ ∧ _))

namespace Registers
variable (r : Registers) (byte : UInt8)

/-- The sum of accumulator, operand and carry in two's complement. -/
def signedSum : ℤ := r.a.toInt8.toInt + byte.toInt8.toInt + r.status.carry.toNat

/-- The difference of accumulator, operand and borrow in two's complement. -/
def signedDifference : ℤ := r.a.toInt8.toInt - byte.toInt8.toInt - (1 - r.status.carry.toNat)

/-- The registers `s` hold the sum of those before and the byte. -/
structure HasSum (s : Registers) : Prop where
  value : 256 * s.status.carry.toNat + s.a.toNat = r.a.toNat + byte.toNat + r.status.carry.toNat
  overflow : s.status.overflow = true ↔ ¬ FitsByte (r.signedSum byte)

structure HasDifference (s : Registers) : Prop where
  value : (s.a.toNat : ℤ) = (r.a.toNat - byte.toNat - (1 - r.status.carry.toNat)) % 256
  carry : s.status.carry = false
  overflow : s.status.overflow = true ↔ ¬ FitsByte (r.signedDifference byte)

end Registers

/-- The index registers, the stack pointer, the flags that are not arithmetic and the memory are
the same before and after. -/
structure Cpu.SameBesideSum (c d : Cpu) : Prop where
  x : d.x = c.x
  y : d.y = c.y
  sp : d.sp = c.sp
  interruptDisable : d.status.interruptDisable = c.status.interruptDisable
  decimal : d.status.decimal = c.status.decimal
  brk : d.status.brk = c.status.brk
  memory : d.memory = c.memory

theorem sign_eq_iff (a b : UInt8) : sign a = sign b ↔ (128 ≤ a.toNat ↔ 128 ≤ b.toNat) := by
  rw [sign, sign, decide_eq_decide]

theorem toInt_toInt8 (byte : UInt8) :
    byte.toInt8.toInt = if 128 ≤ byte.toNat then (byte.toNat : ℤ) - 256 else byte.toNat := by
  have hvalue : byte.toInt8.toInt = byte.toBitVec.toInt := rfl
  rw [hvalue, BitVec.toInt_eq_toNat_cond, UInt8.toNat_toBitVec]
  split <;> split <;> omega

namespace Registers
variable (r : Registers) (byte : UInt8)

theorem add_value : 256 * (r.add byte).status.carry.toNat + (r.add byte).a.toNat =
    r.a.toNat + byte.toNat + r.status.carry.toNat := by
  have ha := r.a.toNat_lt
  have hbyte := byte.toNat_lt
  have hcarry := Bool.toNat_le r.status.carry
  change 256 * (decide (255 < r.a.toNat + byte.toNat + r.status.carry.toNat)).toNat +
    (UInt8.ofNat (r.a.toNat + byte.toNat + r.status.carry.toNat)).toNat = _
  rw [UInt8.toNat_ofNat']
  by_cases h : 255 < r.a.toNat + byte.toNat + r.status.carry.toNat
  · rw [decide_eq_true h, Bool.toNat_true]
    omega
  · rw [decide_eq_false h, Bool.toNat_false]
    omega

theorem overflow_add : (r.add byte).status.overflow = true ↔
    sign r.a = sign byte ∧ sign (r.add byte).a ≠ sign r.a := by
  change (sign r.a == sign byte && sign (r.add byte).a != sign r.a) = true ↔ _
  rw [Bool.and_eq_true, beq_iff_eq, bne_iff_ne]

/-- Overflow as the two's complement decides it. -/
theorem overflow_add_iff : (r.add byte).status.overflow = true ↔ ¬ FitsByte (r.signedSum byte) := by
  have ha := r.a.toNat_lt
  have hbyte := byte.toNat_lt
  have hresult := (r.add byte).a.toNat_lt
  have hcarry := Bool.toNat_le r.status.carry
  have hvalue := r.add_value byte
  rw [overflow_add, sign_eq_iff, ne_eq, sign_eq_iff, FitsByte, signedSum, toInt_toInt8, toInt_toInt8]
  split <;> split <;> omega

theorem toNat_a_subtract : ((r.subtract byte).a.toNat : ℤ) =
    (r.a.toNat - byte.toNat - (1 - r.status.carry.toNat)) % 256 :=
  toNat_ofInt _

theorem carry_subtract : (r.subtract byte).status.carry = false := by
  have ha := r.a.toNat_lt
  have hcarry := Bool.toNat_le r.status.carry
  apply decide_eq_false
  omega

theorem overflow_subtract : (r.subtract byte).status.overflow = true ↔
    sign r.a ≠ sign byte ∧ sign (r.subtract byte).a ≠ sign r.a := by
  change (sign r.a != sign byte && sign (r.subtract byte).a != sign r.a) = true ↔ _
  rw [Bool.and_eq_true, bne_iff_ne, bne_iff_ne]

theorem overflow_subtract_iff : (r.subtract byte).status.overflow = true ↔
    ¬ FitsByte (r.signedDifference byte) := by
  have ha := r.a.toNat_lt
  have hbyte := byte.toNat_lt
  have hcarry := Bool.toNat_le r.status.carry
  have hvalue := r.toNat_a_subtract byte
  rw [overflow_subtract, ne_eq, sign_eq_iff, ne_eq, sign_eq_iff, FitsByte, signedDifference,
    toInt_toInt8, toInt_toInt8]
  split <;> split <;> omega

end Registers

namespace Cpu
variable {c : Cpu} {opcode : Opcode}

theorem hasSum_next (h : decode c.opcodeByte = some opcode) (ho : opcode.operation = .adc) :
    ∃ byte, c.operand? opcode.mode = some byte ∧ c.toRegisters.HasSum byte c.next.toRegisters := by
  obtain ⟨byte,hbyte,hregisters,-⟩ := next_of_read h (congrArg Operation.action ho)
  refine ⟨byte,hbyte,?_⟩
  rw [hregisters]
  let r := c.toRegisters.skip opcode.size
  exact ⟨r.add_value byte,r.overflow_add_iff byte⟩

theorem hasDifference_next (h : decode c.opcodeByte = some opcode) (ho : opcode.operation = .sbc) :
    ∃ byte, c.operand? opcode.mode = some byte ∧
      c.toRegisters.HasDifference byte c.next.toRegisters := by
  obtain ⟨byte,hbyte,hregisters,-⟩ := next_of_read h (congrArg Operation.action ho)
  refine ⟨byte,hbyte,?_⟩
  rw [hregisters]
  let r := c.toRegisters.skip opcode.size
  exact ⟨r.toNat_a_subtract byte,r.carry_subtract byte,r.overflow_subtract_iff byte⟩

theorem sameBesideSum_next (h : decode c.opcodeByte = some opcode)
    (ho : opcode.operation = .adc ∨ opcode.operation = .sbc) : c.SameBesideSum c.next := by
  have hsame : ∀ part ∉ [Part.flag .carry, .flag .overflow, .a, .flag .zero, .flag .negative],
      part.Same c.toRegisters c.next.toRegisters := by
    intro part hpart
    apply same_next h
    rcases ho with ho | ho
    all_goals
      rw [ho]
      exact hpart
  have hmemory : c.next.memory = c.memory := by
    rcases ho with ho | ho
    all_goals
      obtain ⟨byte,-,-,hmemory⟩ := next_of_read h (congrArg Operation.action ho)
      exact hmemory
  exact ⟨hsame .x (by decide),hsame .y (by decide),hsame .sp (by decide),
    hsame (.flag .interruptDisable) (by decide),hsame (.flag .decimal) (by decide),
    hsame (.flag .brk) (by decide),hmemory⟩

/-- An addition leaves the exact sum in carry and accumulator, a subtraction the difference modulo
256 and no carry, and overflow tells whether the result has a place in two's complement: in each
addressing mode, in decimal mode as well, and with nothing else changed. -/
theorem sums_exact (h : (c.memory.read c.pc, opcode) ∈ Opcode.documented)
    (ho : opcode.operation = .adc ∨ opcode.operation = .sbc) :
    (∃ elapsed, c.execute = (c.next, .ok elapsed)) ∧
    (∃ byte, c.operand? opcode.mode = some byte ∧
      (opcode.operation = .adc → c.toRegisters.HasSum byte c.next.toRegisters) ∧
      (opcode.operation = .sbc → c.toRegisters.HasDifference byte c.next.toRegisters)) ∧
    c.next.status.Shows c.next.a ∧ c.SameBesideSum c.next := by
  have hdecode : decode c.opcodeByte = some opcode := Opcode.lookup_of_mem_documented _ h
  refine ⟨exists_execute_next hdecode,?_,?_,sameBesideSum_next hdecode ho⟩
  · rcases ho with ho | ho
    · obtain ⟨byte,hbyte,hsum⟩ := hasSum_next hdecode ho
      exact ⟨byte,hbyte,fun _ => hsum,fun hother => by simp [ho] at hother⟩
    · obtain ⟨byte,hbyte,hdifference⟩ := hasDifference_next hdecode ho
      exact ⟨byte,hbyte,fun hother => by simp [ho] at hother,fun _ => hdifference⟩
  · have htarget : opcode.operation.target? opcode.mode = some .a := by
      rcases ho with ho | ho <;> rw [ho] <;> rfl
    obtain ⟨byte,hbyte,hshows⟩ := shows_next hdecode htarget
    rwa [Option.some_inj.mp hbyte]

theorem sums_exact_decimal : ∃ c : Cpu, c.status.decimal = true ∧ c.a = 0x7F ∧
    c.status.carry = true ∧ (c.memory.read c.pc, ⟨.adc,.zeroPageX,4⟩) ∈ Opcode.documented ∧
    c.operand? .zeroPageX = some 0x01 ∧ c.next.a.toNat = 129 ∧ c.next.status.carry = false ∧
    c.next.status.overflow = true ∧ c.next.status.negative = true ∧ c.next.x = c.x := by
  let m := ((Memory.zero.write 0x600 0x75).write 0x601 0xFF).write 0x0003 0x01
  let s : Status := ⟨true,false,false,true,false,false,false,0x29⟩
  let c : Cpu := ⟨⟨0x7F,0x04,0,0x600,stackTop,s⟩,m,0,0,0⟩
  have hread : m.read 0x600 = 0x75 ∧ m.read 0x601 = 0xFF ∧ m.read 0x0003 = 0x01 := by
    simp [m, Memory.read_write]
  obtain ⟨hcode,hlow,hcell⟩ := hread
  have hdocumented : (c.memory.read c.pc, ⟨.adc,.zeroPageX,4⟩) ∈ Opcode.documented := by
    rw [show c.memory.read c.pc = 0x75 from hcode]
    exact mem_documented_of_decode rfl
  have hoperand : c.operand? .zeroPageX = some 0x01 := by
    have hbehind : c.operandLow = 0xFF := congrArg UInt8.toNat hlow
    have hplace : UInt16.ofNat ((0xFF + c.x.toNat) % 256) = 0x0003 := by decide
    simp only [operand?, cell?, Option.map_some, hbehind, hplace]
    exact congrArg some hcell
  obtain ⟨-,⟨byte,hbyte,hadc,-⟩,hshows,hsame⟩ := sums_exact hdocumented (.inl rfl)
  obtain rfl : 0x01 = byte := Option.some_inj.mp (hoperand.symm.trans hbyte)
  obtain ⟨hvalue,hoverflow⟩ := hadc rfl
  have hwide : ¬ FitsByte (c.signedSum 0x01) := by decide
  have hold : c.a.toNat + (0x01 : UInt8).toNat + c.status.carry.toNat = 129 := by decide
  have hlt := c.next.a.toNat_lt
  have hcarry : c.next.status.carry = false := by
    cases hnew : c.next.status.carry with
    | false => rfl
    | true =>
      rw [hold, hnew, Bool.toNat_true] at hvalue
      omega
  have ha : c.next.a.toNat = 129 := by
    rw [hold, hcarry, Bool.toNat_false] at hvalue
    omega
  have hnegative := hshows.negative
  rw [ha] at hnegative
  exact ⟨c,rfl,rfl,rfl,hdocumented,hoperand,ha,hcarry,hoverflow.mpr hwide,hnegative,hsame.x⟩

end Cpu
end Nmos6502
