import Nmos6502.Proofs.BranchSteps
import Nmos6502.Proofs.RegisterFrame

/-! # Comparisons and the branches behind them

A comparison leaves the order of two bytes in the flags: the carry tells that nothing had to be
borrowed, zero that the bytes are equal, negative the top bit of their difference. So a branch that
follows decides the order of the bytes as numbers without a sign, except for the branches on
negative, which decide that bit, and those on overflow, which the comparison leaves alone.
-/
namespace Nmos6502

def Operation.compared? (r : Registers) : Operation → Option UInt8
  | .cmp => some r.a
  | .cpx => some r.x
  | .cpy => some r.y
  | _ => none

def difference (register byte : UInt8) : ℕ := (((register.toNat : ℤ) - byte.toNat) % 256).toNat

/-- What a branch decides when it follows a comparison of a register with a byte. -/
def Operation.Decides (register byte : UInt8) (overflow : Bool) : Operation → Prop
  | .bcs => byte.toNat ≤ register.toNat
  | .bcc => register.toNat < byte.toNat
  | .beq => register = byte
  | .bne => register ≠ byte
  | .bmi => (difference register byte).testBit 7 = true
  | .bpl => (difference register byte).testBit 7 = false
  | .bvs => overflow = true
  | .bvc => overflow = false
  | _ => False

namespace Registers
variable (r : Registers) (register byte : UInt8)

theorem carry_compare : (r.compare register byte).status.carry = true ↔
    byte.toNat ≤ register.toNat := by
  change decide (byte ≤ register) = true ↔ _
  rw [decide_eq_true_eq, UInt8.le_iff_toNat_le]

theorem zero_compare : (r.compare register byte).status.zero = true ↔ register = byte := by
  change (register - byte == 0) = true ↔ _
  rw [beq_iff_eq, UInt8.sub_eq_iff_eq_add, UInt8.zero_add]

theorem negative_compare :
    (r.compare register byte).status.negative = (difference register byte).testBit 7 := by
  have hregister := register.toNat_lt
  have hbyte := byte.toNat_lt
  have hdifference : (register - byte).toNat = difference register byte := by
    rw [difference, UInt8.toNat_sub]
    omega
  rw [← hdifference]
  exact sign_eq_testBit _

theorem overflow_compare : (r.compare register byte).status.overflow = r.status.overflow := rfl

theorem condition_compare {branch : Operation} (hb : branch.isBranch = true) :
    branch.condition (r.compare register byte).status = true ↔
      branch.Decides register byte r.status.overflow := by
  have hcarry := r.carry_compare register byte
  have hzero := r.zero_compare register byte
  have hnegative := r.negative_compare register byte
  cases branch with
  | bcs => exact hcarry
  | beq => exact hzero
  | bmi => rw [Operation.condition, Operation.Decides, hnegative]
  | bvs => exact Iff.rfl
  | bcc =>
    rw [Operation.condition, Operation.Decides, Bool.not_eq_true', ← Bool.not_eq_true, hcarry]
    exact Nat.not_le
  | bne =>
    rw [Operation.condition, Operation.Decides, Bool.not_eq_true', ← Bool.not_eq_true, hzero]
  | bpl =>
    rw [Operation.condition, Operation.Decides, Bool.not_eq_true', hnegative]
  | bvc =>
    rw [Operation.condition, Operation.Decides, Bool.not_eq_true', overflow_compare]
  | _ => cases hb

end Registers

namespace Cpu
variable {c : Cpu} {opcode branch : Opcode}

/-- The comparison at the program counter succeeds and changes nothing but the program counter,
which goes on behind the operand, and the flags for carry, zero and negative. -/
structure ComparesOnly (c : Cpu) (opcode : Opcode) : Prop where
  succeeds : ∃ elapsed, c.execute = (c.next, .ok elapsed)
  pc : c.next.pc = c.pc + UInt16.ofNat opcode.size
  a : c.next.a = c.a
  rest : c.SameBesideResult c.next
  packed : c.next.status.Packed
  memory : c.next.memory = c.memory

theorem action_of_compared? {operation : Operation} {r : Registers} {register : UInt8}
    (h : operation.compared? r = some register) :
    ∃ result, operation.action = .read result ∧
      ∀ s byte, s.a = r.a → s.x = r.x → s.y = r.y → result s byte = s.compare register byte := by
  cases operation with
  | cmp =>
    cases h
    exact ⟨_,rfl,fun s byte ha _ _ => by rw [ha]⟩
  | cpx =>
    cases h
    exact ⟨_,rfl,fun s byte _ hx _ => by rw [hx]⟩
  | cpy =>
    cases h
    exact ⟨_,rfl,fun s byte _ _ hy => by rw [hy]⟩
  | _ => cases h

theorem next_of_comparison (h : decode c.opcodeByte = some opcode) {register : UInt8}
    (hr : opcode.operation.compared? c.toRegisters = some register) :
    ∃ byte, c.operand? opcode.mode = some byte ∧
      c.next.toRegisters = (c.toRegisters.skip opcode.size).compare register byte ∧
      c.next.memory = c.memory := by
  obtain ⟨result,haction,hresult⟩ := action_of_compared? hr
  obtain ⟨byte,hbyte,hregisters,hmemory⟩ := next_of_read h haction
  exact ⟨byte,hbyte,hregisters.trans (hresult _ byte rfl rfl rfl),hmemory⟩

theorem comparesOnly_next (h : decode c.opcodeByte = some opcode) {register : UInt8}
    (hr : opcode.operation.compared? c.toRegisters = some register) : c.ComparesOnly opcode := by
  obtain ⟨byte,-,hregisters,hmemory⟩ := next_of_comparison h hr
  have hchanges : opcode.operation.changes opcode.mode ⊆
      [.a, .flag .carry, .flag .zero, .flag .negative] := by
    cases ho : opcode.operation with
    | cmp | cpx | cpy => exact List.subset_cons_self ..
    | _ =>
      rw [ho] at hr
      cases hr
  have ha : c.next.a = c.a := (congrArg Registers.a hregisters).trans rfl
  have hpacked : c.next.status.Packed := by
    rw [hregisters]
    exact Status.packed_withResult ..
  exact ⟨exists_execute_next h,congrArg Registers.pc hregisters,ha,
    sameBesideResult_next h hchanges,hpacked,hmemory⟩

/-- A branch that follows a comparison is taken exactly if the bytes are in the order that it
decides, in every addressing mode and anywhere in memory; otherwise the program goes on behind it.
The comparison itself changes nothing but the program counter and three flags. -/
theorem comparison_then_branch (h : (c.memory.read c.pc, opcode) ∈ Opcode.documented)
    {register : UInt8} (hr : opcode.operation.compared? c.toRegisters = some register)
    (hbranch : (c.memory.read (c.pc + UInt16.ofNat opcode.size), branch) ∈ Opcode.documented)
    (hb : branch.operation.isBranch = true) :
    c.ComparesOnly opcode ∧ ∃ byte, c.operand? opcode.mode = some byte ∧
      (c.next.Branches ↔ branch.operation.Decides register byte c.status.overflow) ∧
      (c.next.GoesOn ↔ ¬ branch.operation.Decides register byte c.status.overflow) := by
  have hdecode : decode c.opcodeByte = some opcode := Opcode.lookup_of_mem_documented _ h
  have honly := comparesOnly_next hdecode hr
  obtain ⟨byte,hbyte,hregisters,hmemory⟩ := next_of_comparison hdecode hr
  have hfollows : decode c.next.opcodeByte = some branch := by
    rw [opcodeByte, hmemory, honly.pc]
    exact Opcode.lookup_of_mem_documented _ hbranch
  have htaken : c.next.Branches ↔
      branch.operation.Decides register byte c.status.overflow := by
    rw [branches_iff hfollows hb, hregisters, Registers.condition_compare _ _ _ hb]
    rfl
  refine ⟨honly,byte,hbyte,htaken,?_⟩
  rw [goesOn_iff hfollows hb, htaken]

theorem comparison_then_branch_wrapped : ∃ c : Cpu, c.pc = 0xFFFD ∧ c.x = 0x80 ∧
    (c.memory.read c.pc, ⟨.cpx,.immediate,2⟩) ∈ Opcode.documented ∧
    c.operand? .immediate = some 0x01 ∧
    (c.memory.read (c.pc + 2), ⟨.bpl,.relative,2⟩) ∈ Opcode.documented ∧
    c.next.next.pc.toNat = 6 ∧ c.next.execute = (c.next.next, .ok 3) ∧ c.next.x = c.x := by
  let s : Status := ⟨true,false,false,false,false,false,true,0xA1⟩
  obtain ⟨c,hpc,hx,hheld⟩ : ∃ c : Cpu, c.pc = 0xFFFD ∧ c.x = 0x80 ∧
      c.memory.Holds c.pc [0xE0, 0x01, 0x10, 0x05] :=
    ⟨⟨⟨0,0x80,0,0xFFFD,stackTop,s⟩,Memory.zero.writeBytes 0xFFFD [0xE0, 0x01, 0x10, 0x05],0,0,0⟩,
      rfl,rfl,Memory.holds_writeBytes (by decide)⟩
  simp only [Memory.holds_cons, hpc] at hheld
  obtain ⟨hcode,hbyte,hbranch,hoffset,-⟩ := hheld
  have hcpx : (c.memory.read c.pc, ⟨.cpx,.immediate,2⟩) ∈ Opcode.documented := by
    rw [hpc, hcode]
    exact mem_documented_of_decode rfl
  have hbpl : (c.memory.read (c.pc + 2), ⟨.bpl,.relative,2⟩) ∈ Opcode.documented := by
    rw [hpc]
    exact hbranch ▸ mem_documented_of_decode rfl
  have hoperand : c.operand? .immediate = some 0x01 := by
    rw [operand?, hpc]
    exact congrArg some hbyte
  obtain ⟨honly,byte,hfound,htaken,-⟩ := comparison_then_branch hcpx rfl hbpl rfl
  obtain rfl : 0x01 = byte := Option.some_inj.mp (hoperand.symm.trans hfound)
  rw [hx] at htaken
  obtain ⟨hgoal,hexecute⟩ := htaken.mpr rfl
  have hnext : c.next.pc = 0xFFFF := by
    rw [honly.pc, hpc]
    rfl
  have hlow : c.next.operandLow = 5 := by
    rw [operandLow, honly.memory, hnext]
    exact congrArg UInt8.toNat hoffset
  have hbehind : c.next.behind = 1 := by
    rw [behind, hnext]
    rfl
  rw [branchGoal, hlow, hbehind, if_pos (by decide)] at hgoal
  have hend : c.next.next.pc.toNat = 6 := by omega
  rw [hbehind, hend] at hexecute
  exact ⟨c,hpc,hx,hcpx,hoperand,hbpl,hend,hexecute,honly.rest.x⟩

end Cpu
end Nmos6502
