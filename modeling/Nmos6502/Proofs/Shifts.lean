import Nmos6502.Proofs.CycleBudget
import Nmos6502.Proofs.RegisterFrame

/-! # Shifts and rotations

A shift moves the bits of a byte by one place and the last of them into the carry, a rotation
takes the old carry in at the other end. Byte and carry of a rotation are a ring of nine bits:
one to the left and one to the right undo each other, and nine to the same side lead around the
ring. So the accumulator and the carry come back after as many rotations to the right as to the
left, and after nine to the left.
-/
namespace Nmos6502

namespace Changed

/-- Byte and carry as a number of nine bits, the carry on top. -/
def value (v : Changed) : ℕ := v.byte.toNat + 256 * v.carry.toNat

/-- Each bit moves one place up, the carry into bit 0. -/
def turnLeft (v : Changed) : Changed := rotateLeft v.byte v.carry

def turnRight (v : Changed) : Changed := rotateRight v.byte v.carry

end Changed

/-- What a shift or a rotation makes of a byte and the carry. -/
def Operation.ShiftsTo (before after : Changed) : Operation → Prop
  | .asl => 256 * after.carry.toNat + after.byte.toNat = 2 * before.byte.toNat
  | .rol => 256 * after.carry.toNat + after.byte.toNat =
      2 * before.byte.toNat + before.carry.toNat
  | .lsr => 2 * after.byte.toNat + after.carry.toNat = before.byte.toNat
  | .ror => 2 * after.byte.toNat + after.carry.toNat =
      before.byte.toNat + 256 * before.carry.toNat
  | _ => False

theorem toNat_carryByte (carry : Bool) : (carryByte carry).toNat = carry.toNat := by
  cases carry <;> rfl

theorem toNat_bool_injective : Function.Injective Bool.toNat := by decide

namespace Changed

theorem value_injective {v w : Changed} (h : v.value = w.value) : v = w := by
  obtain ⟨byte,carry⟩ := v
  obtain ⟨byte',carry'⟩ := w
  have hbyte := byte.toNat_lt
  have hbyte' := byte'.toNat_lt
  simp only [value] at h
  have hsame : byte = byte' := UInt8.toNat_inj.mp (by omega)
  have htop : carry = carry' := toNat_bool_injective (by omega)
  rw [hsame, htop]

theorem value_lt (v : Changed) : v.value < 2 ^ 9 := by
  have hbyte := v.byte.toNat_lt
  have hcarry := Bool.toNat_le v.carry
  unfold value
  omega

variable (byte : UInt8) (carry : Bool)

theorem toNat_carry_rotateLeft : (rotateLeft byte carry).carry.toNat = byte.toNat / 128 := by
  have hbyte := byte.toNat_lt
  have hmask : (0x80 : UInt8).toNat = 2 ^ 7 := rfl
  rw [rotateLeft, and_mask_ne_zero byte hmask, Nat.toNat_testBit]
  omega

theorem toNat_byte_rotateLeft :
    (rotateLeft byte carry).byte.toNat = 2 * (byte.toNat % 128) + carry.toNat := by
  have hcarry : carry.toNat < 2 ^ 1 := Nat.lt_succ_of_le (Bool.toNat_le carry)
  have hlow : byte.toNat <<< 1 % 2 ^ 8 = 2 ^ 1 * (byte.toNat % 128) := by
    rw [Nat.shiftLeft_eq]
    omega
  rw [rotateLeft, UInt8.toNat_or, UInt8.toNat_shiftLeft, toNat_carryByte]
  change byte.toNat <<< 1 % 2 ^ 8 ||| carry.toNat = _
  rw [hlow, ← Nat.two_pow_add_eq_or_of_lt hcarry]

theorem toNat_carry_rotateRight : (rotateRight byte carry).carry.toNat = byte.toNat % 2 := by
  have hmask : (1 : UInt8).toNat = 2 ^ 0 := rfl
  rw [rotateRight, and_mask_ne_zero byte hmask, Nat.toNat_testBit, Nat.pow_zero, Nat.div_one]

theorem toNat_byte_rotateRight :
    (rotateRight byte carry).byte.toNat = 128 * carry.toNat + byte.toNat / 2 := by
  have hbyte := byte.toNat_lt
  have hcarry := Bool.toNat_le carry
  have hlow : byte.toNat / 2 < 2 ^ 7 := by omega
  have hhigh : carry.toNat <<< 7 % 2 ^ 8 = 2 ^ 7 * carry.toNat := by
    rw [Nat.shiftLeft_eq]
    omega
  rw [rotateRight, UInt8.toNat_or, UInt8.toNat_shiftRight, UInt8.toNat_shiftLeft, toNat_carryByte]
  change byte.toNat >>> 1 ||| carry.toNat <<< 7 % 2 ^ 8 = _
  rw [hhigh, Nat.shiftRight_eq_div_pow, Nat.or_comm, ← Nat.two_pow_add_eq_or_of_lt hlow]

theorem shiftLeft_eq : shiftLeft byte carry = rotateLeft byte false := by
  simp [shiftLeft, rotateLeft, carryByte]

theorem shiftRight_eq : shiftRight byte carry = rotateRight byte false := by
  simp [shiftRight, rotateRight, carryByte]

theorem rotateLeft_law : 256 * (rotateLeft byte carry).carry.toNat +
    (rotateLeft byte carry).byte.toNat = 2 * byte.toNat + carry.toNat := by
  rw [toNat_carry_rotateLeft, toNat_byte_rotateLeft]
  omega

theorem rotateRight_law : 2 * (rotateRight byte carry).byte.toNat +
    (rotateRight byte carry).carry.toNat = byte.toNat + 256 * carry.toNat := by
  rw [toNat_carry_rotateRight, toNat_byte_rotateRight]
  omega

theorem value_turnLeft (v : Changed) :
    v.turnLeft.value = 2 * v.byte.toNat + v.carry.toNat := by
  have hlaw := rotateLeft_law v.byte v.carry
  rw [value, turnLeft]
  omega

theorem turnRight_turnLeft : Function.LeftInverse turnRight turnLeft := by
  intro v
  have hleft := v.value_turnLeft
  have hright := rotateRight_law v.turnLeft.byte v.turnLeft.carry
  have hcarry := Bool.toNat_le v.carry
  have hcarry' := Bool.toNat_le v.turnLeft.turnRight.carry
  apply value_injective
  simp only [value, turnRight] at *
  omega

theorem testBit_turnLeft (v : Changed) {i : ℕ} (hi : i < 9) :
    v.turnLeft.value.testBit ((i + 1) % 9) = v.value.testBit i := by
  have hbyte := v.byte.toNat_lt
  have hcarry := Bool.toNat_le v.carry
  have hvalue : v.value = 2 ^ 8 * v.carry.toNat + v.byte.toNat := Nat.add_comm _ _
  rw [value_turnLeft, hvalue, Nat.testBit_two_pow_mul_add _ hbyte]
  rcases Nat.lt_succ_iff_lt_or_eq.mp hi with hlt | rfl
  · have hhalf : (2 * v.byte.toNat + v.carry.toNat) / 2 = v.byte.toNat := by omega
    rw [if_pos hlt, Nat.mod_eq_of_lt (by omega), Nat.testBit_add_one, hhalf]
  · rw [if_neg (by omega), Nat.testBit_zero, Nat.testBit_zero, decide_eq_decide]
    omega

theorem testBit_iterate_turnLeft (v : Changed) {i : ℕ} (hi : i < 9) (k : ℕ) :
    (turnLeft^[k] v).value.testBit ((i + k) % 9) = v.value.testBit i := by
  induction k with
  | zero => rw [Function.iterate_zero_apply, Nat.add_zero, Nat.mod_eq_of_lt hi]
  | succ k ih =>
    have hplace : (i + (k + 1)) % 9 = ((i + k) % 9 + 1) % 9 := by omega
    rw [Function.iterate_succ_apply', hplace, testBit_turnLeft _ (Nat.mod_lt _ (by decide)), ih]

theorem iterate_turnLeft_nine (v : Changed) : turnLeft^[9] v = v := by
  apply value_injective
  apply Nat.eq_of_testBit_eq
  intro i
  by_cases hi : i < 9
  · have hbit := v.testBit_iterate_turnLeft hi 9
    rwa [Nat.add_mod_right, Nat.mod_eq_of_lt hi] at hbit
  · have hnone : ∀ w : Changed, w.value.testBit i = false := by
      intro w
      apply Nat.testBit_lt_two_pow
      exact w.value_lt.trans_le (Nat.pow_le_pow_right (by decide) (not_lt.mp hi))
    rw [hnone, hnone]

end Changed

namespace Cpu
variable {c : Cpu} {opcode : Opcode}

/-- An instruction shifts the byte `old`, in the accumulator or in a cell, into `new`, and leaves
everything else alone. -/
structure Shifts (c : Cpu) (opcode : Opcode) (old new : UInt8) : Prop where
  succeeds : ∃ elapsed, c.execute = (c.next, .ok elapsed)
  operand : c.operand? opcode.mode = some old
  law : opcode.operation.ShiftsTo ⟨old,c.status.carry⟩ ⟨new,c.next.status.carry⟩
  shows : c.next.status.Shows new
  accumulator : opcode.mode = .accumulator → c.next.a = new ∧ c.next.memory = c.memory
  cell : opcode.mode ≠ .accumulator → ∃ cell, c.cell? opcode.mode = some cell ∧
    c.next.memory = c.memory.write (UInt16.ofNat cell) new ∧ c.next.a = c.a
  rest : c.SameBesideResult c.next
  packed : c.next.status.Packed

/-- The accumulator and the carry. -/
def ring (c : Cpu) : Changed := ⟨c.a,c.status.carry⟩

/-- The next `k` instructions are carried out one behind the other. Each of them makes the same
change to the accumulator and the carry, and none touches the memory. -/
structure Turns (c : Cpu) (f : Changed → Changed) (k : ℕ) : Prop where
  succeeds : c.Succeeds k
  ring : (next^[k] c).ring = f^[k] c.ring
  pc : (next^[k] c).pc = c.pc + UInt16.ofNat k
  memory : (next^[k] c).memory = c.memory

theorem changes_of_shift (ho : opcode.operation ∈ [.asl, .lsr, .rol, .ror]) :
    opcode.operation.changes opcode.mode ⊆ [.a, .flag .carry, .flag .zero, .flag .negative] := by
  simp only [List.mem_cons, List.not_mem_nil, or_false] at ho
  rcases ho with ho | ho | ho | ho
  all_goals
    rw [ho]
    cases opcode.mode <;> decide

theorem exists_change_of_shift {operation : Operation}
    (ho : operation ∈ [.asl, .lsr, .rol, .ror]) :
    ∃ change, operation.action = .modify change ∧
      ∀ byte carry, operation.ShiftsTo ⟨byte,carry⟩ (change byte carry) := by
  simp only [List.mem_cons, List.not_mem_nil, or_false] at ho
  rcases ho with rfl | rfl | rfl | rfl
  · refine ⟨_,rfl,fun byte carry => ?_⟩
    rw [Changed.shiftLeft_eq]
    exact Changed.rotateLeft_law byte false
  · refine ⟨_,rfl,fun byte carry => ?_⟩
    rw [Changed.shiftRight_eq]
    exact Changed.rotateRight_law byte false
  · exact ⟨_,rfl,Changed.rotateLeft_law⟩
  · exact ⟨_,rfl,Changed.rotateRight_law⟩

theorem shifts_next (h : decode c.opcodeByte = some opcode)
    (ho : opcode.operation ∈ [.asl, .lsr, .rol, .ror]) : ∃ old new, c.Shifts opcode old new := by
  obtain ⟨change,haction,hlaw⟩ := exists_change_of_shift ho
  obtain ⟨old,hoperand,hnext⟩ := next_of_modify h haction
  have hstatus : c.next.status = (c.status.set .carry (change old c.status.carry).carry).withResult
      (change old c.status.carry).byte := by
    rcases hnext with ⟨-,hregisters,-⟩ | ⟨cell,-,-,hregisters,-⟩ <;>
      exact congrArg Registers.status hregisters
  have hcarry : c.next.status.carry = (change old c.status.carry).carry :=
    congrArg Status.carry hstatus
  refine ⟨old,(change old c.status.carry).byte,?_⟩
  constructor
  case succeeds => exact exists_execute_next h
  case operand => exact hoperand
  case law => exact hcarry ▸ hlaw old c.status.carry
  case shows => exact hstatus ▸ Status.shows_withResult ..
  case rest => exact sameBesideResult_next h (changes_of_shift ho)
  case packed => exact hstatus ▸ Status.packed_withResult ..
  case accumulator =>
    intro hmode
    rcases hnext with ⟨-,hregisters,hmemory⟩ | ⟨cell,hcell,-⟩
    · exact ⟨congrArg Registers.a hregisters,hmemory⟩
    · rw [hmode] at hcell
      cases hcell
  case cell =>
    intro hmode
    rcases hnext with ⟨haccumulator,-⟩ | ⟨cell,hcell,-,hregisters,hmemory⟩
    · exact absurd haccumulator hmode
    · exact ⟨cell,hcell,hmemory,(congrArg Registers.a hregisters).trans rfl⟩

theorem next_of_turn {f : Changed → Changed} (hd : decode c.opcodeByte = some opcode)
    (hm : opcode.mode = .accumulator)
    (ha : opcode.operation.action = .modify fun byte carry => f ⟨byte,carry⟩) :
    c.next.ring = f c.ring ∧ c.next.pc = c.pc + 1 ∧ c.next.memory = c.memory := by
  obtain ⟨byte,hbyte,hnext⟩ := next_of_modify hd ha
  rw [hm] at hbyte
  cases hbyte
  rcases hnext with ⟨-,hregisters,hmemory⟩ | ⟨cell,hcell,-⟩
  · have hsize : opcode.size = 1 := by rw [Opcode.size, hm]; rfl
    rw [hsize] at hregisters
    have hbyte : c.next.a = (f c.ring).byte := congrArg Registers.a hregisters
    have hcarry : c.next.status.carry = (f c.ring).carry := congrArg (·.status.carry) hregisters
    refine ⟨?_,congrArg Registers.pc hregisters,hmemory⟩
    rw [ring, hbyte, hcarry]
  · rw [hm] at hcell
    cases hcell

theorem turns_of_holds {code : UInt8} {f : Changed → Changed} (hd : decode code = some opcode)
    (hm : opcode.mode = .accumulator)
    (ha : opcode.operation.action = .modify fun byte carry => f ⟨byte,carry⟩) {k : ℕ}
    (h : c.memory.Holds c.pc (List.replicate k code)) : c.Turns f k := by
  induction k generalizing c with
  | zero => exact ⟨c.succeeds_zero,rfl,(UInt16.add_zero c.pc).symm,rfl⟩
  | succ k ih =>
    rw [List.replicate_succ, Memory.holds_cons] at h
    obtain ⟨hcode,hrest⟩ := h
    have hdecode : decode c.opcodeByte = some opcode := by rw [opcodeByte, hcode, hd]
    obtain ⟨elapsed,hexecute⟩ := exists_execute_next hdecode
    obtain ⟨hring,hpc,hmemory⟩ := next_of_turn hdecode hm ha
    rw [← hmemory, ← hpc] at hrest
    have hturns := ih hrest
    constructor
    case succeeds => exact succeeds_succ (by rw [hexecute]) hturns.succeeds
    case ring => rw [Function.iterate_succ_apply, hturns.ring, hring, Function.iterate_succ_apply]
    case pc =>
      rw [Function.iterate_succ_apply, hturns.pc, hpc, UInt16.add_assoc, Nat.add_comm k,
        UInt16.ofNat_add]
      rfl
    case memory => rw [Function.iterate_succ_apply, hturns.memory, hmemory]

theorem turnsLeft_of_holds {k : ℕ} (h : c.memory.Holds c.pc (List.replicate k 0x2A)) :
    c.Turns Changed.turnLeft k := by
  have hrol : decode 0x2A = some ⟨.rol,.accumulator,2⟩ := rfl
  exact turns_of_holds hrol rfl rfl h

theorem turnsRight_of_holds {k : ℕ} (h : c.memory.Holds c.pc (List.replicate k 0x6A)) :
    c.Turns Changed.turnRight k := by
  have hror : decode 0x6A = some ⟨.ror,.accumulator,2⟩ := rfl
  exact turns_of_holds hror rfl rfl h

theorem eq_of_ring_eq {d : Cpu} (h : d.ring = c.ring) :
    d.a = c.a ∧ d.status.carry = c.status.carry :=
  ⟨congrArg Changed.byte h,congrArg Changed.carry h⟩

theorem ring_turned_back {k : ℕ}
    (h : c.memory.Holds c.pc (List.replicate k 0x2A ++ List.replicate k 0x6A)) :
    c.Succeeds (2 * k) ∧ (next^[2 * k] c).ring = c.ring := by
  rw [Memory.holds_append, List.length_replicate] at h
  have hleft := turnsLeft_of_holds h.1
  have hheld : (next^[k] c).memory.Holds (next^[k] c).pc (List.replicate k 0x6A) := by
    rw [hleft.memory, hleft.pc]
    exact h.2
  have hright := turnsRight_of_holds hheld
  rw [Nat.two_mul]
  refine ⟨hleft.succeeds.add hright.succeeds,?_⟩
  rw [Function.iterate_add_apply, hright.ring, hleft.ring]
  exact Changed.turnRight_turnLeft.iterate k c.ring

theorem ring_turned_around (h : c.memory.Holds c.pc (List.replicate 9 0x2A)) :
    c.Succeeds 9 ∧ (next^[9] c).ring = c.ring := by
  have hturns := turnsLeft_of_holds h
  refine ⟨hturns.succeeds,?_⟩
  rw [hturns.ring, Changed.iterate_turnLeft_nine]

/-- A shift or a rotation, in any mode, obeys its law and changes nothing else. Accumulator and
carry are the same again after `k` rotations to the left and `k` to the right, whatever `k` is,
and after nine to the left. -/
theorem shifts_exact (c : Cpu) :
    (∀ opcode, (c.memory.read c.pc, opcode) ∈ Opcode.documented →
      opcode.operation ∈ [.asl, .lsr, .rol, .ror] → ∃ old new, c.Shifts opcode old new) ∧
    (∀ k, c.memory.Holds c.pc (List.replicate k 0x2A ++ List.replicate k 0x6A) →
      c.Succeeds (2 * k) ∧ (next^[2 * k] c).a = c.a ∧
        (next^[2 * k] c).status.carry = c.status.carry) ∧
    (c.memory.Holds c.pc (List.replicate 9 0x2A) →
      c.Succeeds 9 ∧ (next^[9] c).a = c.a ∧ (next^[9] c).status.carry = c.status.carry) := by
  refine ⟨fun opcode hopcode ho => ?_,fun k hheld => ?_,fun hheld => ?_⟩
  · exact shifts_next (Opcode.lookup_of_mem_documented _ hopcode) ho
  · obtain ⟨hsucceeds,hring⟩ := ring_turned_back hheld
    exact ⟨hsucceeds,eq_of_ring_eq hring⟩
  · obtain ⟨hsucceeds,hring⟩ := ring_turned_around hheld
    exact ⟨hsucceeds,eq_of_ring_eq hring⟩

/-- Two rotations to the left at the end of memory and two to the right at its beginning, the first
of which moves a carry in and another one out, and nine in a row. -/
theorem shifts_exact_around : ∃ c d : Cpu, c.pc = 0xFFFE ∧ c.a = 0xC0 ∧ c.status.carry = true ∧
    c.memory.Holds c.pc (List.replicate 2 0x2A ++ List.replicate 2 0x6A) ∧
    c.next.a.toNat = 129 ∧ c.next.status.carry = true ∧ c.next.status.negative = true ∧
    c.next.x = c.x ∧ (next^[2 * 2] c).a = 0xC0 ∧ (next^[2 * 2] c).status.carry = true ∧
    d.memory.Holds d.pc (List.replicate 9 0x2A) ∧ (next^[9] d).a = d.a := by
  let s : Status := ⟨true,false,false,false,false,false,false,0x21⟩
  obtain ⟨c,hpc,hold,hin,hheld⟩ : ∃ c : Cpu, c.pc = 0xFFFE ∧ c.a = 0xC0 ∧ c.status.carry = true ∧
      c.memory.Holds c.pc (List.replicate 2 0x2A ++ List.replicate 2 0x6A) :=
    ⟨⟨⟨0xC0,0,0,0xFFFE,stackTop,s⟩,Memory.zero.writeBytes 0xFFFE _,0,0,0⟩,rfl,rfl,rfl,
      Memory.holds_writeBytes (by decide)⟩
  obtain ⟨d,hnine⟩ : ∃ d : Cpu, d.memory.Holds d.pc (List.replicate 9 0x2A) :=
    ⟨⟨⟨0,0,0,0x600,stackTop,s⟩,Memory.zero.writeBytes 0x600 _,0,0,0⟩,
      Memory.holds_writeBytes (by decide)⟩
  have hcode : c.memory.read c.pc = 0x2A := (Memory.holds_cons.mp hheld).1
  have hdocumented : (c.memory.read c.pc, ⟨.rol,.accumulator,2⟩) ∈ Opcode.documented := by
    rw [hcode]
    exact mem_documented_of_decode rfl
  obtain ⟨hshift,hback,-⟩ := shifts_exact c
  obtain ⟨old,new,hshifts⟩ := hshift _ hdocumented (by decide)
  obtain rfl : c.a = old := Option.some_inj.mp hshifts.operand
  obtain ⟨hnew,-⟩ := hshifts.accumulator rfl
  have hlaw : 256 * c.next.status.carry.toNat + new.toNat =
      2 * c.a.toNat + c.status.carry.toNat := hshifts.law
  have hbefore : 2 * (0xC0 : UInt8).toNat + true.toNat = 385 := by decide
  rw [hold, hin, hbefore] at hlaw
  have hlt := new.toNat_lt
  have hout : c.next.status.carry = true := by
    cases h : c.next.status.carry with
    | true => rfl
    | false =>
      rw [h, Bool.toNat_false] at hlaw
      omega
  have ha : c.next.a.toNat = 129 := by
    rw [hout, Bool.toNat_true] at hlaw
    rw [hnew]
    omega
  have hnegative := hshifts.shows.negative
  rw [← hnew, ha] at hnegative
  obtain ⟨-,hbyte,hcarry⟩ := hback 2 hheld
  obtain ⟨-,haround,-⟩ := (shifts_exact d).2.2 hnine
  exact ⟨c,d,hpc,hold,hin,hheld,ha,hout,hnegative,hshifts.rest.x,hbyte.trans hold,
    hcarry.trans hin,hnine,haround⟩

end Cpu
end Nmos6502
