import Nmos6502.Proofs.OperandCells

/-! # Branches

A branch looks at one flag. If the flag lets it be taken the program goes on at the address that
the offset byte counts from the instruction behind, forward below 128 and backward from there on;
otherwise it goes on behind. Only the program counter changes. A branch takes two cycles, three if
it is taken, and four if that leads into another page than the one behind it.
-/
namespace Nmos6502

def Operation.condition (s : Status) : Operation → Bool
  | .bcc => !s.carry
  | .bcs => s.carry
  | .bne => !s.zero
  | .beq => s.zero
  | .bpl => !s.negative
  | .bmi => s.negative
  | .bvc => !s.overflow
  | .bvs => s.overflow
  | _ => false

namespace Cpu

def behind (c : Cpu) : ℕ := (c.pc.toNat + 2) % 65536

/-- The address that a branch counts its way to. -/
def branchGoal (c : Cpu) : ℤ :=
  if c.operandLow < 0x80 then (c.behind + c.operandLow) % 65536
  else (c.behind - (c.operandLow - 0x80)) % 65536

/-- The branch at the program counter is taken. -/
structure Branches (c : Cpu) : Prop where
  pc : (c.next.pc.toNat : ℤ) = c.branchGoal
  execute : c.execute = (c.next, .ok (3 + pageCycle c.behind c.next.pc.toNat))

structure GoesOn (c : Cpu) : Prop where
  pc : c.next.pc.toNat = c.behind
  execute : c.execute = (c.next, .ok 2)

/-- Registers, status and memory are the same before and after, up to the program counter. -/
structure SameBesidePc (c d : Cpu) : Prop where
  a : d.a = c.a
  x : d.x = c.x
  y : d.y = c.y
  sp : d.sp = c.sp
  status : d.status = c.status
  memory : d.memory = c.memory

end Cpu

theorem Operation.takes_iff {operation : Operation} (hb : operation.isBranch = true)
    (s : Status) : operation.Takes s ↔ operation.condition s = true := by
  cases operation with
  | bcc | bcs | bne | beq | bpl | bmi | bvc | bvs =>
    simp [Operation.Takes, Operation.action, Operation.condition, Status.get]
  | _ => cases hb

theorem Opcode.cycles_of_mem_documented :
    ∀ row ∈ documented, row.2.operation.isBranch = true → row.2.cycles = 2 := by
  decide +kernel

namespace Cpu
variable {c : Cpu} {opcode : Opcode}

theorem toNat_pc_add_two (c : Cpu) : (c.pc + 2).toNat = c.behind := UInt16.toNat_add ..

theorem toNat_branchTarget_eq_goal (c : Cpu) :
    ((branchTarget (c.pc + 2) (c.memory.read (c.pc + 1))).toNat : ℤ) = c.branchGoal := by
  have hlow : (c.memory.read (c.pc + 1)).toNat = c.operandLow := rfl
  rw [toNat_branchTarget, toNat_pc_add_two]
  simp only [branchGoal, reach, UInt8.lt_iff_toNat_lt, UInt8.reduceToNat, hlow]
  split
  · rfl
  · congr 1
    omega

theorem next_of_branch (h : decode c.opcodeByte = some opcode)
    (hb : opcode.operation.isBranch = true) :
    (opcode.operation.Takes c.status →
      c.next.pc = branchTarget (c.pc + 2) (c.memory.read (c.pc + 1))) ∧
    (¬ opcode.operation.Takes c.status → c.next.pc = c.pc + 2) ∧ c.SameBesidePc c.next := by
  obtain ⟨flag,value,haction⟩ := Operation.exists_branch_iff.mpr hb
  obtain ⟨effect,elapsed,heffect,-,hnext,-⟩ := exists_next_of_decode h
  have hbehind : (c.fetched.toRegisters.skip 1).pc = c.pc + 2 := c.pc_fetched_add_one
  rw [haction] at heffect
  simp only [Action.effect, hbehind] at heffect
  rw [hnext, Operation.takes_iff_get haction]
  split at heffect
  · rename_i htaken
    cases heffect
    exact ⟨fun _ => rfl,fun hpassed => absurd htaken hpassed,⟨rfl,rfl,rfl,rfl,rfl,rfl⟩⟩
  · rename_i hpassed
    cases heffect
    exact ⟨fun htaken => absurd htaken hpassed,fun _ => hbehind,⟨rfl,rfl,rfl,rfl,rfl,rfl⟩⟩

theorem elapsed_of_branch (h : decode c.opcodeByte = some opcode)
    (hb : opcode.operation.isBranch = true) :
    (opcode.operation.Takes c.status → c.execute = (c.next, .ok (3 + pageCycle (c.pc + 2).toNat
      (branchTarget (c.pc + 2) (c.memory.read (c.pc + 1))).toNat))) ∧
    (¬ opcode.operation.Takes c.status → c.execute = (c.next, .ok 2)) := by
  have hcycles := Opcode.cycles_of_mem_documented _ (mem_documented_of_decode h) hb
  obtain ⟨effect,elapsed,heffect,rfl,-,hexecute⟩ := exists_next_of_decode h
  obtain ⟨htaken,hpassed⟩ := penalty_of_branch hb heffect
  constructor
  · intro htakes
    rw [hexecute, htaken htakes, hcycles, ← Nat.add_assoc]
  · intro htakes
    rw [hexecute, hpassed htakes, hcycles]

theorem branches_of_takes (h : decode c.opcodeByte = some opcode)
    (hb : opcode.operation.isBranch = true) (ht : opcode.operation.Takes c.status) :
    c.Branches := by
  have hgoal := c.toNat_branchTarget_eq_goal
  have hpc := (next_of_branch h hb).1 ht
  have hexecute := (elapsed_of_branch h hb).1 ht
  rw [← hpc] at hgoal hexecute
  rw [toNat_pc_add_two] at hexecute
  exact ⟨hgoal,hexecute⟩

theorem goesOn_of_not_takes (h : decode c.opcodeByte = some opcode)
    (hb : opcode.operation.isBranch = true) (ht : ¬ opcode.operation.Takes c.status) :
    c.GoesOn := by
  refine ⟨?_,(elapsed_of_branch h hb).2 ht⟩
  rw [(next_of_branch h hb).2.1 ht, toNat_pc_add_two]

/-- The cycles tell whether a branch was taken, also where both ways lead to one address. -/
theorem Branches.not_goesOn (h : c.Branches) : ¬ c.GoesOn := by
  intro hon
  have hcycles := Except.ok.inj (congrArg Prod.snd (h.execute.symm.trans hon.execute))
  omega

theorem branches_iff (h : decode c.opcodeByte = some opcode)
    (hb : opcode.operation.isBranch = true) :
    c.Branches ↔ opcode.operation.condition c.status = true := by
  rw [← Operation.takes_iff hb]
  constructor
  · intro hbranches
    by_contra htakes
    exact hbranches.not_goesOn (goesOn_of_not_takes h hb htakes)
  · exact branches_of_takes h hb

theorem goesOn_iff (h : decode c.opcodeByte = some opcode)
    (hb : opcode.operation.isBranch = true) :
    c.GoesOn ↔ ¬ c.Branches := by
  constructor
  · exact fun hon hbranches => hbranches.not_goesOn hon
  · intro hbranches
    apply goesOn_of_not_takes h hb
    exact fun htakes => hbranches (branches_of_takes h hb htakes)

/-- A branch is taken exactly if its flag is as the operation asks; the program goes on at the goal
then and behind the branch otherwise, at a cost of three or four cycles and of two, and nothing
else changes. -/
theorem branch_exact (h : (c.memory.read c.pc, opcode) ∈ Opcode.documented)
    (hb : opcode.operation.isBranch = true) :
    (c.Branches ↔ opcode.operation.condition c.status = true) ∧
    (c.GoesOn ↔ opcode.operation.condition c.status = false) ∧ c.SameBesidePc c.next := by
  have hdecode : decode c.opcodeByte = some opcode := Opcode.lookup_of_mem_documented _ h
  have htaken := branches_iff hdecode hb
  refine ⟨htaken,?_,(next_of_branch hdecode hb).2.2⟩
  rw [goesOn_iff hdecode hb, htaken, Bool.not_eq_true]

theorem branch_exact_wrapped : ∃ c : Cpu, c.pc = 0xFFFE ∧ c.status.zero = false ∧
    (c.memory.read c.pc, ⟨.bne,.relative,2⟩) ∈ Opcode.documented ∧ c.operandLow = 0xFF ∧
    c.next.pc.toNat = 0xFF81 ∧ c.execute = (c.next, .ok 4) ∧ c.next.status = c.status := by
  let s : Status := ⟨true,false,false,false,false,false,false,0x21⟩
  obtain ⟨c,hpc,hzero,hheld⟩ : ∃ c : Cpu, c.pc = 0xFFFE ∧ c.status.zero = false ∧
      c.memory.Holds c.pc [0xD0, 0xFF] :=
    ⟨⟨⟨0,0,0,0xFFFE,stackTop,s⟩,Memory.zero.writeBytes 0xFFFE [0xD0, 0xFF],0,0,0⟩,rfl,rfl,
      Memory.holds_writeBytes (by decide)⟩
  rw [Memory.holds_cons, Memory.holds_cons] at hheld
  obtain ⟨hcode,hoffset,-⟩ := hheld
  have hdocumented : (c.memory.read c.pc, ⟨.bne,.relative,2⟩) ∈ Opcode.documented := by
    rw [hcode]
    exact mem_documented_of_decode rfl
  have hlow : c.operandLow = 0xFF := congrArg UInt8.toNat hoffset
  have hbehind : c.behind = 0 := by
    rw [behind, hpc]
    rfl
  obtain ⟨htaken,-,hsame⟩ := branch_exact hdocumented rfl
  obtain ⟨hgoal,hexecute⟩ := htaken.mpr (by rw [Operation.condition, hzero]; rfl)
  rw [branchGoal, hlow, hbehind, if_neg (by decide)] at hgoal
  have hnext : c.next.pc.toNat = 0xFF81 := by omega
  rw [hbehind, hnext] at hexecute
  exact ⟨c,hpc,hzero,hdocumented,hlow,hnext,hexecute,hsame.status⟩

end Cpu
end Nmos6502
