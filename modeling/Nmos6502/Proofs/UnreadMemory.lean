import Mathlib.Data.Set.Insert
import Nmos6502.Proofs.ActionFrame

/-! # Memory that is not read

An instruction reads its own bytes, the address that they point to, the operand itself where
its value counts, and what it pulls. Nothing else in memory decides what it does: two states
that differ in other cells only go on alike, and come to differ in those cells only.
-/
namespace Nmos6502

def wordCells (address : UInt16) : List UInt16 := [address, address + 1]

def operandCells (r : Registers) (mode : AddressingMode) : List UInt16 :=
  (List.range mode.operandSize).map fun i => r.pc + UInt16.ofNat i

def pointerCells (r : Registers) (m : Memory) : AddressingMode → List UInt16
  | .indirectX => wordCells (m.read r.pc + r.x).toUInt16
  | .indirectY => wordCells (m.read r.pc).toUInt16
  | .indirect => wordCells (m.readWord r.pc)
  | _ => []

/-- The cell of the operand, if it is not one of the instruction's own bytes. -/
def dataCells (r : Registers) (m : Memory) : AddressingMode → List UInt16
  | .relative => []
  | mode => (effectiveAddress? r m mode).toList

/-- The cells behind the opcode that an action depends on. -/
def Action.readCells (r : Registers) (m : Memory) (mode : AddressingMode) : Action → List UInt16
  | .read _ | .modify _ | .count _ => operandCells r mode ++ pointerCells r m mode ++ dataCells r m mode
  | .store _ | .jump | .call => operandCells r mode ++ pointerCells r m mode
  | .branch _ _ => [r.pc]
  | .leave => [slotAbove r.sp, slotAbove (slotAbove r.sp)]
  | .interrupt => wordCells interruptVector
  | .resume => [slotAbove r.sp, slotAbove (slotAbove r.sp), slotAbove (slotAbove (slotAbove r.sp))]
  | .pull _ => [slotAbove r.sp]
  | .transfer _ | .push _ => []

def Memory.AgreeAt (cells : List UInt16) (m n : Memory) : Prop :=
  ∀ cell ∈ cells, m.read cell = n.read cell

section
variable {r : Registers} {m n : Memory} {mode : AddressingMode}

theorem Memory.agreeAt_append {s t : List UInt16} :
    AgreeAt (s ++ t) m n ↔ AgreeAt s m n ∧ AgreeAt t m n := List.forall_mem_append

theorem Memory.readWord_congr {address : UInt16} (h : AgreeAt (wordCells address) m n) :
    m.readWord address = n.readWord address := by
  have hlow := h address (List.mem_cons_self ..)
  have hhigh := h (address + 1) (List.mem_cons_of_mem _ (List.mem_singleton_self _))
  rw [readWord, hlow, hhigh, readWord]

theorem read_operand_congr (h : Memory.AgreeAt (operandCells r mode) m n)
    (hmode : mode.operandSize ≠ 0) : m.read r.pc = n.read r.pc := by
  apply h
  rw [operandCells, List.mem_map]
  exact ⟨0,List.mem_range.mpr (Nat.pos_of_ne_zero hmode),by simp⟩

theorem readWord_operand_congr (h : Memory.AgreeAt (operandCells r mode) m n)
    (hmode : mode.operandSize = 2) : m.readWord r.pc = n.readWord r.pc := by
  apply Memory.readWord_congr
  simpa [operandCells, hmode, List.range_succ, wordCells] using h

theorem effectiveAddress?_congr
    (h : Memory.AgreeAt (operandCells r mode ++ pointerCells r m mode) m n) :
    effectiveAddress? r m mode = effectiveAddress? r n mode := by
  obtain ⟨hoperand,hpointer⟩ := Memory.agreeAt_append.mp h
  cases mode with
  | implicit | accumulator | immediate => rfl
  | absolute | absoluteX | absoluteY =>
    simp only [effectiveAddress?, readWord_operand_congr hoperand rfl]
  | indirect =>
    have hword := Memory.readWord_congr hpointer
    rw [effectiveAddress?, hword, readWord_operand_congr hoperand rfl, effectiveAddress?]
  | indirectX | indirectY =>
    have hword := Memory.readWord_congr hpointer
    rw [effectiveAddress?, hword, read_operand_congr hoperand (by decide), effectiveAddress?]
  | _ => simp only [effectiveAddress?, read_operand_congr hoperand (by decide)]

theorem effectiveAddress_congr
    (h : Memory.AgreeAt (operandCells r mode ++ pointerCells r m mode) m n) :
    effectiveAddress r m mode = effectiveAddress r n mode := by
  rw [effectiveAddress, effectiveAddress?_congr h, effectiveAddress]

theorem indexingCycles_congr (h : Memory.AgreeAt (operandCells r mode) m n) :
    indexingCycles r m mode = indexingCycles r n mode := by
  cases mode with
  | absoluteX | absoluteY => simp only [indexingCycles, readWord_operand_congr h rfl]
  | _ => rfl

theorem operandByte_congr
    (h : Memory.AgreeAt (operandCells r mode ++ pointerCells r m mode ++ dataCells r m mode) m n) :
    operandByte r m mode = operandByte r n mode := by
  obtain ⟨haddress,hdata⟩ := Memory.agreeAt_append.mp h
  have hoperand := (Memory.agreeAt_append.mp haddress).1
  have hsame := effectiveAddress?_congr haddress
  -- both memories lead to the same cell, and they agree on it
  have hcell : ∀ address, effectiveAddress? r m mode = some address → mode ≠ .relative →
      m.read address = n.read address := by
    intro address heffective hmode
    apply hdata
    cases mode <;> simp_all [dataCells]
  cases mode with
  | implicit | accumulator => rfl
  | immediate | relative => simp only [operandByte, read_operand_congr hoperand (by decide)]
  | _ =>
    simp only [operandByte, effectiveAddress, ← hsame]
    cases heffective : effectiveAddress? r m _ with
    | none => rfl
    | some address => simp only [Except.map, hcell address heffective (by decide)]

theorem Memory.read_writeAll_congr {address : UInt16}
    (h : m.read address = n.read address) (writes : List (UInt16 × UInt8)) :
    (m.writeAll writes).read address = (n.writeAll writes).read address := by
  induction writes generalizing m n with
  | nil => exact h
  | cons write writes ih =>
    apply ih
    simp only [Memory.read_write, h]

/-- What an action does is decided by the cells that it reads. -/
theorem Action.effect_congr {action : Action}
    (h : Memory.AgreeAt (action.readCells r m mode) m n) :
    action.effect r m mode = action.effect r n mode := by
  cases action with
  | read result =>
    have hoperand := (Memory.agreeAt_append.mp (Memory.agreeAt_append.mp h).1).1
    simp only [effect, operandByte_congr h, indexingCycles_congr hoperand]
  | modify change | count change =>
    obtain ⟨haddress,-⟩ := Memory.agreeAt_append.mp h
    have hoperand := (Memory.agreeAt_append.mp haddress).1
    simp only [effect, operandByte_congr h, effectiveAddress_congr haddress,
      indexingCycles_congr hoperand]
  | store | jump | call =>
    have hoperand := (Memory.agreeAt_append.mp h).1
    simp only [effect, effectiveAddress_congr h, indexingCycles_congr hoperand]
  | branch flag value =>
    have hoffset := h r.pc (List.mem_singleton_self _)
    simp only [effect, hoffset]
  | leave | pull | resume =>
    simp only [Memory.AgreeAt, readCells, List.forall_mem_cons] at h
    simp only [effect, h]
  | interrupt =>
    -- both memories get the same frame, and may have the vector under it
    have hvector (frame : List (UInt16 × UInt8)) :
        (m.writeAll frame).readWord interruptVector = (n.writeAll frame).readWord interruptVector :=
      Memory.readWord_congr fun cell hcell => Memory.read_writeAll_congr (h cell hcell) frame
    simp only [effect, hvector]
  | transfer | push => rfl

end

namespace Cpu
variable {D : Set UInt16} {c d : Cpu}

/-- The cells that the next instruction depends on. -/
def readCells (c : Cpu) : List UInt16 :=
  c.pc :: match decode c.opcodeByte with
    | none => []
    | some opcode =>
      opcode.operation.action.readCells c.fetched.toRegisters c.memory opcode.mode

/-- The states are the same but for the bytes at the addresses in a set. -/
structure AgreeOff (D : Set UInt16) (c d : Cpu) : Prop where
  registers_eq : c.toRegisters = d.toRegisters
  cycles_eq : c.cycles = d.cycles
  memoryCycles_eq : c.memoryCycles = d.memoryCycles
  extraCycles_eq : c.extraCycles = d.extraCycles
  read_eq : ∀ address ∉ D, c.memory.read address = d.memory.read address

theorem readCells_of_decode {opcode : Opcode} (h : decode c.opcodeByte = some opcode) :
    c.readCells =
      c.pc :: opcode.operation.action.readCells c.fetched.toRegisters c.memory opcode.mode := by
  simp only [readCells, h]

namespace AgreeOff

theorem execute (h : AgreeOff D c d) (hr : ∀ cell ∈ c.readCells, cell ∉ D) :
    c.execute.2 = d.execute.2 ∧ AgreeOff D c.next d.next := by
  have hpc : c.pc = d.pc := congrArg Registers.pc h.registers_eq
  have hfetched : c.fetched.toRegisters = d.fetched.toRegisters := by
    simp only [fetched, h.registers_eq]
  have hbyte : c.opcodeByte = d.opcodeByte := by
    rw [opcodeByte, opcodeByte, ← hpc]
    exact h.read_eq _ (hr _ (List.mem_cons_self ..))
  cases hdecode : decode c.opcodeByte with
  | none =>
    rw [next, next, execute_of_undocumented hdecode, execute_of_undocumented (hbyte ▸ hdecode),
      hbyte]
    exact ⟨rfl,hfetched,h.cycles_eq,rfl,rfl,h.read_eq⟩
  | some opcode =>
    obtain ⟨effect,elapsed,heffect,helapsed,-,hexecute⟩ := exists_execute_of_decode hdecode
    have hagree : Memory.AgreeAt (opcode.operation.action.readCells c.fetched.toRegisters c.memory
        opcode.mode) c.memory d.memory := by
      intro cell hcell
      apply h.read_eq
      apply hr
      rw [readCells_of_decode hdecode]
      exact List.mem_cons_of_mem _ hcell
    rw [Action.effect_congr hagree, hfetched] at heffect
    rw [next, next, hexecute, execute_of_effect (hbyte ▸ hdecode) heffect, helapsed]
    refine ⟨rfl,rfl,by simp only [apply, fetched, h.cycles_eq],rfl,rfl,?_⟩
    intro address haddress
    exact Memory.read_writeAll_congr (h.read_eq address haddress) effect.writes

end AgreeOff

end Cpu
end Nmos6502
