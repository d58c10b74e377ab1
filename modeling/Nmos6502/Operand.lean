import Nmos6502.Cpu

/-! # Operands

Where the operand of an instruction lies. The program counter stands behind the opcode
byte and moves on with every operand byte that is fetched. Addresses in page zero wrap
inside the page, all others at the top of memory. The byte at the operand's address is
read also where only the address counts.
-/
namespace Nmos6502

/-- Where a branch goes: an offset byte below 128 counts forward from `next`, one from
128 on counts backward by its excess over 128. -/
def branchTarget (next : UInt16) (offset : UInt8) : UInt16 :=
  if offset < 0x80 then next + offset.toUInt16 else next - (offset - 0x80).toUInt16

/-- An operand that was found. A branch has its offset here and the address it goes to. -/
structure Found where
  address? : Option UInt16
  byte : UInt8

namespace Machine

def fetchByte : Machine UInt8 :=
  modifyGet fun c => (c.memory.read c.pc, { c with pc := c.pc + 1 })

def fetchWord : Machine UInt16 := do
  let low ← fetchByte
  let high ← fetchByte
  return word low high

def pop : Machine UInt8 := modifyGet Cpu.pop

def located (address : UInt16) : Machine Found := do
  return ⟨address, (← get).memory.read address⟩

def indexedAbsolute (index : UInt8) : Machine Found := do
  let base ← fetchWord
  let address := base + index.toUInt16
  if crossesPage base address then
    modify fun c => { c with memoryCycles := c.memoryCycles + 1 }
  located address

def operand : AddressingMode → Machine Found
  | .implicit => throw .implicitModeRead
  | .accumulator => return ⟨none, (← get).a⟩
  | .immediate => return ⟨none, ← fetchByte⟩
  | .zeroPage => do located (← fetchByte).toUInt16
  | .zeroPageX => do located ((← fetchByte) + (← get).x).toUInt16
  | .zeroPageY => do located ((← fetchByte) + (← get).y).toUInt16
  | .absolute => do located (← fetchWord)
  | .absoluteX => do indexedAbsolute (← get).x
  | .absoluteY => do indexedAbsolute (← get).y
  | .relative => do
    let offset ← fetchByte
    return ⟨branchTarget (← get).pc offset, offset⟩
  | .indirectX => do
    let pointer := (← fetchByte) + (← get).x
    located ((← get).memory.readWord pointer.toUInt16)
  | .indirectY => do
    let pointer ← fetchByte
    located ((← get).memory.readWord pointer.toUInt16 + (← get).y.toUInt16)
  | .indirect => do
    let pointer ← fetchWord
    located ((← get).memory.readWord pointer)

end Machine

def Found.addressFor (found : Found) (mode : AddressingMode) : Machine UInt16 :=
  match found.address? with
  | some address => return address
  | none => throw (.noEffectiveAddress mode)

end Nmos6502
