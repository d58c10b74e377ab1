import Nmos6502.Arithmetic
import Nmos6502.Operand
import Nmos6502.Operation

/-! # Actions

An operation acts on the machine in one of a few ways: it reads an operand into the
registers, stores a register, modifies a byte in place, and so on. `Operation.action`
says in which, and `Machine.perform` carries it out step by step. An operand that an action
cannot work on makes it fail where it finds that out, behind the bytes that it has fetched
and, for a change in place, behind the carry that it has set. No opcode of the instruction
set comes to that.
-/
namespace Nmos6502

inductive Action where
  | read (result : Registers → UInt8 → Registers)
  /-- A byte of the registers goes into the operand's cell. -/
  | store (byte : Registers → UInt8)
  /-- The operand, in the accumulator or in a cell, is replaced. -/
  | modify (change : UInt8 → Bool → Changed)
  /-- The operand, in a cell, is replaced and the carry left alone. -/
  | count (change : UInt8 → UInt8)
  | transfer (result : Registers → Registers)
  /-- A flag with the given value moves the program counter by an offset. -/
  | branch (flag : Flag) (value : Bool)
  | jump
  /-- A jump that pushes the address to come back to. -/
  | call
  /-- Back to the address that a call pushed. -/
  | leave
  /-- A jump through the interrupt vector that pushes the status as well. -/
  | interrupt
  /-- Back to the status and the address that an interrupt pushed. -/
  | resume
  | push (byte : Registers → UInt8)
  | pull (result : Registers → UInt8 → Registers)

def Operation.action : Operation → Action
  | .adc => .read Registers.add
  | .sbc => .read Registers.subtract
  | .and => .read fun r byte => r.loadA (r.a &&& byte)
  | .ora => .read fun r byte => r.loadA (r.a ||| byte)
  | .eor => .read fun r byte => r.loadA (r.a ^^^ byte)
  | .bit => .read Registers.testBits
  | .cmp => .read fun r byte => r.compare r.a byte
  | .cpx => .read fun r byte => r.compare r.x byte
  | .cpy => .read fun r byte => r.compare r.y byte
  | .lda => .read Registers.loadA
  | .ldx => .read Registers.loadX
  | .ldy => .read Registers.loadY
  | .sta => .store (·.a)
  | .stx => .store (·.x)
  | .sty => .store (·.y)
  | .asl => .modify Changed.shiftLeft
  | .lsr => .modify Changed.shiftRight
  | .rol => .modify Changed.rotateLeft
  | .ror => .modify Changed.rotateRight
  | .inc => .count (· + 1)
  | .dec => .count (· - 1)
  | .inx => .transfer fun r => r.loadX (r.x + 1)
  | .iny => .transfer fun r => r.loadY (r.y + 1)
  | .dex => .transfer fun r => r.loadX (r.x - 1)
  | .dey => .transfer fun r => r.loadY (r.y - 1)
  | .tax => .transfer fun r => r.loadX r.a
  | .tay => .transfer fun r => r.loadY r.a
  | .txa => .transfer fun r => r.loadA r.x
  | .tya => .transfer fun r => r.loadA r.y
  | .tsx => .transfer fun r => r.loadX (lowByte r.sp)
  | .txs => .transfer fun r => { r with sp := stackAddress r.x.toUInt16 }
  | .clc => .transfer (·.setFlag .carry false)
  | .sec => .transfer (·.setFlag .carry true)
  | .cli => .transfer (·.setFlag .interruptDisable false)
  | .sei => .transfer (·.setFlag .interruptDisable true)
  | .cld => .transfer (·.setFlag .decimal false)
  | .sed => .transfer (·.setFlag .decimal true)
  | .clv => .transfer (·.setFlag .overflow false)
  | .nop => .transfer id
  | .bcc => .branch .carry false
  | .bcs => .branch .carry true
  | .bne => .branch .zero false
  | .beq => .branch .zero true
  | .bpl => .branch .negative false
  | .bmi => .branch .negative true
  | .bvc => .branch .overflow false
  | .bvs => .branch .overflow true
  | .jmp => .jump
  | .jsr => .call
  | .rts => .leave
  | .brk => .interrupt
  | .rti => .resume
  | .pha => .push (·.a)
  | .php => .push (·.status.toByte)
  | .pla => .pull Registers.loadA
  | .plp => .pull fun r byte => { r with status := Status.restore byte }

def interruptVector : UInt16 := 0xFFFE

namespace Machine

/-- Takes a branch and counts the cycles of that. -/
def branchTo (target : UInt16) : Machine Unit := do
  modify fun c => { c with extraCycles := c.extraCycles + 1 }
  if crossesPage (← get).pc target then
    modify fun c => { c with extraCycles := c.extraCycles + 1 }
  modify (·.setPc target)

/-- Carries an action out on a processor whose program counter is behind the opcode. -/
def perform (mode : AddressingMode) : Action → Machine Unit
  | .read result => do
    let found ← operand mode
    modify fun c => { c with toRegisters := result c.toRegisters found.byte }
  | .store byte => do
    let value := byte (← get).toRegisters
    let address ← (← operand mode).addressFor mode
    modify (·.write address value)
  | .modify change => do
    let found ← operand mode
    let changed := change found.byte (← get).status.carry
    modify (·.setFlag .carry changed.carry)
    if mode = .accumulator then modify (·.setA changed.byte)
    else
      let address ← found.addressFor mode
      modify (·.write address changed.byte)
    modify (·.withResult changed.byte)
  | .count change => do
    let found ← operand mode
    let address ← found.addressFor mode
    let byte := change found.byte
    modify fun c => (c.write address byte).withResult byte
  | .transfer result => modify fun c => { c with toRegisters := result c.toRegisters }
  | .branch flag value => do
    let target ← (← operand .relative).addressFor .relative
    if (← get).status.get flag = value then branchTo target
  | .jump => do
    let address ← (← operand mode).addressFor mode
    modify (·.setPc address)
  | .call => do
    let address ← (← operand mode).addressFor mode
    modify fun c => ((c.push (highByte c.pc)).push (lowByte c.pc)).setPc address
  | .leave => do
    let low ← pop
    let high ← pop
    modify (·.setPc (word low high))
  | .interrupt => do
    modify fun c => c.setPc (c.pc + 1)
    modify fun c => ((c.push (highByte c.pc)).push (lowByte c.pc)).push c.status.toByte
    modify (·.setFlag .brk true)
    modify fun c => c.setPc (c.memory.readWord interruptVector)
  | .resume => do
    let status ← pop
    modify (·.setStatus status)
    let low ← pop
    let high ← pop
    modify (·.setPc (word low high))
  | .push byte => modify fun c => c.push (byte c.toRegisters)
  | .pull result => do
    let byte ← pop
    modify fun c => { c with toRegisters := result c.toRegisters byte }

end Machine
end Nmos6502
