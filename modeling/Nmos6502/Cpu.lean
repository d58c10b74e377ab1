import Nmos6502.Fault
import Nmos6502.Registers
import Nmos6502.Stack

/-! # The processor

Registers, memory, the number of cycles since the last reset, and two counts of what the
current instruction takes beside the cycles of its opcode. Both are kept until the next
instruction or a reset clears them. A computation on the processor that fails keeps what
it has changed before.
-/
namespace Nmos6502

structure Cpu extends Registers where
  memory : Memory
  cycles : Nat
  /-- The cycles for an index that leads into another page. -/
  memoryCycles : Nat
  /-- The cycles for a branch that is taken. -/
  extraCycles : Nat

abbrev Machine := EStateM Fault Cpu

/-- The contents of memory after a reset: 255 in the lowest 8192 bytes, with four
other bytes in each 2048 of them, and zero above. -/
def Memory.powerUp (m : Memory) : Memory :=
  let marked := [0x0000, 0x0800, 0x1000, 0x1800].foldl
    (fun m base => (((m.write (base + 0x008) 0xF7).write (base + 0x009) 0xEF).write
      (base + 0x00A) 0xDF).write (base + 0x00F) 0xBF)
    (m.fill 0x0000 0xFF 0x2000)
  marked.fill 0x2000 0x00 0xE000

namespace Cpu

def reset (c : Cpu) : Cpu where
  a := 0
  x := 0
  y := 0
  pc := 0x07FF
  sp := stackTop
  status := .powerUp
  memory := c.memory.powerUp
  cycles := 0
  memoryCycles := 0
  extraCycles := 0

def new (memory : Memory) : Cpu :=
  reset ⟨⟨0, 0, 0, 0, stackTop, .powerUp⟩, memory, 0, 0, 0⟩

def setA (c : Cpu) (byte : UInt8) : Cpu := { c with a := byte }

def setX (c : Cpu) (byte : UInt8) : Cpu := { c with x := byte }

def setY (c : Cpu) (byte : UInt8) : Cpu := { c with y := byte }

def setPc (c : Cpu) (address : UInt16) : Cpu := { c with pc := address }

/-- Only the low byte counts: the stack stays in page one. -/
def setSp (c : Cpu) (address : UInt16) : Cpu := { c with sp := stackAddress address }

def setStatus (c : Cpu) (byte : UInt8) : Cpu := { c with status := .restore byte }

def refreshStatus (c : Cpu) : Cpu := c.setStatus c.status.toByte

def packStatus (c : Cpu) : Cpu := { c with status := c.status.pack }

def setFlag (c : Cpu) (flag : Flag) (value : Bool) : Cpu :=
  { c with status := c.status.set flag value }

def withResult (c : Cpu) (byte : UInt8) : Cpu := { c with status := c.status.withResult byte }

def write (c : Cpu) (address : UInt16) (byte : UInt8) : Cpu :=
  { c with memory := c.memory.write address byte }

def push (c : Cpu) (byte : UInt8) : Cpu :=
  { c with memory := c.memory.write c.sp byte, sp := slotBelow c.sp }

/-- The byte that the next pull returns. -/
def peek (c : Cpu) : UInt8 := c.memory.read (slotAbove c.sp)

def pop (c : Cpu) : UInt8 × Cpu := (c.peek, { c with sp := slotAbove c.sp })

/-- Writes an image byte by byte, each at its distance from the origin, if it ends in memory. -/
def load (c : Cpu) (origin : UInt16) (image : List UInt8) : Except Fault Cpu :=
  if origin.toNat + image.length ≤ 65536 then
    let memory := image.zipIdx.foldl
      (fun m entry => m.write (origin + UInt16.ofNat entry.2) entry.1) c.memory
    .ok { c with memory }
  else .error (.memory (.invalidAddress 65536))

end Cpu
end Nmos6502
