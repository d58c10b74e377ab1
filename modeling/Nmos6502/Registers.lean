import Nmos6502.Status
import Nmos6502.Word

/-! # Registers

The registers of the processor. A byte that is loaded into a register, or computed
there, decides the zero and negative flags.
-/
namespace Nmos6502

structure Registers where
  a : UInt8
  x : UInt8
  y : UInt8
  pc : UInt16
  sp : UInt16
  status : Status
  deriving DecidableEq, Repr

namespace Registers

/-- The program counter behind the next `count` bytes. -/
def skip (r : Registers) (count : Nat) : Registers := { r with pc := r.pc + UInt16.ofNat count }

def setFlag (r : Registers) (flag : Flag) (value : Bool) : Registers :=
  { r with status := r.status.set flag value }

def withResult (r : Registers) (byte : UInt8) : Registers :=
  { r with status := r.status.withResult byte }

def loadA (r : Registers) (byte : UInt8) : Registers := { r with a := byte }.withResult byte

def loadX (r : Registers) (byte : UInt8) : Registers := { r with x := byte }.withResult byte

def loadY (r : Registers) (byte : UInt8) : Registers := { r with y := byte }.withResult byte

end Registers
end Nmos6502
