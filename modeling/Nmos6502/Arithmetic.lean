import Nmos6502.Registers

/-! # Arithmetic

What the operations compute: sums and differences with carry and overflow, comparisons,
bit tests, and the changes of a single byte in place. Sums and differences are binary
whatever the decimal flag says.
-/
namespace Nmos6502
namespace Registers

/-- Sum of accumulator, operand and carry. The carry reports a sum above 255, overflow
two operands of one sign with a result of the other. -/
def add (r : Registers) (byte : UInt8) : Registers :=
  let sum := r.a.toNat + byte.toNat + r.status.carry.toNat
  let result := UInt8.ofNat sum
  let overflow := sign r.a == sign byte && sign result != sign r.a
  ((r.setFlag .overflow overflow).setFlag .carry (decide (255 < sum))).loadA result

/-- Difference of accumulator, operand and borrow, the borrow being a clear carry. The
carry reports a difference above 255, overflow two operands of different signs with
a result whose sign is not the accumulator's. -/
def subtract (r : Registers) (byte : UInt8) : Registers :=
  let difference : Int := r.a.toNat - byte.toNat - (1 - r.status.carry.toNat)
  let result := UInt8.ofInt difference
  let overflow := sign r.a != sign byte && sign result != sign r.a
  ((r.setFlag .overflow overflow).setFlag .carry (decide (255 < difference))).loadA result

/-- The flags of `register - byte`, with the carry set when nothing was borrowed. -/
def compare (r : Registers) (register byte : UInt8) : Registers :=
  (r.setFlag .carry (decide (byte ≤ register))).withResult (register - byte)

/-- Zero from the common bits of accumulator and operand, negative and overflow from
bits 7 and 6 of the operand. -/
def testBits (r : Registers) (byte : UInt8) : Registers :=
  ((r.setFlag .zero (r.a &&& byte == 0)).setFlag .negative (sign byte)).setFlag .overflow
    (byte &&& 0x40 != 0)

end Registers

/-- A byte after a change in place, with the carry that the change leaves. -/
structure Changed where
  byte : UInt8
  carry : Bool
  deriving DecidableEq, Repr

def carryByte (carry : Bool) : UInt8 := if carry then 1 else 0

namespace Changed

def shiftLeft (byte : UInt8) (_ : Bool) : Changed := ⟨byte <<< 1, byte &&& 0x80 != 0⟩

def shiftRight (byte : UInt8) (_ : Bool) : Changed := ⟨byte >>> 1, byte &&& 1 != 0⟩

/-- The old carry enters bit 0. -/
def rotateLeft (byte : UInt8) (carry : Bool) : Changed :=
  ⟨byte <<< 1 ||| carryByte carry, byte &&& 0x80 != 0⟩

/-- The old carry enters bit 7. -/
def rotateRight (byte : UInt8) (carry : Bool) : Changed :=
  ⟨byte >>> 1 ||| carryByte carry <<< 7, byte &&& 1 != 0⟩

end Changed
end Nmos6502
