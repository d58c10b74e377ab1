import Nmos6502.AddressingMode
import Nmos6502.Memory

/-! # Faults

What can stop the processor, and the text that reports it. Only an undocumented
opcode stops a run; the other faults answer questions that no documented
instruction asks.
-/
namespace Nmos6502

inductive Fault where
  | invalidOpcode (byte : UInt8)
  | implicitModeRead
  | unsupportedAddressingMode (tag : UInt8)
  | noEffectiveAddress (mode : AddressingMode)
  | memory (error : MemoryError)
  deriving DecidableEq, Repr

def Fault.message : Fault → String
  | .invalidOpcode byte => "invalid opcode 0x" ++ Text.hex 2 byte.toNat
  | .implicitModeRead => "implicit addressing mode has no operand to read"
  | .unsupportedAddressingMode tag => "unsupported addressing mode tag " ++ toString tag.toNat
  | .noEffectiveAddress mode => "addressing mode " ++ mode.name ++ " has no effective address"
  | .memory error => error.message

def AddressingMode.ofTag (tag : UInt8) : Except Fault AddressingMode :=
  match ofTag? tag.toNat with
  | some mode => .ok mode
  | none => .error (.unsupportedAddressingMode tag)

end Nmos6502
