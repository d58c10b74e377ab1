/-! # Addressing modes

The thirteen ways an instruction names its operand, with the number of bytes that
follow the opcode and the tag that stands for each mode in numbers.
-/
namespace Nmos6502

inductive AddressingMode where
  | implicit | immediate | zeroPage | zeroPageX | zeroPageY | indirectX | indirectY
  | accumulator | relative | absolute | absoluteX | absoluteY | indirect
  deriving DecidableEq, Repr

namespace AddressingMode

def all : List AddressingMode := [
  .implicit, .immediate, .zeroPage, .zeroPageX, .zeroPageY, .indirectX, .indirectY,
  .accumulator, .relative, .absolute, .absoluteX, .absoluteY, .indirect]

def operandSize : AddressingMode → Nat
  | .implicit | .accumulator => 0
  | .immediate | .zeroPage | .zeroPageX | .zeroPageY | .indirectX | .indirectY | .relative => 1
  | .absolute | .absoluteX | .absoluteY | .indirect => 2

def tag (mode : AddressingMode) : Nat := all.idxOf mode

def ofTag? (tag : Nat) : Option AddressingMode := all[tag]?

def name : AddressingMode → String
  | .implicit => "Implicit"
  | .immediate => "Immediate"
  | .zeroPage => "ZeroPage"
  | .zeroPageX => "ZeroPageX"
  | .zeroPageY => "ZeroPageY"
  | .indirectX => "IndirectX"
  | .indirectY => "IndirectY"
  | .accumulator => "Accumulator"
  | .relative => "Relative"
  | .absolute => "Absolute"
  | .absoluteX => "AbsoluteX"
  | .absoluteY => "AbsoluteY"
  | .indirect => "Indirect"

@[simp] theorem ofTag?_tag (mode : AddressingMode) : ofTag? mode.tag = some mode := by
  cases mode <;> rfl

theorem operandSize_le (mode : AddressingMode) : mode.operandSize ≤ 2 := by
  cases mode <;> decide

end AddressingMode
end Nmos6502
