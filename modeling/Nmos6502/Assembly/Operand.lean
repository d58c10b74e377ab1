import Nmos6502.Assembly.Error
import Nmos6502.Assembly.Numeral
import Nmos6502.Opcode
import Nmos6502.Text.Split

/-! # Operands of a source

The shapes that an operand can be written in, and the addressing modes that each
shape stands for. A shape with a narrow and a wide mode lists the narrow one first;
of the modes that the operation has, a numeral takes the first that is wide enough.
-/
namespace Nmos6502.Assembly

/-- A letter or underscore, then letters, digits and underscores, all of ASCII. -/
def isName : List Char → Bool
  | [] => false
  | c :: text => (c.isAlpha || c == '_') && text.all fun d => d.isAlphanum || d == '_'

inductive Value where
  | literal (bytes : List UInt8)
  | name (name : List Char)
  deriving DecidableEq, Repr

def startsNumeral : List Char → Bool
  | [] => false
  | c :: _ => c == '$' || c == '%' || c.isDigit

def Value.parse (text : List Char) : Except Cause Value :=
  if startsNumeral text then
    match numeral? text with
    | some bytes => .ok (.literal bytes)
    | none => .error (.invalidOperand text)
  else if isName text then .ok (.name text)
  else .error (.invalidOperand text)

inductive Index where
  | x | y
  deriving DecidableEq, Repr

inductive Operand where
  | empty
  /-- `A` -/
  | accumulator
  /-- `#value` -/
  | immediate (value : Value)
  /-- `value` -/
  | direct (value : Value)
  /-- `(value)` -/
  | indirect (value : Value)
  /-- `(value,X)` -/
  | indexedIndirect (value : Value)
  /-- `(value),Y` -/
  | indirectIndexed (value : Value)
  /-- `value,X` or `value,Y` -/
  | indexed (value : Value) (index : Index)
  deriving DecidableEq, Repr

namespace Operand

/-- An operand that begins with a parenthesis, from what follows it. -/
def parseInner (inner : List Char) : Except Cause Operand :=
  if let some text := Text.beforeEnd? [',', 'X', ')'] inner then
    (Value.parse text).map .indexedIndirect
  else if let some text := Text.beforeEnd? [')', ',', 'Y'] inner then
    (Value.parse text).map .indirectIndexed
  else if let some text := Text.beforeEnd? [')'] inner then
    (Value.parse text).map .indirect
  else .error (.invalidOperand ('(' :: inner))

def parseDirect (text : List Char) : Except Cause Operand :=
  if let some base := Text.beforeEnd? [',', 'X'] text then
    (Value.parse base).map (.indexed · .x)
  else if let some base := Text.beforeEnd? [',', 'Y'] text then
    (Value.parse base).map (.indexed · .y)
  else (Value.parse text).map .direct

def parse : List Char → Except Cause Operand
  | [] => .ok .empty
  | ['A'] => .ok .accumulator
  | '#' :: text => (Value.parse text).map .immediate
  | '(' :: inner => parseInner inner
  | text => parseDirect text

/-- For an operation without an accumulator form `A` is a name like any other. -/
def reading (operation : Operation) : Operand → Operand
  | .accumulator =>
    if supports operation .accumulator then .accumulator else .direct (.name ['A'])
  | operand => operand

/-- The modes that a shape may stand for, narrow before wide. -/
def modes (operation : Operation) : Operand → List AddressingMode
  | .empty => [.implicit, .accumulator]
  | .accumulator => [.accumulator]
  | .immediate _ => [.immediate]
  | .direct _ => if operation.isBranch then [.relative] else [.zeroPage, .absolute]
  | .indirect _ => [.indirect]
  | .indexedIndirect _ => [.indirectX]
  | .indirectIndexed _ => [.indirectY]
  | .indexed _ .x => [.zeroPageX, .absoluteX]
  | .indexed _ .y => [.zeroPageY, .absoluteY]

/-- The value that an operand is written with; none counts as no bytes. -/
def value : Operand → Value
  | .empty | .accumulator => .literal []
  | .immediate value | .direct value | .indirect value | .indexedIndirect value
  | .indirectIndexed value | .indexed value _ => value

end Operand
end Nmos6502.Assembly
