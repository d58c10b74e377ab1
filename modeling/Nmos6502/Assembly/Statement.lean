import Nmos6502.Assembly.Group

/-! # Statements

A line of a source holds a label, a statement, both or neither. A statement defines a
constant or is an instruction, and makes one group. Comments begin at a semicolon,
case does not matter, and blanks inside an operand are dropped.
-/
namespace Nmos6502.Assembly

inductive Statement where
  | define (name : List Char) (bytes : List UInt8)
  | instruct (operation : Operation) (operand : Operand) (written : List Char)
  deriving DecidableEq, Repr

structure SourceLine where
  label? : Option (List Char)
  statement? : Option Statement
  deriving DecidableEq, Repr

/-- A line without comment and outer blanks, in upper case. -/
def cleanLine (line : List Char) : List Char :=
  Text.upper (Text.trim (line.takeWhile (· != ';')))

namespace Statement

/-- A constant's name and value; words behind them mean nothing. -/
def parseDefine : List (List Char) → Except Cause Statement
  | name :: value :: _ =>
    if isName name then
      match numeral? value with
      | some bytes => .ok (.define name bytes)
      | none => .error (.invalidOperand value)
    else .error (.invalidOperand name)
  | _ => .error .incompleteDefine

def parseInstruction (operator : List Char) (arguments : List (List Char)) :
    Except Cause Statement :=
  match Operation.ofMnemonic? operator with
  | some operation => (Operand.parse arguments.flatten).map (.instruct operation · arguments.flatten)
  | none => .error (.unknownOperator operator)

def parse (operator : List Char) (arguments : List (List Char)) : Except Cause Statement :=
  if operator = ['D', 'E', 'F', 'I', 'N', 'E'] then parseDefine arguments
  else parseInstruction operator arguments

/-- The modes of an instruction with an operand: those of its shape that it has. -/
def modes (operation : Operation) (operand : Operand) : List AddressingMode :=
  (operand.modes operation).filter (supports operation)

/-- The mode that fits a value: wide enough for a numeral, the narrowest for a name. -/
def mode? (operation : Operation) (operand : Operand) : Option AddressingMode :=
  match operand.value with
  | .literal bytes => (modes operation operand).find? (bytes.length ≤ ·.operandSize)
  | .name _ => (modes operation operand).head?

/-- The operand bytes and what they wait for, in a mode of the given modes. -/
def fill (modes : List AddressingMode) (mode : AddressingMode) :
    Value → OperandState × List UInt8
  | .literal bytes => (.known, bytes.rightpad mode.operandSize 0)
  | .name name =>
    let sized := modes.map fun mode => (mode.operandSize, mode)
    (.pending name sized, Group.placeholder sized)

def instructionGroup? (line : Nat) (operation : Operation) (operand : Operand) : Option Group := do
  let mode ← mode? operation operand
  let code ← encode operation mode
  let operandBytes := fill (modes operation operand) mode operand.value
  some (Group.instruction line operation.mnemonic operation mode code operandBytes.1 operandBytes.2)

def group (line : Nat) : Statement → Except Cause Group
  | .define name bytes => .ok (Group.constant line name bytes)
  | .instruct operation operand written =>
    match instructionGroup? line operation (operand.reading operation) with
    | some g => .ok g
    | none => .error (.invalidOperand written)

end Statement

namespace SourceLine

/-- A line from its words: a first word that ends in a colon is a label. -/
def ofWords : List (List Char) → Except Cause SourceLine
  | [] => .ok ⟨none, none⟩
  | first :: rest =>
    match Text.beforeEnd? [':'] first with
    | none => (Statement.parse first rest).map (⟨none, some ·⟩)
    | some name =>
      if isName name then
        match rest with
        | [] => .ok ⟨some name, none⟩
        | operator :: arguments => (Statement.parse operator arguments).map (⟨some name, some ·⟩)
      else .error (.invalidOperand first)

def parse (line : List Char) : Except Cause SourceLine :=
  ofWords (Text.words (cleanLine line))

def groups (line : Nat) (source : SourceLine) : Except Cause (List Group) :=
  let labels := source.label?.toList.map (Group.label line)
  match source.statement? with
  | none => .ok labels
  | some statement => (statement.group line).map fun g => labels ++ [g]

end SourceLine

def parseLine (line : Nat) (text : List Char) : Except Error (List Group) :=
  ((SourceLine.parse text).bind (·.groups line)).mapError (⟨line, ·⟩)

/-- The groups of consecutive lines, the first of which has the given number. -/
def parseLines : Nat → List (List Char) → Except Error (List Group)
  | _, [] => .ok []
  | line, text :: rest => do
    let first ← parseLine line text
    let others ← parseLines (line + 1) rest
    .ok (first ++ others)

def parseSource (text : List Char) : Except Error (List Group) :=
  parseLines 1 (Text.lines text)

end Nmos6502.Assembly
