import Nmos6502.Assembly.Operand

/-! # Groups

A source becomes a list of groups, one for each instruction, label and constant. A
group has a place in memory, an opcode or the name it defines, and operand bytes that
may still wait for the value of a name. Groups that emit nothing take no room, and
the layout puts every group where the one before it ends.
-/
namespace Nmos6502.Assembly

inductive Content where
  | opcode (code : UInt8) (operation : Operation) (mode : AddressingMode)
  | label (name : List Char)
  | constant (name : List Char)
  deriving DecidableEq, Repr

def Content.size : Content → Nat
  | .opcode .. => 1
  | .label _ | .constant _ => 0

/-- How far the operand bytes of a group are known. -/
inductive OperandState where
  | known
  /-- The bytes wait for a name; `modes` tells the mode to take for each number of bytes. -/
  | pending (name : List Char) (modes : List (Nat × AddressingMode))
  | constant
  deriving DecidableEq, Repr

def OperandState.isPending : OperandState → Bool
  | .pending .. => true
  | _ => false

structure Group where
  line : Nat
  offset : Nat
  emits : Bool
  operator : List Char
  branch : Bool
  content : Content
  state : OperandState
  bytes : List UInt8
  deriving DecidableEq, Repr

namespace Group

/-- Operand bytes for a name before its value is known: zeros, as few as a mode takes. -/
def placeholder (modes : List (Nat × AddressingMode)) : List UInt8 :=
  List.replicate ((modes.map (·.1)).min?.getD 0) 0

def instruction (line : Nat) (operator : List Char) (operation : Operation)
    (mode : AddressingMode) (code : UInt8) (state : OperandState) (bytes : List UInt8) : Group where
  line
  offset := 0
  emits := true
  operator
  branch := operation.isBranch
  content := .opcode code operation mode
  state
  bytes

def label (line : Nat) (name : List Char) : Group where
  line
  offset := 0
  emits := false
  operator := name ++ [':']
  branch := false
  content := .label name
  state := .known
  bytes := []

def constant (line : Nat) (name : List Char) (bytes : List UInt8) : Group where
  line
  offset := 0
  emits := false
  operator := ['D', 'E', 'F', 'I', 'N', 'E']
  branch := false
  content := .constant name
  state := .constant
  bytes

def size (g : Group) : Nat := if g.emits then g.content.size + g.bytes.length else 0

def next (g : Group) : Nat := g.offset + g.size

/-- The number in the operand bytes, of 64 bits. -/
def value (g : Group) : Nat := ofLittleEndian g.bytes % 0x10000000000000000

end Group

def layout (origin : Nat) : List Group → List Group
  | [] => []
  | g :: groups => { g with offset := origin } :: layout (origin + g.size) groups

@[simp] theorem length_layout (origin : Nat) (groups : List Group) :
    (layout origin groups).length = groups.length := by
  induction groups generalizing origin with
  | nil => rfl
  | cons g groups ih => simp [layout, ih]

@[simp] theorem map_size_layout (origin : Nat) (groups : List Group) :
    (layout origin groups).map Group.size = groups.map Group.size := by
  induction groups generalizing origin with
  | nil => rfl
  | cons g groups ih => simp [layout, ih, Group.size]

end Nmos6502.Assembly
