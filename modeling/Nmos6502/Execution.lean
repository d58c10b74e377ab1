import Nmos6502.Action
import Nmos6502.Opcode

/-! # Execution

`Cpu.execute` runs one instruction: the opcode is fetched and decoded, the action of its
operation is carried out, and the cycles of the opcode are added to those that the
instruction has counted on its way. An undocumented opcode moves the program counter and
does nothing else but to start the counts anew.
-/
namespace Nmos6502
namespace Machine

def fetchOpcode : Machine UInt8 := do
  modify fun c => { c with memoryCycles := 0, extraCycles := 0 }
  fetchByte

def retire (opcode : Opcode) : Machine Nat := do
  let elapsed := opcode.cycles + (← get).memoryCycles + (← get).extraCycles
  modify fun c => { c with cycles := c.cycles + elapsed }
  return elapsed

def instruction : Machine Nat := do
  let byte ← fetchOpcode
  match decode byte with
  | none => throw (.invalidOpcode byte)
  | some opcode =>
    perform opcode.mode opcode.operation.action
    retire opcode

end Machine

/-- Runs one instruction and tells its cycles. -/
def Cpu.execute (c : Cpu) : Cpu × Except Fault Nat :=
  match Machine.instruction.run c with
  | .ok elapsed c => (c, .ok elapsed)
  | .error fault c => (c, .error fault)

end Nmos6502
