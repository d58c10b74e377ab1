import Nmos6502.Execution

/-! # Runs

Sequences of instructions. A run ends after a number of instructions, before one at
which it is told to stop, or at a fault; it keeps the registers and the cycles of
every instruction that succeeded. A run for cycles ends as soon as a budget is spent.
No instruction takes less than two cycles, so half the budget bounds the instructions.
-/
namespace Nmos6502

/-- An instruction that was run: the registers after it, its cycles, and the cycles
since the last reset. -/
structure Retired where
  registers : Registers
  elapsed : Nat
  total : Nat

structure Run where
  cpu : Cpu
  retired : List Retired
  fault : Option Fault

namespace Cpu

/-- Runs up to `limit` instructions, none from registers at which `stop` holds. -/
def run (stop : Registers → Bool) : Nat → Cpu → Run
  | 0, c => ⟨c, [], none⟩
  | limit + 1, c =>
    if stop c.toRegisters then ⟨c, [], none⟩
    else
      match c.execute with
      | (c, .error fault) => ⟨c, [], some fault⟩
      | (c, .ok elapsed) =>
        let first := ⟨c.toRegisters, elapsed, c.cycles⟩
        let rest := c.run stop limit
        { rest with retired := first :: rest.retired }

/-- Runs up to `limit` instructions until `spent` has reached the budget. -/
def spend (budget : Nat) : Nat → Nat → Cpu → Cpu × Except Fault Nat
  | 0, spent, c => (c, .ok spent)
  | limit + 1, spent, c =>
    if budget ≤ spent then (c, .ok spent)
    else
      match c.execute with
      | (c, .error fault) => (c, .error fault)
      | (c, .ok elapsed) => c.spend budget limit (spent + elapsed)

/-- Runs until at least `budget` cycles have passed and tells how many did. -/
def runForCycles (c : Cpu) (budget : Nat) : Cpu × Except Fault Nat :=
  c.spend budget ((budget + 1) / 2) 0

end Cpu
end Nmos6502
