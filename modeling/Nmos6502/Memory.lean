import Nmos6502.Text.Hex
import Nmos6502.Word

/-! # Memory

A store of 65536 bytes. Addresses of the machine always lie inside it; the checked
operations take any number and refuse the addresses outside. A block is written
whole or not at all. Two memories that read the same everywhere are equal, and a
read gives the last byte written.
-/
namespace Nmos6502

structure Memory where
  cells : Vector UInt8 65536

inductive MemoryError where
  | invalidAddress (address : Nat)
  deriving DecidableEq, Repr

def MemoryError.message : MemoryError → String
  | .invalidAddress address => "invalid memory address 0x" ++ Text.hex 1 address

namespace Memory

def zero : Memory := ⟨Vector.replicate 65536 0⟩

def read (m : Memory) (address : UInt16) : UInt8 :=
  m.cells[address.toFin]

def write (m : Memory) (address : UInt16) (byte : UInt8) : Memory :=
  ⟨m.cells.set address.toNat byte address.toNat_lt⟩

/-- The address stored at `address`; its high byte follows, at the bottom of memory
after the top. -/
def readWord (m : Memory) (address : UInt16) : UInt16 :=
  word (m.read address) (m.read (address + 1))

/-- Writes bytes one after the other, going on at the bottom after the top. -/
def writeBytes (m : Memory) (address : UInt16) : List UInt8 → Memory
  | [] => m
  | byte :: bytes => (m.write address byte).writeBytes (address + 1) bytes

def readBytes (m : Memory) (address : UInt16) : Nat → List UInt8
  | 0 => []
  | count + 1 => m.read address :: m.readBytes (address + 1) count

def fill (m : Memory) (address : UInt16) (byte : UInt8) : Nat → Memory
  | 0 => m
  | count + 1 => (m.write address byte).fill (address + 1) byte count

def fetch (m : Memory) (address : Nat) : Except MemoryError UInt8 :=
  if h : address < 65536 then .ok m.cells[address] else .error (.invalidAddress address)

def store (m : Memory) (address : Nat) (byte : UInt8) : Except MemoryError Memory :=
  if h : address < 65536 then .ok ⟨m.cells.set address byte h⟩ else .error (.invalidAddress address)

/-- Copies a block that ends inside memory into the cells from `origin` on. -/
def copy (m : Memory) (origin : Nat) :
    (bytes : List UInt8) → (h : origin + bytes.length ≤ 65536) → Memory
  | [], _ => m
  | byte :: bytes, h =>
    have hend : origin + 1 + bytes.length ≤ 65536 := by rw [List.length_cons] at h; omega
    copy ⟨m.cells.set origin byte (by omega)⟩ (origin + 1) bytes hend

/-- Writes a block that has to end inside memory; the error names the first address outside. -/
def load (m : Memory) (origin : Nat) (bytes : List UInt8) : Except MemoryError Memory :=
  if h : origin + bytes.length ≤ 65536 then .ok (m.copy origin bytes h)
  else .error (.invalidAddress (max origin 65536))

theorem read_eq_getElem (m : Memory) (address : UInt16) (h : address.toNat < 65536) :
    m.read address = m.cells[address.toNat] := rfl

theorem ext_read {m n : Memory} (h : ∀ address, m.read address = n.read address) : m = n := by
  obtain ⟨m⟩ := m
  obtain ⟨n⟩ := n
  congr 1
  apply Vector.ext
  intro i hi
  have heq := h (UInt16.ofNat i)
  have hn : (UInt16.ofNat i).toNat = i := by
    rw [UInt16.toNat_ofNat', Nat.mod_eq_of_lt hi]
  rw [read_eq_getElem _ _ (by omega), read_eq_getElem _ _ (by omega)] at heq
  simpa only [hn] using heq

@[simp] theorem read_zero (address : UInt16) : zero.read address = 0 := by
  simp [read_eq_getElem _ _ address.toNat_lt, zero]

theorem read_write (m : Memory) (address other : UInt16) (byte : UInt8) :
    (m.write address byte).read other = if address = other then byte else m.read other := by
  simp only [read_eq_getElem _ _ other.toNat_lt, write, Vector.getElem_set, UInt16.toNat_inj]

@[simp] theorem read_write_self (m : Memory) (address : UInt16) (byte : UInt8) :
    (m.write address byte).read address = byte := by simp [read_write]

theorem read_write_of_ne (m : Memory) {address other : UInt16} (byte : UInt8)
    (h : address ≠ other) : (m.write address byte).read other = m.read other := by
  simp [read_write, h]

end Memory
end Nmos6502
