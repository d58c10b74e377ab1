import Nmos6502.Cpu
import Nmos6502.Proofs.Rows

/-! # Images in memory

A memory holds an image if its bytes can be read back from the address on. An assembled
program fits into memory behind its origin, loading it makes memory hold it, and where
memory holds a program it holds every instruction of its listing at the row's address.
-/
namespace Nmos6502

/-- The bytes stand in memory one after the other, beginning at the address. -/
def Memory.Holds (m : Memory) (address : UInt16) (bytes : List UInt8) : Prop :=
  m.readBytes address bytes.length = bytes

namespace Memory
variable {m : Memory}

@[simp] theorem holds_nil (address : UInt16) : m.Holds address [] := rfl

@[simp] theorem holds_cons {address : UInt16} {byte : UInt8} {bytes : List UInt8} :
    m.Holds address (byte :: bytes) ↔ m.read address = byte ∧ m.Holds (address + 1) bytes := by
  simp only [Holds, List.length_cons, readBytes, List.cons.injEq]

theorem holds_append {address : UInt16} {s t : List UInt8} :
    m.Holds address (s ++ t) ↔
      m.Holds address s ∧ m.Holds (address + UInt16.ofNat s.length) t := by
  induction s generalizing address with
  | nil => simp
  | cons byte s ih =>
    have hnext : address + 1 + UInt16.ofNat s.length =
        address + UInt16.ofNat (byte :: s).length := by
      rw [List.length_cons, UInt16.ofNat_add, UInt16.add_assoc, UInt16.add_comm 1]
      rfl
    rw [List.cons_append, holds_cons, holds_cons, ih, hnext, and_assoc]

theorem read_writeBytes_of_outside {address other : UInt16} {bytes : List UInt8}
    (h : ∀ i < bytes.length, address + UInt16.ofNat i ≠ other) :
    (m.writeBytes address bytes).read other = m.read other := by
  induction bytes generalizing m address with
  | nil => rfl
  | cons byte bytes ih =>
    rw [writeBytes, ih, read_write_of_ne]
    · simpa using h 0 (Nat.zero_lt_succ _)
    · intro i hi
      have hout := h (i + 1) (Nat.succ_lt_succ hi)
      rwa [UInt16.ofNat_add, UInt16.add_comm (UInt16.ofNat i), ← UInt16.add_assoc] at hout

theorem holds_writeBytes {address : UInt16} {bytes : List UInt8} (h : bytes.length ≤ 65536) :
    (m.writeBytes address bytes).Holds address bytes := by
  induction bytes generalizing m address with
  | nil => rfl
  | cons byte bytes ih =>
    rw [List.length_cons] at h
    rw [holds_cons, writeBytes]
    refine ⟨?_,ih (by omega)⟩
    rw [read_writeBytes_of_outside, read_write_self]
    intro i hi heq
    have hnat := congrArg UInt16.toNat heq
    simp only [UInt16.toNat_add, UInt16.toNat_ofNat', UInt16.reduceToNat] at hnat
    omega

theorem foldl_write_zipIdx (m : Memory) (address : UInt16) (bytes : List UInt8) (k : ℕ) :
    (bytes.zipIdx k).foldl (fun m entry => m.write (address + UInt16.ofNat entry.2) entry.1) m =
      m.writeBytes (address + UInt16.ofNat k) bytes := by
  induction bytes generalizing m k with
  | nil => rfl
  | cons byte bytes ih =>
    rw [List.zipIdx_cons, List.foldl_cons, ih, UInt16.ofNat_add, ← UInt16.add_assoc]
    rfl

end Memory

namespace Cpu

theorem load_eq_ok (c : Cpu) {origin : UInt16} {image : List UInt8}
    (h : origin.toNat + image.length ≤ 65536) :
    c.load origin image = .ok { c with memory := c.memory.writeBytes origin image } := by
  have hwrites := Memory.foldl_write_zipIdx c.memory origin image 0
  rw [show origin + UInt16.ofNat 0 = origin from UInt16.add_zero origin] at hwrites
  simp only [load, if_pos h, hwrites]

theorem exists_load (c : Cpu) {origin : UInt16} {image : List UInt8}
    (h : origin.toNat + image.length ≤ 65536) :
    ∃ loaded, c.load origin image = .ok loaded ∧ loaded.memory.Holds origin image :=
  ⟨_,c.load_eq_ok h,Memory.holds_writeBytes (by omega)⟩

end Cpu

namespace Assembly

theorem Consecutive.holds_row {m : Memory} {address : ℕ} {rows : List Row}
    (h : Consecutive address rows)
    (hm : m.Holds (UInt16.ofNat address) ((rows.map Row.instruction).flatMap Instruction.bytes))
    {row : Row} (hrow : row ∈ rows) :
    m.Holds (UInt16.ofNat row.address) row.instruction.bytes := by
  induction rows generalizing address with
  | nil => simp at hrow
  | cons first rows ih =>
    rw [List.map_cons, List.flatMap_cons, Memory.holds_append, Instruction.length_bytes,
      ← UInt16.ofNat_add] at hm
    rcases List.mem_cons.mp hrow with rfl | hrow
    · exact h.1 ▸ hm.1
    · exact ih h.2 hm.2 hrow

theorem Consecutive.end_eq {address : ℕ} {rows : List Row} (h : Consecutive address rows) :
    rows = [] ∨ ∃ row ∈ rows, row.address + row.instruction.opcode.size =
      address + ((rows.map Row.instruction).flatMap Instruction.bytes).length := by
  induction rows generalizing address with
  | nil => exact .inl rfl
  | cons first rows ih =>
    right
    rw [List.map_cons, List.flatMap_cons, List.length_append, Instruction.length_bytes]
    rcases ih h.2 with rfl | ⟨row,hrow,hend⟩
    · exact ⟨first,List.mem_cons_self ..,by simp [h.1]⟩
    · exact ⟨row,List.mem_cons_of_mem _ hrow,by omega⟩

namespace Assembled
variable {options : Options} {source : List Char} {program : Program} {groups gs : List Group}
  {rows : List Row} (ha : Assembled options source program groups gs rows)
include ha

theorem row_end_le {row : Row} (hrow : row ∈ rows) :
    row.address + row.instruction.opcode.size ≤ 65536 := by
  obtain ⟨i,h,hi,-,hshows⟩ := ha.exists_shown hrow
  have hspace := checkSpace_eq_ok_iff_forall.mp ha.inMemory h (List.mem_of_getElem? hi)
  simp only [Group.inMemory, Bool.and_eq_true, decide_eq_true_eq] at hspace
  rw [hshows.address_eq, ← hshows.size_eq]
  exact hspace.2

theorem length_le : program.origin.toNat + program.bytes.length ≤ 65536 := by
  rw [← ha.listing.bytes_eq]
  rcases ha.listing.consecutive.end_eq with rfl | ⟨row,hrow,hend⟩
  · simpa using program.origin.toNat_lt.le
  · exact hend ▸ ha.row_end_le hrow

end Assembled
end Assembly
end Nmos6502
