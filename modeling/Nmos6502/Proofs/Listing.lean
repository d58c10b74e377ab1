import Mathlib.Algebra.GroupWithZero.Nat
import Mathlib.Data.List.Basic
import Nmos6502.Assembly.Program

/-! # Listings

An assembled program beside its source: for every instruction that the source writes,
in order, the address at which it lies, the opcode byte with the operation and mode
that it stands for, and the operand bytes. The opcode tells how many bytes follow it,
so an image is cut into instructions in one way only.
-/
namespace Nmos6502

/-- A documented opcode byte with the operand bytes that its mode takes. -/
structure Instruction where
  code : UInt8
  opcode : Opcode
  operand : List UInt8
  decode_code : decode code = some opcode
  length_operand : operand.length = opcode.mode.operandSize

namespace Instruction

def bytes (i : Instruction) : List UInt8 := i.code :: i.operand

@[simp] theorem length_bytes (i : Instruction) : i.bytes.length = i.opcode.size := by
  simp only [bytes, List.length_cons, i.length_operand, Opcode.size]
  omega

theorem ext_bytes {i j : Instruction} (h : i.bytes = j.bytes) : i = j := by
  obtain ⟨code, opcode, operand, hi, hl⟩ := i
  obtain ⟨code', opcode', operand', hj, hl'⟩ := j
  simp only [bytes, List.cons.injEq] at h
  obtain ⟨rfl, rfl⟩ := h
  obtain rfl : opcode = opcode' := Option.some.inj (hi.symm.trans hj)
  rfl

theorem opcode_eq {i j : Instruction} (h : i.code = j.code) : i.opcode = j.opcode :=
  Option.some.inj (i.decode_code.symm.trans (h ▸ j.decode_code))

theorem bytes_append_inj {i j : Instruction} {s t : List UInt8}
    (h : i.bytes ++ s = j.bytes ++ t) : i = j ∧ s = t := by
  have hcode : i.code = j.code := by
    simp only [bytes, List.cons_append, List.cons.injEq] at h
    exact h.1
  obtain ⟨hb,hs⟩ := List.append_inj h (by rw [length_bytes, length_bytes, opcode_eq hcode])
  exact ⟨ext_bytes hb,hs⟩

theorem flatMap_bytes_injective : Function.Injective (List.flatMap bytes) := by
  intro is js h
  induction is generalizing js with
  | nil =>
    cases js with
    | nil => rfl
    | cons j js => simp [bytes] at h
  | cons i is ih =>
    cases js with
    | nil => simp [bytes] at h
    | cons j js =>
      obtain ⟨rfl,hs⟩ := bytes_append_inj (by simpa only [List.flatMap_cons] using h)
      rw [ih hs]

end Instruction

namespace Assembly

/-- An instruction as a source writes it, the operand read as its operation reads it. -/
structure Written where
  line : ℕ
  operation : Operation
  operand : Operand

/-- The modes that the written syntax may stand for. -/
def Written.modes (w : Written) : List AddressingMode := Statement.modes w.operation w.operand

def Written.group? (w : Written) : Option Group :=
  Statement.instructionGroup? w.line w.operation w.operand

def SourceLine.written? (number : ℕ) (line : SourceLine) : Option Written :=
  match line.statement? with
  | some (.instruct operation operand _) => some ⟨number, operation, operand.reading operation⟩
  | _ => none

def writtenFrom : ℕ → List (List Char) → List Written
  | _, [] => []
  | number, text :: rest =>
    match SourceLine.parse text with
    | .ok line => (line.written? number).toList ++ writtenFrom (number + 1) rest
    | .error _ => writtenFrom (number + 1) rest

def written (source : List Char) : List Written := writtenFrom 1 (Text.lines source)

/-- A written instruction with the bytes that stand for it and their address. -/
structure Row where
  address : ℕ
  written : Written
  instruction : Instruction
  operation_eq : instruction.opcode.operation = written.operation
  mode_mem : instruction.opcode.mode ∈ written.modes

def Consecutive : ℕ → List Row → Prop
  | _, [] => True
  | address, row :: rows =>
    row.address = address ∧ Consecutive (address + row.instruction.opcode.size) rows

def totalSize (rows : List Row) : ℕ := (rows.map (·.instruction.opcode.size)).sum

/-- The rows show what a source writes beside what a program holds. -/
structure Listing (source : List Char) (program : Program) (rows : List Row) : Prop where
  written_eq : rows.map Row.written = written source
  bytes_eq : (rows.map Row.instruction).flatMap Instruction.bytes = program.bytes
  consecutive : Consecutive program.origin.toNat rows

theorem Consecutive.address_eq {address : ℕ} {rows : List Row} (h : Consecutive address rows)
    {k : ℕ} {row : Row} (hk : rows[k]? = some row) :
    row.address = address + totalSize (rows.take k) := by
  induction rows generalizing address k with
  | nil => simp at hk
  | cons first rows ih =>
    obtain ⟨hfirst,hrest⟩ := h
    cases k with
    | zero =>
      cases hk
      simpa [totalSize] using hfirst
    | succ k =>
      have hrow := ih hrest hk
      simp only [totalSize, List.take_succ_cons, List.map_cons, List.sum_cons] at hrow ⊢
      omega

theorem totalSize_take_succ {rows : List Row} {k : ℕ} {row : Row} (hk : rows[k]? = some row) :
    totalSize (rows.take (k + 1)) = totalSize (rows.take k) + row.instruction.opcode.size := by
  simp [totalSize, List.take_add_one, hk]

theorem Row.ext_of {r s : Row} (ha : r.address = s.address) (hw : r.written = s.written)
    (hi : r.instruction = s.instruction) : r = s := by
  cases r
  cases s
  simp_all

theorem Consecutive.ext {address : ℕ} {rows rows' : List Row}
    (h : Consecutive address rows) (h' : Consecutive address rows')
    (hw : rows.map Row.written = rows'.map Row.written)
    (hi : rows.map Row.instruction = rows'.map Row.instruction) : rows = rows' := by
  induction rows generalizing address rows' with
  | nil =>
    cases rows' with
    | nil => rfl
    | cons s rows' => simp at hw
  | cons r rows ih =>
    cases rows' with
    | nil => simp at hw
    | cons s rows' =>
      simp only [List.map_cons, List.cons.injEq] at hw hi
      obtain ⟨ha,hr⟩ := h
      obtain ⟨hb,hs⟩ := h'
      rw [Row.ext_of (ha.trans hb.symm) hw.1 hi.1, ih hr (by rw [hi.1]; exact hs) hw.2 hi.2]

theorem Listing.unique {source : List Char} {program : Program} {rows rows' : List Row}
    (h : Listing source program rows) (h' : Listing source program rows') : rows = rows' :=
  h.consecutive.ext h'.consecutive (h.written_eq.trans h'.written_eq.symm)
    (Instruction.flatMap_bytes_injective (h.bytes_eq.trans h'.bytes_eq.symm))

end Assembly
end Nmos6502
