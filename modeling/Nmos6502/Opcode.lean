import Nmos6502.AddressingMode
import Nmos6502.Operation

/-! # Opcodes

The instruction set: for every operation the modes it takes, the opcode byte of each
and its cycles before penalties. Decoding a byte and encoding an operation in a mode
are inverse to each other on the 151 documented opcodes.
-/
namespace Nmos6502

structure Form where
  mode : AddressingMode
  code : UInt8
  cycles : Nat
  deriving DecidableEq, Repr

def Operation.forms : Operation → List Form
  | .adc => [⟨.immediate, 0x69, 2⟩, ⟨.zeroPage, 0x65, 3⟩, ⟨.zeroPageX, 0x75, 4⟩,
      ⟨.absolute, 0x6D, 4⟩, ⟨.absoluteX, 0x7D, 4⟩, ⟨.absoluteY, 0x79, 4⟩, ⟨.indirectX, 0x61, 6⟩,
      ⟨.indirectY, 0x71, 5⟩]
  | .and => [⟨.immediate, 0x29, 2⟩, ⟨.zeroPage, 0x25, 3⟩, ⟨.zeroPageX, 0x35, 4⟩,
      ⟨.absolute, 0x2D, 4⟩, ⟨.absoluteX, 0x3D, 4⟩, ⟨.absoluteY, 0x39, 4⟩, ⟨.indirectX, 0x21, 6⟩,
      ⟨.indirectY, 0x31, 5⟩]
  | .asl => [⟨.accumulator, 0x0A, 2⟩, ⟨.zeroPage, 0x06, 5⟩, ⟨.zeroPageX, 0x16, 6⟩,
      ⟨.absolute, 0x0E, 6⟩, ⟨.absoluteX, 0x1E, 7⟩]
  | .bcc => [⟨.relative, 0x90, 2⟩]
  | .bcs => [⟨.relative, 0xB0, 2⟩]
  | .beq => [⟨.relative, 0xF0, 2⟩]
  | .bit => [⟨.zeroPage, 0x24, 3⟩, ⟨.absolute, 0x2C, 4⟩]
  | .bmi => [⟨.relative, 0x30, 2⟩]
  | .bne => [⟨.relative, 0xD0, 2⟩]
  | .bpl => [⟨.relative, 0x10, 2⟩]
  | .brk => [⟨.implicit, 0x00, 7⟩]
  | .bvc => [⟨.relative, 0x50, 2⟩]
  | .bvs => [⟨.relative, 0x70, 2⟩]
  | .clc => [⟨.implicit, 0x18, 2⟩]
  | .cld => [⟨.implicit, 0xD8, 2⟩]
  | .cli => [⟨.implicit, 0x58, 2⟩]
  | .clv => [⟨.implicit, 0xB8, 2⟩]
  | .cmp => [⟨.immediate, 0xC9, 2⟩, ⟨.zeroPage, 0xC5, 3⟩, ⟨.zeroPageX, 0xD5, 4⟩,
      ⟨.absolute, 0xCD, 4⟩, ⟨.absoluteX, 0xDD, 4⟩, ⟨.absoluteY, 0xD9, 4⟩, ⟨.indirectX, 0xC1, 6⟩,
      ⟨.indirectY, 0xD1, 5⟩]
  | .cpx => [⟨.immediate, 0xE0, 2⟩, ⟨.zeroPage, 0xE4, 3⟩, ⟨.absolute, 0xEC, 4⟩]
  | .cpy => [⟨.immediate, 0xC0, 2⟩, ⟨.zeroPage, 0xC4, 3⟩, ⟨.absolute, 0xCC, 4⟩]
  | .dec => [⟨.zeroPage, 0xC6, 5⟩, ⟨.zeroPageX, 0xD6, 6⟩, ⟨.absolute, 0xCE, 6⟩,
      ⟨.absoluteX, 0xDE, 7⟩]
  | .dex => [⟨.implicit, 0xCA, 2⟩]
  | .dey => [⟨.implicit, 0x88, 2⟩]
  | .eor => [⟨.immediate, 0x49, 2⟩, ⟨.zeroPage, 0x45, 3⟩, ⟨.zeroPageX, 0x55, 4⟩,
      ⟨.absolute, 0x4D, 4⟩, ⟨.absoluteX, 0x5D, 4⟩, ⟨.absoluteY, 0x59, 4⟩, ⟨.indirectX, 0x41, 6⟩,
      ⟨.indirectY, 0x51, 5⟩]
  | .inc => [⟨.zeroPage, 0xE6, 5⟩, ⟨.zeroPageX, 0xF6, 6⟩, ⟨.absolute, 0xEE, 6⟩,
      ⟨.absoluteX, 0xFE, 7⟩]
  | .inx => [⟨.implicit, 0xE8, 2⟩]
  | .iny => [⟨.implicit, 0xC8, 2⟩]
  | .jmp => [⟨.absolute, 0x4C, 3⟩, ⟨.indirect, 0x6C, 5⟩]
  | .jsr => [⟨.absolute, 0x20, 6⟩]
  | .lda => [⟨.immediate, 0xA9, 2⟩, ⟨.zeroPage, 0xA5, 3⟩, ⟨.zeroPageX, 0xB5, 4⟩,
      ⟨.absolute, 0xAD, 4⟩, ⟨.absoluteX, 0xBD, 4⟩, ⟨.absoluteY, 0xB9, 4⟩, ⟨.indirectX, 0xA1, 6⟩,
      ⟨.indirectY, 0xB1, 5⟩]
  | .ldx => [⟨.immediate, 0xA2, 2⟩, ⟨.zeroPage, 0xA6, 3⟩, ⟨.zeroPageY, 0xB6, 4⟩,
      ⟨.absolute, 0xAE, 4⟩, ⟨.absoluteY, 0xBE, 4⟩]
  | .ldy => [⟨.immediate, 0xA0, 2⟩, ⟨.zeroPage, 0xA4, 3⟩, ⟨.zeroPageX, 0xB4, 4⟩,
      ⟨.absolute, 0xAC, 4⟩, ⟨.absoluteX, 0xBC, 4⟩]
  | .lsr => [⟨.accumulator, 0x4A, 2⟩, ⟨.zeroPage, 0x46, 5⟩, ⟨.zeroPageX, 0x56, 6⟩,
      ⟨.absolute, 0x4E, 6⟩, ⟨.absoluteX, 0x5E, 7⟩]
  | .nop => [⟨.implicit, 0xEA, 2⟩]
  | .ora => [⟨.immediate, 0x09, 2⟩, ⟨.zeroPage, 0x05, 3⟩, ⟨.zeroPageX, 0x15, 4⟩,
      ⟨.absolute, 0x0D, 4⟩, ⟨.absoluteX, 0x1D, 4⟩, ⟨.absoluteY, 0x19, 4⟩, ⟨.indirectX, 0x01, 6⟩,
      ⟨.indirectY, 0x11, 5⟩]
  | .pha => [⟨.implicit, 0x48, 3⟩]
  | .php => [⟨.implicit, 0x08, 3⟩]
  | .pla => [⟨.implicit, 0x68, 4⟩]
  | .plp => [⟨.implicit, 0x28, 4⟩]
  | .rol => [⟨.accumulator, 0x2A, 2⟩, ⟨.zeroPage, 0x26, 5⟩, ⟨.zeroPageX, 0x36, 6⟩,
      ⟨.absolute, 0x2E, 6⟩, ⟨.absoluteX, 0x3E, 7⟩]
  | .ror => [⟨.accumulator, 0x6A, 2⟩, ⟨.zeroPage, 0x66, 5⟩, ⟨.zeroPageX, 0x76, 6⟩,
      ⟨.absolute, 0x6E, 6⟩, ⟨.absoluteX, 0x7E, 7⟩]
  | .rti => [⟨.implicit, 0x40, 6⟩]
  | .rts => [⟨.implicit, 0x60, 6⟩]
  | .sbc => [⟨.immediate, 0xE9, 2⟩, ⟨.zeroPage, 0xE5, 3⟩, ⟨.zeroPageX, 0xF5, 4⟩,
      ⟨.absolute, 0xED, 4⟩, ⟨.absoluteX, 0xFD, 4⟩, ⟨.absoluteY, 0xF9, 4⟩, ⟨.indirectX, 0xE1, 6⟩,
      ⟨.indirectY, 0xF1, 5⟩]
  | .sec => [⟨.implicit, 0x38, 2⟩]
  | .sed => [⟨.implicit, 0xF8, 2⟩]
  | .sei => [⟨.implicit, 0x78, 2⟩]
  | .sta => [⟨.zeroPage, 0x85, 3⟩, ⟨.zeroPageX, 0x95, 4⟩, ⟨.absolute, 0x8D, 4⟩,
      ⟨.absoluteX, 0x9D, 5⟩, ⟨.absoluteY, 0x99, 5⟩, ⟨.indirectX, 0x81, 6⟩, ⟨.indirectY, 0x91, 6⟩]
  | .stx => [⟨.zeroPage, 0x86, 3⟩, ⟨.zeroPageY, 0x96, 4⟩, ⟨.absolute, 0x8E, 4⟩]
  | .sty => [⟨.zeroPage, 0x84, 3⟩, ⟨.zeroPageX, 0x94, 4⟩, ⟨.absolute, 0x8C, 4⟩]
  | .tax => [⟨.implicit, 0xAA, 2⟩]
  | .tay => [⟨.implicit, 0xA8, 2⟩]
  | .tsx => [⟨.implicit, 0xBA, 2⟩]
  | .txa => [⟨.implicit, 0x8A, 2⟩]
  | .txs => [⟨.implicit, 0x9A, 2⟩]
  | .tya => [⟨.implicit, 0x98, 2⟩]

structure Opcode where
  operation : Operation
  mode : AddressingMode
  cycles : Nat
  deriving DecidableEq, Repr

namespace Opcode

def size (opcode : Opcode) : Nat := 1 + opcode.mode.operandSize

/-- Every opcode byte with its meaning, listed by operation. -/
def documented : List (UInt8 × Opcode) :=
  Operation.all.flatMap fun operation =>
    operation.forms.map fun form => (form.code, ⟨operation, form.mode, form.cycles⟩)

end Opcode

def decode (byte : UInt8) : Option Opcode := Opcode.documented.lookup byte

def encode (operation : Operation) (mode : AddressingMode) : Option UInt8 :=
  (operation.forms.find? (·.mode == mode)).map (·.code)

def supports (operation : Operation) (mode : AddressingMode) : Bool :=
  (encode operation mode).isSome

namespace Opcode

theorem encode_of_mem_documented :
    ∀ row ∈ documented, encode row.2.operation row.2.mode = some row.1 := by
  decide +kernel

theorem two_le_cycles_of_mem_documented : ∀ row ∈ documented, 2 ≤ row.2.cycles := by
  decide +kernel

theorem isBranch_iff_of_mem_documented :
    ∀ row ∈ documented, row.2.operation.isBranch = true ↔ row.2.mode = .relative := by
  decide +kernel

theorem not_implicit_of_mem_documented :
    ∀ row ∈ documented, row.2.mode = .accumulator → supports row.2.operation .implicit = false := by
  decide +kernel

theorem lookup_of_mem_documented : ∀ row ∈ documented, documented.lookup row.1 = some row.2 := by
  decide +kernel

theorem mem_documented_of_lookup {byte : UInt8} {opcode : Opcode} :
    documented.lookup byte = some opcode → (byte, opcode) ∈ documented := by
  generalize documented = rows
  intro h
  induction rows with
  | nil => simp at h
  | cons row rows ih =>
    obtain ⟨code, meaning⟩ := row
    rw [List.lookup_cons] at h
    split at h
    · simp_all
    · exact List.mem_cons_of_mem _ (ih h)

end Opcode

theorem mem_documented_of_decode {byte : UInt8} {opcode : Opcode} (h : decode byte = some opcode) :
    (byte, opcode) ∈ Opcode.documented :=
  Opcode.mem_documented_of_lookup h

theorem two_le_cycles_of_decode {byte : UInt8} {opcode : Opcode} (h : decode byte = some opcode) :
    2 ≤ opcode.cycles :=
  Opcode.two_le_cycles_of_mem_documented _ (mem_documented_of_decode h)

theorem isBranch_iff_of_decode {byte : UInt8} {opcode : Opcode} (h : decode byte = some opcode) :
    opcode.operation.isBranch = true ↔ opcode.mode = .relative :=
  Opcode.isBranch_iff_of_mem_documented _ (mem_documented_of_decode h)

theorem not_implicit_of_decode {byte : UInt8} {opcode : Opcode} (h : decode byte = some opcode)
    (hm : opcode.mode = .accumulator) : supports opcode.operation .implicit = false :=
  Opcode.not_implicit_of_mem_documented _ (mem_documented_of_decode h) hm

theorem encode_of_decode {byte : UInt8} {opcode : Opcode} (h : decode byte = some opcode) :
    encode opcode.operation opcode.mode = some byte :=
  Opcode.encode_of_mem_documented _ (mem_documented_of_decode h)

theorem decode_of_encode {operation : Operation} {mode : AddressingMode} {byte : UInt8}
    (h : encode operation mode = some byte) :
    ∃ cycles, decode byte = some ⟨operation, mode, cycles⟩ := by
  obtain ⟨form, hform, rfl⟩ := Option.map_eq_some_iff.mp h
  have hmode : form.mode = mode := by simpa using List.find?_some hform
  refine ⟨form.cycles, ?_⟩
  apply Opcode.lookup_of_mem_documented (form.code, _)
  simp only [Opcode.documented, List.mem_flatMap, List.mem_map]
  exact ⟨operation, operation.mem_all, form, List.mem_of_find?_eq_some hform, by rw [hmode]⟩

end Nmos6502
