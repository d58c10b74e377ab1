import Mathlib.Logic.Function.Iterate
import Nmos6502.Proofs.ActionFrame
import Nmos6502.Proofs.LoadedImage

/-! # Straight-line programs

An operation that does not divert the program counter leaves it behind its operand: the
processor consumes as many operand bytes as the assembler laid out. A program of such
operations is therefore carried out instruction by instruction in the order of its
source, as long as it does not write over itself.
-/
namespace Nmos6502
open Assembly

/-- The operations that may go on elsewhere than behind their operand. -/
def Operation.diverts : Operation → Bool
  | .jmp | .jsr | .rts | .rti | .brk => true
  | operation => operation.isBranch

def Action.passes : Action → AddressingMode → Bool
  | .read _, _ | .store _, _ | .modify _, _ | .count _, _ => true
  | .transfer _, mode | .push _, mode | .pull _, mode => mode.operandSize == 0
  | _, _ => false

theorem Opcode.passes_of_mem_documented :
    ∀ row ∈ documented, row.2.operation.diverts = false →
      row.2.operation.action.passes row.2.mode = true := by
  decide +kernel

theorem Action.pc_of_effect {action : Action} (hk : ∀ pc, action.Keeps (·.pc = pc))
    {r : Registers} {m : Memory} {mode : AddressingMode} (hp : action.passes mode = true)
    {effect : Effect} (h : action.effect r m mode = .ok effect) :
    effect.registers.pc = r.pc + UInt16.ofNat mode.operandSize := by
  cases action with
  | read result =>
    obtain ⟨byte,-,h⟩ := bind_eq_ok_iff.mp h
    cases h
    exact hk _ _ _ rfl
  | store byte =>
    obtain ⟨address,-,h⟩ := bind_eq_ok_iff.mp h
    cases h
    rfl
  | modify change =>
    obtain ⟨byte,-,h⟩ := bind_eq_ok_iff.mp h
    split at h
    · cases h
      rfl
    · obtain ⟨address,-,h⟩ := bind_eq_ok_iff.mp h
      cases h
      rfl
  | count change =>
    obtain ⟨address,-,h⟩ := bind_eq_ok_iff.mp h
    obtain ⟨byte,-,h⟩ := bind_eq_ok_iff.mp h
    cases h
    rfl
  | transfer result =>
    have hsize : mode.operandSize = 0 := by simpa [passes] using hp
    cases h
    rw [hsize]
    exact (hk _ _ rfl).trans (UInt16.add_zero r.pc).symm
  | push byte =>
    have hsize : mode.operandSize = 0 := by simpa [passes] using hp
    cases h
    rw [hsize]
    exact (UInt16.add_zero r.pc).symm
  | pull result =>
    have hsize : mode.operandSize = 0 := by simpa [passes] using hp
    cases h
    rw [hsize]
    exact (hk _ _ _ rfl).trans (UInt16.add_zero r.pc).symm
  | _ => cases hp

/-- The cell that an instruction works on, from its operand bytes; the program counter of the
registers is behind the opcode. -/
def Instruction.cell? (i : Instruction) (r : Registers) (m : Memory) : Option UInt16 :=
  match i.opcode.mode, i.operand with
  | .zeroPage, [byte] => some byte.toUInt16
  | .zeroPageX, [byte] => some (byte + r.x).toUInt16
  | .zeroPageY, [byte] => some (byte + r.y).toUInt16
  | .absolute, [low, high] => some (word low high)
  | .absoluteX, [low, high] => some (word low high + r.x.toUInt16)
  | .absoluteY, [low, high] => some (word low high + r.y.toUInt16)
  | .indirectX, [byte] => some (m.readWord (byte + r.x).toUInt16)
  | .indirectY, [byte] => some (m.readWord byte.toUInt16 + r.y.toUInt16)
  | .indirect, [low, high] => some (m.readWord (word low high))
  | .relative, [byte] => some (branchTarget (r.pc + 1) byte)
  | _, _ => none

theorem effectiveAddress?_of_holds {i : Instruction} {r : Registers} {m : Memory}
    (h : m.Holds r.pc i.operand) : effectiveAddress? r m i.opcode.mode = i.cell? r m := by
  have hlength := i.length_operand
  unfold Instruction.cell?
  cases hmode : i.opcode.mode with
  | implicit | accumulator | immediate => rfl
  | absolute | absoluteX | absoluteY | indirect =>
    obtain ⟨low,high,hoperand⟩ := List.length_eq_two.mp (hlength.trans (by rw [hmode]; rfl))
    rw [hoperand, Memory.holds_cons, Memory.holds_cons] at h
    simp only [effectiveAddress?, Memory.readWord, hoperand, h.1, h.2.1]
  | _ =>
    obtain ⟨byte,hoperand⟩ := List.length_eq_one_iff.mp (hlength.trans (by rw [hmode]; rfl))
    rw [hoperand, Memory.holds_cons] at h
    simp only [effectiveAddress?, hoperand, h.1]

namespace Cpu
variable {c : Cpu} {i : Instruction}

/-- The processor carries out an instruction: its bytes are those at the program counter, they
tell the cell to work on, and the next state is what the operation makes of the registers and
the memory in its mode. -/
structure Runs (c : Cpu) (i : Instruction) (after : Cpu) : Prop where
  held : c.memory.Holds c.pc i.bytes
  cell?_eq : effectiveAddress? c.fetched.toRegisters c.memory i.opcode.mode =
    i.cell? c.fetched.toRegisters c.memory
  exists_effect : ∃ effect elapsed,
    i.opcode.operation.action.effect c.fetched.toRegisters c.memory i.opcode.mode = .ok effect ∧
      elapsed = i.opcode.cycles + effect.penalty ∧ after = c.fetched.apply effect elapsed ∧
      c.execute = (after, .ok elapsed)

theorem decode_of_holds (h : c.memory.Holds c.pc i.bytes) :
    decode c.opcodeByte = some i.opcode := by
  rw [Instruction.bytes, Memory.holds_cons] at h
  rw [opcodeByte, h.1, i.decode_code]

theorem pc_next {opcode : Opcode} (h : decode c.opcodeByte = some opcode)
    (hd : opcode.operation.diverts = false) : c.next.pc = c.pc + UInt16.ofNat opcode.size := by
  obtain ⟨effect,elapsed,heffect,-,hnext,-⟩ := exists_next_of_decode h
  have hpasses := Opcode.passes_of_mem_documented _ (mem_documented_of_decode h) hd
  have hpc := Action.pc_of_effect opcode.operation.keeps_pc hpasses heffect
  rw [hnext, Opcode.size, UInt16.ofNat_add, ← UInt16.add_assoc]
  exact hpc

theorem runs_of_holds (h : c.memory.Holds c.pc i.bytes) : c.Runs i c.next := by
  have hoperand : c.memory.Holds c.fetched.pc i.operand := (Memory.holds_cons.mp h).2
  exact ⟨h,effectiveAddress?_of_holds hoperand,exists_next_of_decode (decode_of_holds h)⟩

end Cpu

theorem Memory.Holds.congr {m n : Memory} {address : UInt16} {bytes : List UInt8}
    (h : m.Holds address bytes)
    (hsame : ∀ i < bytes.length,
      n.read (address + UInt16.ofNat i) = m.read (address + UInt16.ofNat i)) :
    n.Holds address bytes := by
  induction bytes generalizing address with
  | nil => exact holds_nil address
  | cons byte bytes ih =>
    rw [holds_cons] at h ⊢
    obtain ⟨hfirst,hrest⟩ := h
    refine ⟨?_,ih hrest ?_⟩
    · rw [← hfirst]
      simpa using hsame 0 (Nat.zero_lt_succ _)
    · intro i hi
      have hat := hsame (i + 1) (Nat.succ_lt_succ hi)
      rwa [UInt16.ofNat_add, UInt16.add_comm (UInt16.ofNat i), ← UInt16.add_assoc] at hat

namespace Assembly

/-- The address is one of the program's bytes. -/
def Program.Covers (program : Program) (address : UInt16) : Prop :=
  program.origin.toNat ≤ address.toNat ∧
    address.toNat < program.origin.toNat + program.bytes.length

instance (program : Program) (address : UInt16) : Decidable (program.Covers address) :=
  inferInstanceAs (Decidable (_ ∧ _))

/-- The processor has the program in memory and stands before the row with an index, or behind
the last row. -/
structure Before (program : Program) (rows : List Row) (k : ℕ) (c : Cpu) : Prop where
  held : c.memory.Holds program.origin program.bytes
  pc_eq : c.pc = UInt16.ofNat (program.origin.toNat + totalSize (rows.take k))

namespace Before
variable {source : List Char} {program : Program} {rows : List Row}
  (hl : Listing source program rows) {c : Cpu} {k : ℕ}
include hl

theorem holds_row (hb : Before program rows k c) {row : Row} (hk : rows[k]? = some row) :
    c.memory.Holds c.pc row.instruction.bytes := by
  have hheld := hb.held
  rw [← hl.bytes_eq] at hheld
  have hrow := hl.consecutive.holds_row (by rwa [UInt16.ofNat_toNat]) (List.mem_of_getElem? hk)
  rwa [hb.pc_eq, ← hl.consecutive.address_eq hk]

/-- An instruction that does not write over the program leads from one row to the next. -/
theorem next (hfit : program.origin.toNat + program.bytes.length ≤ 65536)
    (hb : Before program rows k c) {row : Row} (hk : rows[k]? = some row)
    (hd : row.written.operation.diverts = false)
    (hw : ∀ cell ∈ c.writtenCells, ¬ program.Covers cell) : Before program rows (k + 1) c.next := by
  constructor
  · apply hb.held.congr
    intro i hi
    apply Cpu.read_next_of_notMem
    intro hmem
    apply hw _ hmem
    have horigin := program.origin.toNat_lt
    rw [Program.Covers, UInt16.toNat_add, UInt16.toNat_ofNat']
    omega
  · rw [← row.operation_eq] at hd
    rw [Cpu.pc_next (Cpu.decode_of_holds (hb.holds_row hl hk)) hd, hb.pc_eq, totalSize_take_succ hk, ← Nat.add_assoc,
      UInt16.ofNat_add _ row.instruction.opcode.size]

theorem iterate (hfit : program.origin.toNat + program.bytes.length ≤ 65536)
    (hd : ∀ row ∈ rows, row.written.operation.diverts = false) (hb : Before program rows 0 c)
    (hk : k ≤ rows.length)
    (hw : ∀ j < k, ∀ cell ∈ (Cpu.next^[j] c).writtenCells, ¬ program.Covers cell) :
    Before program rows k (Cpu.next^[k] c) := by
  induction k with
  | zero => exact hb
  | succ k ih =>
    have hrow := List.getElem?_eq_getElem hk
    rw [Function.iterate_succ_apply']
    apply (ih (by omega) fun j hj => hw j (by omega)).next hl hfit hrow
    · exact hd _ (List.getElem_mem hk)
    · exact hw k (Nat.lt_succ_self k)

end Before

/-- A program without branches, jumps, returns and interrupts is carried out in its order.
As long as it does not write over itself, each call runs the next instruction of the source,
in the mode and with the operand bytes that the image has for it. -/
theorem straight_line_runs {options : Options} {source : List Char} {program : Program}
    (h : assemble options source = .ok program)
    (hs : ∀ w ∈ written source, w.operation.diverts = false) :
    ∃ rows, Listing source program rows ∧ program.origin = options.origin ∧
      rows.length = (written source).length ∧
      (∀ row ∈ rows, row.instruction.opcode.operation = row.written.operation ∧
        row.instruction.opcode.mode ∈ row.written.modes) ∧
      (∀ c : Cpu, ∃ loaded, c.load program.origin program.bytes = .ok loaded ∧
        loaded.memory.Holds program.origin program.bytes) ∧
      ∀ c : Cpu, c.memory.Holds program.origin program.bytes → c.pc = program.origin →
        ∀ k ≤ rows.length,
          (∀ j < k, ∀ cell ∈ (Cpu.next^[j] c).writtenCells, ¬ program.Covers cell) →
            (∀ (j : ℕ) (hj : j < rows.length), j < k →
              (Cpu.next^[j] c).Runs rows[j].instruction (Cpu.next^[j + 1] c)) ∧
            (Cpu.next^[k] c).pc.toNat =
              (program.origin.toNat + totalSize (rows.take k)) % 65536 := by
  obtain ⟨groups,gs,rows,ha⟩ := exists_assembled h
  have hl := ha.listing
  have hd : ∀ row ∈ rows, row.written.operation.diverts = false := by
    intro row hrow
    exact hs _ (hl.written_eq ▸ List.mem_map_of_mem hrow)
  refine ⟨rows,hl,ha.origin_eq,?_,fun row _ => ⟨row.operation_eq,row.mode_mem⟩,
    fun c => c.exists_load ha.length_le,?_⟩
  · rw [← hl.written_eq, List.length_map]
  · intro c hheld hpc k hk hw
    have hstart : Before program rows 0 c := ⟨hheld,by rw [hpc]; simp [totalSize]⟩
    constructor
    · intro j hj hjk
      have hb := hstart.iterate hl ha.length_le hd hj.le fun n hn => hw n (by omega)
      rw [Function.iterate_succ_apply']
      exact Cpu.runs_of_holds (hb.holds_row hl (List.getElem?_eq_getElem hj))
    · have hb := hstart.iterate hl ha.length_le hd hk hw
      rw [hb.pc_eq, UInt16.toNat_ofNat']

theorem exists_store_then_push : ∃ c : Cpu,
    c.memory.Holds 0x600 [0x85, 0x10, 0x48, 0xE8] ∧ c.pc = 0x600 ∧ c.writtenCells = [0x10] ∧
      c.next.writtenCells = [stackTop] := by
  let sta : Instruction := ⟨0x85,⟨.sta,.zeroPage,3⟩,[0x10],by rfl,rfl⟩
  let pha : Instruction := ⟨0x48,⟨.pha,.implicit,3⟩,[],by rfl,rfl⟩
  let c : Cpu := ⟨⟨7,0,0,0x600,stackTop,.powerUp⟩,
    Memory.zero.writeBytes 0x600 [0x85, 0x10, 0x48, 0xE8],0,0,0⟩
  have hheld : c.memory.Holds 0x600 [0x85, 0x10, 0x48, 0xE8] :=
    Memory.holds_writeBytes (by decide)
  have hsta : c.memory.Holds c.pc sta.bytes :=
    (Memory.holds_append (t := [0x48, 0xE8])).mp hheld |>.1
  have hstore : sta.opcode.operation.action.effect c.fetched.toRegisters c.memory
      sta.opcode.mode = .ok ⟨c.fetched.skip 1,[(0x10, 7)],0,0⟩ := by
    have hcell := (Cpu.runs_of_holds hsta).cell?_eq
    simp only [sta, Operation.action, Action.effect, effectiveAddress] at hcell ⊢
    rw [hcell]
    rfl
  have hnext : c.next = c.fetched.apply ⟨c.fetched.skip 1,[(0x10, 7)],0,0⟩ 3 :=
    Cpu.next_of_effect (Cpu.decode_of_holds hsta) hstore
  have hfirst : c.writtenCells = [0x10] :=
    Cpu.writtenCells_of_effect (Cpu.decode_of_holds hsta) hstore
  have hkept : c.next.memory.Holds 0x600 [0x85, 0x10, 0x48, 0xE8] := by
    apply hheld.congr
    intro i hi
    apply Cpu.read_next_of_notMem
    rw [hfirst]
    revert i
    decide
  have hpha : c.next.memory.Holds c.next.pc pha.bytes := by
    have hpc : c.next.pc = 0x602 := by
      rw [hnext]
      rfl
    rw [hpc]
    exact Memory.holds_append.mp (Memory.holds_append (s := [0x85, 0x10]).mp hkept).2 |>.1
  have hsecond : c.next.writtenCells = [stackTop] := by
    rw [Cpu.writtenCells_of_effect (Cpu.decode_of_holds hpha) rfl, hnext]
    rfl
  exact ⟨c,hheld,rfl,hfirst,hsecond⟩

theorem straight_line_runs_store_push :
    ∃ (program : Program) (c : Cpu) (store push : Instruction),
      assemble ⟨0x600,true⟩ "STA n\nPHA\nINX\nDEFINE n $10".toList = .ok program ∧
        c.memory.Holds program.origin program.bytes ∧ c.pc = program.origin ∧
        c.writtenCells = [0x10] ∧ c.next.writtenCells = [stackTop] ∧
        store.bytes = [0x85, 0x10] ∧ push.bytes = [0x48] ∧
        c.Runs store c.next ∧ c.next.Runs push c.next.next ∧ c.next.next.pc.toNat = 0x603 := by
  have h : assemble ⟨0x600,true⟩ "STA n\nPHA\nINX\nDEFINE n $10".toList =
      .ok ⟨[0x85, 0x10, 0x48, 0xE8],0x600,[⟨['N'],0x10,.constant,4⟩]⟩ := by rfl
  let sta : Row := ⟨0x600,⟨1,.sta,.direct (.name ['N'])⟩,
    ⟨0x85,⟨.sta,.zeroPage,3⟩,[0x10],by rfl,rfl⟩,rfl,by decide⟩
  let pha : Row := ⟨0x602,⟨2,.pha,.empty⟩,⟨0x48,⟨.pha,.implicit,3⟩,[],by rfl,rfl⟩,rfl,by decide⟩
  let inx : Row := ⟨0x603,⟨3,.inx,.empty⟩,⟨0xE8,⟨.inx,.implicit,2⟩,[],by rfl,rfl⟩,rfl,by decide⟩
  obtain ⟨c,hheld,hstart,hfirst,hsecond⟩ := exists_store_then_push
  obtain ⟨rows,hlisting,-,-,-,-,hrun⟩ := straight_line_runs h (by
    rw [show written _ = [sta.written,pha.written,inx.written] by rfl]
    decide)
  obtain rfl : rows = [sta,pha,inx] := hlisting.unique ⟨rfl,rfl,by simp [Consecutive]; decide⟩
  obtain ⟨hruns,hpc⟩ := hrun c hheld hstart 2 (by decide) (by
    intro j hj cell hcell
    rcases j with _ | _ | j
    · obtain rfl : cell = 0x10 := by simpa [hfirst] using hcell
      decide
    · obtain rfl : cell = stackTop := by simpa [hsecond] using hcell
      decide
    · omega)
  have hend : ((0x600 : UInt16).toNat + totalSize ([sta,pha,inx].take 2)) % 65536 = 0x603 := by decide
  refine ⟨_,c,sta.instruction,pha.instruction,h,hheld,hstart,hfirst,hsecond,rfl,rfl,
    hruns 0 (by decide) (by decide),hruns 1 (by decide) (by decide),?_⟩
  rw [Function.iterate_succ_apply, Function.iterate_one] at hpc
  exact hpc.trans hend

end Assembly
end Nmos6502
