import Nmos6502.Proofs.Agreement
import Nmos6502.Proofs.Effects
import Nmos6502.Proofs.LoadedImage

/-! # Branches that go where they name

The assembler writes the distance of a branch modulo 256. The processor counts forward
by an offset byte below 128, and backward by the excess over 128 of any other. The two
codings meet for every forward branch and for one backward distance alone, which is 64.
-/
namespace Nmos6502
open Assembly WidthChoice

/-- How far from the end of the branch an offset byte leads. -/
def reach (offset : UInt8) : ℤ := if offset < 0x80 then offset.toNat else 128 - (offset.toNat : ℤ)

/-- The operation is a branch, and the flags let it be taken. -/
def Operation.Takes (operation : Operation) (status : Status) : Prop :=
  ∃ flag value, operation.action = .branch flag value ∧ status.get flag = value

theorem Operation.takes_iff_get {operation : Operation} {flag : Flag} {value : Bool}
    (h : operation.action = .branch flag value) (status : Status) :
    operation.Takes status ↔ status.get flag = value := by
  constructor
  · rintro ⟨flag',value',haction,htaken⟩
    cases h.symm.trans haction
    exact htaken
  · exact fun htaken => ⟨flag,value,h,htaken⟩

def Assembly.Row.distance (row : Row) (value : UInt16) : ℤ := value.toNat - (row.address + 2)

theorem toNat_branchTarget (next : UInt16) (offset : UInt8) :
    ((branchTarget next offset).toNat : ℤ) = (next.toNat + reach offset) % 65536 := by
  have hoffset := offset.toNat_lt
  have hnext := next.toNat_lt
  unfold branchTarget reach
  simp only [UInt8.lt_iff_toNat_lt, UInt8.reduceToNat]
  split
  · simp only [UInt16.toNat_add, UInt8.toNat_toUInt16]
    omega
  · have hsub : (offset - 0x80).toNat = offset.toNat - 128 := by
      rw [UInt8.toNat_sub_of_le]
      · rfl
      · rw [UInt8.le_iff_toNat_le]
        simpa using by omega
    simp only [UInt16.toNat_sub, UInt8.toNat_toUInt16, hsub]
    omega

theorem Cpu.execute_branch {c : Cpu} {i : Instruction} {offset : UInt8}
    (hm : c.memory.Holds c.pc i.bytes) (ho : i.operand = [offset])
    (ht : i.opcode.operation.Takes c.status) :
    ∃ next cycles, c.execute = (next, .ok cycles) ∧
      next.pc = branchTarget (c.pc + 2) offset := by
  obtain ⟨flag,value,haction,hflag⟩ := ht
  rw [Instruction.bytes, ho, Memory.holds_cons, Memory.holds_cons] at hm
  obtain ⟨hcode,hoffset,-⟩ := hm
  have hdecode : decode c.opcodeByte = some i.opcode := by
    rw [Cpu.opcodeByte, hcode, i.decode_code]
  have hnext : (c.fetched.toRegisters.skip 1).pc = c.pc + 2 := by
    change c.pc + 1 + 1 = c.pc + 2
    rw [UInt16.add_assoc]
    rfl
  have heffect : i.opcode.operation.action.effect c.fetched.toRegisters c.memory i.opcode.mode =
      .ok { registers := { c.fetched.toRegisters.skip 1 with pc := branchTarget (c.pc + 2) offset },
            extraCycles := 1 + crossingCycle (c.pc + 2) (branchTarget (c.pc + 2) offset) } := by
    have htaken : c.fetched.toRegisters.status.get flag = value := hflag
    have hread : c.memory.read c.fetched.toRegisters.pc = offset := hoffset
    simp only [haction, Action.effect, if_pos htaken, hnext, hread]
  exact ⟨_,_,Cpu.execute_of_effect hdecode heffect,rfl⟩

theorem branchTarget_eq_iff {address : ℕ} {next value : UInt16} {offset : UInt8}
    (hnext : (next.toNat : ℤ) = (address + 2) % 65536)
    (hlow : -128 ≤ (value.toNat : ℤ) - (address + 2))
    (hhigh : (value.toNat : ℤ) - (address + 2) ≤ 127) :
    branchTarget next offset = value ↔ reach offset = (value.toNat : ℤ) - (address + 2) := by
  have htarget := toNat_branchTarget next offset
  have hoffset := offset.toNat_lt
  have hvalue := value.toNat_lt
  have hreach : -127 ≤ reach offset ∧ reach offset ≤ 127 := by
    unfold reach
    simp only [UInt8.lt_iff_toNat_lt, UInt8.reduceToNat]
    split <;> omega
  rw [← UInt16.toNat_inj]
  constructor
  · intro h
    rw [h] at htarget
    omega
  · intro h
    rw [h] at htarget
    omega

/-- For the distance modulo 256 the byte leads as far as the distance only forward, or 64 back. -/
theorem reach_eq_iff {offset : UInt8} {distance : ℤ} (hoffset : (offset.toNat : ℤ) = distance % 256)
    (hlow : -128 ≤ distance) (hhigh : distance ≤ 127) :
    reach offset = distance ↔ 0 ≤ distance ∨ distance = -64 := by
  unfold reach
  simp only [UInt8.lt_iff_toNat_lt, UInt8.reduceToNat]
  split <;> omega

namespace Assembly

theorem Group.displacement_range {gs : List Group} {h : Group} (hrange : h.rangeError? gs = none)
    (hemits : h.emits = true) (hb : h.branch = true) {name : List Char}
    (hn : h.awaited? = some name) {symbol : Symbol} (hl : lookup gs name = some symbol) :
    -128 ≤ h.displacement symbol.value ∧ h.displacement symbol.value ≤ 127 := by
  obtain ⟨modes,hs⟩ := Group.awaited?_eq_some_iff.mp hn
  simpa [Group.rangeError?, hemits, hb, hs, hl] using hrange

namespace Assembled
variable {options : Options} {source : List Char} {program : Program} {groups gs : List Group}
  {rows : List Row} (ha : Assembled options source program groups gs rows)
include ha

theorem distance_range (hstrict : options.checkRange = true) {row : Row} (hrow : row ∈ rows)
    (hb : row.written.operation.isBranch = true) {name : List Char}
    (hname : row.written.operand.value = .name name) {symbol : Symbol}
    (hsymbol : program.symbol? name = some symbol) :
    -128 ≤ row.distance symbol.value ∧ row.distance symbol.value ≤ 127 := by
  obtain ⟨i,h,hi,hemits,hshows⟩ := ha.exists_shown hrow
  obtain ⟨g,hw,hv⟩ := hshows.of_group
  have hbranch : h.branch = true := (hv.branch_eq.trans (Written.branch_eq hw)).trans hb
  have hrange := Group.displacement_range
    (checkBranches_eq_ok_iff.mp (ha.inRange hstrict) h (List.mem_of_getElem? hi)) hemits hbranch
    (hshows.awaited?_eq_some_iff.mpr hname) ((ha.symbol?_eq name).symm.trans hsymbol)
  rwa [Group.displacement, hshows.next_eq hb] at hrange

end Assembled
end Assembly

/-- Where a strictly assembled branch goes when it is taken: to the symbol that it names
exactly if its offset byte leads as far as the symbol is away. If the least choice of
widths lies in memory, that is so forward and at a distance of 64 backward. -/
theorem branch_reaches_iff {origin : UInt16} {source : List Char} {program : Program}
    (h : assemble ⟨origin,true⟩ source = .ok program) :
    ∃ groups rows, parseSource source = .ok groups ∧ Listing source program rows ∧
      program.origin = origin ∧
      (∀ c : Cpu, ∃ loaded, c.load program.origin program.bytes = .ok loaded ∧
        loaded.memory.Holds program.origin program.bytes) ∧
      ∀ row ∈ rows, row.written.operation.isBranch = true → ∀ name,
        row.written.operand.value = .name name → ∃ symbol offset,
          program.symbol? name = some symbol ∧ row.instruction.operand = [offset] ∧
          -128 ≤ row.distance symbol.value ∧ row.distance symbol.value ≤ 127 ∧
          ∀ c : Cpu, c.memory.Holds program.origin program.bytes → c.pc.toNat = row.address →
            row.written.operation.Takes c.status → ∃ next cycles, c.execute = (next, .ok cycles) ∧
              (next.pc = symbol.value ↔ reach offset = row.distance symbol.value) ∧
              (InMemory origin.toNat groups (least origin.toNat groups) →
                (next.pc = symbol.value ↔
                  0 ≤ row.distance symbol.value ∨ row.distance symbol.value = -64)) := by
  obtain ⟨groups,gs,rows,ha⟩ := exists_assembled h
  refine ⟨groups,rows,ha.parsed,ha.listing,ha.origin_eq,fun c => c.exists_load ha.length_le,?_⟩
  intro row hrow hb name hname
  obtain ⟨symbol,hsymbol⟩ := ha.exists_symbol hrow hname
  obtain ⟨offset,hoffset⟩ := Row.operand_of_isBranch hb
  obtain ⟨hlow,hhigh⟩ := ha.distance_range rfl hrow hb hname hsymbol
  refine ⟨symbol,offset,hsymbol,hoffset,hlow,hhigh,fun c hheld hpc htakes => ?_⟩
  rw [← ha.listing.bytes_eq] at hheld
  have hconsecutive := ha.listing.consecutive
  have hinstruction := Consecutive.holds_row hconsecutive (by rwa [UInt16.ofNat_toNat]) hrow
  rw [← hpc, UInt16.ofNat_toNat] at hinstruction
  rw [← row.operation_eq] at htakes
  obtain ⟨next,cycles,hexecute,hnext⟩ := Cpu.execute_branch hinstruction hoffset htakes
  have hend : ((c.pc + 2).toNat : ℤ) = (row.address + 2) % 65536 := by
    rw [UInt16.toNat_add, ← hpc]
    rfl
  have hreach : branchTarget (c.pc + 2) offset = symbol.value ↔
      reach offset = row.distance symbol.value := branchTarget_eq_iff hend hlow hhigh
  refine ⟨next,cycles,hexecute,hnext ▸ hreach,fun hmem => ?_⟩
  obtain ⟨symbol',hsymbol',hencodes⟩ :=
    ha.agree_iff_filled.mpr (ha.filled_iff.mpr hmem) row hrow name hname
  cases hsymbol.symm.trans hsymbol'
  rw [Row.Encodes, if_pos hb, hoffset, List.map_singleton, List.singleton_inj] at hencodes
  rw [hnext, hreach]
  exact reach_eq_iff hencodes hlow hhigh

theorem forward_branch_reaches :
    ∃ (program : Program) (symbol : Symbol) (c next : Cpu) (cycles : ℕ),
      assemble ⟨0x600,true⟩ "BEQ x\nNOP\nx:".toList = .ok program ∧
        program.symbol? ['X'] = some symbol ∧ c.memory.Holds program.origin program.bytes ∧
        c.pc = 0x600 ∧ Operation.beq.Takes c.status ∧ c.execute = (next, .ok cycles) ∧
        next.pc = symbol.value := by
  have h : assemble ⟨0x600,true⟩ "BEQ x\nNOP\nx:".toList =
      .ok ⟨[0xF0, 0x01, 0xEA],0x600,[⟨['X'],0x603,.label,3⟩]⟩ := by rfl
  obtain ⟨groups,rows,hsource,hlisting,-,-,hall⟩ := branch_reaches_iff h
  obtain ⟨row,rest,hrows,hwritten,-⟩ := List.map_eq_cons_iff.mp
    (hlisting.written_eq.trans (by rfl : _ = ⟨1,.beq,.direct (.name ['X'])⟩ :: [⟨2,.nop,.empty⟩]))
  subst hrows
  have haddress : row.address = 0x600 := hlisting.consecutive.1
  obtain ⟨symbol,offset,hsymbol,hoffset,-,-,hrun⟩ := hall row (List.mem_cons_self ..)
    (by rw [hwritten]; rfl) ['X'] (by rw [hwritten]; rfl)
  cases hsymbol
  let c : Cpu := ⟨⟨0,0,0,0x600,stackTop,.powerUp⟩,
    Memory.zero.writeBytes 0x600 [0xF0, 0x01, 0xEA],0,0,0⟩
  have hheld : c.memory.Holds 0x600 [0xF0, 0x01, 0xEA] := Memory.holds_writeBytes (by decide)
  have htakes : Operation.beq.Takes c.status := ⟨.zero,true,rfl,rfl⟩
  obtain ⟨next,cycles,hexecute,-,hiff⟩ := hrun c hheld haddress.symm (hwritten ▸ htakes)
  refine ⟨_,_,c,next,cycles,h,rfl,hheld,rfl,htakes,hexecute,(hiff ?_).mpr (.inl ?_)⟩
  · cases hsource
    refine InMemory.anti (least_le (W := ⊥) ?_) ?_
    · funext i
      rcases i with _ | _ | _ | i <;> rfl
    · rw [InMemory]
      decide
  · rw [Row.distance, haddress]
    decide

/-- A branch back to itself does not: from the byte FE the processor goes back by 126. -/
theorem backward_branch_misses :
    ∃ (program : Program) (symbol : Symbol) (c next : Cpu) (cycles : ℕ),
      assemble ⟨0x600,true⟩ "loop:\nBEQ loop".toList = .ok program ∧
        program.symbol? ['L', 'O', 'O', 'P'] = some symbol ∧
        c.memory.Holds program.origin program.bytes ∧ c.pc = 0x600 ∧
        Operation.beq.Takes c.status ∧ c.execute = (next, .ok cycles) ∧
        next.pc = 0x584 ∧ symbol.value = 0x600 := by
  let c : Cpu := ⟨⟨0,0,0,0x600,stackTop,.powerUp⟩,Memory.zero.writeBytes 0x600 [0xF0, 0xFE],0,0,0⟩
  let i : Instruction := ⟨0xF0,⟨.beq,.relative,2⟩,[0xFE],by rfl,rfl⟩
  have hheld : c.memory.Holds 0x600 i.bytes := Memory.holds_writeBytes (by decide)
  have htakes : Operation.beq.Takes c.status := ⟨.zero,true,rfl,rfl⟩
  obtain ⟨next,cycles,hexecute,hnext⟩ := Cpu.execute_branch hheld rfl htakes
  exact ⟨⟨[0xF0, 0xFE],0x600,[⟨['L', 'O', 'O', 'P'],0x600,.label,1⟩]⟩,_,c,next,cycles,by rfl,
    rfl,hheld,rfl,htakes,hexecute,hnext.trans (by decide),rfl⟩

end Nmos6502
