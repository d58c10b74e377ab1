import Nmos6502.Proofs.Convergence
import Nmos6502.Proofs.Rows

/-! # Operands and symbols

An operand that names a symbol should be what the value of the symbol asks for. In an
assembled program that is so for all operands exactly if the least choice of widths
lies in memory. Otherwise values are cut off at 16 bits while names are resolved, the
widths need not settle, and the last pass can leave an operand behind.
-/
namespace Nmos6502.Assembly
open WidthChoice

/-- The written syntax stands for a mode with one operand byte and for one with two. -/
def Written.HasBothForms (w : Written) : Prop :=
  (∃ mode ∈ w.modes, mode.operandSize = 1) ∧ ∃ mode ∈ w.modes, mode.operandSize = 2

/-- The operand bytes of the row are those for a value: a branch has the distance from
its end, modulo 256, any other instruction the value itself. -/
def Row.Encodes (row : Row) (value : UInt16) : Prop :=
  if row.written.operation.isBranch then
    row.instruction.operand.map (fun b => (b.toNat : ℤ)) =
      [((value.toNat : ℤ) - (row.address + 2)) % 256]
  else
    row.instruction.operand = littleEndian row.instruction.operand.length value.toNat ∧
      (row.written.HasBothForms → (row.instruction.operand.length = 2 ↔ 256 ≤ value.toNat))

/-- The name in the operand, if there is one, is a symbol, and the operand is right for it. -/
def Row.Agrees (program : Program) (row : Row) : Prop :=
  ∀ name, row.written.operand.value = .name name →
    ∃ symbol, program.symbol? name = some symbol ∧ row.Encodes symbol.value

namespace Written
variable {w : Written} {g : Group} (hw : w.group? = some g)
include hw

theorem awaited?_eq_some_iff {name : List Char} :
    g.awaited? = some name ↔ w.operand.value = .name name := by
  obtain ⟨mode,code,-,-,rfl⟩ := group?_eq_some_iff.mp hw
  simp only [Group.awaited?, Group.instruction, Statement.fill]
  split
  · rename_i hfill
    split at hfill <;> simp_all
  · rename_i hfill
    split at hfill <;> simp_all

theorem branch_eq : g.branch = w.operation.isBranch := by
  obtain ⟨mode,code,-,-,rfl⟩ := group?_eq_some_iff.mp hw
  rfl

theorem twoForms_iff {name : List Char} (hn : w.operand.value = .name name) :
    g.twoForms = true ↔ w.HasBothForms := by
  rw [Group.twoForms, Bool.and_eq_true, isSome_form?_iff hw hn, isSome_form?_iff hw hn]
  rfl

end Written

theorem Group.fill_eq_self_iff_of_branch {h : Group} (hb : h.branch = true) (value : UInt16) :
    h.fill value = h ↔ h.bytes = [UInt8.ofInt (value.toNat - h.next)] := by
  rw [Group.fill, if_pos hb, Group.fillBranch, Group.displacement]
  constructor
  · intro heq
    exact (congrArg Group.bytes heq).symm
  · intro heq
    rw [← heq]

theorem Group.Variant.fill_eq_self_iff {g h : Group} (hg : g.Parsed) (hv : Variant g h)
    (hp : g.state.isPending = true) (hb : h.branch = false) (value : UInt16) :
    h.fill value = h ↔ h.bytes = valueBytes h.bytes.length value ∧
      (h.twoForms = true → (h.bytes.length = 2 ↔ 256 ≤ value.toNat)) := by
  have hlength := hv.length_fill hg hp value
  have hfill : h.fill value = h.fillOperand value := if_neg (by simp [hb])
  rw [← two_eq_widthOf_iff]
  rcases h.fillOperand_cases value with ⟨content,hne,hf,heq⟩ | ⟨-,heq⟩
  · have htwo := hv.twoForms_of_form? hg hp hne hf
    rw [if_pos htwo] at hlength
    constructor
    · intro hsame
      rw [hsame] at hlength
      exact absurd hlength.symm hne
    · rintro ⟨-,hiff⟩
      have hboth := hiff htwo
      have hvalue := widthOf_eq_one_or_two value
      have hwidth := hg.width_of_form? (Option.isSome_iff_exists.mpr ⟨_,hv.pending hp⟩)
      omega
  · rw [hfill, heq]
    constructor
    · intro hsame
      refine ⟨(congrArg Group.bytes hsame).symm,fun htwo => ?_⟩
      rw [if_pos htwo, hfill, heq, hsame] at hlength
      rw [hlength]
    · rintro ⟨hbytes,-⟩
      rw [← hbytes]

namespace Row.Shows
variable {row : Row} {h : Group} (hs : row.Shows h)
include hs

theorem awaited?_eq_some_iff {name : List Char} :
    h.awaited? = some name ↔ row.written.operand.value = .name name := by
  obtain ⟨g,hw,hv⟩ := hs.of_group
  rw [hv.awaited?_eq]
  exact Written.awaited?_eq_some_iff hw

theorem encodes_iff {name : List Char} (hn : h.awaited? = some name) (value : UInt16) :
    row.Encodes value ↔ h.fill value = h := by
  obtain ⟨g,hw,hv⟩ := hs.of_group
  have hg : g.Parsed := .instruction row.written g hw
  have hp : g.state.isPending = true := hv.state_eq ▸ Group.isPending_of_awaited? hn
  have hbranch : h.branch = row.written.operation.isBranch :=
    hv.branch_eq.trans (Written.branch_eq hw)
  have hforms : h.twoForms = true ↔ row.written.HasBothForms := by
    rw [hv.twoForms_eq, Written.twoForms_iff hw (hs.awaited?_eq_some_iff.mp hn)]
  unfold Row.Encodes
  rw [← hbranch, hs.operand_eq, hs.address_eq]
  cases hb : h.branch with
  | true =>
    have hisBranch : row.written.operation.isBranch = true := hbranch ▸ hb
    obtain ⟨offset,ho⟩ := Row.operand_of_isBranch hisBranch
    have hbytes : h.bytes = [offset] := hs.operand_eq ▸ ho
    rw [if_pos rfl, Group.fill_eq_self_iff_of_branch hb, hs.next_eq hisBranch, hbytes,
      List.map_singleton, List.singleton_inj, List.singleton_inj, ← hs.address_eq, ← toNat_ofInt,
      Int.ofNat_inj, UInt8.toNat_inj]
  | false =>
    rw [if_neg (by simp), hv.fill_eq_self_iff hg hp hb, hforms]
    rfl

end Row.Shows

namespace Assembled
variable {options : Options} {source : List Char} {program : Program} {groups gs : List Group}
  {rows : List Row} (ha : Assembled options source program groups gs rows)
include ha

theorem agree_iff_filled : (∀ row ∈ rows, row.Agrees program) ↔ FilledBelow gs.length gs := by
  have hp := ha.groups_parsed
  constructor
  · intro hall i _ h name hi hn
    obtain ⟨g,-,hg,hpend,hv⟩ := ha.rendition.getElem?_of_awaited? hp hi hn
    have hemits : h.emits = true := hv.emits_eq ▸ hg.emits_of_pending hpend
    obtain ⟨row,hrow,hshows⟩ := ha.exists_showing hi hemits
    obtain ⟨symbol,hsymbol,hencodes⟩ := hall row hrow name (hshows.awaited?_eq_some_iff.mp hn)
    rw [ha.symbol?_eq] at hsymbol
    exact ⟨symbol.value,by rw [hsymbol]; rfl,(hshows.encodes_iff hn _).mp hencodes⟩
  · intro hfilled row hrow name hname
    obtain ⟨i,h,hi,-,hshows⟩ := ha.exists_shown hrow
    have hn := hshows.awaited?_eq_some_iff.mpr hname
    have hlt := (List.getElem?_eq_some_iff.mp hi).1
    obtain ⟨value,hlookup,hfill⟩ := hfilled i hlt h name hi hn
    obtain ⟨symbol,hsymbol,rfl⟩ := Option.map_eq_some_iff.mp hlookup
    exact ⟨symbol,by rw [ha.symbol?_eq, hsymbol],(hshows.encodes_iff hn _).mpr hfill⟩

theorem namesDefined : NamesDefined groups := by
  have hp := ha.groups_parsed
  obtain ⟨pass,hpass,-⟩ := bind_eq_ok_iff.mp ha.settled
  exact namesDefined_of_runPass hp (Rendition.ofParsed hp) hpass

theorem exists_symbol {row : Row} (hrow : row ∈ rows) {name : List Char}
    (hname : row.written.operand.value = .name name) :
    ∃ symbol, program.symbol? name = some symbol := by
  have hp := ha.groups_parsed
  obtain ⟨i,h,hi,-,hshows⟩ := ha.exists_shown hrow
  have hn := hshows.awaited?_eq_some_iff.mpr hname
  obtain ⟨g,hg,-,-,hv⟩ := ha.rendition.getElem?_of_awaited? hp hi hn
  rw [ha.symbol?_eq]
  exact ha.rendition.exists_lookup hp
    (ha.namesDefined g (List.mem_of_getElem? hg) name (hv.awaited?_eq ▸ hn))

theorem filled_iff : FilledBelow gs.length gs ↔
    InMemory options.origin.toNat groups (least options.origin.toNat groups) := by
  have hp := ha.groups_parsed
  constructor
  · intro hfilled
    have hmem := (ha.rendition.checkSpace_eq_ok_iff hp).mp ha.inMemory
    exact hmem.anti (least_le (hfilled.widen_eq hp ha.rendition hmem))
  · intro hmem
    obtain ⟨-,-,pass,-,-,hsettle,-,-,hfilled⟩ := exists_settled hp hmem ha.namesDefined 0
    rw [ha.settled] at hsettle
    cases hsettle
    exact hfilled

end Assembled

/-- The operands agree with the symbols exactly if the least choice of widths lies in memory. -/
theorem agree_iff_inMemory {options : Options} {source : List Char} {program : Program}
    (h : assemble options source = .ok program) :
    ∃ groups rows, parseSource source = .ok groups ∧ Listing source program rows ∧
      program.origin = options.origin ∧
      ((∀ row ∈ rows, row.Agrees program) ↔
        InMemory options.origin.toNat groups (least options.origin.toNat groups)) := by
  obtain ⟨groups,gs,rows,ha⟩ := exists_assembled h
  exact ⟨groups,rows,ha.parsed,ha.listing,ha.origin_eq,ha.agree_iff_filled.trans ha.filled_iff⟩

theorem agree_behind_page : ∃ program rows,
    assemble ⟨0xFC,true⟩ "LDA x\nBEQ x\nx:".toList = .ok program ∧
      program.bytes = [0xAD, 0x01, 0x01, 0xF0, 0x00] ∧
      Listing "LDA x\nBEQ x\nx:".toList program rows ∧ ∀ row ∈ rows, row.Agrees program := by
  have h : assemble ⟨0xFC,true⟩ "LDA x\nBEQ x\nx:".toList =
      .ok ⟨[0xAD, 0x01, 0x01, 0xF0, 0x00],0xFC,[⟨['X'],0x101,.label,3⟩]⟩ := by rfl
  obtain ⟨groups,rows,hsource,hlisting,-,hiff⟩ := agree_iff_inMemory h
  refine ⟨_,rows,h,rfl,hlisting,hiff.mpr ?_⟩
  cases hsource
  refine InMemory.anti (least_le (W := (· == 0)) ?_) ?_
  · funext i
    rcases i with _ | _ | _ | i <;> rfl
  · rw [InMemory]
    decide

/-- The value of the label is cut off at the end of memory, and its operand stays as it was
before the label moved. -/
theorem disagree_at_memory_end : ∃ program rows,
    assemble ⟨0xFFFD,false⟩ "LDA x\nx:".toList = .ok program ∧
      Listing "LDA x\nx:".toList program rows ∧ ¬ ∀ row ∈ rows, row.Agrees program := by
  let row : Row := ⟨0xFFFD,⟨1,.lda,.direct (.name ['X'])⟩,
    ⟨0xA5,⟨.lda,.zeroPage,3⟩,[0],by rfl,rfl⟩,rfl,by decide⟩
  refine ⟨⟨[0xA5, 0x00],0xFFFD,[⟨['X'],0xFFFF,.label,2⟩]⟩,[row],by rfl,⟨by rfl,rfl,rfl,trivial⟩,?_⟩
  intro hall
  obtain ⟨symbol,hsymbol,hencodes⟩ := hall row (List.mem_singleton_self row) ['X'] rfl
  cases hsymbol
  exact absurd hencodes.1 (by decide)

end Nmos6502.Assembly
