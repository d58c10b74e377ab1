import Mathlib.Data.Int.ModEq
import Nmos6502.Proofs.Arrangement

/-! # Moving a program

Behind the first page a label never stands for a number below 256, so that the operands choose
the same widths wherever the program lies. Two such programs have the same groups at other
places. A label moves with them, and the operands that name one, but for the branches, which
hold a distance; a branch to a constant changes because the branch itself has moved.
-/
namespace Nmos6502.Assembly
open Finset WidthChoice

/-- The same symbol of a program that lies `d` further on. -/
structure Symbol.Moved (d : ℤ) (s t : Symbol) : Prop where
  name_eq : t.name = s.name
  kind_eq : t.kind = s.kind
  definedAt_eq : t.definedAt = s.definedAt
  value_eq : (t.value.toNat : ℤ) = s.value.toNat + if s.kind = .label then d else 0

/-- How the operand bytes of a row change when the program moves by `d`. -/
def Row.OperandMoved (program : Program) (d : ℤ) (row : Row) (bytes : List UInt8) : Prop :=
  match row.written.operand.value with
  | .literal _ => bytes = row.instruction.operand
  | .name name => ∃ symbol, program.symbol? name = some symbol ∧
    match symbol.kind, row.written.operation.isBranch with
    | .constant, false | .label, true => bytes = row.instruction.operand
    | .label, false => bytes.length = row.instruction.operand.length ∧
        (ofLittleEndian bytes : ℤ) ≡ ofLittleEndian row.instruction.operand + d
          [ZMOD 256 ^ row.instruction.operand.length]
    | .constant, true => ∃ offset offset', row.instruction.operand = [offset] ∧
        bytes = [offset'] ∧ (offset'.toNat : ℤ) ≡ offset.toNat - d [ZMOD 256]

structure Row.Moved (program : Program) (d : ℤ) (row row' : Row) : Prop where
  written_eq : row'.written = row.written
  address_eq : (row'.address : ℤ) = row.address + d
  code_eq : row'.instruction.code = row.instruction.code
  operand : row.OperandMoved program d row'.instruction.operand

structure Group.Moved (d : ℤ) (g h : Group) : Prop where
  eq_with : h = { g with offset := h.offset, bytes := h.bytes }
  offset_eq : (h.offset : ℤ) = g.offset + d
  offset_le : g.offset ≤ 0xFFFF ∧ h.offset ≤ 0xFFFF
  known : g.awaited? = none → h.bytes = g.bytes
  constant : ∀ name, g.content = .constant name → g.awaited? = none

namespace WidthChoice
variable {origin origin' : ℕ} {groups : List Group} {W : WidthChoice}

theorem place_moved (i : ℕ) : (place origin' groups W i : ℤ) =
    place origin groups W i + ((origin' : ℤ) - origin) := by
  unfold place
  push_cast
  omega

theorem exists_value?_behind_page (horigin : 256 ≤ origin') {name : List Char} {v : ℕ}
    (hv : value? origin groups W name = some v) (hbig : 256 ≤ v) :
    ∃ v', value? origin' groups W name = some v' ∧ 256 ≤ v' := by
  obtain ⟨i,g,hi,hg,rfl⟩ := value?_eq_some_iff.mp hv
  refine ⟨_,value?_eq_some_iff.mpr ⟨i,g,hi,hg,rfl⟩,?_⟩
  unfold Group.valueAt at hbig ⊢
  split
  · exact horigin.trans (Nat.le_add_right ..)
  · rename_i hlabel
    split at hbig
    · rename_i name hc
      exact absurd hc (hlabel name)
    · exact hbig

variable (horigin : 256 ≤ origin) (horigin' : 256 ≤ origin')
include horigin horigin'

theorem widen_behind_page : widen origin groups W = widen origin' groups W := by
  funext i
  rw [Bool.eq_iff_iff, widen_eq_true_iff, widen_eq_true_iff]
  constructor
  · rintro ⟨g,name,v,hg,htwo,hn,hv,hbig⟩
    obtain ⟨v',hv',hbig'⟩ := exists_value?_behind_page horigin' hv hbig
    exact ⟨g,name,v',hg,htwo,hn,hv',hbig'⟩
  · rintro ⟨g,name,v,hg,htwo,hn,hv,hbig⟩
    obtain ⟨v',hv',hbig'⟩ := exists_value?_behind_page horigin hv hbig
    exact ⟨g,name,v',hg,htwo,hn,hv',hbig'⟩

/-- Behind the first page the widths do not depend on the origin. -/
theorem least_behind_page : least origin groups = least origin' groups :=
  le_antisymm (least_le ((widen_behind_page horigin horigin').trans widen_least))
    (least_le ((widen_behind_page horigin' horigin).trans widen_least))

end WidthChoice

theorem Group.Parsed.content_groupAt {g : Group} (hg : g.Parsed) (hpend : g.state.isPending = true)
    (origin : ℕ) (groups : List Group) (W : WidthChoice) (i : ℕ) :
    ∃ code operation mode, (groupAt origin groups W i g).content = .opcode code operation mode := by
  obtain ⟨code,operation,mode,_,_,hcontent,-⟩ := Group.of_form?_eq_some (hg.form?_self hpend)
  cases hform : g.form? (g.widthIn (W i)) with
  | none => exact ⟨code,operation,mode,by simp only [groupAt, hform, Option.getD_none, hcontent]⟩
  | some content =>
    obtain ⟨_,operation,_,code,mode,-,rfl⟩ := Group.of_form?_eq_some hform
    exact ⟨code,operation,mode,by simp only [groupAt, hform, Option.getD_some]⟩

section
variable {origin origin' : ℕ} {groups : List Group} (hp : ∀ g ∈ groups, g.Parsed)
  (hroom : origin + 3 * groups.countP (·.emits) ≤ 0xFFFF)
  (hroom' : origin' + 3 * groups.countP (·.emits) ≤ 0xFFFF)
include hp hroom hroom'

theorem arrange_moved (W : WidthChoice) :
    List.Forall₂ (Group.Moved ((origin' : ℤ) - origin)) (arrange origin groups W)
      (arrange origin' groups W) := by
  refine List.forall₂_iff_get.mpr ⟨by rw [length_arrange, length_arrange],fun i hi hi' => ?_⟩
  have hlt : i < groups.length := length_arrange .. ▸ hi
  simp only [List.get_eq_getElem, arrange, List.getElem_mapIdx]
  refine ⟨rfl,place_moved i,⟨place_le_of_room hp hroom W i,place_le_of_room hp hroom' W i⟩,
    fun hn => ?_,fun name hc => ?_⟩
  · have hn : groups[i].awaited? = none := hn
    simp only [groupAt, operandAt, hn, Option.bind_none]
  · by_contra hn
    obtain ⟨other,ho⟩ := Option.ne_none_iff_exists'.mp hn
    obtain ⟨code,operation,mode,hopcode⟩ := (hp _ (List.getElem_mem hlt)).content_groupAt
      (Group.isPending_of_awaited? (show groups[i].awaited? = some other from ho))
      origin groups W i
    cases hc.symm.trans hopcode

end

theorem Group.Moved.symbol? {d : ℤ} {g h : Group} (hm : Group.Moved d g h) :
    Option.Rel (Symbol.Moved d) g.symbol? h.symbol? := by
  obtain ⟨hg,hh⟩ := hm.offset_le
  have hoffset := hm.offset_eq
  have hcontent : h.content = g.content := by rw [hm.eq_with]
  have hline : h.line = g.line := by rw [hm.eq_with]
  unfold Group.symbol?
  rw [hcontent, hline]
  cases hc : g.content with
  | opcode => exact .none
  | label name =>
    refine .some ⟨rfl,rfl,rfl,?_⟩
    simp only [UInt16.toNat_ofNat_of_lt' (Nat.lt_succ_of_le hg),
      UInt16.toNat_ofNat_of_lt' (Nat.lt_succ_of_le hh), if_true]
    exact hoffset
  | constant name =>
    have hvalue : h.value = g.value := by
      rw [Group.value, Group.value, hm.known (hm.constant name hc)]
    exact .some ⟨rfl,rfl,rfl,by simp [hvalue]⟩

theorem addSymbol_moved {d : ℤ} {table table' : List Symbol}
    (htable : List.Forall₂ (Symbol.Moved d) table table') {s t : Symbol} (hs : s.Moved d t) :
    List.Forall₂ (Symbol.Moved d) (addSymbol table s) (addSymbol table' t) := by
  have hany : table'.any (·.name == t.name) = table.any (·.name == s.name) := by
    rw [hs.name_eq]
    induction htable with
    | nil => rfl
    | cons hst _ ih => rw [List.any_cons, List.any_cons, ih, hst.name_eq]
  unfold addSymbol
  rw [hany]
  split
  · exact htable
  · exact List.rel_append htable (.cons hs .nil)

theorem symbolTable_moved {d : ℤ} {gs gs' : List Group} (h : List.Forall₂ (Group.Moved d) gs gs') :
    List.Forall₂ (Symbol.Moved d) (symbolTable gs) (symbolTable gs') :=
  List.rel_foldl (P := List.Forall₂ (Symbol.Moved d)) (R := Symbol.Moved d)
    (fun _ _ htable _ _ hs => addSymbol_moved htable hs) .nil
    (List.rel_filterMap (fun _ _ hm => hm.symbol?) h)

theorem findSymbol_moved {d : ℤ} {table table' : List Symbol}
    (htable : List.Forall₂ (Symbol.Moved d) table table') {name : List Char} {s : Symbol}
    (hs : findSymbol table name = some s) : ∃ t, findSymbol table' name = some t ∧ s.Moved d t := by
  unfold findSymbol at hs ⊢
  induction htable with
  | nil => cases hs
  | @cons a b as bs hab _ ih =>
    rw [List.find?_cons] at hs ⊢
    rw [hab.name_eq]
    split at hs
    · cases hs
      exact ⟨b,rfl,hab⟩
    · exact ih hs

theorem Row.Shows.content_eq {row : Row} {h : Group} (hs : row.Shows h) :
    ∃ operation mode, h.content = .opcode row.instruction.code operation mode := by
  have himage := hs.image_eq
  unfold Group.image? at himage
  rw [Group.close_content] at himage
  split at himage
  · rename_i code operation mode _ hc
    simp only [Instruction.bytes, Option.some.injEq, List.cons.injEq] at himage
    exact ⟨operation,mode,himage.1 ▸ hc⟩
  · cases himage

theorem Row.operandMoved_of_encodes {row row' : Row} {d : ℤ} {program : Program}
    (hwritten : row'.written = row.written) (hcode : row'.instruction.code = row.instruction.code)
    (haddress : (row'.address : ℤ) = row.address + d) {name : List Char}
    (hname : row.written.operand.value = .name name) {s t : Symbol}
    (hsymbol : program.symbol? name = some s) (hst : s.Moved d t) (hs : row.Encodes s.value)
    (ht : row'.Encodes t.value) : row.OperandMoved program d row'.instruction.operand := by
  have hvalue := hst.value_eq
  unfold Row.OperandMoved
  rw [hname]
  refine ⟨s,hsymbol,?_⟩
  unfold Row.Encodes at hs ht
  rw [hwritten] at ht
  cases hb : row.written.operation.isBranch with
  | true =>
    obtain ⟨offset,ho⟩ := Row.operand_of_isBranch hb
    obtain ⟨offset',ho'⟩ := Row.operand_of_isBranch (hwritten ▸ hb : row'.written.operation.isBranch = true)
    rw [hb, if_pos rfl, ho, List.map_singleton, List.singleton_inj] at hs
    rw [hb, if_pos rfl, ho', List.map_singleton, List.singleton_inj, haddress] at ht
    cases hkind : s.kind with
    | label =>
      rw [hkind, if_pos rfl] at hvalue
      have hsame : offset'.toNat = offset.toNat := by omega
      rw [ho, ho', UInt8.toNat_inj.mp hsame]
    | constant =>
      rw [hkind, if_neg (by decide)] at hvalue
      refine ⟨offset,offset',ho,ho',?_⟩
      rw [Int.modEq_iff_dvd]
      omega
  | false =>
    rw [hb, if_neg (by decide)] at hs ht
    have hlength : row'.instruction.operand.length = row.instruction.operand.length := by
      rw [row'.instruction.length_operand, row.instruction.length_operand,
        Instruction.opcode_eq hcode]
    cases hkind : s.kind with
    | label =>
      rw [hkind, if_pos rfl] at hvalue
      refine ⟨hlength,?_⟩
      rw [hs.1, ht.1, hlength, length_littleEndian, ofLittleEndian_littleEndian,
        ofLittleEndian_littleEndian]
      push_cast
      rw [hvalue]
      exact (Int.mod_modEq ..).trans ((Int.mod_modEq ..).symm.add_right d)
    | constant =>
      rw [hkind, if_neg (by decide), add_zero, Int.ofNat_inj] at hvalue
      rw [ht.1, hvalue, hlength]
      exact hs.1.symm

section
variable {d : ℤ} {program program' : Program}
  (hsymbols : ∀ name s, program.symbol? name = some s →
    ∃ t, program'.symbol? name = some t ∧ s.Moved d t)
include hsymbols

theorem Row.Shows.moved {row row' : Row} {h h' : Group} (hs : row.Shows h) (hs' : row'.Shows h')
    (hm : h.Moved d h') (hwritten : row'.written = row.written) (ha : row.Agrees program)
    (ha' : row'.Agrees program') : row.Moved program d row' := by
  obtain ⟨operation,mode,hc⟩ := hs.content_eq
  obtain ⟨operation',mode',hc'⟩ := hs'.content_eq
  have hcode : row'.instruction.code = row.instruction.code := by
    have hcontent : h'.content = h.content := by rw [hm.eq_with]
    rw [hc, hc', Content.opcode.injEq] at hcontent
    exact hcontent.1
  have haddress : (row'.address : ℤ) = row.address + d := by
    rw [hs.address_eq, hs'.address_eq, hm.offset_eq]
  refine ⟨hwritten,haddress,hcode,?_⟩
  cases hvalue : row.written.operand.value with
  | literal bytes =>
    have hnone : h.awaited? = none := by
      rw [Option.eq_none_iff_forall_ne_some]
      intro name hn
      cases hvalue.symm.trans (hs.awaited?_eq_some_iff.mp hn)
    rw [Row.OperandMoved, hvalue, hs.operand_eq, hs'.operand_eq]
    exact hm.known hnone
  | name name =>
    obtain ⟨s,hsymbol,hencodes⟩ := ha name hvalue
    obtain ⟨t,hsymbol',hencodes'⟩ := ha' name (hwritten ▸ hvalue)
    obtain ⟨t',ht',hst⟩ := hsymbols name s hsymbol
    cases hsymbol'.symm.trans ht'
    exact Row.operandMoved_of_encodes hwritten hcode haddress hvalue hsymbol hst hencodes hencodes'

theorem rows_moved {rows rows' : List Row} {hs hs' : List Group}
    (hshows : List.Forall₂ Row.Shows rows hs) (hshows' : List.Forall₂ Row.Shows rows' hs')
    (hm : List.Forall₂ (Group.Moved d) hs hs')
    (hwritten : rows'.map Row.written = rows.map Row.written)
    (ha : ∀ row ∈ rows, row.Agrees program) (ha' : ∀ row ∈ rows', row.Agrees program') :
    List.Forall₂ (Row.Moved program d) rows rows' := by
  induction hm generalizing rows rows' with
  | nil =>
    cases hshows
    cases hshows'
    exact .nil
  | cons hfirstMoved _ ih =>
    cases hshows with
    | cons hfirst hrest =>
      cases hshows' with
      | cons hfirst' hrest' =>
        rw [List.map_cons, List.map_cons, List.cons.injEq] at hwritten
        refine .cons ?_ (ih hrest hrest' hwritten.2 ?_ ?_)
        · exact hfirst.moved hsymbols hfirst' hfirstMoved hwritten.1 (ha _ (List.mem_cons_self ..))
            (ha' _ (List.mem_cons_self ..))
        · exact fun row hrow => ha row (List.mem_cons_of_mem _ hrow)
        · exact fun row hrow => ha' row (List.mem_cons_of_mem _ hrow)

end

theorem length_bytes_moved {program : Program} {d : ℤ} {rows rows' : List Row}
    (h : List.Forall₂ (Row.Moved program d) rows rows') :
    ((rows'.map Row.instruction).flatMap Instruction.bytes).length =
      ((rows.map Row.instruction).flatMap Instruction.bytes).length := by
  induction h with
  | nil => rfl
  | cons hm _ ih =>
    simp only [List.map_cons, List.flatMap_cons, List.length_append, Instruction.length_bytes, ih,
      Instruction.opcode_eq hm.code_eq]

/-- A program behind the first page can be moved. Either both assemblies fail with the same
error, or the images have the same length and the same instructions, and the symbols and operands
are the same but for what labels stand for, which moves by the distance of the origins. -/
theorem assemble_relocate {origin origin' : UInt16} {source : List Char}
    (hpage : 256 ≤ origin.toNat) (hpage' : 256 ≤ origin'.toNat)
    (hroom : origin.toNat + 3 * (written source).length ≤ 0xFFFF)
    (hroom' : origin'.toNat + 3 * (written source).length ≤ 0xFFFF) :
    (∃ error, assemble ⟨origin,false⟩ source = .error error ∧
      assemble ⟨origin',false⟩ source = .error error) ∨
    ∃ program program' rows rows', assemble ⟨origin,false⟩ source = .ok program ∧
      assemble ⟨origin',false⟩ source = .ok program' ∧
      program.origin = origin ∧ program'.origin = origin' ∧
      program'.bytes.length = program.bytes.length ∧
      List.Forall₂ (Symbol.Moved ((origin'.toNat : ℤ) - origin.toNat))
        program.symbols program'.symbols ∧
      Listing source program rows ∧ Listing source program' rows' ∧
      List.Forall₂ (Row.Moved program ((origin'.toNat : ℤ) - origin.toNat)) rows rows' := by
  cases hsource : parseSource source with
  | error error =>
    exact .inl ⟨error,assemble_eq_error_iff.mpr (.inl hsource),
      assemble_eq_error_iff.mpr (.inl hsource)⟩
  | ok groups =>
    have hp := parsed_of_parseSource hsource
    rw [length_written hsource] at hroom hroom'
    cases hfirst : undefinedError? groups with
    | some error =>
      exact .inl ⟨error,assemble_of_undefined hsource hfirst,assemble_of_undefined hsource hfirst⟩
    | none =>
      have hleast : least origin'.toNat groups = least origin.toNat groups :=
        least_behind_page hpage' hpage
      obtain ⟨program,hprogram,htable⟩ := exists_symbols_of_room hsource hfirst hroom
      obtain ⟨program',hprogram',htable'⟩ := exists_symbols_of_room hsource hfirst hroom'
      obtain ⟨_,gs,rows,ha⟩ := exists_assembled hprogram
      obtain ⟨_,gs',rows',ha'⟩ := exists_assembled hprogram'
      cases hsource.symm.trans ha.parsed
      cases hsource.symm.trans ha'.parsed
      obtain ⟨hgs,hagree⟩ := ha.arranged hroom
      obtain ⟨hgs',hagree'⟩ := ha'.arranged hroom'
      dsimp only at hgs hgs'
      have hmoved : List.Forall₂ (Group.Moved ((origin'.toNat : ℤ) - origin.toNat)) gs gs' := by
        rw [hgs, hgs', hleast]
        exact arrange_moved hp hroom hroom' (least origin.toNat groups)
      have hsymbols : List.Forall₂ (Symbol.Moved ((origin'.toNat : ℤ) - origin.toNat))
          program.symbols program'.symbols := by
        rw [htable, htable', ← hgs, ← hgs']
        exact symbolTable_moved hmoved
      have hwritten := ha'.listing.written_eq.trans ha.listing.written_eq.symm
      have hemitted : List.Forall₂ (Group.Moved ((origin'.toNat : ℤ) - origin.toNat))
          (gs.filter (·.emits)) (gs'.filter (·.emits)) :=
        List.rel_filter (fun g h hm => by rw [hm.eq_with]) hmoved
      have hrows := rows_moved (fun _ _ => findSymbol_moved hsymbols) ha.shows ha'.shows hemitted
        hwritten hagree hagree'
      refine .inr ⟨program,program',rows,rows',hprogram,hprogram',ha.origin_eq,ha'.origin_eq,?_,
        hsymbols,ha.listing,ha'.listing,hrows⟩
      rw [← ha.listing.bytes_eq, ← ha'.listing.bytes_eq]
      exact length_bytes_moved hrows

theorem assemble_relocate_kinds : ∃ program program' rows rows',
    assemble ⟨0x1F0,false⟩ "DEFINE n 7\nx: LDA x\nLDA #x\nSTX x,Y\nBNE x\nBEQ n\nLDY n".toList =
        .ok program ∧
      assemble ⟨0x2A3,false⟩ "DEFINE n 7\nx: LDA x\nLDA #x\nSTX x,Y\nBNE x\nBEQ n\nLDY n".toList =
        .ok program' ∧
      program.bytes = [0xAD, 0xF0, 0x01, 0xA9, 0xF0, 0x96, 0xF0, 0xD0, 0xF7, 0xF0, 0x0C, 0xA4, 7] ∧
      program'.bytes = [0xAD, 0xA3, 0x02, 0xA9, 0xA3, 0x96, 0xA3, 0xD0, 0xF7, 0xF0, 0x59, 0xA4, 7] ∧
      List.Forall₂ (Row.Moved program 0xB3) rows rows' := by
  let source := "DEFINE n 7\nx: LDA x\nLDA #x\nSTX x,Y\nBNE x\nBEQ n\nLDY n".toList
  have h : assemble ⟨0x1F0,false⟩ source = .ok ⟨[0xAD, 0xF0, 0x01, 0xA9, 0xF0, 0x96, 0xF0, 0xD0,
      0xF7, 0xF0, 0x0C, 0xA4, 7],0x1F0,[⟨['N'],7,.constant,1⟩,⟨['X'],0x1F0,.label,2⟩]⟩ := by rfl
  have h' : assemble ⟨0x2A3,false⟩ source = .ok ⟨[0xAD, 0xA3, 0x02, 0xA9, 0xA3, 0x96, 0xA3, 0xD0,
      0xF7, 0xF0, 0x59, 0xA4, 7],0x2A3,[⟨['N'],7,.constant,1⟩,⟨['X'],0x2A3,.label,2⟩]⟩ := by rfl
  have hroom : (0x1F0 : UInt16).toNat + 3 * (written source).length ≤ 0xFFFF := by decide
  have hroom' : (0x2A3 : UInt16).toNat + 3 * (written source).length ≤ 0xFFFF := by decide
  rcases assemble_relocate (by decide) (by decide) hroom hroom' with
    ⟨error,herror,-⟩ | ⟨program,program',rows,rows',hprogram,hprogram',-,-,-,-,-,-,hrows⟩
  · cases h.symm.trans herror
  · cases h.symm.trans hprogram
    cases h'.symm.trans hprogram'
    exact ⟨_,_,rows,rows',h,h',rfl,rfl,hrows⟩

end Nmos6502.Assembly
