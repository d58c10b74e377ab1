import Nmos6502.Proofs.Definitions
import Nmos6502.Proofs.LoadedImage

/-! # The shape of an assembled program

The opcodes of an image alone cut it into instructions, and those of an assembled program
are the instructions of its source. A label stands behind all instructions of the lines
before its first definition, a constant for the number of its first definition, and the
image ends in memory.
-/
namespace Nmos6502
open Assembly

def Instruction.read? : List UInt8 → Option (Instruction × List UInt8)
  | [] => none
  | code :: rest =>
    match hdecode : decode code with
    | none => none
    | some opcode =>
      if hlength : (rest.take opcode.mode.operandSize).length = opcode.mode.operandSize then
        some (⟨code,opcode,_,hdecode,hlength⟩,rest.drop opcode.mode.operandSize)
      else none

theorem Instruction.read?_eq_some_iff {bytes rest : List UInt8} {i : Instruction} :
    read? bytes = some (i,rest) ↔ i.bytes ++ rest = bytes := by
  constructor
  · intro h
    unfold read? at h
    split at h
    · simp at h
    · split at h
      · simp at h
      · split at h
        · cases h
          simp [bytes]
        · simp at h
  · rintro rfl
    have htake : (i.operand ++ rest).take i.opcode.mode.operandSize = i.operand :=
      List.take_left' i.length_operand
    have hdrop : (i.operand ++ rest).drop i.opcode.mode.operandSize = rest :=
      List.drop_left' i.length_operand
    rw [bytes, List.cons_append, read?]
    split
    · rename_i hnone
      cases i.decode_code.symm.trans hnone
    · rename_i opcode hsome
      obtain rfl : i.opcode = opcode := Option.some.inj (i.decode_code.symm.trans hsome)
      rw [dif_pos (by rw [htake, i.length_operand]), Option.some.injEq, Prod.mk.injEq]
      exact ⟨ext_bytes (congrArg (i.code :: ·) htake),hdrop⟩

theorem Instruction.length_lt_of_read? {bytes rest : List UInt8} {i : Instruction}
    (h : read? bytes = some (i,rest)) : rest.length < bytes.length := by
  rw [← read?_eq_some_iff.mp h, List.length_append, Instruction.bytes, List.length_cons]
  omega

/-- The instructions that an image consists of, if it is nothing but instructions. -/
def cut (bytes : List UInt8) : Option (List Instruction) :=
  if bytes = [] then some []
  else
    match h : Instruction.read? bytes with
    | none => none
    | some (i,rest) =>
      have := Instruction.length_lt_of_read? h
      (cut rest).map (i :: ·)
termination_by bytes.length

theorem cut_eq_some_iff {bytes : List UInt8} {is : List Instruction} :
    cut bytes = some is ↔ is.flatMap Instruction.bytes = bytes := by
  constructor
  · intro h
    fun_induction cut bytes generalizing is with
    | case1 =>
      cases h
      rfl
    | case2 => simp at h
    | case3 bytes hne i rest hread hlt ih =>
      obtain ⟨others,hothers,rfl⟩ := Option.map_eq_some_iff.mp h
      rw [List.flatMap_cons, ih hothers, Instruction.read?_eq_some_iff.mp hread]
  · rintro rfl
    induction is with
    | nil =>
      rw [cut]
      rfl
    | cons i is ih =>
      have hread : Instruction.read? ((i :: is).flatMap Instruction.bytes) =
          some (i,is.flatMap Instruction.bytes) := Instruction.read?_eq_some_iff.mpr rfl
      rw [cut, if_neg (by simp [Instruction.bytes])]
      split
      · rename_i hnone
        cases hread.symm.trans hnone
      · rename_i j rest hsome
        cases hread.symm.trans hsome
        rw [ih, Option.map_some]

namespace Assembly

/-- The value of a definition in a program with the given rows: the number of a constant, and
for a label what the instructions on earlier lines leave behind them. -/
def Definition.value (origin : ℕ) (rows : List Row) (d : Definition) : ℕ :=
  match d.number? with
  | some number => number
  | none => origin + totalSize (rows.filter (·.written.line < d.line))

/-- The symbol is what the definition says, and no bit of its value is lost. -/
structure Definition.Gives (origin : ℕ) (rows : List Row) (d : Definition) (symbol : Symbol) :
    Prop where
  name_eq : symbol.name = d.name
  kind_eq : symbol.kind = d.kind
  definedAt_eq : symbol.definedAt = d.line
  value_eq : symbol.value.toNat = d.value origin rows

theorem Definition.Gives.unique {origin : ℕ} {rows : List Row} {d : Definition} {s t : Symbol}
    (hs : d.Gives origin rows s) (ht : d.Gives origin rows t) : s = t := by
  have hvalue : s.value = t.value := UInt16.toNat_inj.mp (hs.value_eq.trans ht.value_eq.symm)
  have hname := hs.name_eq.trans ht.name_eq.symm
  have hkind := hs.kind_eq.trans ht.kind_eq.symm
  have hline := hs.definedAt_eq.trans ht.definedAt_eq.symm
  cases s
  cases t
  simp_all

theorem sum_size_filter_emits (gs : List Group) :
    ((gs.filter (·.emits)).map Group.size).sum = (gs.map Group.size).sum := by
  induction gs with
  | nil => rfl
  | cons g gs ih =>
    cases hemits : g.emits with
    | false =>
      have hsize : g.size = 0 := by simp [Group.size, hemits]
      rw [List.filter_cons_of_neg (by simp [hemits]), ih, List.map_cons, List.sum_cons, hsize,
        Nat.zero_add]
    | true =>
      rw [List.filter_cons_of_pos hemits, List.map_cons, List.map_cons, List.sum_cons,
        List.sum_cons, ih]

theorem Row.Shows.line_eq {row : Row} {h : Group} (hs : row.Shows h) : h.line = row.written.line := by
  obtain ⟨g,hw,hv⟩ := hs.of_group
  rw [hv.line_eq, Written.line_of_group? hw]

theorem totalSize_filter_line {rows : List Row} {hs : List Group} (hall : List.Forall₂ Row.Shows rows hs)
    (line : ℕ) : totalSize (rows.filter (·.written.line < line)) =
      ((hs.filter (·.line < line)).map Group.size).sum := by
  induction hall with
  | nil => rfl
  | @cons row h rows hs hshows _ ih =>
    have hline := hshows.line_eq
    by_cases hlt : row.written.line < line
    · rw [List.filter_cons_of_pos (by simpa using hlt),
        List.filter_cons_of_pos (by simpa [hline] using hlt), List.map_cons, List.sum_cons, ← ih,
        hshows.size_eq]
      rfl
    · rw [List.filter_cons_of_neg (by simpa using hlt),
        List.filter_cons_of_neg (by simpa [hline] using hlt), ih]

theorem filter_line_eq {before after : List Group} {h : Group}
    (ho : (before ++ h :: after).Pairwise Group.Precedes) (hl : h.isLabel = true) :
    (before ++ h :: after).filter (·.line < h.line) = before := by
  rw [List.pairwise_append, List.pairwise_cons] at ho
  obtain ⟨-,⟨hafter,-⟩,hbefore⟩ := ho
  have hkept : before.filter (·.line < h.line) = before := by
    rw [List.filter_eq_self]
    intro g hg
    simpa using (hbefore g hg h (List.mem_cons_self ..)).2 hl
  have hdropped : after.filter (·.line < h.line) = [] := by
    rw [List.filter_eq_nil_iff]
    intro g hg
    simpa using (hafter g hg).1
  rw [List.filter_append, hkept, List.filter_cons_of_neg (by simp), hdropped, List.append_nil]

theorem Group.Variant.value_lt {g h : Group} (hg : g.Parsed) (hv : Variant g h) {name : List Char}
    (hc : h.content = .constant name) : h.value < 65536 := by
  cases hp : g.state.isPending with
  | false =>
    obtain ⟨hcontent,hbytes⟩ := hv.known hp
    rw [Group.value, hbytes]
    exact hg.value_lt (hcontent ▸ hc)
  | true =>
    obtain ⟨code,operation,mode,code',mode',-,hc'⟩ := Group.of_form?_eq_some (hv.pending hp)
    cases hc.symm.trans hc'

namespace Assembled
variable {options : Options} {source : List Char} {program : Program} {groups gs : List Group}
  {rows : List Row} (ha : Assembled options source program groups gs rows)
include ha

theorem filterMap_definition? : gs.filterMap Group.definition? = definitions source :=
  ha.rendition.filterMap_definition?.trans (definitions_of_parseLines ha.parsed).2.2

/-- A label lies behind the instructions of the lines before its own. -/
theorem offset_of_isLabel {h : Group} (hh : h ∈ gs) (hl : h.isLabel = true) :
    h.offset = options.origin.toNat + totalSize (rows.filter (·.written.line < h.line)) := by
  have ho := ha.rendition.pairwise_precedes (definitions_of_parseLines ha.parsed).2.1
  obtain ⟨before,after,hsplit⟩ := List.append_of_mem hh
  have hat : gs[before.length]? = some h := by simp [hsplit]
  have hoffset := ha.rendition.placed_offset hat
  have hbefore : (gs.map Group.size).take before.length = before.map Group.size := by
    rw [hsplit, List.map_append, List.take_left' (List.length_map ..)]
  rw [hoffset, hbefore, totalSize_filter_line ha.shows, List.filter_comm, sum_size_filter_emits]
  rw [hsplit] at ho ⊢
  rw [filter_line_eq ho hl]

theorem exists_gives {h : Group} (hh : h ∈ gs) {d : Definition} (hd : h.definition? = some d) :
    ∃ symbol, h.symbol? = some symbol ∧ d.Gives options.origin.toNat rows symbol := by
  unfold Group.definition? at hd
  cases hc : h.content with
  | opcode code operation mode => simp [hc] at hd
  | label name =>
    rw [hc] at hd
    cases hd
    refine ⟨⟨name,UInt16.ofNat h.offset,.label,h.line⟩,by simp only [Group.symbol?, hc],
      rfl,rfl,rfl,?_⟩
    have hspace := checkSpace_eq_ok_iff_forall.mp ha.inMemory h hh
    simp only [Group.inMemory, Bool.and_eq_true, decide_eq_true_eq] at hspace
    rw [UInt16.toNat_ofNat_of_lt' (Nat.lt_succ_of_le hspace.1)]
    exact ha.offset_of_isLabel hh (by simp [Group.isLabel, hc])
  | constant name =>
    rw [hc] at hd
    cases hd
    refine ⟨⟨name,UInt16.ofNat h.value,.constant,h.line⟩,by simp only [Group.symbol?, hc],
      rfl,rfl,rfl,?_⟩
    obtain ⟨i,hi⟩ := List.mem_iff_getElem?.mp hh
    obtain ⟨g,hg,hv⟩ := ha.rendition.getElem? hi
    rw [UInt16.toNat_ofNat_of_lt' (hv.value_lt (ha.groups_parsed g (List.mem_of_getElem? hg)) hc)]
    rfl

theorem find?_definitions (name : List Char) : (definitions source).find? (·.name == name) =
    (gs.find? (Group.defines name)).bind Group.definition? := by
  rw [← ha.filterMap_definition?, List.find?_filterMap]
  simp only [Group.any_definition?]

theorem exists_gives_of_find? {name : List Char} {d : Definition}
    (hd : (definitions source).find? (·.name == name) = some d) :
    ∃ symbol, program.symbol? name = some symbol ∧ d.Gives options.origin.toNat rows symbol := by
  rw [ha.find?_definitions] at hd
  obtain ⟨h,hfind,hd⟩ := Option.bind_eq_some_iff.mp hd
  obtain ⟨symbol,hsymbol,hgives⟩ := ha.exists_gives (List.mem_of_find?_eq_some hfind) hd
  refine ⟨symbol,?_,hgives⟩
  rw [ha.symbol?_eq, lookup, hfind, Option.bind_some, hsymbol]

theorem symbol?_eq_some_iff {name : List Char} {symbol : Symbol} :
    program.symbol? name = some symbol ↔
      ∃ d, (definitions source).find? (·.name == name) = some d ∧
        d.Gives options.origin.toNat rows symbol := by
  constructor
  · intro hsymbol
    have hlookup := hsymbol
    rw [ha.symbol?_eq, lookup] at hlookup
    obtain ⟨h,hfind,-⟩ := Option.bind_eq_some_iff.mp hlookup
    have hdefines : h.definition?.any (·.name == name) = true := by
      rw [Group.any_definition?, List.find?_some hfind]
    obtain ⟨d,hd,-⟩ := (Option.any_eq_true ..).mp hdefines
    have hfirst : (definitions source).find? (·.name == name) = some d := by
      rw [ha.find?_definitions, hfind, Option.bind_some, hd]
    obtain ⟨given,hgiven,hgives⟩ := ha.exists_gives_of_find? hfirst
    cases hsymbol.symm.trans hgiven
    exact ⟨d,hfirst,hgives⟩
  · rintro ⟨d,hd,hgives⟩
    obtain ⟨given,hgiven,hother⟩ := ha.exists_gives_of_find? hd
    rw [hgiven, hother.unique hgives]

end Assembled

theorem mem_symbols_iff {options : Options} {source : List Char} {program : Program}
    (h : assemble options source = .ok program) {symbol : Symbol} :
    symbol ∈ program.symbols ↔ program.symbol? symbol.name = some symbol := by
  obtain ⟨groups,-,h⟩ := bind_eq_ok_iff.mp h
  obtain ⟨final,-,h⟩ := bind_eq_ok_iff.mp h
  obtain ⟨bytes,-,h⟩ := bind_eq_ok_iff.mp h
  cases h
  exact ⟨unambiguous_symbolTable final symbol,List.mem_of_find?_eq_some⟩

/-- What every assembled program looks like: the opcodes cut its image into the instructions of
its source, its symbols are the first definitions of the names, and it can be loaded. -/
theorem assemble_shape {options : Options} {source : List Char} {program : Program}
    (h : assemble options source = .ok program) :
    program.origin = options.origin ∧ ∃ rows, Listing source program rows ∧
      cut program.bytes = some (rows.map Row.instruction) ∧
      (∀ row ∈ rows, row.instruction.opcode.operation = row.written.operation ∧
        row.instruction.opcode.mode ∈ row.written.modes) ∧
      (∀ symbol, symbol ∈ program.symbols ↔
        ∃ d, (definitions source).find? (·.name == symbol.name) = some d ∧
          d.Gives program.origin.toNat rows symbol) ∧
      (∀ d ∈ definitions source, ∃ symbol ∈ program.symbols, symbol.name = d.name) ∧
      program.origin.toNat + program.bytes.length ≤ 65536 ∧
      ∀ c : Cpu, ∃ loaded, c.load program.origin program.bytes = .ok loaded := by
  obtain ⟨groups,gs,rows,ha⟩ := exists_assembled h
  refine ⟨ha.origin_eq,rows,ha.listing,cut_eq_some_iff.mpr ha.listing.bytes_eq,
    fun row _ => ⟨row.operation_eq,row.mode_mem⟩,?_,?_,ha.length_le,?_⟩
  · intro symbol
    rw [mem_symbols_iff h, ha.symbol?_eq_some_iff, ha.origin_eq]
  · intro d hd
    obtain ⟨first,hfirst⟩ := Option.isSome_iff_exists.mp
      (List.find?_isSome (p := (·.name == d.name)).mpr ⟨d,hd,beq_self_eq_true _⟩)
    obtain ⟨symbol,hsymbol,hgives⟩ := ha.exists_gives_of_find? hfirst
    have hname : symbol.name = d.name :=
      hgives.name_eq.trans (by simpa using List.find?_some hfirst)
    exact ⟨symbol,(mem_symbols_iff h).mpr (hname ▸ hsymbol),hname⟩
  · intro c
    obtain ⟨loaded,hloaded,-⟩ := c.exists_load ha.length_le
    exact ⟨loaded,hloaded⟩

theorem assemble_shape_redefinitions : ∃ program rows,
    assemble ⟨0xFE,true⟩ "start: LDA x\nDEFINE n $10\nx: STA n\nx:\nDEFINE n 7".toList =
        .ok program ∧
      program.bytes = [0xAD, 0x01, 0x01, 0x85, 0x10] ∧
      cut program.bytes = some (rows.map Row.instruction) ∧
      (Definition.mk 3 ['X'] none).Gives 0xFE rows ⟨['X'],0x101,.label,3⟩ ∧
      (Definition.mk 2 ['N'] (some 16)).Gives 0xFE rows ⟨['N'],16,.constant,2⟩ := by
  have h : assemble ⟨0xFE,true⟩ "start: LDA x\nDEFINE n $10\nx: STA n\nx:\nDEFINE n 7".toList =
      .ok ⟨[0xAD, 0x01, 0x01, 0x85, 0x10],0xFE,[⟨"START".toList,0xFE,.label,1⟩,
        ⟨['N'],16,.constant,2⟩,⟨['X'],0x101,.label,3⟩]⟩ := by rfl
  obtain ⟨-,rows,-,hcut,-,hsymbols,-⟩ := assemble_shape h
  obtain ⟨x,hx,hxgives⟩ := (hsymbols ⟨['X'],0x101,.label,3⟩).mp (by decide)
  obtain ⟨n,hn,hngives⟩ := (hsymbols ⟨['N'],16,.constant,2⟩).mp (by decide)
  cases (show some ⟨3,['X'],none⟩ = some x from hx)
  cases (show some ⟨2,['N'],some 16⟩ = some n from hn)
  exact ⟨_,rows,h,rfl,hcut,hxgives,hngives⟩

end Assembly
end Nmos6502
