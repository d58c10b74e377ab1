import Nmos6502.Proofs.FilledOperand
import Nmos6502.Proofs.Spelling

/-! # Constants in place of literals

A literal takes its form when its line is read, by the number of its bytes. A name begins in the
narrowest form and takes the one for its value in resolution. For a constant both come to the
same instruction, so that a line can be written with either.
-/
namespace Nmos6502.Assembly
open Finset WidthChoice

/-- The line holds an instruction with the given operand, behind a label if there is one. -/
def WritesInstruction (label? : Option (List Char)) (operation : Operation)
    (operand line : List Char) : Prop :=
  ∃ arguments : List (List Char), arguments.flatten = operand ∧
    Text.words (cleanLine line) =
      (label?.map (· ++ [':'])).toList ++ operation.mnemonic :: arguments

namespace WritesInstruction
variable {label? : Option (List Char)} {operation : Operation} {operand line : List Char}
  (h : WritesInstruction label? operation operand line)
include h

theorem parse_eq_ok_iff {parsed : SourceLine} :
    SourceLine.parse line = .ok parsed ↔ (∀ name, label? = some name → isName name = true) ∧
      ∃ o, Operand.parse operand = .ok o ∧
        ⟨label?,some (.instruct operation o operand)⟩ = parsed := by
  obtain ⟨arguments,rfl,hwords⟩ := h
  rw [SourceLine.parse, hwords]
  cases label? with
  | none =>
    simp only [Option.map_none, Option.toList_none, List.nil_append, SourceLine.ofWords,
      Instruction.beforeEnd?_mnemonic, Statement.parse_mnemonic, map_eq_ok_iff,
      exists_exists_and_eq_and, reduceCtorEq, false_implies, implies_true, true_and]
  | some name =>
    have hlabel : Text.beforeEnd? [':'] (name ++ [':']) = some name :=
      Text.beforeEnd?_eq_some.mpr rfl
    simp only [Option.map_some, Option.toList_some, List.singleton_append, SourceLine.ofWords,
      hlabel, Statement.parse_mnemonic, Option.some.injEq, forall_eq']
    split
    · rename_i hname
      simp only [map_eq_ok_iff, exists_exists_and_eq_and, hname, true_and]
    · rename_i hname
      simp only [hname, reduceCtorEq, false_and]

theorem parseLine_eq_ok_iff {number : ℕ} {groups : List Group} :
    parseLine number line = .ok groups ↔ (∀ name, label? = some name → isName name = true) ∧
      ∃ o g, Operand.parse operand = .ok o ∧
        Statement.instructionGroup? number operation (o.reading operation) = some g ∧
        label?.toList.map (Group.label number) ++ [g] = groups := by
  have hgroups : ∀ o, SourceLine.groups number ⟨label?,some (.instruct operation o operand)⟩ =
      .ok groups ↔ ∃ g, Statement.instructionGroup? number operation (o.reading operation) = some g ∧
        label?.toList.map (Group.label number) ++ [g] = groups := by
    intro o
    simp only [SourceLine.groups, Statement.group, map_eq_ok_iff]
    cases Statement.instructionGroup? number operation (o.reading operation) <;> simp
  rw [parseLine, mapError_eq_ok_iff]
  constructor
  · intro hok
    obtain ⟨parsed,hparse,hmade⟩ := bind_eq_ok_iff.mp hok
    obtain ⟨hlabel,o,ho,rfl⟩ := h.parse_eq_ok_iff.mp hparse
    obtain ⟨g,hg,hlist⟩ := (hgroups o).mp hmade
    exact ⟨hlabel,o,g,ho,hg,hlist⟩
  · rintro ⟨hlabel,o,g,ho,hg,hlist⟩
    exact bind_eq_ok_iff.mpr
      ⟨_,h.parse_eq_ok_iff.mpr ⟨hlabel,o,ho,rfl⟩,(hgroups o).mpr ⟨g,hg,hlist⟩⟩

end WritesInstruction

theorem isDigit_of_digit? {c : Char} {digit : ℕ} (h : digit? 10 c = some digit) :
    c.isDigit = true := by
  unfold digit? at h
  obtain ⟨hvalue,hlt⟩ := Option.filter_eq_some_iff.mp h
  have hlt : digit < 10 := by simpa using hlt
  by_contra hdigit
  rw [if_neg hdigit] at hvalue
  split at hvalue
  · cases hvalue
    omega
  · split at hvalue
    · cases hvalue
      omega
    · cases hvalue

theorem shortest?_toNat (v : UInt16) : shortest? v.toNat = some (valueBytes (widthOf v) v) := by
  have hlt : v.toNat < 65536 := v.toNat_lt
  unfold shortest? valueBytes widthOf
  rw [if_pos hlt]
  split <;> rfl

theorem Value.parse_decimal {text : List Char} {v : UInt16} (h : digits? 10 text = some v.toNat) :
    Value.parse text = .ok (.literal (valueBytes (widthOf v) v)) := by
  cases text with
  | nil => cases h
  | cons c rest =>
    obtain ⟨digit,hdigit⟩ := exists_digit_of_digits? h (List.mem_cons_self ..)
    have hc := isDigit_of_digit? hdigit
    have hstart : startsNumeral (c :: rest) = true := by simp [startsNumeral, hc]
    have hnumeral : numeral? (c :: rest) = some (valueBytes (widthOf v) v) := by
      have hsign : c ≠ '$' ∧ c ≠ '%' := by
        constructor <;> (rintro rfl; cases hc)
      rw [numeral?_eq]
      split
      · rename_i heq
        exact absurd (List.cons.inj heq).1 hsign.1
      · rename_i heq
        exact absurd (List.cons.inj heq).1 hsign.2
      · rename_i heq
        exact absurd (List.cons.inj heq).1 hsign.2
      · rw [h, Option.bind_some, shortest?_toNat]
    rw [Value.parse, if_pos hstart, hnumeral]

theorem not_isDigit_of_isAlpha {c : Char} (h : c.isAlpha = true) : c.isDigit = false := by
  rw [Bool.eq_false_iff]
  intro hdigit
  have hlow : c.val ≤ '9'.val := of_decide_eq_true (Bool.and_eq_true_iff.mp hdigit).2
  rcases Bool.or_eq_true_iff.mp h with hupper | hlower
  · have hhigh : 'A'.val ≤ c.val := (of_decide_eq_true hupper).1
    exact absurd (UInt32.le_trans hhigh hlow) (by decide)
  · have hhigh : 'a'.val ≤ c.val := of_decide_eq_true (Bool.and_eq_true_iff.mp hlower).1
    exact absurd (UInt32.le_trans hhigh hlow) (by decide)

theorem Value.parse_isName {text : List Char} (h : isName text = true) :
    Value.parse text = .ok (.name text) := by
  cases text with
  | nil => cases h
  | cons c rest =>
    have hstart : startsNumeral (c :: rest) = false := by
      simp only [isName, Bool.and_eq_true, Bool.or_eq_true, beq_iff_eq] at h
      rcases h.1 with halpha | rfl
      · have hsign : c ≠ '$' ∧ c ≠ '%' := by
          constructor <;> (rintro rfl; cases halpha)
        simp [startsNumeral, hsign, not_isDigit_of_isAlpha halpha]
      · rfl
    rw [Value.parse, hstart, if_neg (by simp), if_pos h]

theorem modes_shape (operation : Operation) (mode : AddressingMode) (value value' : Value) :
    Statement.modes operation (mode.shape value) = Statement.modes operation (mode.shape value') := by
  cases mode <;> rfl

theorem rightpad_valueBytes {v : UInt16} {size : ℕ} (h : widthOf v ≤ size) (hle : size ≤ 2) :
    (valueBytes (widthOf v) v).rightpad size 0 = littleEndian size v.toNat := by
  unfold valueBytes
  unfold widthOf at h ⊢
  split at h
  · rename_i hlow
    have hhigh : v.toNat / 256 = 0 := Nat.div_eq_of_lt hlow
    obtain rfl | rfl : size = 1 ∨ size = 2 := by omega
    · rw [if_pos hlow]
      rfl
    · rw [if_pos hlow, littleEndian, littleEndian, littleEndian, hhigh]
      rfl
  · rename_i hlow
    obtain rfl : size = 2 := by omega
    rw [if_neg hlow]
    rfl

namespace Written
variable {w : Written} {name : List Char} (hn : w.operand.value = .name name)
include hn

theorem find?_operandSize {m : AddressingMode} (hm : m ∈ w.modes) :
    w.modes.find? (·.operandSize == m.operandSize) = some m := by
  have hnodup : (w.modes.map AddressingMode.operandSize).Nodup :=
    (sizes_sublist hn).nodup (by decide)
  have hsome : (w.modes.find? (·.operandSize == m.operandSize)).isSome = true :=
    List.find?_isSome.mpr ⟨m,hm,beq_self_eq_true _⟩
  obtain ⟨m',hfind⟩ := Option.isSome_iff_exists.mp hsome
  have hsame : m'.operandSize = m.operandSize := by simpa using List.find?_some hfind
  rw [hfind, List.inj_on_of_nodup_map hnodup (List.mem_of_find?_eq_some hfind) hm hsame]

theorem operandSize_eq_widthIn {g : Group} (hg : w.group? = some g) {m : AddressingMode} {v : UInt16}
    (hm : w.modes.find? (widthOf v ≤ ·.operandSize) = some m) :
    m.operandSize = g.widthIn (decide (256 ≤ v.toNat)) := by
  obtain ⟨first,code,hfirst,-,rfl⟩ := group?_eq_some_iff.mp hg
  obtain ⟨rest,hrest⟩ := modes_eq_cons hn hfirst
  have hmem := List.mem_of_find?_eq_some hm
  have hmin : widthOf v ≤ m.operandSize := by simpa using List.find?_some hm
  have hsize := size_of_mem hn hmem
  have hsize' := size_of_mem hn (mem_of_mode? hfirst)
  have hbytes := length_fill hfirst
  rw [Group.widthIn]
  split
  -- with both forms a literal of one byte finds the narrow one, which comes first
  · rename_i htwo
    have hnarrow : first.operandSize = 1 :=
      hbytes.symm.trans (Group.Parsed.narrow_of_twoForms (.instruction w _ hg) htwo)
    unfold widthOf at hm hmin
    by_cases hlow : v.toNat < 256
    · rw [if_pos hlow, hrest, List.find?_cons_of_pos (by simp [hnarrow])] at hm
      cases hm
      rw [hnarrow, if_neg (by simpa using hlow)]
    · rw [if_neg hlow] at hmin
      rw [if_pos (by simpa using hlow)]
      omega
  · rename_i htwo
    refine Eq.trans ?_ hbytes.symm
    -- a mode of another size than the first would be a second form
    by_contra hne
    refine htwo ((twoForms_iff hg hn).mpr ?_)
    have hfirstmem := mem_of_mode? hfirst
    rcases hsize with hone | htwo
    · exact ⟨⟨m,hmem,hone⟩,first,hfirstmem,by omega⟩
    · exact ⟨⟨first,hfirstmem,by omega⟩,m,hmem,htwo⟩

theorem exists_group_of_mem {m : AddressingMode} (hm : m ∈ w.modes) : ∃ g, w.group? = some g := by
  cases hmodes : w.modes with
  | nil =>
    rw [hmodes] at hm
    cases hm
  | cons first rest =>
    obtain ⟨code,hcode⟩ := encode_of_mem (w := w) (hmodes ▸ List.mem_cons_self ..)
    have hfirst : Statement.mode? w.operation w.operand = some first := by
      rw [Statement.mode?, hn]
      exact List.head?_eq_some_iff.mpr ⟨rest,hmodes⟩
    exact ⟨_,group?_eq_some_iff.mpr ⟨first,code,hfirst,hcode,rfl⟩⟩

end Written

section
variable {number : ℕ} {operation : Operation} {mode : AddressingMode} {v : UInt16} {h : Group}
  (hsize : mode.operandSize ≠ 0)
  (hh : Statement.instructionGroup? number operation
    (mode.shape (.literal (valueBytes (widthOf v) v))) = some h)
include hsize hh

theorem exists_mode_of_literal (name : List Char) :
    ∃ m code, (Statement.modes operation (mode.shape (.name name))).find?
        (widthOf v ≤ ·.operandSize) = some m ∧ encode operation m = some code ∧
      h = Group.instruction number operation.mnemonic operation m code .known
        (littleEndian m.operandSize v.toNat) := by
  have hvalue := value_shape_of_size hsize (.literal (valueBytes (widthOf v) v))
  have hlength : (valueBytes (widthOf v) v).length = widthOf v := length_littleEndian ..
  obtain ⟨m,code,hm,hcode,rfl⟩ :=
    (Written.group?_eq_some_iff (w := ⟨number,operation,mode.shape _⟩)).mp hh
  simp only [Statement.mode?, hvalue, hlength,
    modes_shape operation mode _ (.name name)] at hm
  have hmin : widthOf v ≤ m.operandSize := by simpa using List.find?_some hm
  refine ⟨m,code,hm,hcode,?_⟩
  simp only [hvalue, Statement.fill, rightpad_valueBytes hmin m.operandSize_le]

/-- If a literal is accepted a name is, and filled with the value it is the same. -/
theorem exists_filled (hbranch : operation.isBranch = false) (name : List Char) :
    ∃ g, Statement.instructionGroup? number operation (mode.shape (.name name)) = some g ∧
      g.awaited? = some name ∧ g.Filled v.toNat h := by
  let w : Written := ⟨number,operation,mode.shape (.name name)⟩
  have hn : w.operand.value = .name name := value_shape_of_size hsize _
  obtain ⟨m,code,hm,hcode,rfl⟩ := exists_mode_of_literal hsize hh name
  have hmem : m ∈ w.modes := List.mem_of_find?_eq_some hm
  obtain ⟨g,hg⟩ := Written.exists_group_of_mem hn hmem
  have hwidth := Written.operandSize_eq_widthIn hn hg hm
  refine ⟨g,hg,(Written.awaited?_eq_some_iff hg).mpr hn,?_⟩
  refine ⟨?_,?_,?_,?_,(Written.branch_eq hg).trans hbranch⟩
  · obtain ⟨_,_,-,-,rfl⟩ := Written.group?_eq_some_iff.mp hg
    rfl
  · rw [Written.form?_eq hg hn]
    simp only [Group.instruction, length_littleEndian, Written.find?_operandSize hn hmem,
      Option.bind_some]
    exact congrArg (Option.map _) hcode
  · simp only [Group.instruction, length_littleEndian, hwidth]
  · simp only [Group.instruction, length_littleEndian]

end

/-- A name whose first definition is a constant has its value wherever the groups lie. -/
theorem value?_of_definition {source : List Char} {groups : List Group}
    (hsource : parseSource source = .ok groups) {name : List Char} {line number : ℕ}
    (hdefine : (definitions source).find? (·.name == name) = some ⟨line,name,some number⟩)
    (origin : ℕ) (W : WidthChoice) : value? origin groups W name = some number := by
  rw [definitions, ← (definitions_of_parseLines hsource).2.2, List.find?_filterMap] at hdefine
  simp only [Group.any_definition?] at hdefine
  obtain ⟨d,hd,hdefinition⟩ := Option.bind_eq_some_iff.mp hdefine
  rw [List.find?_eq_bind_findIdx?_getElem?] at hd
  obtain ⟨i,hi,hd⟩ := Option.bind_eq_some_iff.mp hd
  refine value?_eq_some_iff.mpr ⟨i,d,hi,hd,?_⟩
  unfold Group.definition? at hdefinition
  unfold Group.valueAt
  split at hdefinition
  · cases hdefinition
  · cases hdefinition
  · rename_i hcontent
    rw [hcontent]
    cases hdefinition
    rfl

theorem parseSource_of_line {source : List Char} {before after : List (List Char)}
    {text : List Char} {made : List Group} (hlines : Text.lines source = before ++ text :: after)
    (hline : parseLine (before.length + 1) text = .ok made) :
    parseSource source = parseLines 1 before >>= fun groups =>
      (parseLines (before.length + 2) after).map fun others => groups ++ (made ++ others) := by
  rw [parseSource, hlines, parseLines_append]
  refine congrArg (parseLines 1 before >>= ·) (funext fun groups => ?_)
  rw [parseLines, Nat.add_comm 1, hline]
  simp only [bind, Except.bind]
  cases parseLines (before.length + 1 + 1) after <;> rfl

theorem exists_groups_of_lines {text text' : List Char} {label? : Option (List Char)}
    {operation : Operation} {mode : AddressingMode} {name decimal : List Char} {v : UInt16}
    (htext : WritesInstruction label? operation (mode.spell name) text)
    (htext' : WritesInstruction label? operation (mode.spell decimal) text')
    (hmode : mode.operandSize ≠ 0) (hbranch : operation.isBranch = false)
    (hname : isName name = true) (haccumulator : name ≠ ['A'])
    (hdecimal : digits? 10 decimal = some v.toNat) {number : ℕ}
    (haccepted : ∃ made, parseLine number text' = .ok made) :
    ∃ labels g h, parseLine number text = .ok (labels ++ [g]) ∧
      parseLine number text' = .ok (labels ++ [h]) ∧ g.awaited? = some name ∧
      g.Filled v.toNat h := by
  have hspell : Operand.parse (mode.spell name) = .ok (mode.shape (.name name)) :=
    Operand.parse_spell_value (Value.parse_isName hname) haccumulator hmode
  have hspell' := Operand.parse_spell_value (Value.parse_decimal hdecimal)
    (by rintro rfl; cases hdecimal) hmode
  obtain ⟨made,hmade⟩ := haccepted
  obtain ⟨hlabel,o,h,ho,hh,rfl⟩ := htext'.parseLine_eq_ok_iff.mp hmade
  cases hspell'.symm.trans ho
  rw [reading_shape] at hh
  obtain ⟨g,hg,hawaited,hfilled⟩ := exists_filled hmode hh hbranch name
  refine ⟨_,g,h,htext.parseLine_eq_ok_iff.mpr ⟨hlabel,_,g,hspell,?_,rfl⟩,hmade,hawaited,hfilled⟩
  rw [reading_shape, hg]

/-- A constant means its number. An operand that is written with the name of a constant can be
written with the number in decimal, if the operation takes that: the program, or the error, is
the same. -/
theorem assemble_constant_eq_literal {options : Options} {source source' : List Char}
    {before after : List (List Char)} {text text' : List Char} {label? : Option (List Char)}
    {operation : Operation} {mode : AddressingMode} {name decimal : List Char} {line : ℕ} {v : UInt16}
    (hsource : Text.lines source = before ++ text :: after)
    (hsource' : Text.lines source' = before ++ text' :: after)
    (htext : WritesInstruction label? operation (mode.spell name) text)
    (htext' : WritesInstruction label? operation (mode.spell decimal) text')
    (hmode : mode.operandSize ≠ 0) (hbranch : operation.isBranch = false)
    (hname : isName name = true) (haccumulator : name ≠ ['A'])
    (hdefine : (definitions source).find? (·.name == name) = some ⟨line,name,some v.toNat⟩)
    (hdecimal : digits? 10 decimal = some v.toNat)
    (haccepted : ∃ made, parseLine (before.length + 1) text' = .ok made)
    (hroom : options.origin.toNat + 3 * (written source).length ≤ 0xFFFF) :
    assemble options source = assemble options source' := by
  obtain ⟨labels,g,h,hmade,hmade',hawaited,hfilled⟩ := exists_groups_of_lines htext htext' hmode
    hbranch hname haccumulator hdecimal haccepted
  have hparse := parseSource_of_line hsource hmade
  have hparse' := parseSource_of_line hsource' hmade'
  -- a bad line elsewhere is the error of both sources
  cases hbefore : parseLines 1 before with
  | error e =>
    rw [hbefore] at hparse hparse'
    rw [assemble_eq_error_iff.mpr (.inl hparse), assemble_eq_error_iff.mpr (.inl hparse')]
  | ok groups =>
    cases hafter : parseLines (before.length + 2) after with
    | error e =>
      rw [hbefore, hafter] at hparse hparse'
      rw [assemble_eq_error_iff.mpr (.inl hparse), assemble_eq_error_iff.mpr (.inl hparse')]
    | ok others =>
      rw [hbefore, hafter] at hparse hparse'
      let all := groups ++ (labels ++ [g] ++ others)
      have hi : all[groups.length + labels.length]? = some g := by simp [all]
      have hset : all.set (groups.length + labels.length) h = groups ++ (labels ++ [h] ++ others) := by
        simp [all]
      have hvalue : ∀ W, g.awaited?.bind (value? options.origin.toNat all W) = some v.toNat := by
        intro W
        rw [hawaited]
        exact value?_of_definition hparse hdefine _ W
      exact assemble_set hparse (hparse'.trans (congrArg Except.ok hset.symm)) hi hfilled hvalue hroom

theorem assemble_constant_eq_literal_indexed :
    assemble ⟨0xFC,true⟩ "x: lda n , x ; name\nBNE x\nDEFINE n 300".toList =
        assemble ⟨0xFC,true⟩ "x: LDA 300,X\nBNE x\nDEFINE n 300".toList ∧
      assemble ⟨0xFC,true⟩ "x: LDA 300,X\nBNE x\nDEFINE n 300".toList =
        .ok ⟨[0xBD, 0x2C, 0x01, 0xD0, 0xFB],0xFC,
          [⟨['X'],0xFC,.label,1⟩,⟨['N'],300,.constant,3⟩]⟩ := by
  have hline : WritesInstruction (some ['X']) .lda (AddressingMode.absoluteX.spell ['N'])
      "x: lda n , x ; name".toList := ⟨[['N'], [','], ['X']],rfl,by rfl⟩
  have hline' : WritesInstruction (some ['X']) .lda (AddressingMode.absoluteX.spell ['3', '0', '0'])
      "x: LDA 300,X".toList := ⟨[['3', '0', '0', ',', 'X']],rfl,by rfl⟩
  have hlines : Text.lines "x: lda n , x ; name\nBNE x\nDEFINE n 300".toList =
      [] ++ "x: lda n , x ; name".toList :: ["BNE x".toList, "DEFINE n 300".toList] := by rfl
  have hlines' : Text.lines "x: LDA 300,X\nBNE x\nDEFINE n 300".toList =
      [] ++ "x: LDA 300,X".toList :: ["BNE x".toList, "DEFINE n 300".toList] := by rfl
  have hdefine : (definitions "x: lda n , x ; name\nBNE x\nDEFINE n 300".toList).find?
      (·.name == ['N']) = some ⟨3,['N'],some (300 : UInt16).toNat⟩ := by rfl
  exact ⟨assemble_constant_eq_literal hlines hlines' hline hline' (by decide) rfl (by decide)
    (by decide) hdefine (by rfl) ⟨_,rfl⟩ (by decide),by rfl⟩

end Nmos6502.Assembly
