import Nmos6502.Proofs.ConstantOperands
import Nmos6502.Proofs.LineWords
import Nmos6502.Proofs.Numerals

/-! # The grammar of operands

The texts that an operation takes behind its mnemonic, and the mode that each of them stands for.
A value is a name or a numeral; signs around it tell the shape, in one way only, and the shape tells
the modes that come into question, one at most for each number of bytes. A value that may stand in
one byte takes the short mode if the operation has it, and everything else needs the long one.
-/
namespace Nmos6502.Assembly

/-- The text is a valid name, or begins as a numeral does and is read as one. -/
inductive IsValue : List Char → Value → Prop
  | name {text : List Char} (h : isName text = true) : IsValue text (.name text)
  | literal {text : List Char} {bytes : List UInt8} (hstart : startsNumeral text = true)
      (h : numeral? text = some bytes) : IsValue text (.literal bytes)

/-- The value may stand in one byte: a numeral of one byte, or a name. -/
def Value.Short : Value → Prop
  | .literal bytes => bytes.length = 1
  | .name _ => True

namespace Operand

/-- The ways to write an operand. Behind an operation with a form on the accumulator the letter `A`
alone is not a name. -/
inductive Spelled (operation : Operation) : List Char → Operand → Prop
  | empty : Spelled operation [] .empty
  | accumulator (h : supports operation .accumulator = true) :
      Spelled operation ['A'] .accumulator
  | immediate {text : List Char} {value : Value} (h : IsValue text value) :
      Spelled operation ('#' :: text) (.immediate value)
  | direct {text : List Char} {value : Value} (h : IsValue text value)
      (hname : text = ['A'] → supports operation .accumulator = false) :
      Spelled operation text (.direct value)
  | indirect {text : List Char} {value : Value} (h : IsValue text value) :
      Spelled operation ('(' :: (text ++ [')'])) (.indirect value)
  | indexedIndirect {text : List Char} {value : Value} (h : IsValue text value) :
      Spelled operation ('(' :: (text ++ [',', 'X', ')'])) (.indexedIndirect value)
  | indirectIndexed {text : List Char} {value : Value} (h : IsValue text value) :
      Spelled operation ('(' :: (text ++ [')', ',', 'Y'])) (.indirectIndexed value)
  | indexedX {text : List Char} {value : Value} (h : IsValue text value) :
      Spelled operation (text ++ [',', 'X']) (.indexed value .x)
  | indexedY {text : List Char} {value : Value} (h : IsValue text value) :
      Spelled operation (text ++ [',', 'Y']) (.indexed value .y)

/-- The mode of a shape with one operand byte. -/
def short? (operation : Operation) : Operand → Option AddressingMode
  | .immediate _ => some .immediate
  | .direct _ => some (if operation.isBranch then .relative else .zeroPage)
  | .indexedIndirect _ => some .indirectX
  | .indirectIndexed _ => some .indirectY
  | .indexed _ .x => some .zeroPageX
  | .indexed _ .y => some .zeroPageY
  | .empty | .accumulator | .indirect _ => none

/-- The mode of a shape with two operand bytes. -/
def long? (operation : Operation) : Operand → Option AddressingMode
  | .direct _ => if operation.isBranch then none else some .absolute
  | .indirect _ => some .indirect
  | .indexed _ .x => some .absoluteX
  | .indexed _ .y => some .absoluteY
  | .empty | .accumulator | .immediate _ | .indexedIndirect _ | .indirectIndexed _ => none

/-- The mode that an operation takes for an operand. -/
inductive Takes (operation : Operation) : Operand → AddressingMode → Prop
  | implicit (h : supports operation .implicit = true) : Takes operation .empty .implicit
  | empty (h : supports operation .accumulator = true)
      (hother : supports operation .implicit = false) : Takes operation .empty .accumulator
  | accumulator (h : supports operation .accumulator = true) :
      Takes operation .accumulator .accumulator
  | short {operand : Operand} {mode : AddressingMode} (hmode : operand.short? operation = some mode)
      (h : supports operation mode = true) (hvalue : operand.value.Short) :
      Takes operation operand mode
  | long {operand : Operand} {mode : AddressingMode} (hmode : operand.long? operation = some mode)
      (h : supports operation mode = true)
      (hother : operand.value.Short → ∀ other, operand.short? operation = some other →
        supports operation other = false) :
      Takes operation operand mode

/-- The bytes behind the opcode: the numeral with zeros behind it, or zeros alone for a name. -/
def bytesIn (operand : Operand) (mode : AddressingMode) : List UInt8 :=
  match operand.value with
  | .literal bytes => bytes ++ List.replicate (mode.operandSize - bytes.length) 0
  | .name _ => List.replicate mode.operandSize 0

/-- A name is waited for, with the modes that the operation has for the shape. -/
def stateIn (operand : Operand) (operation : Operation) : OperandState :=
  match operand.value with
  | .literal _ => .known
  | .name name => .pending name
      ((((operand.short? operation).toList ++ (operand.long? operation).toList).filter
        (supports operation)).map fun mode => (mode.operandSize, mode))

end Operand

section
variable {operation : Operation} {text : List Char} {value : Value} {operand : Operand}

theorem Value.parse_eq_ok_iff : Value.parse text = .ok value ↔ IsValue text value := by
  constructor
  · intro h
    unfold Value.parse at h
    split at h
    · rename_i hstart
      split at h
      · rename_i bytes hbytes
        cases h
        exact .literal hstart hbytes
      · cases h
    · split at h
      · rename_i hname
        cases h
        exact .name hname
      · cases h
  · intro h
    cases h with
    | name h => exact Value.parse_isName h
    | literal hstart h => rw [Value.parse, if_pos hstart, h]

theorem Value.map_parse_eq_ok_iff {shape : Value → Operand} :
    (Value.parse text).map shape = .ok operand ↔ ∃ value, IsValue text value ∧ shape value = operand := by
  simp only [map_eq_ok_iff, Value.parse_eq_ok_iff]

namespace Operand

theorem spelled_of_parseInner (h : parseInner text = .ok operand) :
    Spelled operation ('(' :: text) (operand.reading operation) := by
  unfold parseInner at h
  split at h
  · rename_i hend
    obtain ⟨value,hvalue,rfl⟩ := Value.map_parse_eq_ok_iff.mp h
    rw [Text.beforeEnd?_eq_some.mp hend]
    exact .indexedIndirect hvalue
  · split at h
    · rename_i hend
      obtain ⟨value,hvalue,rfl⟩ := Value.map_parse_eq_ok_iff.mp h
      rw [Text.beforeEnd?_eq_some.mp hend]
      exact .indirectIndexed hvalue
    · split at h
      · rename_i hend
        obtain ⟨value,hvalue,rfl⟩ := Value.map_parse_eq_ok_iff.mp h
        rw [Text.beforeEnd?_eq_some.mp hend]
        exact .indirect hvalue
      · cases h

theorem spelled_of_parseDirect (hname : text ≠ ['A']) (h : parseDirect text = .ok operand) :
    Spelled operation text (operand.reading operation) := by
  unfold parseDirect at h
  split at h
  · rename_i hend
    obtain ⟨value,hvalue,rfl⟩ := Value.map_parse_eq_ok_iff.mp h
    rw [Text.beforeEnd?_eq_some.mp hend]
    exact .indexedX hvalue
  · split at h
    · rename_i hend
      obtain ⟨value,hvalue,rfl⟩ := Value.map_parse_eq_ok_iff.mp h
      rw [Text.beforeEnd?_eq_some.mp hend]
      exact .indexedY hvalue
    · obtain ⟨value,hvalue,rfl⟩ := Value.map_parse_eq_ok_iff.mp h
      exact .direct hvalue fun heq => absurd heq hname

theorem spelled_of_parse (h : parse text = .ok operand) :
    Spelled operation text (operand.reading operation) := by
  unfold parse at h
  split at h
  · cases h
    exact .empty
  · cases h
    rw [reading]
    split
    · rename_i hsupports
      exact .accumulator hsupports
    · rename_i hsupports
      exact .direct (.name (by decide)) fun _ => by simpa using hsupports
  · obtain ⟨value,hvalue,rfl⟩ := Value.map_parse_eq_ok_iff.mp h
    exact .immediate hvalue
  · exact spelled_of_parseInner h
  · rename_i hname _ _
    exact spelled_of_parseDirect hname h

/-- Each shape is read as what it is, also where its text has the signs of another one: a value has
none of them. -/
theorem Spelled.exists_parse (h : Spelled operation text operand) :
    ∃ o, parse text = .ok o ∧ o.reading operation = operand := by
  cases h with
  | empty => exact ⟨.empty,rfl,rfl⟩
  | accumulator h => exact ⟨.accumulator,rfl,if_pos h⟩
  | @immediate text value h =>
    exact ⟨.immediate value,Value.map_parse_eq_ok_iff.mpr ⟨value,h,rfl⟩,rfl⟩
  | @direct _ value h hname =>
    by_cases haccumulator : text = ['A']
    · subst haccumulator
      refine ⟨.accumulator,rfl,?_⟩
      rw [reading, if_neg (by simp [hname rfl])]
      cases h with
      | name _ => rfl
      | literal hstart _ => cases hstart
    · exact ⟨_,parse_direct (Value.parse_eq_ok_iff.mpr h) haccumulator,rfl⟩
  | indirect h => exact ⟨_,parseInner_plain (Value.parse_eq_ok_iff.mpr h),rfl⟩
  | indexedIndirect h => exact ⟨_,parseInner_indexed (Value.parse_eq_ok_iff.mpr h),rfl⟩
  | indirectIndexed h => exact ⟨_,parseInner_then_indexed (Value.parse_eq_ok_iff.mpr h),rfl⟩
  | indexedX h => exact ⟨_,parse_indexedX (Value.parse_eq_ok_iff.mpr h),rfl⟩
  | indexedY h => exact ⟨_,parse_indexedY (Value.parse_eq_ok_iff.mpr h),rfl⟩

end Operand
end

def Value.fits (value : Value) (mode : AddressingMode) : Bool :=
  match value with
  | .literal bytes => bytes.length ≤ mode.operandSize
  | .name _ => true

theorem find?_toList_append {α : Type} {first? second? : Option α} {p : α → Bool} {a : α} :
    (first?.toList ++ second?.toList).find? p = some a ↔ first? = some a ∧ p a = true ∨
      (∀ b, first? = some b → p b = false) ∧ second? = some a ∧ p a = true := by
  have hfind : ∀ o : Option α, o.toList.find? p = o.filter p := by
    intro o
    cases o with
    | none => rfl
    | some b => exact List.find?_singleton.trans Option.filter_some.symm
  simp only [List.find?_append, hfind, Option.or_eq_some_iff, Option.filter_eq_some_iff,
    Option.filter_eq_none_iff, Bool.not_eq_true]

section
variable {operation : Operation} {text : List Char} {value : Value} {operand : Operand}
  {mode : AddressingMode}

theorem Statement.mode?_eq_find? : Statement.mode? operation operand =
    (operand.modes operation).find? fun mode => supports operation mode && operand.value.fits mode := by
  have hand : ∀ mode, (supports operation mode && operand.value.fits mode) =
      decide (supports operation mode = true ∧ operand.value.fits mode = true) := by
    simp
  simp only [hand, ← List.find?_filter]
  unfold Statement.mode?
  split
  · rename_i bytes hvalue
    rw [hvalue]
    rfl
  · rename_i name hvalue
    rw [hvalue, Statement.modes]
    cases (operand.modes operation).filter (supports operation) <;> rfl

section
variable (h : IsValue text value)
include h

theorem IsValue.length_cases {bytes : List UInt8} (hbytes : value = .literal bytes) :
    bytes.length = 1 ∨ bytes.length = 2 := by
  subst hbytes
  cases h with
  | literal _ h =>
    obtain ⟨r,digits,-,number,-,rfl⟩ := numeral?_eq_some_iff.mp h
    rw [length_littleEndian]
    cases r <;> (simp only [Radix.width]; split <;> simp)

theorem IsValue.ne_nil : value ≠ .literal [] := by
  rintro rfl
  simpa using h.length_cases rfl

theorem IsValue.fits_iff_short (hsize : mode.operandSize = 1) : value.fits mode = true ↔ value.Short := by
  cases value with
  | name name => simp [Value.fits, Value.Short]
  | literal bytes =>
    have hlength := h.length_cases rfl
    simp only [Value.fits, Value.Short, hsize, decide_eq_true_eq]
    omega

theorem IsValue.fits_long (hsize : mode.operandSize = 2) : value.fits mode = true := by
  cases value with
  | name name => rfl
  | literal bytes =>
    have hlength := h.length_cases rfl
    simp only [Value.fits, hsize, decide_eq_true_eq]
    omega

end

namespace Operand

theorem operandSize_of_short? (h : operand.short? operation = some mode) : mode.operandSize = 1 := by
  cases operand with
  | empty | accumulator | indirect => cases h
  | direct value =>
    cases h
    split <;> rfl
  | indexed value index =>
    cases index <;> (cases h; rfl)
  | immediate | indexedIndirect | indirectIndexed =>
    cases h
    rfl

theorem operandSize_of_long? (h : operand.long? operation = some mode) : mode.operandSize = 2 := by
  cases operand with
  | empty | accumulator | immediate | indexedIndirect | indirectIndexed => cases h
  | direct value =>
    obtain ⟨-,hmode⟩ := Option.ite_none_left_eq_some.mp h
    cases hmode
    rfl
  | indexed value index =>
    cases index <;> (cases h; rfl)
  | indirect =>
    cases h
    rfl

theorem modes_eq (h : operand.value ≠ .literal []) : operand.modes operation =
    (operand.short? operation).toList ++ (operand.long? operation).toList := by
  cases operand with
  | empty | accumulator => exact absurd rfl h
  | direct value =>
    simp only [modes, short?, long?]
    split <;> rfl
  | indexed value index => cases index <;> rfl
  | _ => rfl

theorem mode?_eq_some_iff_of_isValue (h : IsValue text operand.value) :
    Statement.mode? operation operand = some mode ↔ Takes operation operand mode := by
  simp only [Statement.mode?_eq_find?, modes_eq h.ne_nil, find?_toList_append, Bool.and_eq_true,
    Bool.and_eq_false_iff]
  -- the short mode comes first, and every value fits the long one
  constructor
  · rintro (⟨hmode,hsupports,hfits⟩ | ⟨hother,hmode,hsupports,-⟩)
    · exact .short hmode hsupports ((h.fits_iff_short (operandSize_of_short? hmode)).mp hfits)
    · refine .long hmode hsupports fun hshort other hs => (hother other hs).resolve_right ?_
      simp [(h.fits_iff_short (operandSize_of_short? hs)).mpr hshort]
  · intro htakes
    cases htakes with
    | implicit | empty | accumulator => exact absurd rfl h.ne_nil
    | short hmode hsupports hshort =>
      exact .inl ⟨hmode,hsupports,(h.fits_iff_short (operandSize_of_short? hmode)).mpr hshort⟩
    | long hmode hsupports hother =>
      refine .inr ⟨fun other hs => ?_,hmode,hsupports,h.fits_long (operandSize_of_long? hmode)⟩
      by_cases hshort : operand.value.Short
      · exact .inl (hother hshort other hs)
      · exact .inr (by simpa [hshort] using h.fits_iff_short (operandSize_of_short? hs))

theorem mode?_empty_eq_some_iff :
    Statement.mode? operation .empty = some mode ↔ Takes operation .empty mode := by
  have hmodes : Operand.empty.modes operation =
      (some AddressingMode.implicit).toList ++ (some AddressingMode.accumulator).toList := rfl
  have hfits : ∀ mode, Operand.empty.value.fits mode = true := by
    simp [Operand.value, Value.fits]
  simp only [Statement.mode?_eq_find?, hmodes, find?_toList_append, hfits, Bool.and_true,
    Option.some.injEq, forall_eq']
  constructor
  · rintro (⟨rfl,h⟩ | ⟨hother,rfl,h⟩)
    · exact .implicit h
    · exact .empty h hother
  · intro h
    cases h with
    | implicit h => exact .inl ⟨rfl,h⟩
    | empty h hother => exact .inr ⟨hother,rfl,h⟩
    | short hmode | long hmode => cases hmode

theorem mode?_accumulator_eq_some_iff :
    Statement.mode? operation .accumulator = some mode ↔ Takes operation .accumulator mode := by
  have hfits : Operand.accumulator.value.fits .accumulator = true := rfl
  simp only [Statement.mode?_eq_find?, modes, List.find?_singleton, hfits, Bool.and_true,
    Option.ite_none_right_eq_some, Option.some.injEq]
  constructor
  · rintro ⟨h,rfl⟩
    exact .accumulator h
  · intro h
    cases h with
    | accumulator h => exact ⟨h,rfl⟩
    | short hmode | long hmode => cases hmode

theorem mode?_eq_some_iff (h : Spelled operation text operand) :
    Statement.mode? operation operand = some mode ↔ Takes operation operand mode := by
  cases h with
  | empty => exact mode?_empty_eq_some_iff
  | accumulator => exact mode?_accumulator_eq_some_iff
  | immediate h | direct h _ | indirect h | indexedIndirect h | indirectIndexed h | indexedX h
  | indexedY h => exact mode?_eq_some_iff_of_isValue h

end Operand
end

section
variable {operation : Operation} {text : List Char} {operand : Operand} {mode : AddressingMode}

theorem isLower_iff {c : Char} : c.isLower = true ↔ 97 ≤ c.toNat ∧ c.toNat ≤ 122 :=
  Bool.and_eq_true_iff.trans (and_congr (decide_eq_true_iff.trans UInt32.le_iff_toNat_le)
    (decide_eq_true_iff.trans UInt32.le_iff_toNat_le))

theorem toUpper_of_not_isLower {c : Char} (h : c.isLower = false) : c.toUpper = c := by
  apply Char.toNat_inj.mp
  rw [Text.toNat_toUpper, if_neg (mt isLower_iff.mpr (by simp [h]))]

theorem writesInstruction_of_unblank
    (h : ∀ c ∈ text, Text.isBlank c = false ∧ c ≠ ';' ∧ c.isLower = false) :
    WritesInstruction none operation text (operation.mnemonic ++ ' ' :: text) := by
  have hmnemonic : Text.words operation.mnemonic = [operation.mnemonic] :=
    Text.words_of_unblank (by cases operation <;> decide) fun c hc => (Instruction.mem_mnemonic hc).1
  have hline : ∀ c ∈ operation.mnemonic ++ ' ' :: text, c ≠ ';' ∧ c.toUpper = c := by
    intro c hc
    rcases List.mem_append.mp hc with hc | hc
    · obtain ⟨-,hcomment,hupper,-⟩ := Instruction.mem_mnemonic hc
      exact ⟨hcomment,hupper⟩
    · rcases List.mem_cons.mp hc with rfl | hc
      · decide
      · obtain ⟨-,hcomment,hlower⟩ := h c hc
        exact ⟨hcomment,toUpper_of_not_isLower hlower⟩
  have hwords : Text.words (cleanLine (operation.mnemonic ++ ' ' :: text)) =
      operation.mnemonic :: Text.words text := by
    rw [words_cleanLine, code_eq_self fun hc => (hline _ hc).1 rfl, ← Text.words_upper,
      Text.upper_eq_self fun c hc => (hline c hc).2, Text.words_append (by decide), hmnemonic]
    rfl
  refine ⟨Text.words text,?_,hwords⟩
  rw [Text.flatten_words]
  exact List.filter_eq_self.mpr fun c hc => by simp [(h c hc).1]

theorem Statement.fill_eq (hmode : Statement.mode? operation operand = some mode) :
    Statement.fill (Statement.modes operation operand) mode operand.value =
      (operand.stateIn operation,operand.bytesIn mode) := by
  cases hvalue : operand.value with
  | literal bytes =>
    simp only [Statement.fill, Operand.stateIn, Operand.bytesIn, hvalue]
    rfl
  | name name =>
    have hbytes := Written.length_placeholder (w := ⟨0,operation,operand⟩) hvalue hmode
    have hmodes : operand.modes operation =
        (operand.short? operation).toList ++ (operand.long? operation).toList :=
      Operand.modes_eq (by simp [hvalue])
    simp only [Written.sized, Written.modes, Statement.modes, hmodes, Group.placeholder,
      List.length_replicate] at hbytes
    simp only [Statement.fill, Operand.stateIn, Operand.bytesIn, hvalue, Statement.modes, hmodes,
      Group.placeholder, hbytes]

theorem instructionGroup?_eq_some_iff (h : Operand.Spelled operation text operand) {line : ℕ}
    {g : Group} : Statement.instructionGroup? line operation operand = some g ↔
      ∃ mode code, operand.Takes operation mode ∧ encode operation mode = some code ∧
        Group.instruction line operation.mnemonic operation mode code (operand.stateIn operation)
          (operand.bytesIn mode) = g := by
  refine (Written.group?_eq_some_iff (w := ⟨line,operation,operand⟩)).trans ?_
  simp only [← Operand.mode?_eq_some_iff h]
  constructor <;> rintro ⟨mode,code,hmode,hcode,rfl⟩ <;> refine ⟨mode,code,hmode,hcode,?_⟩
  · rw [Written.modes, Statement.fill_eq hmode]
  · rw [Written.modes, Statement.fill_eq hmode]

end

/-- An instruction is read exactly if its operand is spelled in one of the shapes and the operation
takes the shape with its value. It makes one group then, in the mode that is taken: the short one if
the operation has it and the value may stand in one byte. -/
theorem operand_grammar_exact {operation : Operation} {text : List Char}
    (h : ∀ c ∈ text, Text.isBlank c = false ∧ c ≠ ';' ∧ c.isLower = false) (line : ℕ)
    (groups : List Group) :
    parseLine line (operation.mnemonic ++ ' ' :: text) = .ok groups ↔
      ∃ operand mode code, Operand.Spelled operation text operand ∧ operand.Takes operation mode ∧
        encode operation mode = some code ∧
        groups = [Group.instruction line operation.mnemonic operation mode code
          (operand.stateIn operation) (operand.bytesIn mode)] := by
  rw [(writesInstruction_of_unblank h).parseLine_eq_ok_iff]
  constructor
  · rintro ⟨-,o,g,hparse,hgroup,rfl⟩
    have hspelled : Operand.Spelled operation text (o.reading operation) :=
      Operand.spelled_of_parse hparse
    obtain ⟨mode,code,htakes,hcode,rfl⟩ := (instructionGroup?_eq_some_iff hspelled).mp hgroup
    exact ⟨_,mode,code,hspelled,htakes,hcode,rfl⟩
  · rintro ⟨operand,mode,code,hspelled,htakes,hcode,rfl⟩
    obtain ⟨o,hparse,rfl⟩ := hspelled.exists_parse
    exact ⟨nofun,o,_,hparse,(instructionGroup?_eq_some_iff hspelled).mpr
      ⟨mode,code,htakes,hcode,rfl⟩,rfl⟩

theorem operand_grammar_exact_widened :
    (∀ c ∈ ['$', '0', 'A', ',', 'Y'], Text.isBlank c = false ∧ c ≠ ';' ∧ c.isLower = false) ∧
    parseLine 1 (Operation.lda.mnemonic ++ ' ' :: ['$', '0', 'A', ',', 'Y']) =
      .ok [Group.instruction 1 ['L', 'D', 'A'] .lda .absoluteY 0xB9 .known [0x0A, 0x00]] := by
  have hunblank : ∀ c ∈ ['$', '0', 'A', ',', 'Y'],
      Text.isBlank c = false ∧ c ≠ ';' ∧ c.isLower = false := by
    simp only [List.forall_mem_cons]
    exact ⟨by decide,by decide,by decide,by decide,by decide,nofun⟩
  have hvalue : IsValue ['$', '0', 'A'] (.literal [0x0A]) := .literal rfl (by decide)
  have htakes : (Operand.indexed (.literal [0x0A]) .y).Takes .lda .absoluteY := by
    refine .long rfl rfl fun _ other hother => ?_
    cases hother
    rfl
  exact ⟨hunblank,(operand_grammar_exact hunblank 1 _).mpr
    ⟨_,_,0xB9,.indexedY hvalue,htakes,rfl,rfl⟩⟩

end Nmos6502.Assembly
