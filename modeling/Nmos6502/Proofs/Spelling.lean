import Mathlib.Data.List.TakeWhile
import Nmos6502.Proofs.Listing
import Nmos6502.Proofs.NumeralBytes

/-! # Spelling of instructions

An instruction as a line of source: the mnemonic, and the operand in the syntax of its
mode with two hexadecimal digits for each byte. Such a line is read back as the group
of the instruction, in either case and with or without the `A` of the accumulator.
-/
namespace Nmos6502
open Assembly

def hexDigit (n : ℕ) : Char := n.digitChar.toUpper

def hexByte (b : UInt8) : List Char := [hexDigit (b.toNat / 16), hexDigit (b.toNat % 16)]

/-- The number with the given bytes, lowest first, in hexadecimal. -/
def hexNumeral (bytes : List UInt8) : List Char := '$' :: bytes.reverse.flatMap hexByte

/-- The standard syntax of a mode for an operand that is written as given. -/
def AddressingMode.spell (mode : AddressingMode) (operand : List Char) : List Char :=
  match mode with
  | .implicit | .accumulator => []
  | .immediate => '#' :: operand
  | .zeroPage | .absolute | .relative => operand
  | .zeroPageX | .absoluteX => operand ++ [',', 'X']
  | .zeroPageY | .absoluteY => operand ++ [',', 'Y']
  | .indirect => '(' :: (operand ++ [')'])
  | .indirectX => '(' :: (operand ++ [',', 'X', ')'])
  | .indirectY => '(' :: (operand ++ [')', ',', 'Y'])

def AddressingMode.shape (mode : AddressingMode) (value : Value) : Operand :=
  match mode with
  | .implicit | .accumulator => .empty
  | .immediate => .immediate value
  | .zeroPage | .absolute | .relative => .direct value
  | .zeroPageX | .absoluteX => .indexed value .x
  | .zeroPageY | .absoluteY => .indexed value .y
  | .indirect => .indirect value
  | .indirectX => .indexedIndirect value
  | .indirectY => .indirectIndexed value

namespace Instruction

/-- The text is a way to write the operand. -/
def Spells (i : Instruction) (text : List Char) : Prop :=
  text = i.opcode.mode.spell (hexNumeral i.operand) ∨
    (i.opcode.mode = .accumulator ∧ text = ['A'])

def lineOf (i : Instruction) (text : List Char) : List Char :=
  if text = [] then i.opcode.operation.mnemonic else i.opcode.operation.mnemonic ++ ' ' :: text

/-- The line holds the instruction and nothing else, in either case. -/
def Renders (i : Instruction) (line : List Char) : Prop :=
  ∃ text, i.Spells text ∧ Text.upper line = i.lineOf text

def group (i : Instruction) (line : ℕ) : Group :=
  Group.instruction line i.opcode.operation.mnemonic i.opcode.operation i.opcode.mode i.code .known
    i.operand

end Instruction

theorem digit?_hexDigit {n : ℕ} (h : n < 16) : digit? 16 (hexDigit n) = some n := by
  revert n
  decide

theorem readDigits_hexByte (value : ℕ) (b : UInt8) :
    readDigits 16 value (hexByte b) = some (256 * value + b.toNat) := by
  have hb := b.toNat_lt
  have hhigh := digit?_hexDigit (show b.toNat / 16 < 16 by omega)
  have hlow := digit?_hexDigit (show b.toNat % 16 < 16 by omega)
  simp only [hexByte, readDigits, hhigh, hlow, Option.bind_some, Option.some.injEq]
  omega

theorem readDigits_hexNumeral (bytes : List UInt8) :
    readDigits 16 0 (bytes.reverse.flatMap hexByte) = some (ofLittleEndian bytes) := by
  induction bytes with
  | nil => rfl
  | cons b bytes ih =>
    rw [List.reverse_cons, List.flatMap_append, readDigits_append, ih, Option.bind_some,
      List.flatMap_singleton, readDigits_hexByte, ofLittleEndian, Nat.add_comm]

theorem length_hexNumeral (bytes : List UInt8) :
    (bytes.reverse.flatMap hexByte).length = 2 * bytes.length := by
  induction bytes with
  | nil => rfl
  | cons b bytes ih =>
    rw [List.reverse_cons, List.flatMap_append, List.length_append, ih, List.length_cons]
    rfl

theorem numeral?_hexNumeral {bytes : List UInt8} (hne : bytes ≠ []) (hl : bytes.length ≤ 2) :
    numeral? (hexNumeral bytes) = some bytes := by
  have hlength := length_hexNumeral bytes
  have hpos := List.length_pos_iff.mpr hne
  have hempty : (bytes.reverse.flatMap hexByte).isEmpty = false := by
    rw [List.isEmpty_eq_false_iff, ← List.length_pos_iff]
    omega
  have hhalf : (2 * bytes.length + 1) / 2 = bytes.length := by omega
  rw [hexNumeral, numeral?_eq]
  simp only []
  rw [if_pos (by omega), digits?, hempty, if_neg (by simp),
    readDigits_hexNumeral, hlength, Option.map_some, hhalf, littleEndian_ofLittleEndian]

namespace Assembly
variable {bytes : List UInt8} {text : List Char} {value : Value}

theorem exists_digit_of_numeral? (h : numeral? text = some bytes) {c : Char} (hc : c ∈ text) :
    c ∈ ['$', '%', '+'] ∨ ∃ base digit, digit? base c = some digit := by
  rw [numeral?_eq] at h
  split at h
  · split at h
    · obtain ⟨number,hnumber,-⟩ := Option.map_eq_some_iff.mp h
      rcases List.mem_cons.mp hc with rfl | hc
      · exact .inl (by simp)
      · exact .inr ⟨16,exists_digit_of_digits? hnumber hc⟩
    · cases h
  · obtain ⟨number,hnumber,-⟩ := Option.bind_eq_some_iff.mp h
    rcases List.mem_cons.mp hc with rfl | hc
    · exact .inl (by simp)
    · rcases List.mem_cons.mp hc with rfl | hc
      · exact .inl (by simp)
      · exact .inr ⟨2,exists_digit_of_digits? hnumber hc⟩
  · obtain ⟨number,hnumber,-⟩ := Option.bind_eq_some_iff.mp h
    rcases List.mem_cons.mp hc with rfl | hc
    · exact .inl (by simp)
    · exact .inr ⟨2,exists_digit_of_digits? hnumber hc⟩
  · obtain ⟨number,hnumber,-⟩ := Option.bind_eq_some_iff.mp h
    exact .inr ⟨10,exists_digit_of_digits? hnumber hc⟩

theorem mem_of_isName (h : isName text = true) {c : Char} (hc : c ∈ text) :
    c.isAlphanum = true ∨ c = '_' := by
  cases text with
  | nil => cases hc
  | cons first rest =>
    simp only [isName, Bool.and_eq_true, Bool.or_eq_true, beq_iff_eq, List.all_eq_true] at h
    rcases List.mem_cons.mp hc with rfl | hc
    · exact h.1.imp_left fun halpha => by simp [Char.isAlphanum, halpha]
    · exact h.2 c hc

section
variable (hvalue : Value.parse text = .ok value)
include hvalue

theorem Value.notMem_of_parse {c : Char} (hc : c ∈ ['#', '(', ',']) : c ∉ text := by
  intro hmem
  simp only [List.mem_cons, List.not_mem_nil, or_false] at hc
  unfold Value.parse at hvalue
  split at hvalue
  · split at hvalue
    · rename_i hnumeral
      rcases exists_digit_of_numeral? hnumeral hmem with hsign | ⟨base,digit,hdigit⟩
      · rcases hc with rfl | rfl | rfl <;> simp at hsign
      · rcases hc with rfl | rfl | rfl <;> cases hdigit
    · cases hvalue
  · split at hvalue
    · rename_i hname
      have hletter := mem_of_isName hname hmem
      rcases hc with rfl | rfl | rfl <;> revert hletter <;> decide
    · cases hvalue

namespace Operand
variable (hname : text ≠ ['A'])

include hname in
theorem parse_direct : parse text = .ok (.direct value) := by
  have hcomma := Value.notMem_of_parse hvalue (c := ',') (by simp)
  have hdirect : parse text = parseDirect text := by
    unfold parse
    split
    · cases hvalue
    · exact absurd rfl hname
    · exact absurd (List.mem_cons_self ..) (Value.notMem_of_parse hvalue (by simp))
    · exact absurd (List.mem_cons_self ..) (Value.notMem_of_parse hvalue (by simp))
    · rfl
  rw [hdirect, parseDirect, Text.beforeEnd?_of_not_mem (by simp) hcomma,
    Text.beforeEnd?_of_not_mem (by simp) hcomma]
  simp only [hvalue, Except.map]

theorem parse_append {other : List Char} (hother : other ≠ []) :
    parse (text ++ other) = parseDirect (text ++ other) := by
  have hstart : ∀ c ∈ ['#', '('], ∀ rest, text ++ other ≠ c :: rest := by
    intro c hc rest heq
    cases text with
    | nil => cases hvalue
    | cons first more =>
      rw [List.cons_append, List.cons.injEq] at heq
      refine absurd (heq.1 ▸ List.mem_cons_self ..) (Value.notMem_of_parse hvalue (c := c) ?_)
      exact List.mem_append_left [','] hc
  generalize hwhole : text ++ other = whole at hstart ⊢
  unfold parse
  split
  · simp [hother] at hwhole
  · cases text with
    | nil => cases hvalue
    | cons first more => simp [hother] at hwhole
  · exact absurd rfl (hstart '#' (by simp) _)
  · exact absurd rfl (hstart '(' (by simp) _)
  · rfl

theorem parse_indexedX : parse (text ++ [',', 'X']) = .ok (.indexed value .x) := by
  rw [parse_append hvalue (by simp), parseDirect, Text.beforeEnd?_eq_some.mpr rfl]
  simp only [hvalue, Except.map]

theorem parse_indexedY : parse (text ++ [',', 'Y']) = .ok (.indexed value .y) := by
  rw [parse_append hvalue (by simp), parseDirect,
    Text.beforeEnd?_append_of_ne (by simp) (by simp), Text.beforeEnd?_eq_some.mpr rfl]
  simp only [hvalue, Except.map]

theorem parseInner_indexed : parseInner (text ++ [',', 'X', ')']) = .ok (.indexedIndirect value) := by
  rw [parseInner, Text.beforeEnd?_eq_some.mpr rfl]
  simp only [hvalue, Except.map]

theorem parseInner_then_indexed :
    parseInner (text ++ [')', ',', 'Y']) = .ok (.indirectIndexed value) := by
  rw [parseInner, Text.beforeEnd?_append_of_ne (by simp) (by simp), Text.beforeEnd?_eq_some.mpr rfl]
  simp only [hvalue, Except.map]

theorem parseInner_plain : parseInner (text ++ [')']) = .ok (.indirect value) := by
  have hcomma : ',' ∉ text ++ [')'] := by
    simpa using Value.notMem_of_parse hvalue (c := ',') (by simp)
  rw [parseInner, Text.beforeEnd?_of_not_mem (by simp) hcomma,
    Text.beforeEnd?_of_not_mem (by simp) hcomma, Text.beforeEnd?_eq_some.mpr rfl]
  simp only [hvalue, Except.map]

include hname in
/-- The syntax of a mode is read as its shape, whatever the value is written as. -/
theorem parse_spell_value {mode : AddressingMode} (hsize : mode.operandSize ≠ 0) :
    parse (mode.spell text) = .ok (mode.shape value) := by
  cases mode with
  | implicit | accumulator => exact absurd rfl hsize
  | immediate =>
    change (Value.parse text).map Operand.immediate = _
    rw [hvalue]
    rfl
  | zeroPage | absolute | relative => exact parse_direct hvalue hname
  | zeroPageX | absoluteX => exact parse_indexedX hvalue
  | zeroPageY | absoluteY => exact parse_indexedY hvalue
  | indirect => exact parseInner_plain hvalue
  | indirectX => exact parseInner_indexed hvalue
  | indirectY => exact parseInner_then_indexed hvalue

end Operand
end

theorem Value.parse_hexNumeral (hne : bytes ≠ []) (hl : bytes.length ≤ 2) :
    Value.parse (hexNumeral bytes) = .ok (.literal bytes) := by
  have hstart : startsNumeral (hexNumeral bytes) = true := rfl
  rw [Value.parse, if_pos hstart, numeral?_hexNumeral hne hl]

theorem Operand.parse_spell {mode : AddressingMode} (hl : bytes.length = mode.operandSize) :
    Operand.parse (mode.spell (hexNumeral bytes)) = .ok (mode.shape (.literal bytes)) := by
  by_cases hsize : mode.operandSize = 0
  · cases mode with
    | implicit | accumulator => rfl
    | _ => cases hsize
  · refine parse_spell_value (Value.parse_hexNumeral ?_ (hl ▸ mode.operandSize_le)) ?_ hsize
    · rintro rfl
      exact hsize hl.symm
    · simp [hexNumeral]

theorem value_shape {mode : AddressingMode} (hl : bytes.length = mode.operandSize) :
    (mode.shape (.literal bytes)).value = .literal bytes := by
  cases mode with
  | implicit | accumulator =>
    obtain rfl := List.length_eq_zero_iff.mp hl
    rfl
  | _ => rfl

theorem mode?_shape {code : UInt8} {opcode : Opcode} (hd : decode code = some opcode)
    (hl : bytes.length = opcode.mode.operandSize) :
    Statement.mode? opcode.operation (opcode.mode.shape (.literal bytes)) = some opcode.mode := by
  have hsupports : supports opcode.operation opcode.mode = true := by
    rw [supports, encode_of_decode hd]
    rfl
  have hbranch := isBranch_iff_of_decode hd
  have himplicit := not_implicit_of_decode hd
  simp only [Statement.mode?, value_shape hl, Statement.modes]
  obtain ⟨operation,mode,cycles⟩ := opcode
  dsimp only at *
  cases mode <;> simp_all [AddressingMode.shape, Operand.modes, AddressingMode.operandSize]

theorem value_shape_of_size {mode : AddressingMode} (hsize : mode.operandSize ≠ 0) (value : Value) :
    (mode.shape value).value = value := by
  cases mode with
  | implicit | accumulator => exact absurd rfl hsize
  | _ => rfl

theorem Statement.parse_mnemonic (operation : Operation) (arguments : List (List Char)) :
    Statement.parse operation.mnemonic arguments =
      (Operand.parse arguments.flatten).map (.instruct operation · arguments.flatten) := by
  have hdefine : operation.mnemonic ≠ ['D', 'E', 'F', 'I', 'N', 'E'] := by
    cases operation <;> decide
  rw [Statement.parse, if_neg hdefine, Statement.parseInstruction,
    Operation.ofMnemonic?_mnemonic]

theorem reading_shape (operation : Operation) (mode : AddressingMode) (value : Value) :
    (mode.shape value).reading operation = mode.shape value := by
  cases mode <;> rfl

end Assembly

namespace Instruction
variable {i : Instruction}

theorem supports_mode (i : Instruction) : supports i.opcode.operation i.opcode.mode = true := by
  rw [supports, encode_of_decode i.decode_code]
  rfl

theorem instructionGroup?_eq {operand : Operand} (hv : operand.value = .literal i.operand)
    (hm : Statement.mode? i.opcode.operation operand = some i.opcode.mode) (line : ℕ) :
    Statement.instructionGroup? line i.opcode.operation operand = some (i.group line) := by
  have hpad : i.operand.rightpad i.opcode.mode.operandSize 0 = i.operand := by
    simp [List.rightpad, i.length_operand]
  simp only [Statement.instructionGroup?, hm, encode_of_decode i.decode_code, hv, Statement.fill,
    hpad, bind, Option.bind_some]
  rfl

theorem exists_operand {text : List Char} (h : i.Spells text) :
    ∃ operand, Operand.parse text = .ok operand ∧ ∀ line, Statement.instructionGroup? line
      i.opcode.operation (operand.reading i.opcode.operation) = some (i.group line) := by
  rcases h with rfl | ⟨hmode,rfl⟩
  · refine ⟨_,Operand.parse_spell i.length_operand,fun line => ?_⟩
    rw [reading_shape]
    exact instructionGroup?_eq (value_shape i.length_operand)
      (mode?_shape i.decode_code i.length_operand) line
  · have hsupports := i.supports_mode
    have hlength := i.length_operand
    rw [hmode] at hsupports hlength
    refine ⟨.accumulator,rfl,fun line => ?_⟩
    rw [Operand.reading, if_pos hsupports]
    refine instructionGroup?_eq ?_ ?_ line
    · rw [List.length_eq_zero_iff.mp hlength]
      rfl
    · simp [Statement.mode?, Statement.modes, Operand.value, Operand.modes, hsupports, hmode]

theorem mem_mnemonic {operation : Operation} {c : Char} (hc : c ∈ operation.mnemonic) :
    Text.isBlank c = false ∧ c ≠ ';' ∧ c.toUpper = c ∧ c ≠ ':' := by
  have hall : operation.mnemonic.all (fun c =>
      !Text.isBlank c && c != ';' && c.toUpper == c && c != ':') = true := by
    cases operation <;> rfl
  simpa [and_assoc] using List.all_eq_true.mp hall c hc

theorem mem_hexNumeral {bytes : List UInt8} {c : Char} (hc : c ∈ hexNumeral bytes) :
    Text.isBlank c = false ∧ c ≠ ';' ∧ c.toUpper = c := by
  have hdigit : ∀ n < 16, Text.isBlank (hexDigit n) = false ∧ hexDigit n ≠ ';' ∧
      (hexDigit n).toUpper = hexDigit n := by decide
  rcases List.mem_cons.mp hc with rfl | hc
  · decide
  obtain ⟨b,-,hb⟩ := List.mem_flatMap.mp hc
  have hlt := b.toNat_lt
  simp only [hexByte, List.mem_cons, List.not_mem_nil, or_false] at hb
  rcases hb with rfl | rfl
  · exact hdigit _ (by omega)
  · exact hdigit _ (by omega)

theorem mem_spell {mode : AddressingMode} {text : List Char} {c : Char} (hc : c ∈ mode.spell text) :
    c ∈ text ∨ c ∈ ['#', '(', ')', ',', 'X', 'Y'] := by
  cases mode <;> simp [AddressingMode.spell] at hc ⊢ <;> tauto

theorem mem_of_spells {text : List Char} (h : i.Spells text) {c : Char} (hc : c ∈ text) :
    Text.isBlank c = false ∧ c ≠ ';' ∧ c.toUpper = c := by
  have hsign : ['#', '(', ')', ',', 'X', 'Y'].all (fun c =>
      !Text.isBlank c && c != ';' && c.toUpper == c) = true := by rfl
  rcases h with rfl | ⟨-,rfl⟩
  · rcases mem_spell hc with hc | hc
    · exact mem_hexNumeral hc
    · simpa [and_assoc] using List.all_eq_true.mp hsign c hc
  · obtain rfl := List.mem_singleton.mp hc
    decide

theorem beforeEnd?_mnemonic (operation : Operation) :
    Text.beforeEnd? [':'] operation.mnemonic = none :=
  Text.beforeEnd?_of_not_mem (List.mem_singleton_self _) fun hc => (mem_mnemonic hc).2.2.2 rfl

section
variable {text : List Char} (h : i.Spells text)
include h

theorem mem_lineOf {c : Char} (hc : c ∈ i.lineOf text) :
    (Text.isBlank c = false ∨ c = ' ') ∧ c ≠ ';' ∧ c.toUpper = c := by
  have hmnemonic : ∀ c ∈ i.opcode.operation.mnemonic,
      (Text.isBlank c = false ∨ c = ' ') ∧ c ≠ ';' ∧ c.toUpper = c := by
    intro c hc
    obtain ⟨hblank,hcomment,hupper,-⟩ := mem_mnemonic hc
    exact ⟨.inl hblank,hcomment,hupper⟩
  unfold lineOf at hc
  split at hc
  · exact hmnemonic c hc
  · rcases List.mem_append.mp hc with hc | hc
    · exact hmnemonic c hc
    · rcases List.mem_cons.mp hc with rfl | hc
      · exact ⟨.inr rfl,by decide⟩
      · obtain ⟨hblank,hrest⟩ := mem_of_spells h hc
        exact ⟨.inl hblank,hrest⟩

theorem renders_lineOf : i.Renders (i.lineOf text) := by
  have hupper : (i.lineOf text).map Char.toUpper = (i.lineOf text).map id :=
    List.map_congr_left fun c hc => (mem_lineOf h hc).2.2
  exact ⟨text,h,hupper.trans (List.map_id _)⟩

theorem words_lineOf :
    Text.words (i.lineOf text) =
      i.opcode.operation.mnemonic :: if text = [] then [] else [text] := by
  have hmnemonic : Text.words i.opcode.operation.mnemonic = [i.opcode.operation.mnemonic] :=
    Text.words_of_unblank (by cases i.opcode.operation <;> decide) fun c hc => (mem_mnemonic hc).1
  unfold lineOf
  split
  · exact hmnemonic
  · rename_i hne
    rw [Text.words_append (by decide), hmnemonic,
      Text.words_of_unblank hne fun c hc => (mem_of_spells h hc).1]
    rfl

theorem trim_lineOf : Text.trim (i.lineOf text) = i.lineOf text := by
  apply Text.trim_eq_self
  · unfold lineOf
    cases i.opcode.operation <;> split <;> rfl
  · unfold lineOf
    split
    · cases i.opcode.operation <;> rfl
    · rename_i hne
      have hlast := (mem_of_spells h (List.getLast_mem hne)).1
      simp [List.getLast?_append, List.getLast?_cons, List.getLast?_eq_some_getLast hne, hlast]

end

variable {line : List Char}

theorem not_mem_of_renders (h : i.Renders line) : '\n' ∉ line ∧ '\r' ∉ line ∧ ';' ∉ line := by
  obtain ⟨text,htext,hline⟩ := h
  have hmem : ∀ c ∈ line, (Text.isBlank c.toUpper = false ∨ c.toUpper = ' ') ∧ c.toUpper ≠ ';' := by
    intro c hc
    have hupper : c.toUpper ∈ Text.upper line := List.mem_map_of_mem hc
    obtain ⟨hblank,hcomment,-⟩ := mem_lineOf htext (hline ▸ hupper)
    exact ⟨hblank,hcomment⟩
  refine ⟨fun hc => ?_,fun hc => ?_,fun hc => ?_⟩
  · exact absurd (hmem _ hc).1 (by decide)
  · exact absurd (hmem _ hc).1 (by decide)
  · exact absurd (hmem _ hc).2 (by decide)

theorem ne_nil_of_renders (h : i.Renders line) : line ≠ [] := by
  rintro rfl
  obtain ⟨text,-,hline⟩ := h
  have hmnemonic : i.opcode.operation.mnemonic ≠ [] := by
    cases i.opcode.operation <;> simp [Operation.mnemonic]
  unfold lineOf at hline
  split at hline <;> simp [hmnemonic, Text.upper] at hline

theorem words_of_renders (h : i.Renders line) : ∃ text, i.Spells text ∧
    Text.words (cleanLine line) =
      i.opcode.operation.mnemonic :: if text = [] then [] else [text] := by
  have hcomment : line.takeWhile (· != ';') = line := by
    rw [List.takeWhile_eq_self_iff]
    intro c hc
    simpa using fun heq : c = ';' => (not_mem_of_renders h).2.2 (heq ▸ hc)
  obtain ⟨text,htext,hline⟩ := h
  refine ⟨text,htext,?_⟩
  rw [cleanLine, hcomment, ← Text.trim_upper, hline, trim_lineOf htext, words_lineOf htext]

theorem parseLine_of_renders (h : i.Renders line) (number : ℕ) :
    parseLine number line = .ok [i.group number] := by
  obtain ⟨text,htext,hwords⟩ := words_of_renders h
  obtain ⟨operand,hparse,hgroup⟩ := exists_operand htext
  have hflatten : (if text = [] then [] else [text]).flatten = text := by
    split <;> simp_all
  have hsource : SourceLine.parse line =
      .ok ⟨none,some (.instruct i.opcode.operation operand text)⟩ := by
    simp only [SourceLine.parse, hwords, SourceLine.ofWords, beforeEnd?_mnemonic,
      Statement.parse_mnemonic, hflatten, hparse, Except.map]
  simp only [parseLine, hsource, Except.bind, SourceLine.groups, Statement.group, hgroup,
    Except.map, Except.mapError]
  rfl

end Instruction
end Nmos6502
