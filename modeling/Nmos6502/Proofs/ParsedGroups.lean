import Nmos6502.Proofs.Listing
import Nmos6502.Proofs.Outcome
import Nmos6502.Proofs.WidthChoice

/-! # The groups that a source makes

A group comes from a label, a constant or an instruction. The groups of a source that
emit bytes are those of its instructions, in order. An instruction that waits for a
name begins in its narrowest form, and the forms it may take are those of its syntax:
one byte, two bytes or both, and one byte for a branch.
-/
namespace Nmos6502.Assembly

/-- How the parser makes a group. -/
inductive Group.Parsed : Group → Prop
  | label (line : ℕ) (name : List Char) : Parsed (Group.label line name)
  | constant (line : ℕ) (name text : List Char) (bytes : List UInt8)
      (h : numeral? text = some bytes) : Parsed (Group.constant line name bytes)
  | instruction (w : Written) (g : Group) (h : w.group? = some g) : Parsed g

theorem mode_of_isBranch {operation : Operation} {mode : AddressingMode} {code : UInt8}
    (hb : operation.isBranch = true) (h : encode operation mode = some code) :
    mode = .relative := by
  obtain ⟨form,hform,-⟩ := Option.map_eq_some_iff.mp h
  have hmode : form.mode = mode := by simpa using List.find?_some hform
  have hmem := List.mem_of_find?_eq_some hform
  rw [← hmode]
  cases operation <;> simp [Operation.isBranch] at hb <;>
    simp only [Operation.forms, List.mem_singleton] at hmem <;> rw [hmem]

namespace Written
variable {w : Written}

def sized (w : Written) : List (ℕ × AddressingMode) :=
  w.modes.map fun mode => (mode.operandSize, mode)

theorem encode_of_mem {mode : AddressingMode} (h : mode ∈ w.modes) :
    ∃ code, encode w.operation mode = some code :=
  Option.isSome_iff_exists.mp (List.mem_filter.mp h).2

/-- A name stands in one byte or in two, and the narrow mode comes first. -/
theorem sizes_sublist {name : List Char} (h : w.operand.value = .name name) :
    (w.modes.map AddressingMode.operandSize).Sublist [1, 2] := by
  have hs : ((w.operand.modes w.operation).map AddressingMode.operandSize).Sublist [1, 2] := by
    obtain ⟨line,operation,operand⟩ := w
    cases operand with
    | empty => simp [Operand.value] at h
    | accumulator => simp [Operand.value] at h
    | direct value =>
      simp only [Operand.modes]
      split <;> decide
    | indexed value index => cases index <;> (simp only [Operand.modes]; decide)
    | _ => simp only [Operand.modes]; decide
  exact (List.filter_sublist.map _).trans hs

theorem size_of_mem {name : List Char} (h : w.operand.value = .name name) {mode : AddressingMode}
    (hm : mode ∈ w.modes) : mode.operandSize = 1 ∨ mode.operandSize = 2 := by
  simpa using (sizes_sublist h).subset (List.mem_map_of_mem hm)

theorem group?_eq_some_iff {g : Group} :
    w.group? = some g ↔ ∃ mode code, Statement.mode? w.operation w.operand = some mode ∧
      encode w.operation mode = some code ∧
      g = Group.instruction w.line w.operation.mnemonic w.operation mode code
        (Statement.fill w.modes mode w.operand.value).1
        (Statement.fill w.modes mode w.operand.value).2 := by
  simp only [group?, Statement.instructionGroup?, bind, Option.bind_eq_some_iff,
    Option.some.injEq, modes]
  grind

theorem mem_of_mode? {mode : AddressingMode}
    (h : Statement.mode? w.operation w.operand = some mode) : mode ∈ w.modes := by
  unfold Statement.mode? at h
  split at h
  · exact List.mem_of_find?_eq_some h
  · exact List.mem_of_head? h

theorem modes_eq_cons {name : List Char} (hn : w.operand.value = .name name)
    {mode : AddressingMode} (h : Statement.mode? w.operation w.operand = some mode) :
    ∃ rest, w.modes = mode :: rest := by
  simp only [Statement.mode?, hn] at h
  exact List.head?_eq_some_iff.mp h

theorem emits_of_group? {g : Group} (h : w.group? = some g) : g.emits = true := by
  obtain ⟨mode,code,-,-,rfl⟩ := group?_eq_some_iff.mp h
  rfl

theorem form?_eq {g : Group} (h : w.group? = some g) {name : List Char}
    (hn : w.operand.value = .name name) (width : ℕ) :
    g.form? width = (w.modes.find? (·.operandSize == width)).bind fun mode =>
      (encode w.operation mode).map (Content.opcode · w.operation mode) := by
  obtain ⟨mode,code,-,-,rfl⟩ := group?_eq_some_iff.mp h
  simp only [Group.form?, Group.instruction, Statement.fill, hn, List.find?_map]
  change (Option.map _ (w.modes.find? (·.operandSize == width))).bind _ = _
  cases w.modes.find? (·.operandSize == width) with
  | none => rfl
  | some first => cases hcode : encode w.operation first <;> simp [hcode]

theorem form?_eq_none {g : Group} (h : w.group? = some g) {bytes : List UInt8}
    (hl : w.operand.value = .literal bytes) (width : ℕ) : g.form? width = none := by
  obtain ⟨mode,code,-,-,rfl⟩ := group?_eq_some_iff.mp h
  simp only [Group.form?, Group.instruction, Statement.fill, hl]

theorem of_form?_eq_some {g : Group} (h : w.group? = some g) {width : ℕ} {content : Content}
    (hf : g.form? width = some content) :
    ∃ mode ∈ w.modes, mode.operandSize = width ∧ ∃ code, encode w.operation mode = some code ∧
      content = .opcode code w.operation mode := by
  cases hv : w.operand.value with
  | literal bytes => simp [form?_eq_none h hv] at hf
  | name name =>
    rw [form?_eq h hv] at hf
    obtain ⟨mode,hmode,hf⟩ := Option.bind_eq_some_iff.mp hf
    obtain ⟨code,hcode,rfl⟩ := Option.map_eq_some_iff.mp hf
    exact ⟨mode,List.mem_of_find?_eq_some hmode,by simpa using List.find?_some hmode,code,hcode,rfl⟩

theorem isSome_form?_iff {g : Group} (h : w.group? = some g) {name : List Char}
    (hn : w.operand.value = .name name) {width : ℕ} :
    (g.form? width).isSome = true ↔ ∃ mode ∈ w.modes, mode.operandSize = width := by
  constructor
  · intro hs
    obtain ⟨content,hf⟩ := Option.isSome_iff_exists.mp hs
    obtain ⟨mode,hm,hsize,-⟩ := of_form?_eq_some h hf
    exact ⟨mode,hm,hsize⟩
  · rintro ⟨mode,hm,hsize⟩
    rw [form?_eq h hn]
    cases hfind : w.modes.find? (·.operandSize == width) with
    | none => simpa [hsize] using List.find?_eq_none.mp hfind mode hm
    | some first =>
      obtain ⟨code,hcode⟩ := encode_of_mem (List.mem_of_find?_eq_some hfind)
      simp [hcode]

theorem length_placeholder {name : List Char} (hn : w.operand.value = .name name)
    {mode : AddressingMode} (h : Statement.mode? w.operation w.operand = some mode) :
    (Group.placeholder w.sized).length = mode.operandSize := by
  obtain ⟨rest,hrest⟩ := modes_eq_cons hn h
  have hsizes : w.sized.map (·.1) = w.modes.map AddressingMode.operandSize := by
    simp [sized, Function.comp_def]
  have hhead : (w.modes.map AddressingMode.operandSize).head? = some mode.operandSize := by
    simp [hrest]
  have hmem := List.mem_sublists.mpr (sizes_sublist hn)
  rw [show [1, 2].sublists = [[], [1], [2], [1, 2]] from rfl] at hmem
  simp only [Group.placeholder, List.length_replicate, hsizes]
  generalize w.modes.map AddressingMode.operandSize = sizes at hhead hmem ⊢
  simp only [List.mem_cons, List.not_mem_nil, or_false] at hmem
  rcases hmem with rfl | rfl | rfl | rfl <;> simp at hhead ⊢ <;> omega

theorem length_fill {mode : AddressingMode}
    (h : Statement.mode? w.operation w.operand = some mode) :
    (Statement.fill w.modes mode w.operand.value).2.length = mode.operandSize := by
  cases hv : w.operand.value with
  | literal bytes =>
    simp only [Statement.mode?, hv] at h
    have hle : bytes.length ≤ mode.operandSize := by simpa using List.find?_some h
    simp only [Statement.fill, List.rightpad, List.length_append, List.length_replicate]
    omega
  | name name => exact length_placeholder hv h

end Written

theorem Group.form?_eq_none {g : Group} (h : g.state.isPending = false) (width : ℕ) :
    g.form? width = none := by
  unfold Group.form?
  cases hs : g.state with
  | pending name modes => simp [hs, OperandState.isPending] at h
  | _ => rfl

theorem ofLittleEndian_lt (bytes : List UInt8) : ofLittleEndian bytes < 256 ^ bytes.length := by
  induction bytes with
  | nil => simp [ofLittleEndian]
  | cons b bytes ih =>
    have := b.toNat_lt
    simp only [ofLittleEndian, List.length_cons, Nat.pow_succ]
    omega

theorem ofLittleEndian_littleEndian (width n : ℕ) :
    ofLittleEndian (littleEndian width n) = n % 256 ^ width := by
  induction width generalizing n with
  | zero => simp [littleEndian, ofLittleEndian, Nat.mod_one]
  | succ width ih =>
    rw [littleEndian, ofLittleEndian, ih, Nat.pow_succ', Nat.mod_mul, UInt8.toNat_ofNat']
    omega

namespace Group.Parsed
variable {g : Group}

theorem of_pending (hg : g.Parsed) (hp : g.state.isPending = true) :
    ∃ (w : Written) (name : List Char), w.group? = some g ∧ w.operand.value = .name name := by
  cases hg with
  | label => simp [Group.label, OperandState.isPending] at hp
  | constant => simp [Group.constant, OperandState.isPending] at hp
  | instruction w _ h =>
    cases hv : w.operand.value with
    | literal bytes =>
      obtain ⟨mode,code,-,-,rfl⟩ := Written.group?_eq_some_iff.mp h
      simp [Group.instruction, Statement.fill, hv, OperandState.isPending] at hp
    | name name => exact ⟨w,name,h,hv⟩

theorem emits_of_pending (hg : g.Parsed) (hp : g.state.isPending = true) : g.emits = true := by
  obtain ⟨w,name,h,-⟩ := hg.of_pending hp
  exact Written.emits_of_group? h

theorem form?_self (hg : g.Parsed) (hp : g.state.isPending = true) :
    g.form? g.bytes.length = some g.content := by
  obtain ⟨w,name,h,hn⟩ := hg.of_pending hp
  rw [Written.form?_eq h hn]
  obtain ⟨mode,code,hmode,hcode,rfl⟩ := Written.group?_eq_some_iff.mp h
  simp only [Group.instruction, Written.length_fill hmode]
  obtain ⟨rest,hrest⟩ := Written.modes_eq_cons hn hmode
  simp [hrest, hcode]

theorem of_isSome_form? (hg : g.Parsed) {width : ℕ} (h : (g.form? width).isSome = true) :
    ∃ (w : Written) (name : List Char), w.group? = some g ∧ w.operand.value = .name name ∧
      ∃ mode ∈ w.modes, mode.operandSize = width := by
  have hp : g.state.isPending = true := by
    by_contra hp
    rw [Group.form?_eq_none (by simpa using hp)] at h
    simp at h
  obtain ⟨w,name,hw,hn⟩ := hg.of_pending hp
  exact ⟨w,name,hw,hn,(Written.isSome_form?_iff hw hn).mp h⟩

theorem width_of_form? (hg : g.Parsed) {width : ℕ} (h : (g.form? width).isSome = true) :
    width = 1 ∨ width = 2 := by
  obtain ⟨w,name,-,hn,mode,hm,rfl⟩ := hg.of_isSome_form? h
  exact Written.size_of_mem hn hm

theorem width_of_branch (hg : g.Parsed) (hb : g.branch = true) {width : ℕ}
    (h : (g.form? width).isSome = true) : width = 1 := by
  obtain ⟨w,name,hw,-,mode,hm,rfl⟩ := hg.of_isSome_form? h
  obtain ⟨code,hcode⟩ := Written.encode_of_mem hm
  obtain ⟨_,_,-,-,rfl⟩ := Written.group?_eq_some_iff.mp hw
  rw [mode_of_isBranch hb hcode]
  rfl

theorem narrow_of_twoForms (hg : g.Parsed) (h : g.twoForms = true) : g.bytes.length = 1 := by
  simp only [Group.twoForms, Bool.and_eq_true] at h
  obtain ⟨w,name,hw,hn,narrow,hm,hsize⟩ := hg.of_isSome_form? h.1
  obtain ⟨mode,code,hmode,-,rfl⟩ := Written.group?_eq_some_iff.mp hw
  simp only [Group.instruction, Written.length_fill hmode]
  obtain ⟨rest,hrest⟩ := Written.modes_eq_cons hn hmode
  have hsorted := (List.Pairwise.sublist (Written.sizes_sublist hn)
    (show [1, 2].Pairwise (· ≤ ·) by decide))
  rw [hrest, List.map_cons, List.pairwise_cons] at hsorted
  have hle : mode.operandSize ≤ 1 := by
    rw [hrest] at hm
    rcases List.mem_cons.mp hm with rfl | hm
    · exact hsize.le
    · exact hsize ▸ hsorted.1 _ (List.mem_map_of_mem hm)
  have := Written.size_of_mem hn (Written.mem_of_mode? hmode)
  omega

theorem value_lt (hg : g.Parsed) {name : List Char} (hc : g.content = .constant name) :
    g.value < 65536 := by
  cases hg with
  | label => simp [Group.label] at hc
  | constant line name text bytes h =>
    have hlt := ofLittleEndian_lt bytes
    have hle := Nat.pow_le_pow_right (n := 256) (by decide) (length_of_numeral? h)
    simp only [Group.value, Group.constant]
    omega
  | instruction w _ h =>
    obtain ⟨mode,code,-,-,rfl⟩ := Written.group?_eq_some_iff.mp h
    simp [Group.instruction] at hc

end Group.Parsed

theorem Statement.parse_cases {operator : List Char} {arguments : List (List Char)}
    {statement : Statement} (h : Statement.parse operator arguments = .ok statement) :
    (∃ name value rest bytes, operator = ['D', 'E', 'F', 'I', 'N', 'E'] ∧
      arguments = name :: value :: rest ∧ isName name = true ∧ numeral? value = some bytes ∧
      statement = .define name bytes) ∨
    ∃ operation operand, Operation.ofMnemonic? operator = some operation ∧
      Operand.parse arguments.flatten = .ok operand ∧
      statement = .instruct operation operand arguments.flatten := by
  unfold Statement.parse at h
  split at h
  · rename_i hoperator
    unfold Statement.parseDefine at h
    split at h
    · rename_i name value rest
      split at h
      · rename_i hname
        split at h
        · rename_i bytes hvalue
          cases h
          exact .inl ⟨name,value,rest,bytes,hoperator,rfl,hname,hvalue,rfl⟩
        · cases h
      · cases h
    · cases h
  · unfold Statement.parseInstruction at h
    split at h
    · rename_i operation hoperation
      obtain ⟨operand,hoperand,rfl⟩ := map_eq_ok_iff.mp h
      exact .inr ⟨operation,operand,hoperation,hoperand,rfl⟩
    · cases h

theorem Statement.parse_define {operator : List Char} {arguments : List (List Char)}
    {name : List Char} {bytes : List UInt8}
    (h : Statement.parse operator arguments = .ok (.define name bytes)) :
    ∃ text, numeral? text = some bytes := by
  obtain ⟨_,value,_,_,-,-,-,hvalue,hdefine⟩ | ⟨_,_,-,-,hinstruct⟩ := Statement.parse_cases h
  · cases hdefine
    exact ⟨value,hvalue⟩
  · cases hinstruct

theorem SourceLine.exists_parse {text : List Char} {line : SourceLine}
    (h : SourceLine.parse text = .ok line) {statement : Statement}
    (hs : line.statement? = some statement) :
    ∃ operator arguments, Statement.parse operator arguments = .ok statement ∧
      ∀ argument ∈ arguments, argument ∈ Text.words (cleanLine text) := by
  unfold SourceLine.parse at h
  cases hw : Text.words (cleanLine text) with
  | nil =>
    rw [hw] at h
    cases h
    simp at hs
  | cons first rest =>
    simp only [hw, SourceLine.ofWords] at h
    split at h
    · obtain ⟨s,hp,rfl⟩ := map_eq_ok_iff.mp h
      cases hs
      exact ⟨first,rest,hp,fun _ => List.mem_cons_of_mem _⟩
    · split at h
      · split at h
        · cases h
          simp at hs
        · obtain ⟨s,hp,rfl⟩ := map_eq_ok_iff.mp h
          cases hs
          exact ⟨_,_,hp,fun _ hmem => List.mem_cons_of_mem _ (List.mem_cons_of_mem _ hmem)⟩
      · simp at h

theorem SourceLine.parse_define {text : List Char} {line : SourceLine}
    (h : SourceLine.parse text = .ok line) {name : List Char} {bytes : List UInt8}
    (hs : line.statement? = some (.define name bytes)) : ∃ text, numeral? text = some bytes := by
  obtain ⟨operator,arguments,hp,-⟩ := SourceLine.exists_parse h hs
  exact Statement.parse_define hp

theorem Statement.group_spec {line : ℕ} {text : List Char} {parsed : SourceLine}
    (hparse : SourceLine.parse text = .ok parsed) {statement : Statement}
    (hs : parsed.statement? = some statement) {g : Group} (hg : statement.group line = .ok g) :
    g.Parsed ∧ (parsed.written? line).toList.map Written.group? =
      ([g].filter (·.emits)).map some := by
  cases statement with
  | define name bytes =>
    cases hg
    obtain ⟨value,hvalue⟩ := SourceLine.parse_define hparse hs
    exact ⟨.constant line name value bytes hvalue,by simp [SourceLine.written?, hs, Group.constant]⟩
  | instruct operation operand text =>
    simp only [Statement.group] at hg
    split at hg
    · rename_i g' hgroup
      cases hg
      have hw : (⟨line,operation,operand.reading operation⟩ : Written).group? = some g := hgroup
      exact ⟨.instruction _ g hw,by simp [SourceLine.written?, hs, hw, Written.emits_of_group? hw]⟩
    · simp at hg

theorem parseLine_spec {line : ℕ} {text : List Char} {groups : List Group}
    (h : parseLine line text = .ok groups) :
    (∀ g ∈ groups, g.Parsed) ∧ ∃ parsed, SourceLine.parse text = .ok parsed ∧
      (parsed.written? line).toList.map Written.group? = (groups.filter (·.emits)).map some := by
  obtain ⟨parsed,hparse,h⟩ := bind_eq_ok_iff.mp (mapError_eq_ok_iff.mp h)
  have hlabels : ∀ g ∈ parsed.label?.toList.map (Group.label line), g.Parsed ∧ g.emits = false := by
    intro g hg
    obtain ⟨name,-,rfl⟩ := List.mem_map.mp hg
    exact ⟨.label line name,rfl⟩
  have hquiet : (parsed.label?.toList.map (Group.label line)).filter (·.emits) = [] :=
    List.filter_eq_nil_iff.mpr fun g hg => by simp [(hlabels g hg).2]
  unfold SourceLine.groups at h
  cases hs : parsed.statement? with
  | none =>
    simp only [hs, Except.ok.injEq] at h
    subst h
    exact ⟨fun g hg => (hlabels g hg).1,parsed,hparse,by simp [SourceLine.written?, hs, hquiet]⟩
  | some statement =>
    simp only [hs] at h
    obtain ⟨g,hg,rfl⟩ := map_eq_ok_iff.mp h
    obtain ⟨hp,hw⟩ := Statement.group_spec hparse hs hg
    refine ⟨?_,parsed,hparse,?_⟩
    · intro g' hg'
      rcases List.mem_append.mp hg' with hg' | hg'
      · exact (hlabels g' hg').1
      · exact List.mem_singleton.mp hg' ▸ hp
    · rw [hw, List.filter_append, hquiet, List.nil_append]

theorem parseLines_spec {line : ℕ} {texts : List (List Char)} {groups : List Group}
    (h : parseLines line texts = .ok groups) :
    (∀ g ∈ groups, g.Parsed) ∧
      (writtenFrom line texts).map Written.group? = (groups.filter (·.emits)).map some := by
  induction texts generalizing line groups with
  | nil =>
    cases h
    simp [writtenFrom]
  | cons text rest ih =>
    obtain ⟨first,hfirst,h⟩ := bind_eq_ok_iff.mp h
    obtain ⟨others,hothers,h⟩ := bind_eq_ok_iff.mp h
    cases h
    obtain ⟨hp,parsed,hparse,hw⟩ := parseLine_spec hfirst
    obtain ⟨hq,hws⟩ := ih hothers
    constructor
    · intro g hg
      rcases List.mem_append.mp hg with hg | hg
      · exact hp g hg
      · exact hq g hg
    · simp only [writtenFrom, hparse, List.map_append, List.filter_append, hw, hws]

theorem parsed_of_parseSource {source : List Char} {groups : List Group}
    (h : parseSource source = .ok groups) : ∀ g ∈ groups, g.Parsed :=
  (parseLines_spec h).1

/-- The groups that emit bytes are those of the instructions of the source. -/
theorem written_of_parseSource {source : List Char} {groups : List Group}
    (h : parseSource source = .ok groups) :
    (written source).map Written.group? = (groups.filter (·.emits)).map some :=
  (parseLines_spec h).2

end Nmos6502.Assembly
