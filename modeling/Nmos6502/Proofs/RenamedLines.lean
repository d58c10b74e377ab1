import Nmos6502.Proofs.ConstantOperands
import Nmos6502.Proofs.Relabelling

/-! # Lines with other names

A name stands in a line as a label before a colon, behind a definition's keyword or in the operand
of an instruction, between the signs of its addressing mode. Put another name in its place: if that
one is a valid name, whatever else it may mean elsewhere, the line makes the same groups under the
new name. Only `A` is special, which by itself is the accumulator.
-/
namespace Nmos6502.Assembly
open Text (words)

section
variable (σ : List Char → List Char)

/-- An operand with another name in it, or with none but `A`. -/
inductive OperandRenamed : List Char → List Char → Prop
  | name {mode : AddressingMode} {name : List Char} (hmode : mode.operandSize ≠ 0)
      (hname : isName name = true) (h : name ≠ ['A']) :
      OperandRenamed (mode.spell name) (mode.spell (σ name))
  | nameless {text : List Char} (h : ∀ (mode : AddressingMode) (name : List Char),
      mode.operandSize ≠ 0 → isName name = true → text = mode.spell name → name = ['A']) :
      OperandRenamed text text

inductive StatementRenamed : List (List Char) → List (List Char) → Prop
  | nothing : StatementRenamed [] []
  | define (name value : List Char) (rest : List (List Char)) :
      StatementRenamed (['D', 'E', 'F', 'I', 'N', 'E'] :: name :: value :: rest)
        (['D', 'E', 'F', 'I', 'N', 'E'] :: σ name :: value :: rest)
  | instruct (operation : Operation) {arguments arguments' : List (List Char)}
      (h : OperandRenamed σ arguments.flatten arguments'.flatten) :
      StatementRenamed (operation.mnemonic :: arguments) (operation.mnemonic :: arguments')

/-- The second line has the words of the first with other names in their places. -/
def LineRenamed (line line' : List Char) : Prop :=
  ∃ (label? : Option (List Char)) (statement statement' : List (List Char)),
    StatementRenamed σ statement statement' ∧
    words (cleanLine line) = (label?.map (· ++ [':'])).toList ++ statement ∧
    words (cleanLine line') = ((label?.map σ).map (· ++ [':'])).toList ++ statement'

/-- The second text is the first one with other names, in whatever layout. -/
def Renamed (source renamed : List Char) : Prop :=
  List.Forall₂ (LineRenamed σ) (Text.lines source) (Text.lines renamed)

end

def Group.names (g : Group) : List (List Char) :=
  (g.symbol?.map Symbol.name).toList ++ g.awaited?.toList

structure Replaces (σ f : List Char → List Char) (name : List Char) : Prop where
  eq : f name = σ name
  ne_accumulator : name ≠ ['A']
  isName : isName (σ name) = true
  ne_accumulator' : σ name ≠ ['A']

namespace Operand
variable {text name : List Char} {operand : Operand}

theorem exists_spell_of_map (mode : AddressingMode) {part : List Char} {shape : Value → Operand}
    (hshape : ∀ value, (shape value).value = value) (hmode : mode.operandSize ≠ 0)
    (h : (Value.parse part).map shape = .ok operand) (hn : operand.value = .name name)
    (htext : text = mode.spell part) : ∃ mode : AddressingMode, mode.operandSize ≠ 0 ∧
      Assembly.isName name = true ∧ text = mode.spell name := by
  obtain ⟨value,hvalue,rfl⟩ := map_eq_ok_iff.mp h
  rw [hshape] at hn
  obtain ⟨hname,rfl⟩ := Value.parse_eq_name (hn ▸ hvalue)
  exact ⟨mode,hmode,hname,htext⟩

theorem exists_spell (h : parse text = .ok operand) (hn : operand.value = .name name) :
    ∃ mode : AddressingMode, mode.operandSize ≠ 0 ∧ Assembly.isName name = true ∧
      text = mode.spell name := by
  unfold parse at h
  split at h
  · cases h
    cases hn
  · cases h
    cases hn
  · exact exists_spell_of_map .immediate (fun _ => rfl) (by decide) h hn rfl
  · unfold parseInner at h
    split at h
    · rename_i hbefore
      rw [Text.beforeEnd?_eq_some.mp hbefore]
      exact exists_spell_of_map .indirectX (fun _ => rfl) (by decide) h hn rfl
    · split at h
      · rename_i hbefore
        rw [Text.beforeEnd?_eq_some.mp hbefore]
        exact exists_spell_of_map .indirectY (fun _ => rfl) (by decide) h hn rfl
      · split at h
        · rename_i hbefore
          rw [Text.beforeEnd?_eq_some.mp hbefore]
          exact exists_spell_of_map .indirect (fun _ => rfl) (by decide) h hn rfl
        · cases h
  · unfold parseDirect at h
    split at h
    · rename_i hbefore
      rw [Text.beforeEnd?_eq_some.mp hbefore]
      exact exists_spell_of_map .absoluteX (fun _ => rfl) (by decide) h hn rfl
    · split at h
      · rename_i hbefore
        rw [Text.beforeEnd?_eq_some.mp hbefore]
        exact exists_spell_of_map .absoluteY (fun _ => rfl) (by decide) h hn rfl
      · exact exists_spell_of_map .absolute (fun _ => rfl) (by decide) h hn rfl

end Operand

theorem Written.mem_names_iff {w : Written} {g : Group} (h : w.group? = some g)
    (name : List Char) : name ∈ g.names ↔ w.operand.value = .name name := by
  have hsymbol : g.symbol? = none := by
    obtain ⟨mode,code,-,-,rfl⟩ := Written.group?_eq_some_iff.mp h
    rfl
  rw [Group.names, hsymbol, ← Written.awaited?_eq_some_iff h]
  simp

theorem Relabelling.group_of_fixed {f : List Char → List Char} {g : Group}
    (h : ∀ name ∈ g.names, f name = name) : (ofName f).group g = g := by
  have hcontent : (ofName f).content g.content = g.content := by
    cases hc : g.content with
    | opcode code operation mode => rfl
    | label name | constant name =>
      have hname := h name (by simp [Group.names, Group.symbol?, hc])
      simp only [content, ofName, hname]
  have hstate : (ofName f).state g.state = g.state := by
    cases hs : g.state with
    | known | constant => rfl
    | pending name modes =>
      have hname := h name (by simp [Group.names, Group.awaited?, hs])
      simp only [state, ofName, hname]
  have hoperator : (ofName f).operator g = g.operator := by
    unfold operator
    cases hc : g.content with
    | opcode code operation mode => rfl
    | constant name => rfl
    | label name =>
      have hname := h name (by simp [Group.names, Group.symbol?, hc])
      simp only [ofName, hname, ite_eq_right_iff]
      exact Eq.symm
  rw [group, hcontent, hstate, hoperator]
  rfl

theorem instructionGroup?_renamed {line : ℕ} {operation : Operation} {mode : AddressingMode}
    (hmode : mode.operandSize ≠ 0) {name : List Char} (f : List Char → List Char) {g : Group}
    (h : Statement.instructionGroup? line operation (mode.shape (.name name)) = some g) :
    Statement.instructionGroup? line operation (mode.shape (.name (f name))) =
      some ((Relabelling.ofName f).group g) := by
  obtain ⟨m,code,hm,hcode,rfl⟩ :=
    (Written.group?_eq_some_iff (w := ⟨line,operation,mode.shape (.name name)⟩)).mp h
  refine (Written.group?_eq_some_iff (w := ⟨line,operation,mode.shape (.name (f name))⟩)).mpr
    ⟨m,code,?_,hcode,?_⟩
  · simp only [Statement.mode?, value_shape_of_size hmode] at hm ⊢
    rw [modes_shape operation mode _ (.name name)]
    exact hm
  · simp only [value_shape_of_size hmode, Statement.fill, Written.modes,
      modes_shape operation mode (.name (f name)) (.name name)]
    rfl

def statementGroups (line : ℕ) : List (List Char) → Except Cause (List Group)
  | [] => .ok []
  | operator :: arguments =>
    ((Statement.parse operator arguments).bind (·.group line)).map ([·])

theorem Statement.group_instruct_iff {line : ℕ} {operation : Operation} {operand : Operand}
    {text : List Char} {g : Group} :
    Statement.group line (.instruct operation operand text) = .ok g ↔
      instructionGroup? line operation (operand.reading operation) = some g := by
  rw [group]
  cases instructionGroup? line operation (operand.reading operation) <;> simp

section
variable {σ f : List Char → List Char}

theorem OperandRenamed.exists_group {text text' : List Char} (h : OperandRenamed σ text text')
    {line : ℕ} {operation : Operation} {operand : Operand} {g : Group}
    (hparse : Operand.parse text = .ok operand)
    (hg : Statement.instructionGroup? line operation (operand.reading operation) = some g)
    (hnames : ∀ name ∈ g.names, Replaces σ f name) :
    ∃ operand', Operand.parse text' = .ok operand' ∧
      Statement.instructionGroup? line operation (operand'.reading operation) =
        some ((Relabelling.ofName f).group g) := by
  have hmem := Written.mem_names_iff (w := ⟨line,operation,operand.reading operation⟩) hg
  cases h with
  | @name mode name hmode hname hA =>
    rw [Operand.parse_spell_value (Value.parse_isName hname) hA hmode] at hparse
    cases hparse
    rw [reading_shape] at hg hmem
    have hnew := hnames name ((hmem name).mpr (value_shape_of_size hmode _))
    refine ⟨_,Operand.parse_spell_value (Value.parse_isName hnew.isName) hnew.ne_accumulator' hmode,
      ?_⟩
    rw [reading_shape, ← hnew.eq]
    exact instructionGroup?_renamed hmode f hg
  | nameless h =>
    refine ⟨operand,hparse,?_⟩
    rw [Relabelling.group_of_fixed, hg]
    intro name hname
    have hA := (hnames name hname).ne_accumulator
    have hvalue := (Operand.name_of_reading ((hmem name).mp hname)).resolve_right hA
    obtain ⟨mode,hmode,hvalid,hspell⟩ := Operand.exists_spell hparse hvalue
    exact absurd (h mode name hmode hvalid hspell) hA

theorem StatementRenamed.groups_eq {statement statement' : List (List Char)}
    (h : StatementRenamed σ statement statement') {line : ℕ} {groups : List Group}
    (hgroups : statementGroups line statement = .ok groups)
    (hnames : ∀ g ∈ groups, ∀ name ∈ g.names, Replaces σ f name) :
    statementGroups line statement' = .ok (groups.map (Relabelling.ofName f).group) := by
  cases h with
  | nothing =>
    cases hgroups
    rfl
  | define name value rest =>
    simp only [statementGroups, Statement.parse, if_true, Statement.parseDefine] at hgroups ⊢
    split at hgroups
    · rename_i hvalid
      cases hvalue : numeral? value with
      | none => simp [hvalue, Except.bind, Except.map] at hgroups
      | some bytes =>
        simp only [hvalue, Except.bind, Except.map, Statement.group, Except.ok.injEq] at hgroups
        subst hgroups
        have hnew := hnames _ (List.mem_singleton_self _) name
          (by simp [Group.names, Group.symbol?, Group.constant])
        have hvalid' := hnew.isName
        rw [← hnew.eq] at hvalid' ⊢
        simp only [hvalid', if_true, Except.bind, Except.map, Statement.group]
        rfl
    · simp [Except.bind, Except.map] at hgroups
  | instruct operation h =>
    simp only [statementGroups, Statement.parse_mnemonic] at hgroups ⊢
    obtain ⟨g,hg,rfl⟩ := map_eq_ok_iff.mp hgroups
    obtain ⟨statement,hstatement,hg⟩ := bind_eq_ok_iff.mp hg
    obtain ⟨operand,hparse,rfl⟩ := map_eq_ok_iff.mp hstatement
    obtain ⟨operand',hparse',hg'⟩ := h.exists_group hparse
      (Statement.group_instruct_iff.mp hg) (hnames g (List.mem_singleton_self g))
    refine map_eq_ok_iff.mpr ⟨_,bind_eq_ok_iff.mpr ⟨_,map_eq_ok_iff.mpr ⟨_,hparse',rfl⟩,?_⟩,rfl⟩
    exact Statement.group_instruct_iff.mpr hg'

theorem StatementRenamed.head?_ne_label {statement statement' : List (List Char)}
    (h : StatementRenamed σ statement statement') :
    (∀ word ∈ statement.head?, Text.beforeEnd? [':'] word = none) ∧
      ∀ word ∈ statement'.head?, Text.beforeEnd? [':'] word = none := by
  cases h with
  | nothing => simp
  | define name value rest => exact ⟨by simp; decide,by simp; decide⟩
  | instruct operation h => simp [Instruction.beforeEnd?_mnemonic]

theorem groups_statement_iff {label? : Option (List Char)} {operator : List Char}
    {arguments : List (List Char)} {line : ℕ} {groups : List Group} :
    ((Statement.parse operator arguments).map (SourceLine.mk label? <| some ·)).bind
        (·.groups line) = .ok groups ↔
      ∃ more, statementGroups line (operator :: arguments) = .ok more ∧
        label?.toList.map (Group.label line) ++ more = groups := by
  rw [statementGroups]
  cases Statement.parse operator arguments with
  | error cause => simp [Except.map, Except.bind]
  | ok parsed =>
    simp only [Except.map, Except.bind, SourceLine.groups]
    cases parsed.group line <;> simp

theorem parseLine_label_iff {text : List Char} {label? : Option (List Char)}
    {statement : List (List Char)}
    (hwords : words (cleanLine text) = (label?.map (· ++ [':'])).toList ++ statement)
    (hstatement : ∀ word ∈ statement.head?, Text.beforeEnd? [':'] word = none) {line : ℕ}
    {groups : List Group} : parseLine line text = .ok groups ↔
      (∀ name, label? = some name → isName name = true) ∧
        ∃ more, statementGroups line statement = .ok more ∧
          label?.toList.map (Group.label line) ++ more = groups := by
  rw [parseLine, mapError_eq_ok_iff, SourceLine.parse, hwords]
  cases label? with
  | none =>
    cases statement with
    | nil => simp [SourceLine.ofWords, SourceLine.groups, statementGroups, Except.bind]
    | cons operator arguments =>
      have hoperator := hstatement operator rfl
      simp only [Option.map_none, Option.toList_none, List.nil_append, SourceLine.ofWords,
        hoperator, groups_statement_iff]
      simp
  | some name =>
    have hlabel : Text.beforeEnd? [':'] (name ++ [':']) = some name :=
      Text.beforeEnd?_eq_some.mpr rfl
    simp only [Option.map_some, Option.toList_some, List.singleton_append, SourceLine.ofWords,
      hlabel, Option.some.injEq, forall_eq']
    by_cases hvalid : isName name = true
    · cases statement with
      | nil => simp [hvalid, SourceLine.groups, statementGroups, Except.bind]
      | cons operator arguments =>
        simp only [hvalid, if_true, groups_statement_iff, true_and, Option.toList_some]
    · simp [hvalid, Except.bind]

theorem exists_label_statement {line : ℕ} {text : List Char} {groups : List Group}
    (h : parseLine line text = .ok groups) :
    ∃ (label? : Option (List Char)) (statement : List (List Char)) (more : List Group),
      words (cleanLine text) = (label?.map (· ++ [':'])).toList ++ statement ∧
      statementGroups line statement = .ok more ∧
      label?.toList.map (Group.label line) ++ more = groups := by
  have hread := mapError_eq_ok_iff.mp h
  rw [SourceLine.parse] at hread
  cases hwords : words (cleanLine text) with
  | nil =>
    rw [hwords] at hread
    cases hread
    exact ⟨none,[],[],rfl,rfl,rfl⟩
  | cons first rest =>
    simp only [hwords, SourceLine.ofWords] at hread
    split at hread
    · obtain ⟨more,hmore,hsum⟩ := groups_statement_iff.mp hread
      exact ⟨none,first :: rest,more,rfl,hmore,hsum⟩
    · rename_i name hlabel
      rw [Text.beforeEnd?_eq_some] at hlabel
      subst hlabel
      split at hread
      · cases rest with
        | nil =>
          cases hread
          exact ⟨some name,[],[],rfl,rfl,rfl⟩
        | cons operator arguments =>
          obtain ⟨more,hmore,hsum⟩ := groups_statement_iff.mp hread
          exact ⟨some name,operator :: arguments,more,rfl,hmore,hsum⟩
      · cases hread

theorem LineRenamed.parseLine_eq {text text' : List Char} (h : LineRenamed σ text text') {line : ℕ}
    {groups : List Group} (hgroups : parseLine line text = .ok groups)
    (hnames : ∀ g ∈ groups, ∀ name ∈ g.names, Replaces σ f name) :
    parseLine line text' = .ok (groups.map (Relabelling.ofName f).group) := by
  obtain ⟨label?,statement,statement',h,hwords,hwords'⟩ := h
  obtain ⟨hstatement,hstatement'⟩ := h.head?_ne_label
  obtain ⟨hvalid,more,hmore,rfl⟩ := (parseLine_label_iff hwords hstatement).mp hgroups
  have hmore' := h.groups_eq hmore fun g hg => hnames g (List.mem_append_right _ hg)
  have hlabel : ∀ name, label? = some name → Replaces σ f name := by
    rintro name rfl
    exact hnames (Group.label line name) (List.mem_append_left _ (by simp)) name
      (by simp [Group.names, Group.symbol?, Group.label])
  refine (parseLine_label_iff hwords' hstatement').mpr ⟨?_,_,hmore',?_⟩
  · intro name hname
    obtain ⟨old,hold,rfl⟩ := Option.map_eq_some_iff.mp hname
    exact (hlabel old hold).isName
  · rw [List.map_append]
    congr 1
    cases label? with
    | none => rfl
    | some name =>
      simp only [Option.map_some, Option.toList_some, List.map_cons, List.map_nil,
        ← (hlabel name rfl).eq]
      simp [Relabelling.group, Relabelling.operator, Relabelling.ofName, Relabelling.content,
        Relabelling.state, Group.label]

theorem parseLines_renamed {texts texts' : List (List Char)}
    (h : List.Forall₂ (LineRenamed σ) texts texts') {line : ℕ} {groups : List Group}
    (hgroups : parseLines line texts = .ok groups)
    (hnames : ∀ g ∈ groups, ∀ name ∈ g.names, Replaces σ f name) :
    parseLines line texts' = .ok (groups.map (Relabelling.ofName f).group) := by
  induction h generalizing line groups with
  | nil =>
    cases hgroups
    rfl
  | @cons text text' texts texts' hline _ ih =>
    obtain ⟨first,hfirst,hrest⟩ := bind_eq_ok_iff.mp hgroups
    obtain ⟨others,hothers,hsum⟩ := bind_eq_ok_iff.mp hrest
    cases hsum
    have hline' := hline.parseLine_eq hfirst fun g hg => hnames g (List.mem_append_left _ hg)
    have hothers' := ih hothers fun g hg => hnames g (List.mem_append_right _ hg)
    rw [parseLines, hline', hothers', List.map_append]
    rfl

end

end Nmos6502.Assembly
