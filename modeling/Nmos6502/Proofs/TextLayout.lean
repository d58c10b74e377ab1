import Nmos6502.Proofs.ConstantOperands
import Nmos6502.Proofs.LineNumbers
import Nmos6502.Proofs.LineWords

/-! # The layout of a text

Case, blanks, comments, empty lines and labels on lines of their own are layout: they change
nothing but line numbers. Within a line only the words count, and of the words of an operand only
what they are together. Lines that hold nothing make no groups, and a label makes the same group
before its statement or above it, so that with every change the groups stay the same on lines that
are known.
-/
namespace Nmos6502.Assembly
open Text (Blanks isBlank words)

/-- The texts between the line feeds of a text. -/
def feedLines (text : List Char) : List (List Char) := text.splitOn '\n'

/-- The text ends in the operand of an instruction, behind the first character of it. -/
def EndsInOperand (text : List Char) : Prop :=
  ';' ∉ text ∧ ∃ label? operation operand, operand ≠ [] ∧
    WritesInstruction label? operation operand text

/-- A change in the layout of one line. A carriage return at its end is a blank like others. -/
inductive LineEdit : List Char → List Char → Prop
  | recase {line line' : List Char} (h : Text.upper line' = Text.upper line) : LineEdit line line'
  | indent {gap : List Char} (h : Blanks gap) (line : List Char) : LineEdit line (gap ++ line)
  | trail (line : List Char) {gap : List Char} (h : Blanks gap) : LineEdit line (line ++ gap)
  | space (p q : List Char) {gap gap' : List Char} (hne : gap ≠ []) (hne' : gap' ≠ [])
      (h : Blanks gap) (h' : Blanks gap') : LineEdit (p ++ (gap ++ q)) (p ++ (gap' ++ q))
  | spread {p : List Char} (hp : EndsInOperand p) (q : List Char) {gap : List Char}
      (h : Blanks gap) : LineEdit (p ++ q) (p ++ (gap ++ q))
  | comment (line text : List Char) : LineEdit line (line ++ ';' :: text)

/-- The lines up to `a` stay where they are, and those behind it move down by one. -/
def MovedDown (a line line' : ℕ) : Prop :=
  line ≤ a ∧ line' = line ∨ a < line ∧ line' = line + 1

/-- Behind `a` lines the label of the next one stays there and its statement moves down. Of a line
whose label is no name nothing moves. -/
def SplitBehind (a : ℕ) (name : List Char) : Part → ℕ → ℕ → Prop
  | .label => MovedDown (a + 1)
  | .statement => MovedDown (if isName (Text.upper name) then a else a + 1)

/-- The second text is the first one in another layout, and the relation tells to which lines the
labels and the statements of the first have gone. -/
inductive Relaid : (Part → ℕ → ℕ → Prop) → List Char → List Char → Prop
  | edit {s t line line' : List Char} {before after : List (List Char)} (h : LineEdit line line')
      (hs : feedLines s = before ++ line :: after) (ht : feedLines t = before ++ line' :: after) :
      Relaid (fun _ => Eq) s t
  /-- A new line that is blank but for a comment. -/
  | insert {s t line : List Char} {before after : List (List Char)} (h : Blanks (code line))
      (hs : feedLines s = before ++ after) (ht : feedLines t = before ++ line :: after) :
      Relaid (fun _ => MovedDown before.length) s t
  /-- A label at the start of a line is put on a line of its own. -/
  | split {s t gap name rest : List Char} {before after : List (List Char)} (hgap : Blanks gap)
      (hname : ∀ c ∈ name, isBlank c = false ∧ c ≠ ';')
      (hend : ∀ c ∈ rest.head?, isBlank c = true ∨ c = ';')
      (hnext : ∀ word ∈ (words (code rest)).head?, word.getLast? ≠ some ':')
      (hs : feedLines s = before ++ (gap ++ (name ++ ':' :: rest)) :: after)
      (ht : feedLines t = before ++ (gap ++ (name ++ [':'])) :: rest :: after) :
      Relaid (SplitBehind before.length name) s t
  | symm {R : Part → ℕ → ℕ → Prop} {s t : List Char} (h : Relaid R s t) :
      Relaid (fun part => flip (R part)) t s
  | trans {R R' : Part → ℕ → ℕ → Prop} {s t u : List Char} (h : Relaid R s t)
      (h' : Relaid R' t u) : Relaid (fun part => Relation.Comp (R part) (R' part)) s u

theorem parse_congr {line line' : List Char}
    (h : words (cleanLine line') = words (cleanLine line)) :
    SourceLine.parse line' = SourceLine.parse line := by
  rw [SourceLine.parse, SourceLine.parse, h]

theorem parse_of_words {line line' : List Char} (h : words (code line') = words (code line)) :
    SourceLine.parse line' = SourceLine.parse line :=
  parse_congr (by rw [words_cleanLine, words_cleanLine, h])

theorem parseLine_congr {line line' : List Char}
    (h : SourceLine.parse line' = SourceLine.parse line) (number : ℕ) :
    parseLine number line' = parseLine number line := by
  rw [parseLine, parseLine, h]

theorem WritesInstruction.parse_eq {label? : Option (List Char)} {operation : Operation}
    {operand line line' : List Char} (h : WritesInstruction label? operation operand line)
    (h' : WritesInstruction label? operation operand line') :
    SourceLine.parse line' = SourceLine.parse line := by
  obtain ⟨arguments,hflatten,hwords⟩ := h
  obtain ⟨arguments',hflatten',hwords'⟩ := h'
  rw [SourceLine.parse, SourceLine.parse, hwords, hwords']
  cases label? with
  | none =>
    simp only [Option.map_none, Option.toList_none, List.nil_append, SourceLine.ofWords,
      Instruction.beforeEnd?_mnemonic, Statement.parse_mnemonic, hflatten, hflatten']
  | some name =>
    have hlabel : Text.beforeEnd? [':'] (name ++ [':']) = some name :=
      Text.beforeEnd?_eq_some.mpr rfl
    simp only [Option.map_some, Option.toList_some, List.singleton_append, SourceLine.ofWords,
      hlabel, Statement.parse_mnemonic, hflatten, hflatten']

theorem WritesInstruction.append {label? : Option (List Char)} {operation : Operation}
    {operand p : List Char} (h : WritesInstruction label? operation operand p)
    (hne : operand ≠ []) (hp : ';' ∉ p) (q : List Char) :
    WritesInstruction label? operation (operand ++ (words (cleanLine q)).flatten) (p ++ q) := by
  obtain ⟨arguments,rfl,hwords⟩ := h
  have harguments : arguments ≠ [] := by
    rintro rfl
    exact hne rfl
  have hsplit := List.dropLast_append_getLast harguments
  have hlast : words (Text.upper p) =
      ((label?.map (· ++ [':'])).toList ++ operation.mnemonic :: arguments.dropLast) ++
        [arguments.getLast harguments] := by
    rw [words_cleanLine, code_eq_self hp, ← Text.words_upper] at hwords
    rw [hwords, List.append_assoc, List.cons_append, hsplit]
  obtain ⟨more,hmore,hflatten⟩ := Text.words_append_of_last hlast (Text.upper (code q))
  refine ⟨arguments.dropLast ++ more,?_,?_⟩
  · calc (arguments.dropLast ++ more).flatten =
          (arguments.dropLast ++ [arguments.getLast harguments]).flatten ++
            (words (Text.upper (code q))).flatten := by
          rw [List.flatten_append, hflatten, List.flatten_append, List.flatten_singleton,
            List.append_assoc]
      _ = arguments.flatten ++ (words (cleanLine q)).flatten := by
          rw [hsplit, Text.words_upper, words_cleanLine]
  · have hcode : Text.upper (code (p ++ q)) = Text.upper p ++ Text.upper (code q) := by
      rw [code_append hp, Text.upper, List.map_append]
      rfl
    rw [words_cleanLine, ← Text.words_upper, hcode, hmore, List.append_assoc, List.cons_append]

/-- A change in the layout of a line does not change what is read from it. -/
theorem LineEdit.parse_eq {line line' : List Char} (h : LineEdit line line') :
    SourceLine.parse line' = SourceLine.parse line := by
  cases h with
  | recase h =>
    refine parse_congr ?_
    rw [words_cleanLine, words_cleanLine, ← Text.words_upper, ← Text.words_upper, ← code_upper,
      ← code_upper, h]
  | indent h =>
    refine parse_of_words ?_
    rw [code_append (notMem_of_blanks h), Text.words_blanks_append h]
  | trail _ h =>
    refine parse_of_words ?_
    by_cases hcomment : ';' ∈ line
    · rw [code_append_of_mem hcomment]
    · rw [code_append hcomment, code_eq_self (notMem_of_blanks h), Text.words_append_blanks h,
        code_eq_self hcomment]
  | space p q hne hne' h h' =>
    refine parse_of_words ?_
    by_cases hcomment : ';' ∈ p
    · rw [code_append_of_mem hcomment, code_append_of_mem hcomment]
    · rw [code_append hcomment, code_append hcomment, code_append (notMem_of_blanks h),
        code_append (notMem_of_blanks h'), Text.words_append_gap hne h,
        Text.words_append_gap hne' h']
  | @spread p hp q gap h =>
    obtain ⟨hcomment,label?,operation,operand,hne,hwrites⟩ := hp
    have hwords : words (cleanLine (gap ++ q)) = words (cleanLine q) := by
      rw [words_cleanLine, code_append (notMem_of_blanks h), Text.words_blanks_append h,
        words_cleanLine]
    have hspread := hwrites.append hne hcomment (gap ++ q)
    rw [hwords] at hspread
    exact (hwrites.append hne hcomment q).parse_eq hspread
  | comment _ text =>
    refine parse_of_words ?_
    by_cases hcomment : ';' ∈ line
    · rw [code_append_of_mem hcomment]
    · rw [code_append hcomment, code, List.takeWhile_cons_of_neg (by simp), List.append_nil,
        code_eq_self hcomment]

theorem parseLines_closeLines (number : ℕ) (texts : List (List Char)) :
    parseLines number (Text.closeLines texts) = parseLines number texts := by
  induction texts generalizing number with
  | nil => rfl
  | cons text texts ih =>
    cases texts with
    | nil =>
      rw [Text.closeLines]
      split
      · rename_i hempty
        rw [List.isEmpty_iff.mp hempty]
        rfl
      · rfl
    | cons next rest =>
      have hreturn : SourceLine.parse ((Text.beforeEnd? ['\r'] text).getD text) =
          SourceLine.parse text := by
        cases hbefore : Text.beforeEnd? ['\r'] text with
        | none => rfl
        | some before =>
          have hblank : Blanks ['\r'] := by simp [Blanks]; decide
          rw [Text.beforeEnd?_eq_some.mp hbefore]
          exact (LineEdit.trail before hblank).parse_eq.symm
      rw [Text.closeLines, parseLines, parseLines, ih, parseLine_congr hreturn]

theorem parseSource_eq_feedLines (source : List Char) :
    parseSource source = parseLines 1 (feedLines source) :=
  parseLines_closeLines 1 _

theorem parseLines_singleton (number : ℕ) (text : List Char) :
    parseLines number [text] = parseLine number text := by
  rw [parseLines_cons]
  cases parseLine number text with
  | error e => rfl
  | ok groups => exact congrArg Except.ok (List.append_nil groups)

theorem parseLines_of_nothing {number : ℕ} {text : List Char}
    (h : parseLine number text = .ok []) (rest : List (List Char)) :
    parseLines number (text :: rest) = parseLines (number + 1) rest := by
  rw [parseLines_cons, h]
  cases parseLines (number + 1) rest <;> rfl

theorem parseLine_of_blanks {line : List Char} (h : Blanks (code line)) (number : ℕ) :
    parseLine number line = .ok [] := by
  rw [parseLine, SourceLine.parse, words_cleanLine, Text.words_of_blanks h]
  rfl

theorem beforeEnd?_colon_eq_none {word : List Char} (h : word.getLast? ≠ some ':') :
    Text.beforeEnd? [':'] (Text.upper word) = none := by
  cases hbefore : Text.beforeEnd? [':'] (Text.upper word) with
  | none => rfl
  | some before =>
    have hlast : (Text.upper word).getLast? = some ':' := by
      rw [Text.beforeEnd?_eq_some.mp hbefore, List.getLast?_concat]
    rw [Text.upper, List.getLast?_map, Option.map_eq_some_iff] at hlast
    obtain ⟨c,hc,hupper⟩ := hlast
    rw [(Text.toUpper_eq_iff (by decide)).mp hupper] at hc
    exact absurd hc h

theorem words_label {gap name rest : List Char} (hgap : Blanks gap)
    (hname : ∀ c ∈ name, isBlank c = false ∧ c ≠ ';')
    (hend : ∀ c ∈ rest.head?, isBlank c = true ∨ c = ';') :
    words (cleanLine (gap ++ (name ++ ':' :: rest))) =
      (Text.upper name ++ [':']) :: words (cleanLine rest) := by
  have hword : ∀ c ∈ name ++ [':'], isBlank c = false ∧ c ≠ ';' := by
    intro c hc
    rcases List.mem_append.mp hc with hc | hc
    · exact hname c hc
    · rw [List.mem_singleton.mp hc]
      decide
  have hone : words (name ++ [':']) = [name ++ [':']] :=
    Text.words_of_unblank (by simp) fun c hc => (hword c hc).1
  have hcode : code (gap ++ (name ++ ':' :: rest)) = gap ++ ((name ++ [':']) ++ code rest) := by
    rw [code_append (notMem_of_blanks hgap), List.append_cons,
      code_append fun hc => (hword ';' hc).2 rfl]
  have hwords : words ((name ++ [':']) ++ code rest) = (name ++ [':']) :: words (code rest) := by
    cases hrest : code rest with
    | nil => rw [List.append_nil, hone]; rfl
    | cons c more =>
      obtain ⟨tail,rfl⟩ : ∃ tail, rest = c :: tail := by
        obtain ⟨tail,htail⟩ := List.takeWhile_prefix (p := (· != ';')) (l := rest)
        exact ⟨more ++ tail,by rw [← htail]; exact congrArg (· ++ tail) hrest⟩
      have hc : c ≠ ';' := by
        have hmem : c ∈ code (c :: tail) := hrest ▸ List.mem_cons_self ..
        simpa using List.mem_takeWhile_imp hmem
      have hblank : isBlank c = true := (hend c rfl).resolve_right hc
      rw [Text.words_append hblank, hone, Text.words_cons_blank hblank]
      rfl
  rw [words_cleanLine, hcode, Text.words_blanks_append hgap, hwords, List.map_cons, words_cleanLine,
    Text.upper, List.map_append]
  rfl

theorem parseLine_label {gap name : List Char} (hgap : Blanks gap)
    (hname : ∀ c ∈ name, isBlank c = false ∧ c ≠ ';') (number : ℕ) :
    parseLine number (gap ++ (name ++ [':'])) =
      if isName (Text.upper name) then .ok [Group.label number (Text.upper name)]
      else .error ⟨number,.invalidOperand (Text.upper name ++ [':'])⟩ := by
  have hwords := @words_label gap name [] hgap hname (by simp)
  have hlabel : Text.beforeEnd? [':'] (Text.upper name ++ [':']) = some (Text.upper name) :=
    Text.beforeEnd?_eq_some.mpr rfl
  have hempty : words (cleanLine []) = [] := rfl
  simp only [parseLine, SourceLine.parse, hwords, hempty, SourceLine.ofWords, hlabel]
  split <;> rfl

section
variable {rest : List Char}
  (hnext : ∀ word ∈ (words (code rest)).head?, word.getLast? ≠ some ':')
include hnext

theorem beforeEnd?_operator {operator : List Char} {arguments : List (List Char)}
    (h : words (cleanLine rest) = operator :: arguments) :
    Text.beforeEnd? [':'] operator = none := by
  rw [words_cleanLine] at h
  obtain ⟨word,more,hwords,rfl,-⟩ := List.map_eq_cons_iff.mp h
  exact beforeEnd?_colon_eq_none (hnext word (by rw [hwords]; rfl))

theorem label?_eq_none {parsed : SourceLine} (h : SourceLine.parse rest = .ok parsed) :
    parsed.label? = none := by
  rw [SourceLine.parse] at h
  cases hrest : words (cleanLine rest) with
  | nil =>
    rw [hrest] at h
    cases h
    rfl
  | cons operator arguments =>
    simp only [hrest, SourceLine.ofWords, beforeEnd?_operator hnext hrest] at h
    obtain ⟨statement,-,rfl⟩ := map_eq_ok_iff.mp h
    rfl

end

section
variable {a line : ℕ}

theorem MovedDown.stay (h : line ≤ a) : MovedDown a line line := .inl ⟨h,rfl⟩

theorem MovedDown.move (h : a < line) : MovedDown a line (line + 1) := .inr ⟨h,rfl⟩

theorem SplitBehind.stay (name : List Char) (h : line ≤ a) (part : Part) :
    SplitBehind a name part line line := by
  cases part with
  | label => exact MovedDown.stay (Nat.le_succ_of_le h)
  | statement =>
    refine MovedDown.stay ?_
    split
    · exact h
    · exact Nat.le_succ_of_le h

theorem SplitBehind.move (name : List Char) (h : a + 1 < line) (part : Part) :
    SplitBehind a name part line (line + 1) := by
  cases part with
  | label => exact MovedDown.move h
  | statement =>
    refine MovedDown.move ?_
    split
    · exact Nat.lt_of_succ_lt h
    · exact h

end

section
variable {gap name rest : List Char} (hgap : Blanks gap)
  (hname : ∀ c ∈ name, isBlank c = false ∧ c ≠ ';')
  (hend : ∀ c ∈ rest.head?, isBlank c = true ∨ c = ';')
  (hnext : ∀ word ∈ (words (code rest)).head?, word.getLast? ≠ some ':')
include hgap hname hend hnext

theorem parseLine_split (number : ℕ) :
    parseLine number (gap ++ (name ++ ':' :: rest)) =
      parseLine number (gap ++ (name ++ [':'])) >>= fun first =>
        (parseLine number rest).map (first ++ ·) := by
  have hwhole := words_label hgap hname hend
  have hlabel : Text.beforeEnd? [':'] (Text.upper name ++ [':']) = some (Text.upper name) :=
    Text.beforeEnd?_eq_some.mpr rfl
  rw [parseLine_label hgap hname]
  simp only [parseLine, SourceLine.parse, hwhole, SourceLine.ofWords, hlabel]
  by_cases hvalid : isName (Text.upper name) = true
  · simp only [hvalid, if_true]
    cases hrest : words (cleanLine rest) with
    | nil => rfl
    | cons operator arguments =>
      simp only [beforeEnd?_operator hnext hrest]
      cases Statement.parse operator arguments with
      | error cause => rfl
      | ok statement =>
        simp only [Except.map, Except.bind, SourceLine.groups]
        cases statement.group number <;> rfl
  · simp only [hvalid]
    rfl

/-- What a line with a label makes is made by its label on the same line, and by its statement on
the next one. -/
theorem parseLine_splitBehind (a : ℕ) :
    SameGroups (SplitBehind a name) (parseLine (a + 1) (gap ++ (name ++ ':' :: rest)))
      (parseLine (a + 1) (gap ++ (name ++ [':'])) >>= fun first =>
        (parseLine (a + 2) rest).map (first ++ ·)) := by
  rw [parseLine_split hgap hname hend hnext, parseLine_label hgap hname]
  by_cases hvalid : isName (Text.upper name) = true
  · rw [if_pos hvalid]
    have hlabel : (Group.label (a + 1) (Text.upper name)).OnLines (SplitBehind a name)
        (Group.label (a + 1) (Text.upper name)) := ⟨rfl,MovedDown.stay le_rfl⟩
    have hstatement : SplitBehind a name .statement (a + 1) (a + 2) := by
      rw [SplitBehind, if_pos hvalid]
      exact .move (Nat.lt_succ_self a)
    refine SameGroups.append (.ok (.cons hlabel .nil))
      (parseLine_sameGroups hstatement fun parsed hparsed hsome => ?_)
    rw [label?_eq_none hnext hparsed] at hsome
    cases hsome
  · rw [if_neg hvalid]
    have hstatement : SplitBehind a name .statement (a + 1) (a + 1) := by
      rw [SplitBehind, if_neg hvalid]
      exact .stay le_rfl
    exact .error _ hstatement

theorem parseSource_split {s t : List Char} {before after : List (List Char)}
    (hs : feedLines s = before ++ (gap ++ (name ++ ':' :: rest)) :: after)
    (ht : feedLines t = before ++ (gap ++ (name ++ [':'])) :: rest :: after) :
    SameGroups (SplitBehind before.length name) (parseSource s) (parseSource t) := by
  have hsplit := parseLine_splitBehind hgap hname hend hnext before.length
  have hbefore : SameGroups (SplitBehind before.length name) (parseLines 1 before)
      (parseLines 1 before) :=
    parseLines_sameGroups fun i hi => SplitBehind.stay name (by omega)
  have hafter : SameGroups (SplitBehind before.length name)
      (parseLines (before.length + 1 + 1) after) (parseLines (before.length + 2 + 1) after) := by
    refine parseLines_sameGroups fun i _ part => ?_
    rw [Nat.add_right_comm (before.length + 2)]
    exact SplitBehind.move name (by omega) part
  rw [parseSource_eq_feedLines, parseSource_eq_feedLines, hs, ht, parseLines_append,
    parseLines_append, Nat.add_comm 1, ← List.singleton_append, parseLines_append,
    show (gap ++ (name ++ [':'])) :: rest :: after =
      [gap ++ (name ++ [':']),rest] ++ after from rfl,
    parseLines_append, parseLines_singleton, parseLines_cons _ (gap ++ (name ++ [':'])),
    parseLines_singleton]
  exact hbefore.append (hsplit.append hafter)

end

theorem parseSource_insert {s t line : List Char} {before after : List (List Char)}
    (h : Blanks (code line)) (hs : feedLines s = before ++ after)
    (ht : feedLines t = before ++ line :: after) :
    SameGroups (fun _ => MovedDown before.length) (parseSource s) (parseSource t) := by
  rw [parseSource_eq_feedLines, parseSource_eq_feedLines, hs, ht, parseLines_append,
    parseLines_append, parseLines_of_nothing (parseLine_of_blanks h _)]
  refine SameGroups.append (parseLines_sameGroups fun i hi _ => .stay (by omega))
    (parseLines_sameGroups fun i _ _ => ?_)
  rw [Nat.add_right_comm _ 1 i]
  exact .move (by omega)

theorem sameGroups_relaid {R : Part → ℕ → ℕ → Prop} {s t : List Char} (h : Relaid R s t) :
    SameGroups R (parseSource s) (parseSource t) := by
  induction h with
  | @edit s t line line' before after h hs ht =>
    have hsame : parseSource t = parseSource s := by
      rw [parseSource_eq_feedLines, parseSource_eq_feedLines, hs, ht, parseLines_append,
        parseLines_append, parseLines_cons, parseLines_cons, parseLine_congr h.parse_eq]
    rw [hsame]
    exact .refl _
  | insert h hs ht => exact parseSource_insert h hs ht
  | split hgap hname hend hnext hs ht => exact parseSource_split hgap hname hend hnext hs ht
  | symm _ ih => exact ih.symm
  | trans _ _ ih ih' => exact ih.trans ih'

/-- Another layout of a text changes nothing of what it is assembled to but the lines of symbols and
errors, and these go where the labels and the statements have gone that they belong to. -/
theorem assemble_relaid {R : Part → ℕ → ℕ → Prop} {s t : List Char} (h : Relaid R s t)
    (options : Options) :
    OnLines (ErrorLines R) (Program.OnLines R) (assemble options s) (assemble options t) :=
  assemble_onLines (sameGroups_relaid h) options

/-- Capitals, a blank in the operand, a comment line and a label on its own line, one after the
other, move the label of the second line to the third and its instruction to the fourth. -/
theorem assemble_relaid_label : ∃ R : Part → ℕ → ℕ → Prop,
    Relaid R "lda #$1\nloop: bne lop".toList "LDA # $1\n;\nloop:\n bne lop".toList ∧
      (∀ line, (R .label 2 line ↔ line = 3) ∧ (R .statement 2 line ↔ line = 4)) ∧
      OnLines (ErrorLines R) (Program.OnLines R) (.error ⟨2,.undefinedLabel "LOP".toList⟩)
        (.error ⟨4,.undefinedLabel "LOP".toList⟩) := by
  have hcase : LineEdit "lda #$1".toList "LDA #$1".toList := .recase rfl
  have hoperand : EndsInOperand "LDA #".toList :=
    ⟨by decide,none,.lda,['#'],by decide,[['#']],rfl,rfl⟩
  have hspread : LineEdit "LDA #$1".toList "LDA # $1".toList :=
    .spread hoperand "$1".toList (show Blanks [' '] by simp [Blanks]; decide)
  have hname : ∀ c ∈ "loop".toList, isBlank c = false ∧ c ≠ ';' := by
    change ∀ c ∈ ['l', 'o', 'o', 'p'], _
    simp only [List.forall_mem_cons, List.not_mem_nil, false_implies, implies_true, and_true]
    decide
  let label := "loop: bne lop".toList
  have h : Relaid _ "lda #$1\nloop: bne lop".toList "LDA # $1\n;\nloop:\n bne lop".toList :=
    (((@Relaid.edit _ "LDA #$1\nloop: bne lop".toList _ _ [] [label] hcase rfl rfl).trans
      (@Relaid.edit _ "LDA # $1\nloop: bne lop".toList _ _ [] [label] hspread rfl rfl)).trans
      (@Relaid.insert _ "LDA # $1\n;\nloop: bne lop".toList ";".toList ["LDA # $1".toList]
        [label] (by simp [Blanks, code]) rfl rfl)).trans
      (@Relaid.split _ _ [] "loop".toList " bne lop".toList ["LDA # $1".toList,";".toList] []
        (by simp [Blanks]) hname (by rintro c ⟨⟩; decide) (by decide) rfl rfl)
  refine ⟨_,h,fun line => ?_,assemble_relaid h ⟨0x600,true⟩⟩
  have hvalid : isName (Text.upper "loop".toList) = true := by decide
  simp only [Relation.Comp, SplitBehind, MovedDown, hvalid, if_true, List.length_cons,
    List.length_nil]
  constructor
  · constructor
    · rintro ⟨l₃,⟨l₂,⟨l₁,rfl,rfl⟩,h₃⟩,h₄⟩
      omega
    · rintro rfl
      exact ⟨3,⟨2,⟨2,rfl,rfl⟩,by omega⟩,by omega⟩
  · constructor
    · rintro ⟨l₃,⟨l₂,⟨l₁,rfl,rfl⟩,h₃⟩,h₄⟩
      omega
    · rintro rfl
      exact ⟨3,⟨2,⟨2,rfl,rfl⟩,by omega⟩,by omega⟩

end Nmos6502.Assembly
