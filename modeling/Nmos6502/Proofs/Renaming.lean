import Nmos6502.Proofs.ErrorOrder
import Nmos6502.Proofs.LineWords
import Nmos6502.Proofs.RenamedLines

/-! # Sources with other names

The symbols of a source can be called anything. New names that are valid, and different for
different symbols, give the same bytes and the same symbols under the new names, or the same error
with the new name in it. That the new names are different matters only among the names of the
source, since any choice of them there can be continued to all names, and no other name turns up in
an outcome.
-/
namespace Nmos6502.Assembly
open Text (words isBlank)

def Value.name? : Value → Option (List Char)
  | .literal _ => none
  | .name n => some n

def names (source : List Char) : List (List Char) :=
  (definitions source).map Definition.name ++ (written source).filterMap (·.operand.value.name?)

theorem mem_names {source : List Char} {groups : List Group}
    (hsource : parseSource source = .ok groups) {g : Group} (hg : g ∈ groups) {name : List Char}
    (hname : name ∈ g.names) : name ∈ names source := by
  rcases List.mem_append.mp hname with hname | hname
  · have hdefines : g.defines name = true := by
      obtain ⟨symbol,hsymbol,rfl⟩ := Option.map_eq_some_iff.mp (Option.mem_toList.mp hname)
      rw [← any_symbol?, hsymbol]
      exact beq_self_eq_true _
    have hany := any_defines hsource name
    rw [List.any_eq_true.mpr ⟨g,hg,hdefines⟩] at hany
    obtain ⟨d,hd,hdname⟩ := List.any_eq_true.mp hany.symm
    exact List.mem_append_left _ (List.mem_map.mpr ⟨d,hd,beq_iff_eq.mp hdname⟩)
  · have hawaits := Option.mem_toList.mp hname
    have hemits := (parsed_of_parseSource hsource g hg).emits_of_pending
      (Group.isPending_of_awaited? hawaits)
    have hwritten : some g ∈ (written source).map Written.group? := by
      rw [written_of_parseSource hsource]
      exact List.mem_map_of_mem (List.mem_filter.mpr ⟨hg,hemits⟩)
    obtain ⟨w,hw,hgroup⟩ := List.mem_map.mp hwritten
    refine List.mem_append_right _ (List.mem_filterMap.mpr ⟨w,hw,?_⟩)
    rw [(Written.awaited?_eq_some_iff hgroup).mp hawaits]
    rfl

/-- Names that stay apart on a list do so with all others, each of which is given a new one that is
longer than those of the list. -/
theorem exists_injective_extension {σ : List Char → List Char} (known : List (List Char))
    (h : Set.InjOn σ {name | name ∈ known}) : ∃ f : List Char → List Char,
      Function.Injective f ∧ (∀ name ∈ known, f name = σ name) ∧ ∀ name ∉ known, f name ≠ name := by
  let pad := List.replicate ((known.map fun name => (σ name).length).sum + 1) 'X'
  have hshort : ∀ name ∈ known, ∀ other, σ name ≠ pad ++ other := by
    intro name hname other heq
    have hle := List.le_sum_of_mem (List.mem_map_of_mem (f := fun n => (σ n).length) hname)
    have hlength := congrArg List.length heq
    simp only [pad, List.length_append, List.length_replicate] at hlength
    omega
  refine ⟨fun name => if name ∈ known then σ name else pad ++ name,?_,?_,?_⟩
  · intro a b hab
    dsimp only at hab
    split at hab
    · rename_i ha
      split at hab
      · rename_i hb
        exact h ha hb hab
      · exact absurd hab (hshort a ha b)
    · split at hab
      · rename_i hb
        exact absurd hab.symm (hshort b hb a)
      · exact List.append_cancel_left hab
  · intro name hname
    exact if_pos hname
  · intro name hname heq
    dsimp only at heq
    rw [if_neg hname] at heq
    have hlength := congrArg List.length heq
    simp only [pad, List.length_append, List.length_replicate] at hlength
    omega

def Cause.name? : Cause → Option (List Char)
  | .undefinedLabel name | .branchOutOfRange name _ => some name
  | _ => none

theorem Relabelling.cause_congr {f σ : List Char → List Char} {cause : Cause}
    (h : ∀ name, cause.name? = some name → f name = σ name) :
    (ofName f).cause cause = (ofName σ).cause cause := by
  cases cause with
  | undefinedLabel name => exact congrArg Cause.undefinedLabel (h name rfl)
  | branchOutOfRange name displacement =>
    exact congrArg (Cause.branchOutOfRange · displacement) (h name rfl)
  | _ => rfl

section
variable {options : Options} {groups : List Group}

theorem mem_names_of_fixed {name : List Char} (h : ∀ f : List Char → List Char,
    Function.Injective f → (∀ g ∈ groups, (Relabelling.ofName f).group g = g) → f name = name) :
    ∃ g ∈ groups, name ∈ g.names := by
  by_contra hnone
  obtain ⟨f,hf,hfixed,hmoved⟩ := exists_injective_extension (groups.flatMap Group.names)
    (Set.injOn_id _)
  refine hmoved name (by simpa using hnone) (h f hf fun g hg => ?_)
  exact Relabelling.group_of_fixed fun other hother =>
    hfixed other (List.mem_flatMap.mpr ⟨g,hg,hother⟩)

theorem mem_names_of_error {e : Error} (h : assembleGroups options groups = .error e)
    {name : List Char} (hname : e.cause.name? = some name) : ∃ g ∈ groups, name ∈ g.names := by
  refine mem_names_of_fixed fun f hf hfixed => ?_
  have hsame := Relabelling.outcome_of_fixed hf groups options hfixed
  rw [h] at hsame
  have hcause := congrArg (fun e => Cause.name? e.cause) (Except.error.inj hsame)
  cases hc : e.cause with
  | undefinedLabel other | branchOutOfRange other displacement =>
    simp only [Relabelling.error, hc] at hname hcause
    cases hname
    exact Option.some.inj hcause
  | _ =>
    rw [hc] at hname
    cases hname

theorem mem_names_of_symbol {p : Program} (h : assembleGroups options groups = .ok p) {s : Symbol}
    (hs : s ∈ p.symbols) : ∃ g ∈ groups, s.name ∈ g.names := by
  refine mem_names_of_fixed fun f hf hfixed => ?_
  have hsame := Relabelling.outcome_of_fixed hf groups options hfixed
  rw [h] at hsame
  have hsymbols := congrArg Program.symbols (Except.ok.inj hsame)
  have hsymbol := List.map_inj_left.mp (hsymbols.trans (List.map_id _).symm) s hs
  exact congrArg Symbol.name hsymbol

theorem outcome_congr {f σ : List Char → List Char}
    (h : ∀ g ∈ groups, ∀ name ∈ g.names, f name = σ name) :
    (Relabelling.ofName f).outcome (Relabelling.ofName f).program (assembleGroups options groups) =
      (Relabelling.ofName σ).outcome (Relabelling.ofName σ).program
        (assembleGroups options groups) := by
  cases houtcome : assembleGroups options groups with
  | error e =>
    suffices hcause : (Relabelling.ofName f).cause e.cause =
        (Relabelling.ofName σ).cause e.cause from
      congrArg (fun cause => (Except.error ⟨e.line,cause⟩ : Except Error Program)) hcause
    refine Relabelling.cause_congr fun name hname => ?_
    obtain ⟨g,hg,hmem⟩ := mem_names_of_error houtcome hname
    exact h g hg name hmem
  | ok p =>
    suffices hsymbols : p.symbols.map (Relabelling.ofName f).symbol =
        p.symbols.map (Relabelling.ofName σ).symbol from
      congrArg (fun symbols => (Except.ok ⟨p.bytes,p.origin,symbols⟩ : Except Error Program))
        hsymbols
    refine List.map_congr_left fun s hs => ?_
    obtain ⟨g,hg,hmem⟩ := mem_names_of_symbol houtcome hs
    simp only [Relabelling.symbol, Relabelling.ofName, h g hg s.name hmem]

end

/-- The text can stand as a word of a line, in capitals. -/
def IsWord (word : List Char) : Prop :=
  word ≠ [] ∧ ∀ c ∈ word, isBlank c = false ∧ c ≠ ';' ∧ c.toUpper = c

theorem isWord_of_mem {line word : List Char} (h : word ∈ words (cleanLine line)) :
    IsWord word := by
  rw [words_cleanLine] at h
  obtain ⟨plain,hplain,rfl⟩ := List.mem_map.mp h
  obtain ⟨hpiece,hne⟩ := List.mem_filter.mp hplain
  refine ⟨?_,fun c hc => ?_⟩
  · cases plain with
    | nil => cases hne
    | cons c rest => simp [Text.upper]
  · obtain ⟨d,hd,rfl⟩ := List.mem_map.mp hc
    obtain ⟨hmem,hblank⟩ := Text.mem_of_mem_splitOnP hpiece hd
    have hcode := List.mem_takeWhile_imp hmem
    refine ⟨?_,?_,Text.toUpper_toUpper d⟩
    · rwa [Text.isBlank_toUpper]
    · rw [ne_eq, Text.toUpper_eq_iff (by decide)]
      simpa using hcode

theorem isBlank_of_isAlphanum {c : Char} (h : c.isAlphanum = true) : isBlank c = false := by
  have hrange : 48 ≤ c.toNat ∧ c.toNat ≤ 122 := by
    rcases Bool.or_eq_true_iff.mp h with hletter | hdigit
    · rcases Bool.or_eq_true_iff.mp hletter with hupper | hlower
      · have hcode : 65 ≤ c.toNat ∧ c.toNat ≤ 90 := of_decide_eq_true hupper
        omega
      · obtain ⟨hlow,hhigh⟩ := Bool.and_eq_true_iff.mp hlower
        have hfirst : 97 ≤ c.toNat := of_decide_eq_true hlow
        have hlast : c.toNat ≤ 122 := of_decide_eq_true hhigh
        omega
    · obtain ⟨hlow,hhigh⟩ := Bool.and_eq_true_iff.mp hdigit
      have hfirst : 48 ≤ c.toNat := of_decide_eq_true hlow
      have hlast : c.toNat ≤ 57 := of_decide_eq_true hhigh
      omega
  simp only [isBlank, Text.blankRanges, List.any_cons, List.any_nil, Bool.or_false,
    Bool.or_eq_false_iff, Bool.and_eq_false_iff, decide_eq_false_iff_not]
  omega

theorem isWord_of_isName {name : List Char} (h : isName name = true)
    (hupper : Text.upper name = name) : IsWord name := by
  refine ⟨?_,fun c hc => ?_⟩
  · rintro rfl
    cases h
  · have hsame : c.toUpper = c :=
      List.map_inj_left.mp ((show name.map Char.toUpper = _ from hupper).trans
        (List.map_id name).symm) c hc
    rcases mem_of_isName h hc with halpha | rfl
    · refine ⟨isBlank_of_isAlphanum halpha,?_,hsame⟩
      rintro rfl
      cases halpha
    · decide

theorem isWord_append {word other : List Char} (h : IsWord word)
    (h' : ∀ c ∈ other, isBlank c = false ∧ c ≠ ';' ∧ c.toUpper = c) : IsWord (word ++ other) :=
  ⟨List.append_ne_nil_of_left_ne_nil h.1 other,fun c hc =>
    (List.mem_append.mp hc).elim (h.2 c) (h' c)⟩

theorem isWord_spell {mode : AddressingMode} (hmode : mode.operandSize ≠ 0) {word : List Char}
    (h : IsWord word) : IsWord (mode.spell word) := by
  refine ⟨?_,fun c hc => ?_⟩
  · have hne := h.1
    cases mode <;> simp_all [AddressingMode.spell, AddressingMode.operandSize]
  · have hsign : ∀ c ∈ ['#', '(', ')', ',', 'X', 'Y'],
        isBlank c = false ∧ c ≠ ';' ∧ c.toUpper = c := by
      simp only [List.forall_mem_cons, List.not_mem_nil, false_implies, implies_true, and_true]
      decide
    exact (Instruction.mem_spell hc).elim (h.2 c) (hsign c)

theorem exists_line {ws : List (List Char)} (h : ∀ word ∈ ws, IsWord word) :
    ∃ line, '\n' ∉ line ∧ words (cleanLine line) = ws := by
  have hmem : ∀ c ∈ ws.flatMap (· ++ [' ']), (isBlank c = false ∨ c = ' ') ∧ c ≠ ';' ∧
      c.toUpper = c := by
    intro c hc
    obtain ⟨word,hword,hc⟩ := List.mem_flatMap.mp hc
    rcases List.mem_append.mp hc with hc | hc
    · exact ⟨.inl ((h word hword).2 c hc).1,((h word hword).2 c hc).2⟩
    · rw [List.mem_singleton.mp hc]
      decide
  have hwords : words (ws.flatMap (· ++ [' '])) = ws := by
    clear hmem
    induction ws with
    | nil => rfl
    | cons word ws ih =>
      obtain ⟨hne,hunblank⟩ := h word (List.mem_cons_self ..)
      rw [List.flatMap_cons, List.append_assoc, List.singleton_append,
        Text.words_append (by decide),
        ih fun other hother => h other (List.mem_cons_of_mem _ hother),
        Text.words_of_unblank hne fun c hc => (hunblank c hc).1]
      rfl
  refine ⟨ws.flatMap (· ++ [' ']),fun hc => ?_,?_⟩
  · exact absurd (hmem _ hc).1 (by decide)
  · have hupper : Text.upper (ws.flatMap (· ++ [' '])) = ws.flatMap (· ++ [' ']) :=
      Text.upper_eq_self fun c hc => (hmem c hc).2.2
    rw [words_cleanLine, code_eq_self fun hc => (hmem _ hc).2.1 rfl, ← Text.words_upper, hupper,
      hwords]

section
variable {σ : List Char → List Char}

theorem mnemonic_of_ofMnemonic? {word : List Char} {operation : Operation}
    (h : Operation.ofMnemonic? word = some operation) (hword : IsWord word) :
    word = operation.mnemonic := by
  have hupper : word.map Char.toUpper = word := Text.upper_eq_self fun c hc => (hword.2 c hc).2.2
  have hfound := List.find?_some h
  rw [hupper] at hfound
  exact (beq_iff_eq.mp hfound).symm

theorem exists_arguments {number : ℕ} {operation : Operation} {arguments : List (List Char)}
    {operand : Operand} {g : Group} (hoperand : Operand.parse arguments.flatten = .ok operand)
    (hg : Statement.instructionGroup? number operation (operand.reading operation) = some g)
    (hwords : ∀ word ∈ arguments, IsWord word) (hσ : ∀ name ∈ g.names, IsWord (σ name)) :
    ∃ arguments' : List (List Char), OperandRenamed σ arguments.flatten arguments'.flatten ∧
      ∀ word ∈ arguments', IsWord word := by
  by_cases hspelled : ∃ (mode : AddressingMode) (name : List Char), mode.operandSize ≠ 0 ∧
      isName name = true ∧ arguments.flatten = mode.spell name ∧ name ≠ ['A']
  · obtain ⟨mode,name,hmode,hname,htext,hA⟩ := hspelled
    rw [htext, Operand.parse_spell_value (Value.parse_isName hname) hA hmode] at hoperand
    cases hoperand
    rw [reading_shape] at hg
    have hnew := hσ name ((Written.mem_names_iff
      (w := ⟨number,operation,mode.shape (.name name)⟩) hg name).mpr
        (value_shape_of_size hmode _))
    refine ⟨[mode.spell (σ name)],?_,?_⟩
    · rw [htext, List.flatten_singleton]
      exact .name hmode hname hA
    · simpa using isWord_spell hmode hnew
  · refine ⟨arguments,.nameless fun mode name hmode hname htext => ?_,hwords⟩
    by_contra hA
    exact hspelled ⟨mode,name,hmode,hname,htext,hA⟩

theorem exists_statement {number : ℕ} {statement : List (List Char)} {groups : List Group}
    (hgroups : statementGroups number statement = .ok groups)
    (hwords : ∀ word ∈ statement, IsWord word)
    (hσ : ∀ g ∈ groups, ∀ name ∈ g.names, IsWord (σ name)) :
    ∃ statement', StatementRenamed σ statement statement' ∧ ∀ word ∈ statement', IsWord word := by
  cases statement with
  | nil => exact ⟨[],.nothing,by simp⟩
  | cons operator arguments =>
    obtain ⟨g,hmade,rfl⟩ := map_eq_ok_iff.mp hgroups
    obtain ⟨statement,hparse,hg⟩ := bind_eq_ok_iff.mp hmade
    have hσ := hσ g (List.mem_singleton_self g)
    obtain ⟨name,value,rest,bytes,rfl,rfl,-,-,rfl⟩ | ⟨operation,operand,hoperation,hoperand,rfl⟩ :=
      Statement.parse_cases hparse
    · cases hg
      have hname := hσ name (by simp [Group.names, Group.symbol?, Group.constant])
      refine ⟨_,.define name value rest,?_⟩
      simp only [List.forall_mem_cons] at hwords ⊢
      exact ⟨hwords.1,hname,hwords.2.2⟩
    · obtain ⟨hoperator,harguments⟩ := List.forall_mem_cons.mp hwords
      obtain rfl := mnemonic_of_ofMnemonic? hoperation hoperator
      obtain ⟨arguments',hrenamed,harguments'⟩ := exists_arguments hoperand
        (Statement.group_instruct_iff.mp hg) harguments hσ
      exact ⟨_,.instruct operation hrenamed,List.forall_mem_cons.mpr ⟨hoperator,harguments'⟩⟩

theorem exists_renamed_line {number : ℕ} {line : List Char} {groups : List Group}
    (hline : parseLine number line = .ok groups)
    (hσ : ∀ g ∈ groups, ∀ name ∈ g.names, IsWord (σ name)) :
    ∃ renamed, '\n' ∉ renamed ∧ LineRenamed σ line renamed := by
  obtain ⟨label?,statement,more,hwords,hmore,rfl⟩ := exists_label_statement hline
  have hword : ∀ word ∈ statement, IsWord word := fun word hword =>
    isWord_of_mem (hwords ▸ List.mem_append_right _ hword)
  obtain ⟨statement',hrenamed,hword'⟩ := exists_statement hmore hword
    fun g hg => hσ g (List.mem_append_right _ hg)
  have hlabel : ∀ word ∈ ((label?.map σ).map (· ++ [':'])).toList, IsWord word := by
    cases label? with
    | none => simp
    | some name =>
      intro word hword
      obtain rfl := List.mem_singleton.mp hword
      refine isWord_append (hσ (Group.label number name) (by simp) name ?_) (by simp; decide)
      simp [Group.names, Group.symbol?, Group.label]
  have hall : ∀ word ∈ ((label?.map σ).map (· ++ [':'])).toList ++ statement', IsWord word :=
    fun word hword => (List.mem_append.mp hword).elim (hlabel word) (hword' word)
  obtain ⟨renamed,hfeed,hrenamed'⟩ := exists_line hall
  exact ⟨renamed,hfeed,label?,statement,statement',hrenamed,hwords,hrenamed'⟩

theorem exists_renamed_lines {number : ℕ} {texts : List (List Char)} {groups : List Group}
    (htexts : parseLines number texts = .ok groups)
    (hσ : ∀ g ∈ groups, ∀ name ∈ g.names, IsWord (σ name)) :
    ∃ texts', (∀ text ∈ texts', '\n' ∉ text) ∧ List.Forall₂ (LineRenamed σ) texts texts' := by
  induction texts generalizing number groups with
  | nil => exact ⟨[],by simp,.nil⟩
  | cons text texts ih =>
    obtain ⟨first,hfirst,hrest⟩ := bind_eq_ok_iff.mp htexts
    obtain ⟨others,hothers,hsum⟩ := bind_eq_ok_iff.mp hrest
    cases hsum
    obtain ⟨renamed,hfeed,hrenamed⟩ := exists_renamed_line hfirst
      fun g hg => hσ g (List.mem_append_left _ hg)
    obtain ⟨texts',hfeeds,htexts'⟩ := ih hothers fun g hg => hσ g (List.mem_append_right _ hg)
    exact ⟨renamed :: texts',List.forall_mem_cons.mpr ⟨hfeed,hfeeds⟩,.cons hrenamed htexts'⟩

theorem exists_renamed {source : List Char} {groups : List Group}
    (hsource : parseSource source = .ok groups)
    (hσ : ∀ g ∈ groups, ∀ name ∈ g.names, IsWord (σ name)) :
    ∃ renamed, Renamed σ source renamed := by
  obtain ⟨texts,hfeeds,htexts⟩ := exists_renamed_lines hsource hσ
  refine ⟨texts.flatMap (· ++ ['\r', '\n']),?_⟩
  rw [Renamed, Text.lines_flatMap_return_feed hfeeds]
  exact htexts

end

/-- A source all of whose lines are accepted can be written with other names for its symbols. If
they are valid and different, and `A` is neither an old nor a new one, every text that does so has
the outcome of the source under the new names. -/
theorem assemble_renamed {σ : List Char → List Char} {source : List Char} (options : Options)
    (hlines : ∀ k text, (Text.lines source)[k]? = some text →
      ∃ groups, parseLine (k + 1) text = .ok groups)
    (hinj : Set.InjOn σ {name | name ∈ names source})
    (hnames : ∀ name ∈ names source, name ≠ ['A'] ∧ σ name ≠ ['A'] ∧
      isName (σ name) = true ∧ Text.upper (σ name) = σ name) :
    (∃ renamed, Renamed σ source renamed) ∧
      ∀ renamed, Renamed σ source renamed → assemble options renamed =
        (Relabelling.ofName σ).outcome (Relabelling.ofName σ).program
          (assemble options source) := by
  cases hsource : parseSource source with
  | error error =>
    obtain ⟨k,text,hk,hbad,-⟩ := parseSource_eq_error_iff.mp hsource
    obtain ⟨groups,hgroups⟩ := hlines k text hk
    cases hgroups.symm.trans hbad
  | ok groups =>
    have hword : ∀ g ∈ groups, ∀ name ∈ g.names, IsWord (σ name) := by
      intro g hg name hname
      obtain ⟨-,-,hvalid,hupper⟩ := hnames name (mem_names hsource hg hname)
      exact isWord_of_isName hvalid hupper
    refine ⟨exists_renamed hsource hword,fun renamed hrenamed => ?_⟩
    obtain ⟨f,hf,heq,-⟩ := exists_injective_extension (names source) hinj
    have hreplaces : ∀ g ∈ groups, ∀ name ∈ g.names, Replaces σ f name := by
      intro g hg name hname
      have hmem := mem_names hsource hg hname
      obtain ⟨hA,hA',hvalid,-⟩ := hnames name hmem
      exact ⟨heq name hmem,hA,hvalid,hA'⟩
    have hparse : parseSource renamed = .ok (groups.map (Relabelling.ofName f).group) :=
      parseLines_renamed hrenamed hsource hreplaces
    rw [assemble_eq_bind, assemble_eq_bind, hsource, hparse]
    refine (Relabelling.assembleGroups_map hf groups options).trans ?_
    exact outcome_congr fun g hg name hname => (hreplaces g hg name hname).eq

theorem assemble_renamed_keywords :
    let σ := fun name => if name = ['L'] then "LDA".toList else "DEFINE".toList
    let source := "l: lda x,x\ndefine x 5\nbne l".toList
    let renamed := "LDA: LDA DEFINE,X\nDEFINE DEFINE 5\nBNE LDA".toList
    Renamed σ source renamed ∧ assemble ⟨0x600,true⟩ source =
        .ok ⟨[0xB5, 5, 0xD0, 0xFC],0x600,[⟨['L'],0x600,.label,1⟩,⟨['X'],5,.constant,2⟩]⟩ ∧
      assemble ⟨0x600,true⟩ renamed = .ok ⟨[0xB5, 5, 0xD0, 0xFC],0x600,
        [⟨"LDA".toList,0x600,.label,1⟩,⟨"DEFINE".toList,5,.constant,2⟩]⟩ := by
  intro σ source renamed
  have hindexed : OperandRenamed σ "X,X".toList "DEFINE,X".toList :=
    @OperandRenamed.name σ .zeroPageX ['X'] (by decide) (by decide) (by decide)
  have hbranch : OperandRenamed σ "L".toList "LDA".toList :=
    @OperandRenamed.name σ .relative ['L'] (by decide) (by decide) (by decide)
  have hrenamed : Renamed σ source renamed :=
    .cons ⟨some ['L'],_,_,@StatementRenamed.instruct σ .lda ["X,X".toList] ["DEFINE,X".toList]
        hindexed,rfl,rfl⟩
      (.cons ⟨none,_,_,@StatementRenamed.define σ ['X'] ['5'] [],rfl,rfl⟩
        (.cons ⟨none,_,_,@StatementRenamed.instruct σ .bne [['L']] ["LDA".toList] hbranch,rfl,rfl⟩
          .nil))
  have hlines : ∀ k text, (Text.lines source)[k]? = some text →
      ∃ groups, parseLine (k + 1) text = .ok groups := by
    obtain ⟨groups,hsource⟩ : ∃ groups, parseSource source = .ok groups := ⟨_,rfl⟩
    exact fun k text hk => Nat.add_comm k 1 ▸ exists_parseLine hsource hk
  have hinj : ∀ a ∈ names source, ∀ b ∈ names source, σ a = σ b → a = b := by decide
  have hprogram : assemble ⟨0x600,true⟩ source = .ok ⟨[0xB5, 5, 0xD0, 0xFC],0x600,
      [⟨['L'],0x600,.label,1⟩,⟨['X'],5,.constant,2⟩]⟩ := rfl
  refine ⟨hrenamed,hprogram,?_⟩
  rw [(assemble_renamed ⟨0x600,true⟩ hlines (fun a ha b hb => hinj a ha b hb) (by decide)).2 _
    hrenamed, hprogram]
  rfl

end Nmos6502.Assembly
