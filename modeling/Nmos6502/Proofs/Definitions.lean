import Nmos6502.Proofs.Rendition

/-! # The names that a source defines

A label or a constant of a source makes a group that defines a name. The groups that do
so are those of the definitions of the source, in order, in whatever form the others
are. Groups keep the order of their lines, and a label comes first on its line.
-/
namespace Nmos6502.Assembly

/-- A name that a line defines: a constant with a number, or else a label. -/
structure Definition where
  line : ℕ
  name : List Char
  number? : Option ℕ
  deriving DecidableEq, Repr

def Definition.kind (d : Definition) : SymbolKind :=
  if d.number?.isSome then .constant else .label

def Statement.definition? (number : ℕ) : Statement → Option Definition
  | .define name bytes => some ⟨number, name, some (ofLittleEndian bytes)⟩
  | .instruct .. => none

def SourceLine.definitions (number : ℕ) (line : SourceLine) : List Definition :=
  line.label?.toList.map (⟨number, ·, none⟩) ++
    (line.statement?.bind (Statement.definition? number)).toList

def definitionsFrom : ℕ → List (List Char) → List Definition
  | _, [] => []
  | number, text :: rest =>
    match SourceLine.parse text with
    | .ok line => line.definitions number ++ definitionsFrom (number + 1) rest
    | .error _ => definitionsFrom (number + 1) rest

def definitions (source : List Char) : List Definition := definitionsFrom 1 (Text.lines source)

namespace Group

def isLabel (g : Group) : Bool :=
  match g.content with
  | .label _ => true
  | _ => false

def definition? (g : Group) : Option Definition :=
  match g.content with
  | .opcode .. => none
  | .label name => some ⟨g.line, name, none⟩
  | .constant name => some ⟨g.line, name, some g.value⟩

/-- The order of groups: that of their lines, with a label before the rest of its line. -/
def Precedes (g h : Group) : Prop := g.line ≤ h.line ∧ (h.isLabel = true → g.line < h.line)

theorem any_definition? (g : Group) (name : List Char) :
    g.definition?.any (·.name == name) = g.defines name := by
  cases hc : g.content <;> simp only [definition?, defines, hc] <;> rfl

theorem value_constant {line : ℕ} {name text : List Char} {bytes : List UInt8}
    (h : numeral? text = some bytes) : (constant line name bytes).value = ofLittleEndian bytes := by
  have hlt := ofLittleEndian_lt bytes
  have hle := Nat.pow_le_pow_right (n := 256) (by decide) (length_of_numeral? h)
  apply Nat.mod_eq_of_lt
  simp only [constant]
  omega

namespace Variant
variable {g h : Group} (hv : Variant g h)
include hv

theorem line_eq : h.line = g.line := by rw [hv.eq_with]

theorem isLabel_eq : h.isLabel = g.isLabel := by
  cases hp : g.state.isPending with
  | false => simp only [isLabel, (hv.known hp).1]
  | true =>
    obtain ⟨code,operation,mode,code',mode',hc,hc'⟩ := Group.of_form?_eq_some (hv.pending hp)
    simp only [isLabel, hc, hc']

theorem definition?_eq : h.definition? = g.definition? := by
  cases hp : g.state.isPending with
  | false => simp only [definition?, Group.value, hv.line_eq, (hv.known hp).1, (hv.known hp).2]
  | true =>
    obtain ⟨code,operation,mode,code',mode',hc,hc'⟩ := Group.of_form?_eq_some (hv.pending hp)
    simp only [definition?, hc, hc']

end Variant
end Group

theorem Written.line_of_group? {w : Written} {g : Group} (h : w.group? = some g) :
    g.line = w.line := by
  obtain ⟨mode,code,-,-,rfl⟩ := group?_eq_some_iff.mp h
  rfl

theorem Statement.definition?_group {line : ℕ} {text : List Char} {parsed : SourceLine}
    (hparse : SourceLine.parse text = .ok parsed) {statement : Statement}
    (hs : parsed.statement? = some statement) {g : Group} (hg : statement.group line = .ok g) :
    g.definition? = statement.definition? line ∧ g.line = line ∧ g.isLabel = false := by
  cases statement with
  | define name bytes =>
    cases hg
    obtain ⟨value,hvalue⟩ := SourceLine.parse_define hparse hs
    refine ⟨?_,rfl,rfl⟩
    rw [Statement.definition?, ← Group.value_constant hvalue]
    rfl
  | instruct operation operand text =>
    simp only [Statement.group] at hg
    split at hg
    · rename_i g' hgroup
      cases hg
      have hw : (⟨line,operation,operand.reading operation⟩ : Written).group? = some g := hgroup
      obtain ⟨mode,code,-,-,rfl⟩ := Written.group?_eq_some_iff.mp hw
      exact ⟨rfl,rfl,rfl⟩
    · simp at hg

theorem definitions_of_parseLine {line : ℕ} {text : List Char} {groups : List Group}
    (h : parseLine line text = .ok groups) :
    (∀ g ∈ groups, g.line = line) ∧ groups.Pairwise Group.Precedes ∧
      ∃ parsed, SourceLine.parse text = .ok parsed ∧
        groups.filterMap Group.definition? = parsed.definitions line := by
  obtain ⟨parsed,hparse,h⟩ := bind_eq_ok_iff.mp (mapError_eq_ok_iff.mp h)
  have hlabels : ∀ g ∈ parsed.label?.toList.map (Group.label line), g.line = line := by
    intro g hg
    obtain ⟨name,-,rfl⟩ := List.mem_map.mp hg
    rfl
  have horder : (parsed.label?.toList.map (Group.label line)).Pairwise Group.Precedes := by
    cases parsed.label? <;> simp
  have hnames : (parsed.label?.toList.map (Group.label line)).filterMap Group.definition? =
      parsed.label?.toList.map (⟨line, ·, none⟩) := by
    cases parsed.label? <;> rfl
  unfold SourceLine.groups at h
  cases hs : parsed.statement? with
  | none =>
    simp only [hs, Except.ok.injEq] at h
    subst h
    exact ⟨hlabels,horder,parsed,hparse,by simp [SourceLine.definitions, hs, hnames]⟩
  | some statement =>
    simp only [hs] at h
    obtain ⟨g,hg,rfl⟩ := map_eq_ok_iff.mp h
    obtain ⟨hdefines,hline,hlabel⟩ := Statement.definition?_group hparse hs hg
    refine ⟨?_,?_,parsed,hparse,?_⟩
    · intro g' hg'
      rcases List.mem_append.mp hg' with hg' | hg'
      · exact hlabels g' hg'
      · exact List.mem_singleton.mp hg' ▸ hline
    · refine List.pairwise_append.mpr ⟨horder,List.pairwise_singleton ..,?_⟩
      intro g' hg' h' hh'
      obtain rfl := List.mem_singleton.mp hh'
      exact ⟨by rw [hlabels g' hg', hline],by simp [hlabel]⟩
    · rw [List.filterMap_append, hnames, SourceLine.definitions, hs, Option.bind_some, ← hdefines]
      cases hd : g.definition? <;> simp [hd]

theorem definitions_of_parseLines {line : ℕ} {texts : List (List Char)} {groups : List Group}
    (h : parseLines line texts = .ok groups) :
    (∀ g ∈ groups, line ≤ g.line) ∧ groups.Pairwise Group.Precedes ∧
      groups.filterMap Group.definition? = definitionsFrom line texts := by
  induction texts generalizing line groups with
  | nil =>
    cases h
    exact ⟨by simp,.nil,rfl⟩
  | cons text rest ih =>
    obtain ⟨first,hfirst,h⟩ := bind_eq_ok_iff.mp h
    obtain ⟨others,hothers,h⟩ := bind_eq_ok_iff.mp h
    cases h
    obtain ⟨hline,horder,parsed,hparse,hnames⟩ := definitions_of_parseLine hfirst
    obtain ⟨hlater,horders,hothernames⟩ := ih hothers
    refine ⟨?_,?_,?_⟩
    · intro g hg
      rcases List.mem_append.mp hg with hg | hg
      · exact (hline g hg).ge
      · exact (Nat.le_succ line).trans (hlater g hg)
    · refine List.pairwise_append.mpr ⟨horder,horders,?_⟩
      intro g hg g' hg'
      have hlt : g.line < g'.line := hline g hg ▸ hlater g' hg'
      exact ⟨hlt.le,fun _ => hlt⟩
    · simp only [definitionsFrom, hparse, List.filterMap_append, hnames, hothernames]

namespace Rendition
variable {origin : ℕ} {groups gs : List Group} (hr : Rendition origin groups gs)
include hr

theorem filterMap_definition? : gs.filterMap Group.definition? = groups.filterMap Group.definition? := by
  obtain ⟨hv,-⟩ := hr
  induction hv with
  | nil => rfl
  | cons hv _ ih => simp only [List.filterMap_cons, hv.definition?_eq, ih]

theorem pairwise_precedes (h : groups.Pairwise Group.Precedes) : gs.Pairwise Group.Precedes := by
  rw [List.pairwise_iff_getElem] at h ⊢
  intro i j hi hj hij
  obtain ⟨g,hg,hv⟩ := hr.getElem? (List.getElem?_eq_getElem hi)
  obtain ⟨g',hg',hv'⟩ := hr.getElem? (List.getElem?_eq_getElem hj)
  obtain ⟨hlt,rfl⟩ := List.getElem?_eq_some_iff.mp hg
  obtain ⟨hlt',rfl⟩ := List.getElem?_eq_some_iff.mp hg'
  rw [Group.Precedes, hv.line_eq, hv'.line_eq, hv'.isLabel_eq]
  exact h i j hlt hlt' hij

end Rendition
end Nmos6502.Assembly
