import Mathlib.Data.List.Forall2
import Mathlib.Data.Nat.Pairing
import Nmos6502.Proofs.ErrorOrder
import Nmos6502.Proofs.Relabelling

/-! # Outcomes on other lines

Two outcomes that differ at most in the lines they name, with a relation that says which line of
one answers to which line of the other. A label and the statement behind it may go to different
lines, so that there is one relation for each of the two parts of a line. The lines of an outcome
are those of groups, and so the same groups on related lines have the same outcome on related
lines. The lines of a source make the same groups whatever their numbers are.
-/
namespace Nmos6502.Assembly

/-- The parts of a line. The error for a label that is no name belongs to the statement. -/
inductive Part where
  | label | statement

def Group.part (g : Group) : Part := if g.isLabel then .label else .statement

def Symbol.part (s : Symbol) : Part :=
  match s.kind with
  | .label => .label
  | .constant => .statement

section
variable {α β : Type} (R : Part → ℕ → ℕ → Prop)

def Group.OnLines (g g' : Group) : Prop := g' = { g with line := g'.line } ∧ R g.part g.line g'.line

def Symbol.OnLines (s s' : Symbol) : Prop :=
  s' = { s with definedAt := s'.definedAt } ∧ R s.part s.definedAt s'.definedAt

/-- The same image, and the same symbols in the same order on related lines. -/
structure Program.OnLines (p p' : Program) : Prop where
  bytes_eq : p'.bytes = p.bytes
  origin_eq : p'.origin = p.origin
  symbols : List.Forall₂ (Symbol.OnLines R) p.symbols p'.symbols

/-- An error belongs to a statement, or to a label for which memory has no room. -/
def ErrorLines (cause : Cause) (line line' : ℕ) : Prop :=
  R .statement line line' ∨ cause = .pastMemoryEnd ∧ R .label line line'

end

/-- Related results, or one cause of failure on related lines. -/
inductive OnLines {α β : Type} (E : Cause → ℕ → ℕ → Prop) (S : α → β → Prop) :
    Except Error α → Except Error β → Prop
  | ok {a : α} {b : β} (h : S a b) : OnLines E S (.ok a) (.ok b)
  | error (cause : Cause) {line line' : ℕ} (h : E cause line line') :
      OnLines E S (.error ⟨line,cause⟩) (.error ⟨line',cause⟩)

namespace OnLines
variable {α β γ : Type} {E E' E'' : Cause → ℕ → ℕ → Prop}

theorem symm {S : α → β → Prop} {S' : β → α → Prop} {x : Except Error α} {y : Except Error β}
    (h : OnLines E S x y) (hE : ∀ cause l l', E cause l l' → E' cause l' l)
    (hS : ∀ a b, S a b → S' b a) : OnLines E' S' y x := by
  cases h with
  | ok h => exact .ok (hS _ _ h)
  | error cause h => exact .error cause (hE _ _ _ h)

theorem trans {S : α → β → Prop} {S' : β → γ → Prop} {S'' : α → γ → Prop} {x : Except Error α}
    {y : Except Error β} {z : Except Error γ} (h : OnLines E S x y) (h' : OnLines E' S' y z)
    (hE : ∀ cause l l' l'', E cause l l' → E' cause l' l'' → E'' cause l l'')
    (hS : ∀ a b c, S a b → S' b c → S'' a c) : OnLines E'' S'' x z := by
  cases h with
  | ok h =>
    cases h' with
    | ok h' => exact .ok (hS _ _ _ h h')
  | error cause h =>
    cases h' with
    | error _ h' => exact .error cause (hE _ _ _ _ h h')

end OnLines

theorem forall₂_trans {α β γ : Type} {S : α → β → Prop} {S' : β → γ → Prop} {S'' : α → γ → Prop}
    (hS : ∀ a b c, S a b → S' b c → S'' a c) {as : List α} {bs : List β} {cs : List γ}
    (h : List.Forall₂ S as bs) (h' : List.Forall₂ S' bs cs) : List.Forall₂ S'' as cs := by
  induction h generalizing cs with
  | nil =>
    cases h'
    exact .nil
  | cons hs _ ih =>
    cases h' with
    | cons hs' h' => exact .cons (hS _ _ _ hs hs') (ih h')

/-- The same groups on related lines, or the same error of a statement. -/
def SameGroups (R : Part → ℕ → ℕ → Prop) (x y : Except Error (List Group)) : Prop :=
  OnLines (fun _ => R .statement) (List.Forall₂ (Group.OnLines R)) x y

namespace SameGroups
variable {R R' : Part → ℕ → ℕ → Prop} {x y z : Except Error (List Group)}

theorem refl (x : Except Error (List Group)) : SameGroups (fun _ => Eq) x x := by
  cases x with
  | ok groups => exact .ok (List.forall₂_same.mpr fun _ _ => ⟨rfl,rfl⟩)
  | error e => exact .error e.cause rfl

theorem symm (h : SameGroups R x y) : SameGroups (fun part => flip (R part)) y x := by
  refine OnLines.symm h (fun _ _ _ h => h) fun gs gs' hgs => .flip (hgs.imp fun g g' hg => ?_)
  refine ⟨by rw [hg.1],?_⟩
  rw [hg.1]
  exact hg.2

theorem trans (h : SameGroups R x y) (h' : SameGroups R' y z) :
    SameGroups (fun part => Relation.Comp (R part) (R' part)) x z := by
  refine OnLines.trans h h' (fun _ _ l' _ h h' => ⟨l',h,h'⟩) fun gs gs' gs'' hgs hgs' =>
    forall₂_trans (fun g g' g'' hg hg' => ⟨by rw [hg'.1, hg.1],g'.line,hg.2,?_⟩) hgs hgs'
  have hpart := hg'.2
  rwa [hg.1] at hpart

theorem append {x' y' : Except Error (List Group)} (hx : SameGroups R x x')
    (hy : SameGroups R y y') : SameGroups R (x >>= fun gs => y.map (gs ++ ·))
      (x' >>= fun gs => y'.map (gs ++ ·)) := by
  cases hx with
  | error cause h => exact .error cause h
  | ok hx =>
    cases hy with
    | error cause h => exact .error cause h
    | ok hy => exact .ok (List.rel_append hx hy)

end SameGroups

theorem parseLines_cons (number : ℕ) (text : List Char) (rest : List (List Char)) :
    parseLines number (text :: rest) =
      parseLine number text >>= fun first => (parseLines (number + 1) rest).map (first ++ ·) := by
  rw [parseLines]
  cases parseLine number text with
  | error e => rfl
  | ok first => cases parseLines (number + 1) rest <;> rfl

theorem Statement.instructionGroup?_line (line line' : ℕ) (operation : Operation)
    (operand : Operand) : instructionGroup? line' operation operand =
      (instructionGroup? line operation operand).map fun g => { g with line := line' } := by
  unfold instructionGroup?
  cases mode? operation operand with
  | none => rfl
  | some mode =>
    simp only [bind, Option.bind_some]
    cases encode operation mode <;> rfl

theorem Statement.group_line (line line' : ℕ) (statement : Statement) :
    statement.group line' = (statement.group line).map fun g => { g with line := line' } := by
  cases statement with
  | define name bytes => rfl
  | instruct operation operand written =>
    rw [group, group, instructionGroup?_line line line']
    cases instructionGroup? line operation (operand.reading operation) <;> rfl

theorem SourceLine.groups_line (line line' : ℕ) (parsed : SourceLine) :
    parsed.groups line' =
      (parsed.groups line).map (List.map fun g => { g with line := line' }) := by
  have hlabels : parsed.label?.toList.map (Group.label line') =
      (parsed.label?.toList.map (Group.label line)).map fun g => { g with line := line' } := by
    cases parsed.label? <;> rfl
  unfold groups
  cases parsed.statement? with
  | none => exact congrArg Except.ok hlabels
  | some statement =>
    simp only [hlabels, Statement.group_line line line']
    cases statement.group line with
    | error cause => rfl
    | ok g => simp [Except.map]

section
variable {options : Options} {groups : List Group}

theorem Group.Parsed.part_of_emits {g : Group} (hg : g.Parsed) (h : g.emits = true) :
    g.part = .statement := by
  cases hg with
  | label => cases h
  | constant => cases h
  | instruction w _ hw =>
    obtain ⟨mode,code,-,-,rfl⟩ := Written.group?_eq_some_iff.mp hw
    rfl

theorem exists_of_image {gs : List Group} {e : Error} (h : image gs = .error e) :
    ∃ g ∈ gs, g.line = e.line ∧ g.emits = true := by
  induction gs with
  | nil => cases h
  | cons g gs ih =>
    have hlater : image gs = .error e → ∃ k ∈ g :: gs, k.line = e.line ∧ k.emits = true := by
      intro h
      obtain ⟨k,hk,hline⟩ := ih h
      exact ⟨k,List.mem_cons_of_mem g hk,hline⟩
    rw [image] at h
    split at h
    · rename_i hemits
      split at h
      · cases h
        exact ⟨g,List.mem_cons_self ..,rfl,hemits⟩
      · exact hlater (map_eq_error_iff.mp h)
    · exact hlater h

theorem exists_of_mem_symbolTable {gs : List Group} {s : Symbol} (hs : s ∈ symbolTable gs) :
    ∃ g ∈ gs, g.line = s.definedAt ∧ g.part = s.part := by
  have hfound := unambiguous_symbolTable gs s hs
  rw [findSymbol_symbolTable, lookup, Option.bind_eq_some_iff] at hfound
  obtain ⟨g,hg,hsymbol⟩ := hfound
  refine ⟨g,List.mem_of_find?_eq_some hg,?_⟩
  unfold Group.symbol? at hsymbol
  unfold Group.part Group.isLabel
  split at hsymbol
  · cases hsymbol
  all_goals
    rename_i hcontent
    cases hsymbol
    rw [hcontent]
    exact ⟨rfl,rfl⟩

section
variable (hp : ∀ g ∈ groups, g.Parsed)
include hp

theorem exists_of_mem_resolve {final : List Group}
    (h : resolve options.origin options.checkRange groups = .ok final) {k : Group}
    (hk : k ∈ final) : ∃ g ∈ groups, g.line = k.line ∧ g.emits = k.emits ∧ g.part = k.part := by
  obtain ⟨gs,hsettled,-,-,rfl⟩ := resolve_eq_ok_iff.mp h
  obtain ⟨open',hopen,rfl⟩ := List.mem_map.mp hk
  obtain ⟨g,hg,hv⟩ := (settle_rendition hp (Rendition.ofParsed hp) hsettled).exists_mem hopen
  refine ⟨g,hg,?_,?_,?_⟩
  · rw [Group.close_line, hv.line_eq]
  · rw [Group.close_emits, hv.emits_eq]
  · rw [Group.part, Group.part, ← hv.isLabel_eq, Group.isLabel, Group.isLabel, Group.close_content]

theorem exists_of_assembleGroups_error {e : Error} (h : assembleGroups options groups = .error e) :
    ∃ g ∈ groups, g.line = e.line ∧ (e.cause ≠ .pastMemoryEnd → g.part = .statement) := by
  rcases bind_eq_error_iff.mp h with h | ⟨final,hfinal,h⟩
  · obtain ⟨g,hg,hline,hemits⟩ := exists_group_of_resolve hp h
    exact ⟨g,hg,hline,fun hcause => (hp g hg).part_of_emits (hemits hcause)⟩
  · rcases bind_eq_error_iff.mp h with h | ⟨_,-,h⟩
    · obtain ⟨k,hk,hline,hemits⟩ := exists_of_image h
      obtain ⟨g,hg,hsame,hsameEmits,-⟩ := exists_of_mem_resolve hp hfinal hk
      exact ⟨g,hg,hsame.trans hline,fun _ => (hp g hg).part_of_emits (hsameEmits.trans hemits)⟩
    · cases h

theorem exists_of_assembleGroups {p : Program} (h : assembleGroups options groups = .ok p) :
    ∀ s ∈ p.symbols, ∃ g ∈ groups, g.line = s.definedAt ∧ g.part = s.part := by
  obtain ⟨final,hfinal,h⟩ := bind_eq_ok_iff.mp h
  obtain ⟨bytes,-,h⟩ := bind_eq_ok_iff.mp h
  cases h
  intro s hs
  obtain ⟨k,hk,hline,hpart⟩ := exists_of_mem_symbolTable hs
  obtain ⟨g,hg,hsame,-,hsamePart⟩ := exists_of_mem_resolve hp hfinal hk
  exact ⟨g,hg,hsame.trans hline,hsamePart.trans hpart⟩

end

end

section
variable {R : Part → ℕ → ℕ → Prop} {gs gs' : List Group}

theorem Group.Parsed.with_line {g : Group} (hg : g.Parsed) (line : ℕ) :
    ({ g with line } : Group).Parsed := by
  cases hg with
  | label _ name => exact .label line name
  | constant _ name text bytes h => exact .constant line name text bytes h
  | instruction w _ h =>
    refine .instruction { w with line } _ ?_
    rw [Written.group?, Statement.instructionGroup?_line w.line]
    exact congrArg (Option.map _) h

/-- Lists of the same groups come from one list, in which a line is a pair of lines. -/
theorem exists_paired (h : List.Forall₂ (Group.OnLines R) gs gs') (hp : ∀ g ∈ gs, g.Parsed) :
    ∃ groups : List Group, groups.map (Relabelling.ofLine fun l => l.unpair.1).group = gs ∧
      groups.map (Relabelling.ofLine fun l => l.unpair.2).group = gs' ∧
      ∀ g ∈ groups, g.Parsed ∧ R g.part g.line.unpair.1 g.line.unpair.2 := by
  induction h with
  | nil => exact ⟨[],rfl,rfl,by simp⟩
  | @cons g g' gs gs' hg _ ih =>
    obtain ⟨hfirst,hlater⟩ := List.forall_mem_cons.mp hp
    obtain ⟨groups,hgs,hgs',hlines⟩ := ih hlater
    refine ⟨{ g with line := Nat.pair g.line g'.line } :: groups,?_,?_,?_⟩
    · simp only [List.map_cons, hgs, Relabelling.group_ofLine, Nat.unpair_pair]
    · rw [hg.1]
      simp only [List.map_cons, hgs', Relabelling.group_ofLine, Nat.unpair_pair]
    · refine List.forall_mem_cons.mpr ⟨⟨hfirst.with_line _,?_⟩,hlines⟩
      rw [Nat.unpair_pair]
      exact hg.2

/-- The same groups on related lines have the same outcome on related lines. -/
theorem assembleGroups_onLines (options : Options) (h : List.Forall₂ (Group.OnLines R) gs gs')
    (hp : ∀ g ∈ gs, g.Parsed) : OnLines (ErrorLines R) (Program.OnLines R)
      (assembleGroups options gs) (assembleGroups options gs') := by
  obtain ⟨groups,rfl,rfl,hgroups⟩ := exists_paired h hp
  have hparsed := fun g hg => (hgroups g hg).1
  rw [Relabelling.assembleGroups_map Function.injective_id,
    Relabelling.assembleGroups_map Function.injective_id]
  cases houtcome : assembleGroups options groups with
  | error e =>
    obtain ⟨g,hg,hline,hpart⟩ := exists_of_assembleGroups_error hparsed houtcome
    have hlines := (hgroups g hg).2
    rw [hline] at hlines
    simp only [Relabelling.outcome, Relabelling.error_ofLine]
    refine .error e.cause ?_
    cases hlabel : g.part with
    | statement => exact .inl (hlabel ▸ hlines)
    | label =>
      refine .inr ⟨by_contra fun hcause => ?_,hlabel ▸ hlines⟩
      cases hlabel.symm.trans (hpart hcause)
  | ok p =>
    refine .ok ⟨rfl,rfl,?_⟩
    refine List.forall₂_map_left_iff.mpr (List.forall₂_map_right_iff.mpr ?_)
    refine List.forall₂_same.mpr fun s hs => ⟨rfl,?_⟩
    obtain ⟨g,hg,hline,hpart⟩ := exists_of_assembleGroups hparsed houtcome s hs
    have hlines := (hgroups g hg).2
    rwa [hline, hpart] at hlines

theorem assemble_onLines {s t : List Char} (h : SameGroups R (parseSource s) (parseSource t))
    (options : Options) : OnLines (ErrorLines R) (Program.OnLines R) (assemble options s)
      (assemble options t) := by
  rw [assemble_eq_bind, assemble_eq_bind]
  generalize hs : parseSource s = x, parseSource t = y at h
  cases h with
  | error cause h => exact .error cause (.inl h)
  | ok h => exact assembleGroups_onLines options h (parsed_of_parseSource hs)

end

theorem SourceLine.isSome_label? {line : ℕ} {text : List Char} {parsed : SourceLine}
    (hparse : SourceLine.parse text = .ok parsed) {groups : List Group}
    (h : parsed.groups line = .ok groups) {g : Group} (hg : g ∈ groups) (hpart : g.part = .label) :
    parsed.label?.isSome = true := by
  by_contra hnone
  have hlabel : parsed.label? = none := by simpa using hnone
  unfold SourceLine.groups at h
  rw [hlabel] at h
  split at h
  · cases h
    cases hg
  · rename_i statement hs
    obtain ⟨made,hmade,rfl⟩ := map_eq_ok_iff.mp h
    obtain rfl := List.mem_singleton.mp hg
    rw [Group.part, (Statement.definition?_group hparse hs hmade).2.2] at hpart
    cases hpart

section
variable {R : Part → ℕ → ℕ → Prop}

theorem parseLine_sameGroups {line line' : ℕ} {text : List Char} (h : R .statement line line')
    (hlabel : ∀ parsed, SourceLine.parse text = .ok parsed → parsed.label?.isSome = true →
      R .label line line') : SameGroups R (parseLine line text) (parseLine line' text) := by
  cases hparse : parseLine line text with
  | ok groups =>
    obtain ⟨hline,-⟩ := definitions_of_parseLine hparse
    obtain ⟨parsed,hparsed,hgroups⟩ := bind_eq_ok_iff.mp (mapError_eq_ok_iff.mp hparse)
    have hparse' : parseLine line' text =
        .ok (groups.map fun g => { g with line := line' }) := by
      refine mapError_eq_ok_iff.mpr (bind_eq_ok_iff.mpr ⟨parsed,hparsed,?_⟩)
      rw [SourceLine.groups_line line line', hgroups]
      rfl
    rw [hparse']
    refine .ok (List.forall₂_map_right_iff.mpr (List.forall₂_same.mpr fun g hg => ⟨rfl,?_⟩))
    rw [hline g hg]
    cases hpart : g.part with
    | statement => exact h
    | label => exact hlabel parsed hparsed (SourceLine.isSome_label? hparsed hgroups hg hpart)
  | error e =>
    obtain ⟨cause,hcause,rfl⟩ := mapError_eq_error_iff.mp hparse
    have hparse' : parseLine line' text = .error ⟨line',cause⟩ := by
      refine mapError_eq_error_iff.mpr ⟨cause,?_,rfl⟩
      rcases bind_eq_error_iff.mp hcause with hbad | ⟨parsed,hparsed,hbad⟩
      · exact bind_eq_error_iff.mpr (.inl hbad)
      · refine bind_eq_error_iff.mpr (.inr ⟨parsed,hparsed,?_⟩)
        rw [SourceLine.groups_line line line', hbad]
        rfl
    rw [hparse']
    exact .error cause h

theorem parseLines_sameGroups {line line' : ℕ} {texts : List (List Char)}
    (h : ∀ i < texts.length, ∀ part, R part (line + i) (line' + i)) :
    SameGroups R (parseLines line texts) (parseLines line' texts) := by
  induction texts generalizing line line' with
  | nil => exact .ok .nil
  | cons text texts ih =>
    have hfirst := h 0 (Nat.succ_pos _)
    rw [parseLines_cons, parseLines_cons]
    refine (parseLine_sameGroups (hfirst _) fun _ _ _ => hfirst _).append (ih fun i hi => ?_)
    rw [Nat.add_right_comm line, Nat.add_right_comm line']
    exact h (i + 1) (Nat.succ_lt_succ hi)

end

end Nmos6502.Assembly
