import Nmos6502.Proofs.Rows

/-! # Why an assembly fails

An assembly fails as the first of its stages does. A line that cannot be parsed is a syntax
error, names are resolved unless one is undefined, and the groups that come of that may run
past the end of memory. Branches are only looked at after all that, and the bytes of
resolved groups are always known.
-/
namespace Nmos6502.Assembly

def Cause.isSyntax : Cause → Bool
  | .unknownOperator _ | .incompleteDefine | .invalidOperand _ => true
  | _ => false

section
variable {text : List Char} {cause : Cause}

theorem Value.isSyntax_of_parse (h : Value.parse text = .error cause) : cause.isSyntax = true := by
  unfold Value.parse at h
  split at h
  · split at h
    · cases h
    · cases h
      rfl
  · split at h
    · cases h
    · cases h
      rfl

theorem Operand.isSyntax_of_parse (h : Operand.parse text = .error cause) :
    cause.isSyntax = true := by
  unfold Operand.parse at h
  split at h
  · cases h
  · cases h
  · exact Value.isSyntax_of_parse (map_eq_error_iff.mp h)
  · unfold Operand.parseInner at h
    repeat' split at h
    all_goals first
      | exact Value.isSyntax_of_parse (map_eq_error_iff.mp h)
      | cases h
        rfl
  · unfold Operand.parseDirect at h
    repeat' split at h
    all_goals exact Value.isSyntax_of_parse (map_eq_error_iff.mp h)

theorem Statement.isSyntax_of_parse {operator : List Char} {arguments : List (List Char)}
    (h : Statement.parse operator arguments = .error cause) : cause.isSyntax = true := by
  unfold Statement.parse at h
  split at h
  · unfold Statement.parseDefine at h
    repeat' split at h
    all_goals
      cases h
      try rfl
  · unfold Statement.parseInstruction at h
    split at h
    · exact Operand.isSyntax_of_parse (map_eq_error_iff.mp h)
    · cases h
      rfl

theorem SourceLine.isSyntax_of_parse (h : SourceLine.parse text = .error cause) :
    cause.isSyntax = true := by
  unfold SourceLine.parse at h
  cases hw : Text.words (cleanLine text) with
  | nil =>
    rw [hw] at h
    cases h
  | cons first rest =>
    simp only [hw, SourceLine.ofWords] at h
    split at h
    · exact Statement.isSyntax_of_parse (map_eq_error_iff.mp h)
    · split at h
      · split at h
        · cases h
        · exact Statement.isSyntax_of_parse (map_eq_error_iff.mp h)
      · cases h
        rfl

theorem SourceLine.isSyntax_of_groups {line : SourceLine} {number : ℕ}
    (h : line.groups number = .error cause) : cause.isSyntax = true := by
  unfold SourceLine.groups at h
  split at h
  · cases h
  · rename_i statement _
    have h := map_eq_error_iff.mp h
    unfold Statement.group at h
    split at h
    · cases h
    · split at h
      · cases h
      · cases h
        rfl

end

theorem isSyntax_of_parseLine {line : ℕ} {text : List Char} {error : Error}
    (h : parseLine line text = .error error) : error.cause.isSyntax = true := by
  obtain ⟨cause,hcause,rfl⟩ := mapError_eq_error_iff.mp h
  rcases bind_eq_error_iff.mp hcause with hparse | ⟨parsed,-,hgroups⟩
  · exact SourceLine.isSyntax_of_parse hparse
  · exact SourceLine.isSyntax_of_groups hgroups

theorem isSyntax_of_parseLines {line : ℕ} {texts : List (List Char)} {error : Error}
    (h : parseLines line texts = .error error) : error.cause.isSyntax = true := by
  induction texts generalizing line with
  | nil => cases h
  | cons text rest ih =>
    rcases bind_eq_error_iff.mp h with h | ⟨first,-,h⟩
    · exact isSyntax_of_parseLine h
    · rcases bind_eq_error_iff.mp h with h | ⟨others,-,h⟩
      · exact ih h
      · cases h

theorem Pass.undefined_of_fillAt {origin : ℕ} {pass : Pass} {i : ℕ} {error : Error}
    (h : pass.fillAt origin i = .error error) : ∃ name, error.cause = .undefinedLabel name := by
  unfold Pass.fillAt at h
  split at h
  · cases h
  · split at h
    · split at h
      · cases h
        exact ⟨_,rfl⟩
      · split at h
        · cases h
        · dsimp only at h
          split at h <;> cases h
    · cases h

theorem undefined_of_settle {origin passes : ℕ} {groups : List Group} {error : Error}
    (h : settle origin passes groups = .error error) :
    ∃ name, error.cause = .undefinedLabel name := by
  induction passes generalizing groups with
  | zero => cases h
  | succ passes ih =>
    rcases bind_eq_error_iff.mp h with h | ⟨pass,-,h⟩
    · exact foldlM_error (fun _ _ _ => Pass.undefined_of_fillAt) h
    · split at h
      · cases h
      · exact ih h

theorem exists_of_checkSpace {groups : List Group} {error : Error}
    (h : checkSpace groups = .error error) :
    error.cause = .pastMemoryEnd ∧ ∃ g ∈ groups, g.line = error.line := by
  unfold checkSpace at h
  split at h <;> cases h
  rename_i g hfirst
  exact ⟨rfl,g,List.mem_of_find?_eq_some hfirst,rfl⟩

theorem exists_of_checkBranches {groups : List Group} {error : Error}
    (h : checkBranches groups = .error error) :
    (∃ name distance, error.cause = .branchOutOfRange name distance) ∧
      ∃ g ∈ groups, g.line = error.line ∧ g.emits = true := by
  unfold checkBranches at h
  split at h <;> cases h
  rename_i hfirst
  obtain ⟨g,hg,herror⟩ := List.exists_of_findSome?_eq_some hfirst
  unfold Group.rangeError? at herror
  split at herror
  · rename_i name _ hbranch _
    obtain ⟨symbol,-,herror⟩ := Option.bind_eq_some_iff.mp herror
    dsimp only at herror
    split at herror <;> cases herror
    exact ⟨⟨name,_,rfl⟩,g,hg,rfl,(Bool.and_eq_true_iff.mp hbranch).1⟩
  · cases herror

theorem resolve_eq_error_iff {origin : UInt16} {checkRange : Bool} {groups : List Group}
    {error : Error} : resolve origin checkRange groups = .error error ↔
      settle origin.toNat (groups.countP (·.state.isPending) + 1) groups = .error error ∨
      ∃ gs, settle origin.toNat (groups.countP (·.state.isPending) + 1) groups = .ok gs ∧
        (checkSpace gs = .error error ∨
          checkSpace gs = .ok () ∧ checkRange = true ∧ checkBranches gs = .error error) := by
  constructor
  · intro h
    rcases bind_eq_error_iff.mp h with h | ⟨gs,hgs,h⟩
    · exact .inl h
    · refine .inr ⟨gs,hgs,?_⟩
      rcases bind_eq_error_iff.mp h with h | ⟨_,hspace,h⟩
      · exact .inl h
      · cases checkRange with
        | false => cases h
        | true =>
          rcases bind_eq_error_iff.mp h with h | ⟨_,-,h⟩
          · exact .inr ⟨hspace,rfl,h⟩
          · cases h
  · rintro (h | ⟨gs,hgs,h | ⟨hspace,rfl,h⟩⟩)
    · exact bind_eq_error_iff.mpr (.inl h)
    · exact bind_eq_error_iff.mpr (.inr ⟨gs,hgs,bind_eq_error_iff.mpr (.inl h)⟩)
    · refine bind_eq_error_iff.mpr (.inr ⟨gs,hgs,bind_eq_error_iff.mpr (.inr ⟨_,hspace,?_⟩)⟩)
      exact bind_eq_error_iff.mpr (.inl h)

theorem exists_image {source : List Char} {groups : List Group} {origin : UInt16} {gs : List Group}
    (hparsed : parseSource source = .ok groups)
    (hsettled : settle origin.toNat (groups.countP (·.state.isPending) + 1) groups = .ok gs) :
    ∃ bytes, image (gs.map Group.close) = .ok bytes := by
  have hp := parsed_of_parseSource hparsed
  have hr := settle_rendition hp (Rendition.ofParsed hp) hsettled
  obtain ⟨rows,-,-,-,himage⟩ := exists_rows hr (written_of_parseSource hparsed)
  exact ⟨_,himage⟩

/-- An assembly fails as its lines, the names in them, their places or, where that is asked
for, the branches do. -/
theorem assemble_eq_error_iff {options : Options} {source : List Char} {error : Error} :
    assemble options source = .error error ↔
      parseSource source = .error error ∨
      ∃ groups, parseSource source = .ok groups ∧
        resolve options.origin options.checkRange groups = .error error := by
  constructor
  · intro h
    rcases bind_eq_error_iff.mp h with h | ⟨groups,hparsed,h⟩
    · exact .inl h
    · refine .inr ⟨groups,hparsed,?_⟩
      rcases bind_eq_error_iff.mp h with h | ⟨final,hfinal,h⟩
      · exact h
      · obtain ⟨gs,hsettled,-,-,rfl⟩ := resolve_eq_ok_iff.mp hfinal
        obtain ⟨bytes,hbytes⟩ := exists_image hparsed hsettled
        rw [hbytes] at h
        cases h
  · rintro (h | ⟨groups,hparsed,h⟩)
    · exact bind_eq_error_iff.mpr (.inl h)
    · exact bind_eq_error_iff.mpr (.inr ⟨groups,hparsed,bind_eq_error_iff.mpr (.inl h)⟩)

theorem ne_branchOutOfRange {origin : UInt16} {source : List Char} {error : Error}
    (h : assemble ⟨origin,false⟩ source = .error error) (name : List Char) (displacement : ℤ) :
    error.cause ≠ .branchOutOfRange name displacement := by
  intro hcause
  rcases assemble_eq_error_iff.mp h with h | ⟨groups,-,h⟩
  · have hsyntax := isSyntax_of_parseLines h
    rw [hcause] at hsyntax
    cases hsyntax
  · rcases resolve_eq_error_iff.mp h with h | ⟨gs,-,h | ⟨-,hchecked,-⟩⟩
    · obtain ⟨label,hundefined⟩ := undefined_of_settle h
      cases hcause.symm.trans hundefined
    · cases hcause.symm.trans (exists_of_checkSpace h).1
    · cases hchecked

end Nmos6502.Assembly
