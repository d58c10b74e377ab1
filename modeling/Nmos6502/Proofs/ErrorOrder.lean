import Nmos6502.Proofs.StrictBranches

/-! # Which error an assembly reports

The first line that cannot be parsed is the error, whatever the other lines hold. When all lines
are parsed the names are looked for. Whether a name is defined depends neither on widths nor on
places, so that the first pass already finds the first group whose name nothing defines. Only
what is left can fail for its place in memory or for a branch.
-/
namespace Nmos6502.Assembly

/-- The operand names a symbol that no line of the source defines. -/
def Written.Undefined (source : List Char) (w : Written) (name : List Char) : Prop :=
  w.operand.value = .name name ∧ ∀ d ∈ definitions source, d.name ≠ name

def Written.undefinedError? (source : List Char) (w : Written) : Option Error :=
  match w.operand.value with
  | .literal _ => none
  | .name name =>
    if (definitions source).any (·.name == name) then none
    else some ⟨w.line, .undefinedLabel name⟩

def Group.undefinedError? (groups : List Group) (g : Group) : Option Error :=
  if g.emits then
    g.awaited?.bind fun name =>
      if groups.any (Group.defines name) then none else some ⟨g.line, .undefinedLabel name⟩
  else none

def undefinedError? (groups : List Group) : Option Error :=
  groups.findSome? (Group.undefinedError? groups)

theorem parseLines_append (number : ℕ) (texts others : List (List Char)) :
    parseLines number (texts ++ others) =
      parseLines number texts >>= fun groups =>
        (parseLines (number + texts.length) others).map (groups ++ ·) := by
  induction texts generalizing number with
  | nil =>
    simp only [List.nil_append, parseLines, List.length_nil, Nat.add_zero]
    cases parseLines number others <;> rfl
  | cons text texts ih =>
    rw [List.cons_append, parseLines, parseLines, ih, List.length_cons, Nat.add_right_comm,
      Nat.add_assoc]
    cases parseLine number text with
    | error e => rfl
    | ok first =>
      cases parseLines (number + 1) texts with
      | error e => rfl
      | ok groups =>
        cases parseLines (number + (texts.length + 1)) others with
        | error e => rfl
        | ok more => exact congrArg Except.ok (List.append_assoc ..).symm

theorem parseLines_eq_error_iff {number : ℕ} {texts : List (List Char)} {error : Error} :
    parseLines number texts = .error error ↔
      ∃ k text, texts[k]? = some text ∧ parseLine (number + k) text = .error error ∧
        ∀ j < k, ∀ earlier, texts[j]? = some earlier →
          ∃ groups, parseLine (number + j) earlier = .ok groups := by
  induction texts generalizing number with
  | nil => simp [parseLines]
  | cons text texts ih =>
    rw [parseLines, bind_eq_error_iff]
    constructor
    · rintro (h | ⟨first,hfirst,h⟩)
      · exact ⟨0,text,rfl,h,fun j hj => absurd hj (Nat.not_lt_zero j)⟩
      · rcases bind_eq_error_iff.mp h with h | ⟨others,-,h⟩
        · obtain ⟨k,bad,hk,hbad,hearlier⟩ := ih.mp h
          refine ⟨k + 1,bad,hk,by rwa [Nat.add_right_comm] at hbad,?_⟩
          intro j hj earlier hat
          cases j with
          | zero =>
            cases hat
            exact ⟨first,hfirst⟩
          | succ j =>
            rw [← Nat.add_assoc, Nat.add_right_comm]
            exact hearlier j (Nat.lt_of_succ_lt_succ hj) earlier hat
        · cases h
    · rintro ⟨k,bad,hk,hbad,hearlier⟩
      cases k with
      | zero =>
        cases hk
        exact .inl hbad
      | succ k =>
        obtain ⟨first,hfirst⟩ := hearlier 0 (Nat.succ_pos k) text rfl
        refine .inr ⟨first,hfirst,bind_eq_error_iff.mpr (.inl (ih.mpr ⟨k,bad,hk,?_,?_⟩))⟩
        · rwa [Nat.add_right_comm]
        · intro j hj earlier hat
          rw [Nat.add_right_comm]
          exact hearlier (j + 1) (Nat.succ_lt_succ hj) earlier hat

theorem parseSource_eq_error_iff {source : List Char} {error : Error} :
    parseSource source = .error error ↔
      ∃ k text, (Text.lines source)[k]? = some text ∧ parseLine (k + 1) text = .error error ∧
        ∀ j < k, ∀ earlier, (Text.lines source)[j]? = some earlier →
          ∃ groups, parseLine (j + 1) earlier = .ok groups := by
  rw [parseSource, parseLines_eq_error_iff]
  simp only [Nat.add_comm 1]

theorem exists_parseLine {number : ℕ} {texts : List (List Char)} {groups : List Group}
    (h : parseLines number texts = .ok groups) {k : ℕ} {text : List Char}
    (hk : texts[k]? = some text) : ∃ first, parseLine (number + k) text = .ok first := by
  induction texts generalizing number groups k with
  | nil => simp at hk
  | cons first texts ih =>
    obtain ⟨made,hmade,h⟩ := bind_eq_ok_iff.mp h
    obtain ⟨others,hothers,-⟩ := bind_eq_ok_iff.mp h
    cases k with
    | zero =>
      cases hk
      exact ⟨made,hmade⟩
    | succ k =>
      obtain ⟨found,hfound⟩ := ih hothers hk
      exact ⟨found,by rwa [Nat.add_right_comm] at hfound⟩

theorem exists_error_of_bad_line {source : List Char}
    (h : ∃ k text error, (Text.lines source)[k]? = some text ∧
      parseLine (k + 1) text = .error error) : ∃ error, parseSource source = .error error := by
  obtain ⟨k,text,error,hk,hbad⟩ := h
  cases hsource : parseSource source with
  | error first => exact ⟨first,rfl⟩
  | ok groups =>
    obtain ⟨found,hfound⟩ := exists_parseLine hsource hk
    rw [Nat.add_comm, hbad] at hfound
    cases hfound

theorem line_of_parseLines {number : ℕ} {texts : List (List Char)} {groups : List Group}
    (h : parseLines number texts = .ok groups) :
    ∀ g ∈ groups, number ≤ g.line ∧ g.line < number + texts.length := by
  induction texts generalizing number groups with
  | nil =>
    cases h
    simp
  | cons text texts ih =>
    obtain ⟨first,hfirst,h⟩ := bind_eq_ok_iff.mp h
    obtain ⟨others,hothers,h⟩ := bind_eq_ok_iff.mp h
    cases h
    intro g hg
    rw [List.length_cons]
    rcases List.mem_append.mp hg with hg | hg
    · have := (definitions_of_parseLine hfirst).1 g hg
      omega
    · have := ih hothers g hg
      omega

theorem Group.undefinedError?_eq_some_iff {groups : List Group} {g : Group} {error : Error} :
    g.undefinedError? groups = some error ↔ g.emits = true ∧ ∃ name, g.awaited? = some name ∧
      groups.any (Group.defines name) = false ∧ error = ⟨g.line, .undefinedLabel name⟩ := by
  unfold Group.undefinedError?
  cases g.emits with
  | false => simp
  | true =>
    simp only [if_true, true_and, Option.bind_eq_some_iff]
    refine exists_congr fun name => and_congr_right fun _ => ?_
    cases groups.any (Group.defines name) <;> simp [eq_comm]

theorem Written.undefinedError?_eq_some_iff {source : List Char} {w : Written} {error : Error} :
    w.undefinedError? source = some error ↔
      ∃ name, w.Undefined source name ∧ error = ⟨w.line, .undefinedLabel name⟩ := by
  unfold Written.undefinedError? Written.Undefined
  cases w.operand.value with
  | literal bytes => simp
  | name name =>
    dsimp only
    split
    · rename_i hany
      obtain ⟨d,hd,hname⟩ := List.any_eq_true.mp hany
      simp only [reduceCtorEq, Value.name.injEq, false_iff, not_exists, not_and]
      rintro _ ⟨rfl,hnone⟩
      exact absurd (by simpa using hname) (hnone d hd)
    · rename_i hany
      have hnone : ∀ d ∈ definitions source, d.name ≠ name := by simpa using hany
      constructor
      · rintro ⟨⟩
        exact ⟨name,⟨rfl,hnone⟩,rfl⟩
      · rintro ⟨_,⟨⟨⟩,-⟩,rfl⟩
        rfl

theorem Written.undefinedError?_eq_none_iff {source : List Char} {w : Written} :
    w.undefinedError? source = none ↔ ∀ name, ¬ w.Undefined source name := by
  rw [Option.eq_none_iff_forall_ne_some]
  constructor
  · intro h name hname
    exact h _ (undefinedError?_eq_some_iff.mpr ⟨name,hname,rfl⟩)
  · intro h error herror
    obtain ⟨name,hname,-⟩ := undefinedError?_eq_some_iff.mp herror
    exact h name hname

section
variable {source : List Char} {groups : List Group} (hsource : parseSource source = .ok groups)
include hsource

theorem any_defines (name : List Char) :
    groups.any (Group.defines name) = (definitions source).any (·.name == name) := by
  rw [definitions, ← (definitions_of_parseLines hsource).2.2, List.any_filterMap]
  congr 1
  funext g
  exact (g.any_definition? name).symm

theorem undefinedError?_eq_findSome? :
    undefinedError? groups = (written source).findSome? (Written.undefinedError? source) := by
  have hquiet : ∀ g : Group, g.emits = false → g.undefinedError? groups = none := by
    intro g hg
    simp [Group.undefinedError?, hg]
  have hwritten : List.Forall₂ (fun w g => w.group? = some g) (written source)
      (groups.filter (·.emits)) := by
    rw [← List.forall₂_map_left_iff (f := Written.group?) (R := fun x g => x = some g),
      written_of_parseSource hsource, List.forall₂_map_left_iff]
    exact List.forall₂_same.mpr fun g _ => rfl
  rw [undefinedError?, ← findSome?_filter hquiet]
  symm
  refine findSome?_of_forall₂ (fun w g hw => ?_) hwritten
  unfold Group.undefinedError? Written.undefinedError?
  rw [if_pos (Written.emits_of_group? hw), Written.line_of_group? hw]
  cases hv : w.operand.value with
  | name name =>
    rw [(Written.awaited?_eq_some_iff hw).mpr hv, Option.bind_some, any_defines hsource]
  | literal bytes =>
    have hnone : g.awaited? = none := by
      rw [Option.eq_none_iff_forall_ne_some]
      intro name hn
      cases hv.symm.trans ((Written.awaited?_eq_some_iff hw).mp hn)
    rw [hnone, Option.bind_none]

end

section
variable {origin : ℕ} {groups : List Group} (hp : ∀ g ∈ groups, g.Parsed)
include hp

theorem undefinedError?_eq_none_iff : undefinedError? groups = none ↔ NamesDefined groups := by
  rw [undefinedError?, List.findSome?_eq_none_iff]
  refine forall₂_congr fun g hg => ?_
  rw [Option.eq_none_iff_forall_ne_some]
  simp only [ne_eq, Group.undefinedError?_eq_some_iff, not_and, not_exists]
  constructor
  · intro h name hn
    obtain ⟨modes,hs⟩ := Group.awaited?_eq_some_iff.mp hn
    have hemits := (hp g hg).emits_of_pending (Group.isPending_of_awaited? hn)
    by_contra hnone
    refine h _ hemits name hn ?_ rfl
    simpa using hnone
  · intro h error _ name hn hnone
    obtain ⟨d,hd,hname⟩ := h name hn
    rw [List.any_eq_false] at hnone
    exact absurd hname (hnone d hd)

/-- A step of a pass fails exactly where a name is not defined. -/
theorem Rendition.fillAt_spec {pass : Pass} (hr : Rendition origin groups pass.groups) {i : ℕ}
    {g : Group} (hg : groups[i]? = some g) :
    (∀ error, g.undefinedError? groups = some error → pass.fillAt origin i = .error error) ∧
    (g.undefinedError? groups = none →
      ∃ pass', pass.fillAt origin i = .ok pass' ∧ Rendition origin groups pass'.groups) := by
  obtain ⟨h,hi,hv⟩ := hr.exists_variant hg
  cases hn : g.awaited? with
  | none =>
    have hknown : ∀ k, pass.groups[i]? = some k → k.awaited? = none := by
      intro k hk
      cases hi.symm.trans hk
      rw [hv.awaited?_eq, hn]
    exact ⟨by simp [Group.undefinedError?, hn],
      fun _ => ⟨pass,Pass.fillAt_of_known hknown,hr⟩⟩
  | some name =>
    have hparsed := hp g (List.mem_of_getElem? hg)
    have hemits := hparsed.emits_of_pending (Group.isPending_of_awaited? hn)
    have hfill := Pass.fillAt_of_awaited hp hr hi (hv.awaited?_eq.trans hn)
    constructor
    · intro error herror
      obtain ⟨-,other,ho,hnone,rfl⟩ := Group.undefinedError?_eq_some_iff.mp herror
      cases hn.symm.trans ho
      have hlookup : lookup pass.groups name = none := by
        rw [lookup, List.find?_eq_none.mpr, Option.bind_none]
        intro k hk
        obtain ⟨j,hj⟩ := List.mem_iff_getElem?.mp hk
        obtain ⟨d,hd,hvariant⟩ := hr.getElem? hj
        rw [hvariant.defines_eq]
        exact List.any_eq_false.mp hnone d (List.mem_of_getElem? hd)
      rw [hfill, hlookup, hv.line_eq]
    · intro hnone
      have hdef : ∃ d ∈ groups, d.defines name = true := by
        by_contra hundefined
        have hany : groups.any (Group.defines name) = false := by simpa using hundefined
        rw [Group.undefinedError?_eq_some_iff.mpr ⟨hemits,name,hn,hany,rfl⟩] at hnone
        cases hnone
      obtain ⟨symbol,hsymbol⟩ := hr.exists_lookup hp hdef
      rw [hsymbol] at hfill
      exact ⟨_,hfill,(Pass.step_of_fillAt hp hr hfill).rendition hp hr⟩

theorem runPass_of_undefined {error : Error} (h : undefinedError? groups = some error) :
    runPass origin groups = .error error := by
  obtain ⟨before,g,after,hsplit,herror,hbefore⟩ := List.findSome?_eq_some_iff.mp h
  have hat : groups[before.length]? = some g := by simp [hsplit]
  obtain ⟨pass,hrun,hr⟩ := foldlM_range_ok (f := Pass.fillAt origin) (n := before.length)
    (s := ⟨layout origin groups,0⟩) (P := fun _ pass => Rendition origin groups pass.groups)
    (Rendition.ofParsed hp) (by
      intro i hi pass hr
      have hearlier : groups[i]? = some before[i] := by
        rw [hsplit, List.getElem?_append_left hi, List.getElem?_eq_getElem hi]
      exact (hr.fillAt_spec hp hearlier).2 (hbefore _ (List.getElem_mem hi)))
  refine foldlM_range_error ?_ hrun ((hr.fillAt_spec hp hat).1 error herror)
  simp [hsplit]

theorem exists_runPass (hdef : NamesDefined groups) {gs : List Group}
    (hr : Rendition origin groups (layout origin gs)) :
    ∃ pass, runPass origin gs = .ok pass ∧ Rendition origin groups pass.groups :=
  foldlM_range_ok (P := fun _ (a : Pass) => Rendition origin groups a.groups) hr fun i _ _ ha => by
    obtain ⟨next,hnext⟩ := ha.exists_fillAt hp hdef i
    exact ⟨next,hnext,(Pass.step_of_fillAt hp ha hnext).rendition hp ha⟩

theorem exists_settle (hdef : NamesDefined groups) (n : ℕ) {gs : List Group}
    (hr : Rendition origin groups (layout origin gs)) : ∃ final, settle origin n gs = .ok final := by
  induction n generalizing gs with
  | zero => exact ⟨gs,rfl⟩
  | succ n ih =>
    obtain ⟨pass,hpass,hrun⟩ := exists_runPass hp hdef hr
    rw [settle, hpass]
    simp only [bind, Except.bind]
    split
    · exact ⟨_,rfl⟩
    · exact ih (hrun.placed.symm ▸ hrun)

end

section
variable {origin : UInt16} {checkRange : Bool} {groups : List Group} (hp : ∀ g ∈ groups, g.Parsed)
include hp

theorem resolve_of_undefined {error : Error} (h : undefinedError? groups = some error) :
    resolve origin checkRange groups = .error error := by
  refine resolve_eq_error_iff.mpr (.inl ?_)
  rw [settle, runPass_of_undefined hp h]
  rfl

theorem cause_of_resolve (hdef : NamesDefined groups) {error : Error}
    (h : resolve origin checkRange groups = .error error) :
    error.cause = .pastMemoryEnd ∨
      checkRange = true ∧ ∃ name distance, error.cause = .branchOutOfRange name distance := by
  obtain ⟨final,hfinal⟩ := exists_settle hp hdef (groups.countP (·.state.isPending) + 1)
    (Rendition.ofParsed hp : Rendition origin.toNat groups (layout origin.toNat groups))
  rcases resolve_eq_error_iff.mp h with h | ⟨gs,-,h | ⟨-,hchecked,h⟩⟩
  · cases hfinal.symm.trans h
  · exact .inl (exists_of_checkSpace h).1
  · exact .inr ⟨hchecked,(exists_of_checkBranches h).1⟩

end

/-- The line of an error in resolution is that of a group, which only lacks room if it emits
nothing. -/
theorem exists_group_of_resolve {origin : UInt16} {checkRange : Bool} {groups : List Group}
    (hp : ∀ g ∈ groups, g.Parsed) {error : Error}
    (h : resolve origin checkRange groups = .error error) :
    ∃ g ∈ groups, g.line = error.line ∧ (error.cause ≠ .pastMemoryEnd → g.emits = true) := by
  cases hfirst : undefinedError? groups with
  | some first =>
    cases (resolve_of_undefined hp hfirst).symm.trans h
    obtain ⟨g,hg,herror⟩ := List.exists_of_findSome?_eq_some hfirst
    obtain ⟨hemits,name,-,-,rfl⟩ := Group.undefinedError?_eq_some_iff.mp herror
    exact ⟨g,hg,rfl,fun _ => hemits⟩
  | none =>
    have hdef := (undefinedError?_eq_none_iff hp).mp hfirst
    obtain ⟨final,hfinal⟩ := exists_settle hp hdef (groups.countP (·.state.isPending) + 1)
      (Rendition.ofParsed hp : Rendition origin.toNat groups (layout origin.toNat groups))
    have hr := settle_rendition hp (Rendition.ofParsed hp) hfinal
    rcases resolve_eq_error_iff.mp h with h | ⟨gs,hgs,h | ⟨-,-,h⟩⟩
    · cases hfinal.symm.trans h
    · cases hfinal.symm.trans hgs
      obtain ⟨hcause,k,hk,hat⟩ := exists_of_checkSpace h
      obtain ⟨g,hg,hv⟩ := hr.exists_mem hk
      exact ⟨g,hg,hv.line_eq.symm.trans hat,fun hne => absurd hcause hne⟩
    · cases hfinal.symm.trans hgs
      obtain ⟨-,k,hk,hat,hemits⟩ := exists_of_checkBranches h
      obtain ⟨g,hg,hv⟩ := hr.exists_mem hk
      exact ⟨g,hg,hv.line_eq.symm.trans hat,fun _ => hv.emits_eq.symm.trans hemits⟩

section
variable {options : Options} {source : List Char} {error : Error}
  (h : assemble options source = .error error)
include h

theorem ne_unresolved : error.cause ≠ .unresolved := by
  intro hcause
  rcases assemble_eq_error_iff.mp h with h | ⟨groups,-,h⟩
  · have hsyntax := isSyntax_of_parseLines h
    rw [hcause] at hsyntax
    cases hsyntax
  · rcases resolve_eq_error_iff.mp h with h | ⟨gs,-,h | ⟨-,-,h⟩⟩
    · obtain ⟨name,hundefined⟩ := undefined_of_settle h
      cases hcause.symm.trans hundefined
    · cases hcause.symm.trans (exists_of_checkSpace h).1
    · obtain ⟨⟨name,distance,hrange⟩,-⟩ := exists_of_checkBranches h
      cases hcause.symm.trans hrange

theorem line_of_assemble : 1 ≤ error.line ∧ error.line ≤ (Text.lines source).length := by
  rcases assemble_eq_error_iff.mp h with h | ⟨groups,hsource,h⟩
  · obtain ⟨k,text,hk,herror,-⟩ := parseSource_eq_error_iff.mp h
    obtain ⟨cause,-,rfl⟩ := mapError_eq_error_iff.mp herror
    have hlt := (List.getElem?_eq_some_iff.mp hk).1
    exact ⟨Nat.succ_pos k,hlt⟩
  · obtain ⟨g,hg,hline,-⟩ := exists_group_of_resolve (parsed_of_parseSource hsource) h
    have := line_of_parseLines hsource g hg
    omega

end

section
variable {options : Options} {source : List Char} {groups : List Group}
  (hsource : parseSource source = .ok groups)
include hsource

theorem exists_first_undefined (h : ∃ w ∈ written source, ∃ name, w.Undefined source name) :
    ∃ before w after name, written source = before ++ w :: after ∧
      (∀ earlier ∈ before, ∀ name, ¬ earlier.Undefined source name) ∧ w.Undefined source name ∧
      assemble options source = .error ⟨w.line, .undefinedLabel name⟩ := by
  obtain ⟨w,hw,name,hname⟩ := h
  cases hsearch : (written source).findSome? (Written.undefinedError? source) with
  | none =>
    have hnone := List.findSome?_eq_none_iff.mp hsearch w hw
    exact absurd hname (Written.undefinedError?_eq_none_iff.mp hnone name)
  | some error =>
    obtain ⟨before,first,after,hsplit,herror,hbefore⟩ := List.findSome?_eq_some_iff.mp hsearch
    obtain ⟨name,hname,rfl⟩ := Written.undefinedError?_eq_some_iff.mp herror
    have hresolve : resolve options.origin options.checkRange groups =
        .error ⟨first.line, .undefinedLabel name⟩ :=
      resolve_of_undefined (parsed_of_parseSource hsource)
        ((undefinedError?_eq_findSome? hsource).trans hsearch)
    refine ⟨before,first,after,name,hsplit,fun earlier hearlier => ?_,hname,
      assemble_eq_error_iff.mpr (.inr ⟨groups,hsource,hresolve⟩)⟩
    exact Written.undefinedError?_eq_none_iff.mp (hbefore earlier hearlier)

theorem assemble_cases_of_defined
    (h : ∀ w ∈ written source, ∀ name, ¬ w.Undefined source name) :
    (∃ program, assemble options source = .ok program) ∨
      (∃ line, assemble options source = .error ⟨line, .pastMemoryEnd⟩) ∨
      options.checkRange = true ∧ ∃ line name distance,
        assemble options source = .error ⟨line, .branchOutOfRange name distance⟩ := by
  have hp := parsed_of_parseSource hsource
  have hnone : undefinedError? groups = none := by
    rw [undefinedError?_eq_findSome? hsource, List.findSome?_eq_none_iff]
    exact fun w hw => Written.undefinedError?_eq_none_iff.mpr (h w hw)
  have hdef := (undefinedError?_eq_none_iff hp).mp hnone
  cases hprogram : assemble options source with
  | ok program => exact .inl ⟨program,rfl⟩
  | error error =>
    obtain ⟨line,cause⟩ := error
    rcases assemble_eq_error_iff.mp hprogram with hbad | ⟨_,hsource',hresolve⟩
    · cases hsource.symm.trans hbad
    · cases hsource.symm.trans hsource'
      rcases cause_of_resolve hp hdef hresolve with rfl | ⟨hchecked,name,distance,rfl⟩
      · exact .inr (.inl ⟨line,rfl⟩)
      · exact .inr (.inr ⟨hchecked,line,name,distance,rfl⟩)

end

/-- Which error an assembly reports. If a line cannot be parsed it is the error of the first such
line. If all can, but an operand names a symbol that nothing defines, the first such instruction
is the error. Otherwise there is a program, or it does not fit, or a branch is refused where
branches are checked. An error always belongs to a line of the source. -/
theorem assemble_error_order (options : Options) (source : List Char) :
    ((∃ k text error, (Text.lines source)[k]? = some text ∧
        parseLine (k + 1) text = .error error) →
      ∃ k text error, (Text.lines source)[k]? = some text ∧
        parseLine (k + 1) text = .error error ∧
        (∀ j < k, ∀ earlier, (Text.lines source)[j]? = some earlier →
          ∃ groups, parseLine (j + 1) earlier = .ok groups) ∧
        assemble options source = .error error) ∧
    ((∀ k text, (Text.lines source)[k]? = some text →
        ∃ groups, parseLine (k + 1) text = .ok groups) →
      ((∃ w ∈ written source, ∃ name, w.Undefined source name) →
        ∃ before w after name, written source = before ++ w :: after ∧
          (∀ earlier ∈ before, ∀ name, ¬ earlier.Undefined source name) ∧
          w.Undefined source name ∧
          assemble options source = .error ⟨w.line, .undefinedLabel name⟩) ∧
      ((∀ w ∈ written source, ∀ name, ¬ w.Undefined source name) →
        (∃ program, assemble options source = .ok program) ∨
        (∃ line, assemble options source = .error ⟨line, .pastMemoryEnd⟩) ∨
        options.checkRange = true ∧ ∃ line name distance,
          assemble options source = .error ⟨line, .branchOutOfRange name distance⟩)) ∧
    ∀ error, assemble options source = .error error → error.cause ≠ .unresolved ∧
      1 ≤ error.line ∧ error.line ≤ (Text.lines source).length := by
  refine ⟨fun hbad => ?_,fun hlines => ?_,fun error h => ⟨ne_unresolved h,line_of_assemble h⟩⟩
  · obtain ⟨error,hsource⟩ := exists_error_of_bad_line hbad
    obtain ⟨k,text,hk,herror,hearlier⟩ := parseSource_eq_error_iff.mp hsource
    exact ⟨k,text,error,hk,herror,hearlier,assemble_eq_error_iff.mpr (.inl hsource)⟩
  · cases hsource : parseSource source with
    | error error =>
      obtain ⟨k,text,hk,herror,-⟩ := parseSource_eq_error_iff.mp hsource
      obtain ⟨groups,hgroups⟩ := hlines k text hk
      cases hgroups.symm.trans herror
    | ok groups => exact ⟨exists_first_undefined hsource,assemble_cases_of_defined hsource⟩

example : assemble ⟨0x600,true⟩ "LDA n\nINX 5\nLDB 3".toList =
    .error ⟨2,.invalidOperand ['5']⟩ := by rfl

end Nmos6502.Assembly
