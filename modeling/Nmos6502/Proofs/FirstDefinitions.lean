import Mathlib.Data.List.Induction
import Nmos6502.Assembly.Symbol

/-! # The first definition of a name

Several groups may introduce a name, and the first of them decides what it stands for. The table of
symbols has every name that some group introduces exactly once, in the order in which the names come
up, and each with the symbol that a search among the groups finds. The table is built group by
group; `Tabulates` says what holds of it on the way.
-/
namespace Nmos6502.Assembly

/-- The group is a label or a constant of that name. -/
def Group.Introduces (g : Group) (name : List Char) : Prop :=
  g.content = .label name ∨ g.content = .constant name

/-- The symbol has the line of the group and the low 16 bits of what it stands for: a label for its
place, a constant for the number in its bytes. -/
structure Symbol.Describes (s : Symbol) (g : Group) : Prop where
  definedAt_eq : s.definedAt = g.line
  stands : (g.content = .label s.name ∧ s.kind = .label ∧ s.value.toNat = g.offset % 65536) ∨
    (g.content = .constant s.name ∧ s.kind = .constant ∧
      s.value.toNat = ofLittleEndian g.bytes % 65536)

/-- The first group that introduces the name is `g`, at place `i`. -/
structure FirstAt (groups : List Group) (name : List Char) (i : ℕ) (g : Group) : Prop where
  getElem?_eq : groups[i]? = some g
  introduces : g.Introduces name
  earlier : ∀ j < i, ∀ h, groups[j]? = some h → ¬ h.Introduces name

/-- One name is introduced before the other is for the first time. -/
def ComesBefore (groups : List Group) (name other : List Char) : Prop :=
  ∃ i g j h, FirstAt groups name i g ∧ FirstAt groups other j h ∧ i < j

section
variable {g : Group} {s : Symbol}

theorem Symbol.describes_of_symbol? (h : g.symbol? = some s) : s.Describes g := by
  unfold Group.symbol? at h
  split at h
  · cases h
  · rename_i hc
    cases h
    exact ⟨rfl,.inl ⟨hc,rfl,UInt16.toNat_ofNat'⟩⟩
  · rename_i hc
    cases h
    refine ⟨rfl,.inr ⟨hc,rfl,?_⟩⟩
    rw [UInt16.toNat_ofNat', Group.value, Nat.mod_mod_of_dvd _ (by decide)]

theorem Symbol.Describes.introduces (h : s.Describes g) : g.Introduces s.name := by
  rcases h.stands with ⟨hc,-⟩ | ⟨hc,-⟩
  · exact .inl hc
  · exact .inr hc

theorem Group.name_of_introduces {name : List Char} (hs : g.symbol? = some s)
    (h : g.Introduces name) : s.name = name := by
  rcases h with hc | hc <;> simp only [Group.symbol?, hc, Option.some.injEq] at hs <;> rw [← hs]

theorem Group.not_introduces_of_symbol? (h : g.symbol? = none) (name : List Char) :
    ¬ g.Introduces name := by
  rintro (hc | hc) <;> simp [Group.symbol?, hc] at h

end

namespace FirstAt
variable {groups : List Group} {name : List Char} {i : ℕ} {g : Group}

theorem mem (h : FirstAt groups name i g) : g ∈ groups := List.mem_of_getElem? h.getElem?_eq

theorem lt_length (h : FirstAt groups name i g) : i < groups.length :=
  (List.getElem?_eq_some_iff.mp h.getElem?_eq).1

theorem append (h : FirstAt groups name i g) (more : List Group) :
    FirstAt (groups ++ more) name i g := by
  refine ⟨?_,h.introduces,?_⟩
  · rw [List.getElem?_append_left h.lt_length, h.getElem?_eq]
  · intro j hj k hk
    rw [List.getElem?_append_left (Nat.lt_trans hj h.lt_length)] at hk
    exact h.earlier j hj k hk

theorem behind (hnew : ∀ h ∈ groups, ¬ h.Introduces name) (hg : g.Introduces name) :
    FirstAt (groups ++ [g]) name groups.length g := by
  refine ⟨List.getElem?_concat_length,hg,?_⟩
  intro j hj h hh
  rw [List.getElem?_append_left hj] at hh
  exact hnew h (List.mem_of_getElem? hh)

theorem place_unique {j : ℕ} {h : Group} (hi : FirstAt groups name i g)
    (hj : FirstAt groups name j h) : i = j := by
  rcases Nat.lt_trichotomy i j with hlt | heq | hlt
  · exact absurd hi.introduces (hj.earlier i hlt g hi.getElem?_eq)
  · exact heq
  · exact absurd hj.introduces (hi.earlier j hlt h hj.getElem?_eq)

end FirstAt

theorem ComesBefore.append {groups : List Group} {name other : List Char}
    (h : ComesBefore groups name other) (more : List Group) :
    ComesBefore (groups ++ more) name other := by
  obtain ⟨i,g,j,k,hi,hj,hlt⟩ := h
  exact ⟨i,g,j,k,hi.append more,hj.append more,hlt⟩

theorem ComesBefore.ne {groups : List Group} {name other : List Char}
    (h : ComesBefore groups name other) : name ≠ other := by
  rintro rfl
  obtain ⟨i,g,j,k,hi,hj,hlt⟩ := h
  exact Nat.ne_of_lt hlt (hi.place_unique hj)

/-- The table is right for the groups seen so far. -/
structure Tabulates (seen : List Group) (table : List Symbol) : Prop where
  complete : ∀ g ∈ seen, ∀ name, g.Introduces name → ∃ s ∈ table, s.name = name
  first : ∀ s ∈ table, ∃ i g, FirstAt seen s.name i g ∧ s.Describes g
  ordered : table.Pairwise fun s t => ComesBefore seen s.name t.name

namespace Tabulates
variable {seen : List Group} {table : List Symbol} {g : Group} {s : Symbol}

theorem nil : Tabulates [] [] := by
  refine ⟨?_,?_,.nil⟩ <;> simp

theorem skip (h : Tabulates seen table)
    (hg : ∀ name, g.Introduces name → ∃ s ∈ table, s.name = name) :
    Tabulates (seen ++ [g]) table := by
  refine ⟨?_,?_,h.ordered.imp fun hst => hst.append [g]⟩
  · intro k hk name hname
    rcases List.mem_append.mp hk with hk | hk
    · exact h.complete k hk name hname
    · exact hg name (List.mem_singleton.mp hk ▸ hname)
  · intro t ht
    obtain ⟨i,k,hfirst,hdescribes⟩ := h.first t ht
    exact ⟨i,k,hfirst.append [g],hdescribes⟩

/-- A new name goes to the end of the table, since its group stands behind all groups seen. -/
theorem add (h : Tabulates seen table) (hs : g.symbol? = some s)
    (hnew : ∀ t ∈ table, t.name ≠ s.name) : Tabulates (seen ++ [g]) (table ++ [s]) := by
  have hdescribes := Symbol.describes_of_symbol? hs
  have hunseen : ∀ k ∈ seen, ¬ k.Introduces s.name := by
    intro k hk hintroduces
    obtain ⟨t,ht,hname⟩ := h.complete k hk s.name hintroduces
    exact hnew t ht hname
  have hfirst := FirstAt.behind hunseen hdescribes.introduces
  refine ⟨?_,?_,?_⟩
  · intro k hk name hname
    rcases List.mem_append.mp hk with hk | hk
    · obtain ⟨t,ht,heq⟩ := h.complete k hk name hname
      exact ⟨t,List.mem_append_left _ ht,heq⟩
    · obtain rfl := List.mem_singleton.mp hk
      exact ⟨s,by simp,Group.name_of_introduces hs hname⟩
  · intro t ht
    rcases List.mem_append.mp ht with ht | ht
    · obtain ⟨i,k,hk,hkt⟩ := h.first t ht
      exact ⟨i,k,hk.append [g],hkt⟩
    · obtain rfl := List.mem_singleton.mp ht
      exact ⟨seen.length,g,hfirst,hdescribes⟩
  · refine List.pairwise_append.mpr
      ⟨h.ordered.imp fun hst => hst.append [g],List.pairwise_singleton ..,?_⟩
    intro t ht u hu
    obtain rfl := List.mem_singleton.mp hu
    obtain ⟨i,k,hk,-⟩ := h.first t ht
    exact ⟨i,k,seen.length,g,hk.append [g],hfirst,hk.lt_length⟩

theorem step (h : Tabulates seen table) (g : Group) :
    Tabulates (seen ++ [g]) (g.symbol?.toList.foldl addSymbol table) := by
  cases hs : g.symbol? with
  | none =>
    exact h.skip fun name hname => absurd hname (Group.not_introduces_of_symbol? hs name)
  | some s =>
    simp only [Option.toList_some, List.foldl_cons, List.foldl_nil, addSymbol]
    by_cases hknown : table.any (·.name == s.name) = true
    · rw [if_pos hknown]
      obtain ⟨t,ht,hname⟩ := List.any_eq_true.mp hknown
      refine h.skip fun name hintroduces => ⟨t,ht,?_⟩
      exact (beq_iff_eq.mp hname).trans (Group.name_of_introduces hs hintroduces)
    · rw [if_neg hknown]
      refine h.add hs fun t ht hname => hknown ?_
      exact List.any_eq_true.mpr ⟨t,ht,beq_iff_eq.mpr hname⟩

end Tabulates

theorem tabulates_symbolTable (groups : List Group) : Tabulates groups (symbolTable groups) := by
  induction groups using List.reverseRecOn with
  | nil => exact .nil
  | append_singleton seen g ih =>
    have hstep : symbolTable (seen ++ [g]) =
        g.symbol?.toList.foldl addSymbol (symbolTable seen) := by
      rw [symbolTable, List.filterMap_append, List.foldl_append, ← symbolTable]
      cases hs : g.symbol? <;> simp [hs]
    rw [hstep]
    exact ih.step g

/-- The search among the groups finds under each name what the table has. No name is in the table
twice, and it has the names that some group introduces, in the order of their first definitions,
each as its first definition gives it. -/
theorem symbolTable_first_definitions (groups : List Group) :
    (∀ name, lookup groups name = findSymbol (symbolTable groups) name) ∧
      ((symbolTable groups).map Symbol.name).Nodup ∧
      (∀ name, name ∈ (symbolTable groups).map Symbol.name ↔ ∃ g ∈ groups, g.Introduces name) ∧
      (symbolTable groups).Pairwise (fun s t => ComesBefore groups s.name t.name) ∧
      ∀ s ∈ symbolTable groups, ∃ i g, FirstAt groups s.name i g ∧ s.Describes g := by
  have htable := tabulates_symbolTable groups
  refine ⟨fun name => (findSymbol_symbolTable groups name).symm,?_,?_,htable.ordered,htable.first⟩
  · exact List.pairwise_map.mpr (htable.ordered.imp ComesBefore.ne)
  · intro name
    constructor
    · intro hname
      obtain ⟨s,hs,rfl⟩ := List.mem_map.mp hname
      obtain ⟨i,g,hfirst,-⟩ := htable.first s hs
      exact ⟨g,hfirst.mem,hfirst.introduces⟩
    · rintro ⟨g,hg,hintroduces⟩
      obtain ⟨s,hs,hname⟩ := htable.complete g hg name hintroduces
      exact List.mem_map.mpr ⟨s,hs,hname⟩

example : symbolTable [.constant 1 ['S'] [0x34, 0x12, 0x01], .label 2 ['T'], .label 3 ['S']] =
    [⟨['S'],0x1234,.constant,1⟩,⟨['T'],0,.label,2⟩] := by decide

end Nmos6502.Assembly
