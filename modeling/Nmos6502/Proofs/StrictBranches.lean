import Nmos6502.Proofs.BranchTargets
import Nmos6502.Proofs.FailureCauses
import Nmos6502.Proofs.ImageShape
import Nmos6502.Proofs.OperandNames

/-! # The check of branches

Branches are checked when everything else is done, in the places that the program has in the
end. The check can only refuse the program: for the first branch to a symbol that is more
than a signed byte away. What fails without it fails in the same way with it.
-/
namespace Nmos6502.Assembly

/-- The row is a branch to a symbol, at a distance that a signed byte does not hold. -/
structure Row.Strays (program : Program) (row : Row) (name : List Char) (distance : ℤ) : Prop where
  isBranch : row.written.operation.isBranch = true
  value_eq : row.written.operand.value = .name name
  distance_eq : ∃ symbol, program.symbol? name = some symbol ∧ distance = row.distance symbol.value
  far : distance < -128 ∨ 127 < distance

def Row.rangeError? (program : Program) (row : Row) : Option Error :=
  match row.written.operation.isBranch, row.written.operand.value with
  | true, .name name => do
    let symbol ← program.symbol? name
    let distance := row.distance symbol.value
    if -128 ≤ distance ∧ distance ≤ 127 then none
    else some ⟨row.written.line, .branchOutOfRange name distance⟩
  | _, _ => none

theorem Row.rangeError?_eq_some_iff {program : Program} {row : Row} {error : Error} :
    row.rangeError? program = some error ↔ ∃ name distance, row.Strays program name distance ∧
      error = ⟨row.written.line, .branchOutOfRange name distance⟩ := by
  constructor
  · intro h
    unfold Row.rangeError? at h
    split at h
    · rename_i name hbranch hname
      obtain ⟨symbol,hsymbol,h⟩ := Option.bind_eq_some_iff.mp h
      dsimp only at h
      split at h
      · cases h
      · rename_i hfar
        cases h
        exact ⟨name,_,⟨hbranch,hname,⟨symbol,hsymbol,rfl⟩,by omega⟩,rfl⟩
    · cases h
  · rintro ⟨name,distance,⟨hbranch,hname,⟨symbol,hsymbol,rfl⟩,hfar⟩,rfl⟩
    simp only [Row.rangeError?, hbranch, hname, hsymbol, Option.bind_eq_bind, Option.bind_some]
    exact if_neg (by omega)

theorem Row.rangeError?_eq_none_iff {program : Program} {row : Row} :
    row.rangeError? program = none ↔ ∀ name distance, ¬ row.Strays program name distance := by
  rw [Option.eq_none_iff_forall_ne_some]
  constructor
  · intro h name distance hstrays
    exact h _ (rangeError?_eq_some_iff.mpr ⟨name,distance,hstrays,rfl⟩)
  · intro h error herror
    obtain ⟨name,distance,hstrays,-⟩ := rangeError?_eq_some_iff.mp herror
    exact h name distance hstrays

theorem Row.Shows.rangeError?_eq {row : Row} {h : Group} (hs : row.Shows h) {program : Program}
    {gs : List Group} (hsymbol : ∀ name, program.symbol? name = lookup gs name) :
    h.rangeError? gs = row.rangeError? program := by
  obtain ⟨g,hw,hv⟩ := hs.of_group
  have hbranch : h.branch = row.written.operation.isBranch :=
    hv.branch_eq.trans (Written.branch_eq hw)
  have hemits : h.emits = true := hv.emits_eq.trans (Written.emits_of_group? hw)
  unfold Group.rangeError? Row.rangeError?
  rw [hemits, Bool.true_and, hbranch]
  cases hb : row.written.operation.isBranch with
  | false => rfl
  | true =>
    cases hvalue : row.written.operand.value with
    | literal bytes =>
      have hnone : ∀ name, h.awaited? ≠ some name := by
        intro name hn
        cases hvalue.symm.trans (hs.awaited?_eq_some_iff.mp hn)
      split
      · rename_i name modes _ hstate
        exact absurd (Group.awaited?_eq_some_iff.mpr ⟨modes,hstate⟩) (hnone name)
      · rfl
    | name name =>
      obtain ⟨modes,hstate⟩ := Group.awaited?_eq_some_iff.mp (hs.awaited?_eq_some_iff.mpr hvalue)
      have hdistance : ∀ value, h.displacement value = row.distance value := by
        intro value
        rw [Group.displacement, hs.next_eq hb, Row.distance]
      simp only [hstate, hsymbol, hdistance, hs.line_eq, Bool.and_eq_true, decide_eq_true_eq]

theorem Group.rangeError?_of_not_emits {gs : List Group} {h : Group} (hemits : h.emits = false) :
    h.rangeError? gs = none := by
  simp only [Group.rangeError?, hemits, Bool.false_and]

section
variable {α β γ : Type} {f : α → Option γ}

theorem findSome?_filter {p : α → Bool} (hf : ∀ a, p a = false → f a = none) (as : List α) :
    (as.filter p).findSome? f = as.findSome? f := by
  induction as with
  | nil => rfl
  | cons a as ih =>
    cases hp : p a with
    | false => rw [List.filter_cons_of_neg (by simp [hp]), List.findSome?_cons, hf a hp, ih]
    | true => rw [List.filter_cons_of_pos hp, List.findSome?_cons, List.findSome?_cons, ih]

theorem findSome?_of_forall₂ {R : α → β → Prop} {g : β → Option γ}
    (hfg : ∀ a b, R a b → f a = g b) {as : List α} {bs : List β} (hall : List.Forall₂ R as bs) :
    as.findSome? f = bs.findSome? g := by
  induction hall with
  | nil => rfl
  | cons hab _ ih => rw [List.findSome?_cons, List.findSome?_cons, hfg _ _ hab, ih]

end

namespace Assembled
variable {options : Options} {source : List Char} {program : Program} {groups gs : List Group}
  {rows : List Row} (ha : Assembled options source program groups gs rows)
include ha

theorem findSome?_rangeError? :
    gs.findSome? (Group.rangeError? gs) = rows.findSome? (Row.rangeError? program) := by
  rw [← findSome?_filter fun h => Group.rangeError?_of_not_emits]
  symm
  exact findSome?_of_forall₂ (fun row h hs => (hs.rangeError?_eq ha.symbol?_eq).symm) ha.shows

end Assembled

/-- With the check a program is assembled to itself, or refused for the first row that strays. -/
theorem assemble_checked {origin : UInt16} {source : List Char} {program : Program}
    (h : assemble ⟨origin,false⟩ source = .ok program) {groups gs : List Group} {rows : List Row}
    (ha : Assembled ⟨origin,false⟩ source program groups gs rows) :
    assemble ⟨origin,true⟩ source =
      match rows.findSome? (Row.rangeError? program) with
      | some error => .error error
      | none => .ok program := by
  rw [← ha.findSome?_rangeError?]
  cases hfirst : gs.findSome? (Group.rangeError? gs) with
  | some error =>
    have hrange : checkBranches gs = .error error := by simp only [checkBranches, hfirst]
    exact assemble_eq_error_iff.mpr (.inr ⟨groups,ha.parsed,
      resolve_eq_error_iff.mpr (.inr ⟨gs,ha.settled,.inr ⟨ha.inMemory,rfl,hrange⟩⟩)⟩)
  | none =>
    have hrange : checkBranches gs = .ok () := by simp only [checkBranches, hfirst]
    -- both assemblies come to the same groups, and so to the same image and symbols
    obtain ⟨groups',hparsed,h⟩ := bind_eq_ok_iff.mp h
    cases hparsed.symm.trans ha.parsed
    obtain ⟨final,hfinal,h⟩ := bind_eq_ok_iff.mp h
    obtain ⟨gs',hsettled,-,-,rfl⟩ := resolve_eq_ok_iff.mp hfinal
    cases hsettled.symm.trans ha.settled
    have hstrict : resolve origin true groups = .ok (gs.map Group.close) :=
      resolve_eq_ok_iff.mpr ⟨gs,ha.settled,ha.inMemory,fun _ => hrange,rfl⟩
    exact bind_eq_ok_iff.mpr ⟨groups,ha.parsed,bind_eq_ok_iff.mpr ⟨_,hstrict,h⟩⟩

theorem assemble_checked_error {origin : UInt16} {source : List Char} {error : Error}
    (h : assemble ⟨origin,false⟩ source = .error error) :
    assemble ⟨origin,true⟩ source = .error error := by
  rw [assemble_eq_error_iff] at h ⊢
  rcases h with h | ⟨groups,hparsed,h⟩
  · exact .inl h
  · refine .inr ⟨groups,hparsed,?_⟩
    rw [resolve_eq_error_iff] at h ⊢
    rcases h with h | ⟨gs,hsettled,h | ⟨-,hchecked,-⟩⟩
    · exact .inl h
    · exact .inr ⟨gs,hsettled,.inl h⟩
    · cases hchecked

/-- The check of branches sorts out and does nothing else. What fails without it fails in the
same way with it, and never for a branch. What is assembled without it is assembled to the same
program with it if no branch to a symbol is too far away from it; otherwise the first such branch
is the error, with its line, the name of the symbol in upper case, and the distance. -/
theorem strict_only_filters (origin : UInt16) (source : List Char) :
    (∀ error, assemble ⟨origin,false⟩ source = .error error →
      assemble ⟨origin,true⟩ source = .error error ∧
        ∀ name distance, error.cause ≠ .branchOutOfRange name distance) ∧
    ∀ program, assemble ⟨origin,false⟩ source = .ok program →
      ∃ rows, Listing source program rows ∧ program.origin = origin ∧
        (∀ row ∈ rows, ∀ name, row.written.operand.value = .name name →
          Text.upper name = name ∧ ∃ symbol ∈ program.symbols, symbol.name = name ∧
            program.symbol? name = some symbol) ∧
        ((∀ row ∈ rows, ∀ name distance, ¬ row.Strays program name distance) →
          assemble ⟨origin,true⟩ source = .ok program) ∧
        ((∃ row ∈ rows, ∃ name distance, row.Strays program name distance) →
          ∃ before first after name distance, rows = before ++ first :: after ∧
            (∀ earlier ∈ before, ∀ name distance, ¬ earlier.Strays program name distance) ∧
            first.Strays program name distance ∧
            assemble ⟨origin,true⟩ source =
              .error ⟨first.written.line, .branchOutOfRange name distance⟩) := by
  refine ⟨fun error h => ⟨assemble_checked_error h,ne_branchOutOfRange h⟩,fun program h => ?_⟩
  obtain ⟨groups,gs,rows,ha⟩ := exists_assembled h
  have hchecked := assemble_checked h ha
  refine ⟨rows,ha.listing,ha.origin_eq,?_,?_,?_⟩
  · intro row hrow name hname
    have hwritten : row.written ∈ written source :=
      ha.listing.written_eq ▸ List.mem_map_of_mem hrow
    obtain ⟨symbol,hsymbol⟩ := ha.exists_symbol hrow hname
    have hmem : symbol ∈ program.symbols := List.mem_of_find?_eq_some hsymbol
    have hfound : symbol.name = name := by simpa using List.find?_some hsymbol
    exact ⟨(name_of_written hwritten hname).2,symbol,hmem,hfound,hsymbol⟩
  · intro hnone
    have hfirst : rows.findSome? (Row.rangeError? program) = none := by
      rw [List.findSome?_eq_none_iff]
      exact fun row hrow => Row.rangeError?_eq_none_iff.mpr (hnone row hrow)
    rw [hchecked, hfirst]
  · rintro ⟨row,hrow,name,distance,hstrays⟩
    cases hfirst : rows.findSome? (Row.rangeError? program) with
    | none =>
      have hrow := List.findSome?_eq_none_iff.mp hfirst row hrow
      exact absurd hstrays (Row.rangeError?_eq_none_iff.mp hrow name distance)
    | some error =>
      obtain ⟨before,first,after,hsplit,herror,hbefore⟩ := List.findSome?_eq_some_iff.mp hfirst
      obtain ⟨name,distance,hstrays,rfl⟩ := Row.rangeError?_eq_some_iff.mp herror
      refine ⟨before,first,after,name,distance,hsplit,?_,hstrays,?_⟩
      · intro earlier hearlier
        exact Row.rangeError?_eq_none_iff.mp (hbefore earlier hearlier)
      · rw [hchecked, hfirst]

example : assemble ⟨0x600,true⟩ "DEFINE far 0\nBNE far\nBEQ $80\nBCC far".toList =
    .error ⟨2,.branchOutOfRange "FAR".toList (-1538)⟩ := by rfl

end Nmos6502.Assembly
