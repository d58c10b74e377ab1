import Nmos6502.Proofs.Arrangement

/-! # Operands filled beforehand

An operand that names a constant is settled before anything is placed. If its group is exchanged
for one with the bytes and the form that the constant asks for, then all other groups have
the same widths, places and values, and resolution has the same outcome.
-/
namespace Nmos6502.Assembly
open Finset WidthChoice

/-- `h` is `g` with the operand that a name for `v` gives it, and waits for nothing. -/
structure Group.Filled (v : ℕ) (g h : Group) : Prop where
  eq_with : h = { g with content := h.content, state := .known, bytes := h.bytes }
  content : g.form? h.bytes.length = some h.content
  width : h.bytes.length = g.widthIn (decide (256 ≤ v))
  bytes : h.bytes = littleEndian h.bytes.length v
  branch : g.branch = false

theorem map_set_eq {α β : Type} {f : α → β} {as : List α} {i : ℕ} {a b : α} (hi : as[i]? = some a)
    (h : f b = f a) : (as.set i b).map f = as.map f := by
  obtain ⟨hlt,rfl⟩ := List.getElem?_eq_some_iff.mp hi
  rw [List.map_set, h, ← List.getElem_map f (h := by simpa), List.set_getElem_self]

namespace Group.Filled
variable {v : ℕ} {g h : Group} (hf : g.Filled v h)
include hf

theorem state_eq : h.state = .known := by rw [hf.eq_with]

theorem awaited?_eq_none : h.awaited? = none := by rw [Group.awaited?, hf.state_eq]

theorem form?_eq_none (width : ℕ) : h.form? width = none :=
  Group.form?_eq_none (by rw [hf.state_eq]; rfl) width

theorem isPending : g.state.isPending = true := by
  by_contra hknown
  have hcontent := hf.content
  rw [Group.form?_eq_none (by simpa using hknown)] at hcontent
  cases hcontent

theorem exists_opcode : ∃ code operation mode code' mode', g.content = .opcode code operation mode ∧
    h.content = .opcode code' operation mode' := Group.of_form?_eq_some hf.content

theorem emits_eq : h.emits = g.emits := by rw [hf.eq_with]

theorem branch_eq : h.branch = g.branch := by rw [hf.eq_with]

theorem defines_eq_false (name : List Char) : g.defines name = false ∧ h.defines name = false := by
  obtain ⟨code,operation,mode,code',mode',hc,hc'⟩ := hf.exists_opcode
  simp only [Group.defines, hc, hc', and_self]

theorem widthIn_eq (wide : Bool) : h.widthIn wide = h.bytes.length := by
  simp [Group.widthIn, Group.twoForms, hf.form?_eq_none]

section
variable {wide : Bool} (hwide : wide = (g.twoForms && decide (256 ≤ v)))
include hwide

theorem length_bytes_eq : g.widthIn wide = h.bytes.length := by
  rw [hf.width, hwide]
  cases htwo : g.twoForms <;> simp [Group.widthIn, htwo]

theorem sizeIn_eq (wide' : Bool) : h.sizeIn wide' = g.sizeIn wide := by
  obtain ⟨code,operation,mode,code',mode',hc,hc'⟩ := hf.exists_opcode
  simp only [Group.sizeIn, hf.emits_eq, hc, hc', hf.widthIn_eq, hf.length_bytes_eq hwide,
    Content.size]

end

theorem groupAt_eq (origin : ℕ) (groups : List Group) (W : WidthChoice) (i : ℕ) :
    groupAt origin groups W i h = { h with offset := place origin groups W i } := by
  simp only [groupAt, operandAt, hf.form?_eq_none, hf.awaited?_eq_none, Option.bind_none,
    Option.getD_none]

theorem close_groupAt {origin : ℕ} {groups : List Group} {W : WidthChoice} {i : ℕ}
    (hvalue : g.awaited?.bind (value? origin groups W) = some v)
    (hwide : W i = (g.twoForms && decide (256 ≤ v))) :
    (groupAt origin groups W i g).close = { h with offset := place origin groups W i } := by
  have hwidth := hf.length_bytes_eq hwide
  have hbytes : operandAt origin groups W i g = h.bytes := by
    simp only [operandAt, hvalue, hf.branch, hwidth, Bool.false_eq_true, if_false]
    exact hf.bytes.symm
  have hpend : (groupAt origin groups W i g).state.isPending = true := hf.isPending
  rw [Group.close, if_pos hpend, groupAt, hbytes, hwidth, hf.content, Option.getD_some, hf.eq_with]

end Group.Filled

namespace WidthChoice
variable {origin : ℕ} {groups : List Group} {i v : ℕ} {g h : Group} {V W : WidthChoice}
  (hi : groups[i]? = some g) (hf : g.Filled v h)
include hi hf

theorem findIdx?_set (name : List Char) :
    (groups.set i h).findIdx? (Group.defines name) = groups.findIdx? (Group.defines name) := by
  obtain ⟨hg,hh⟩ := hf.defines_eq_false name
  have hmap := map_set_eq (f := Group.defines name) hi (hh.trans hg.symm)
  have hfind : ∀ gs : List Group,
      (gs.map (Group.defines name)).findIdx? id = gs.findIdx? (Group.defines name) :=
    fun gs => List.findIdx?_map
  rw [← hfind, hmap, hfind]

section
variable (hother : ∀ j ≠ i, V j = W j) (hwide : W i = (g.twoForms && decide (256 ≤ v)))
include hother hwide

theorem sizeAt_set (j : ℕ) : sizeAt (groups.set i h) V j = sizeAt groups W j := by
  by_cases hj : j = i
  · subst hj
    have hlt := (List.getElem?_eq_some_iff.mp hi).1
    rw [sizeAt, sizeAt, List.getElem?_set_self hlt, hi]
    exact hf.sizeIn_eq hwide _
  · rw [sizeAt, sizeAt, List.getElem?_set_ne (Ne.symm hj), hother j hj]

theorem place_set (j : ℕ) : place origin (groups.set i h) V j = place origin groups W j := by
  simp only [place, sizeAt_set hi hf hother hwide]

theorem value?_set : value? origin (groups.set i h) V = value? origin groups W := by
  funext name
  unfold value?
  rw [findIdx?_set hi hf]
  cases hk : groups.findIdx? (Group.defines name) with
  | none => rfl
  | some k =>
    have hne : k ≠ i := by
      rintro rfl
      obtain ⟨hlt,hdefines,-⟩ := List.findIdx?_eq_some_iff_getElem.mp hk
      rw [(List.getElem?_eq_some_iff.mp hi).2, (hf.defines_eq_false name).1] at hdefines
      cases hdefines
    rw [Option.bind_some, Option.bind_some, List.getElem?_set_ne (Ne.symm hne),
      place_set hi hf hother hwide]

theorem widen_set {j : ℕ} (hj : j ≠ i) :
    widen origin (groups.set i h) V j = widen origin groups W j := by
  rw [widen, widen, List.getElem?_set_ne (Ne.symm hj), value?_set hi hf hother hwide]

theorem arrange_set : arrange origin (groups.set i h) V =
    (arrange origin groups W).set i { h with offset := place origin groups W i } := by
  refine List.ext_getElem? fun j => ?_
  rw [getElem?_arrange]
  by_cases hj : j = i
  · subst hj
    have hlt := (List.getElem?_eq_some_iff.mp hi).1
    rw [List.getElem?_set_self hlt, List.getElem?_set_self (by rwa [length_arrange]), Option.map_some,
      hf.groupAt_eq, place_set hi hf hother hwide]
  · rw [List.getElem?_set_ne (Ne.symm hj), List.getElem?_set_ne (Ne.symm hj), getElem?_arrange]
    refine congrArg (Option.map · _) (funext fun other => ?_)
    simp only [groupAt, operandAt, hother j hj, place_set hi hf hother hwide,
      value?_set hi hf hother hwide]

end

variable (hvalue : ∀ W, g.awaited?.bind (value? origin groups W) = some v)
include hvalue

omit hf in
theorem widen_at (W : WidthChoice) :
    widen origin groups W i = (g.twoForms && decide (256 ≤ v)) := by
  rw [widen, hi, Option.any_some, hvalue W, Option.any_some]

/-- The least choice has the operand in the width that its value asks for, and the others as they
are beside the literal. -/
theorem least_set : (least origin groups i = (g.twoForms && decide (256 ≤ v))) ∧
    ∀ j ≠ i, least origin (groups.set i h) j = least origin groups j := by
  have hself : least origin groups i = (g.twoForms && decide (256 ≤ v)) := by
    rw [← widen_least, widen_at hi hvalue]
  have hquiet : ∀ U, widen origin (groups.set i h) U i = false := by
    intro U
    have hlt := (List.getElem?_eq_some_iff.mp hi).1
    rw [widen, List.getElem?_set_self hlt, Option.any_some]
    simp [Group.twoForms, hf.form?_eq_none]
  -- the literal is narrow in every choice, so each choice is compared with the other one changed at `i`
  have hle : least origin (groups.set i h) ≤ Function.update (least origin groups) i false := by
    refine least_le (funext fun j => ?_)
    by_cases hj : j = i
    · subst hj
      rw [hquiet, Function.update_self]
    · rw [widen_set hi hf (fun k hk => Function.update_of_ne hk ..) hself hj, widen_least,
        Function.update_of_ne hj]
  have hge : least origin groups ≤ Function.update (least origin (groups.set i h)) i
      (g.twoForms && decide (256 ≤ v)) := by
    refine least_le (funext fun j => ?_)
    by_cases hj : j = i
    · subst hj
      rw [widen_at hi hvalue, Function.update_self]
    · rw [← widen_set hi hf (fun k hk => (Function.update_of_ne hk ..).symm)
        (Function.update_self ..) hj, widen_least, Function.update_of_ne hj]
  refine ⟨hself,fun j hj => le_antisymm ?_ ?_⟩
  · exact (hle j).trans_eq (Function.update_of_ne hj ..)
  · exact (hge j).trans_eq (Function.update_of_ne hj ..)

end WidthChoice

theorem rangeError?_congr {gs hs : List Group} (h : gs.map Group.close = hs.map Group.close) :
    Group.rangeError? gs = Group.rangeError? hs := by
  have hlookup : ∀ name, lookup gs name = lookup hs name := by
    intro name
    rw [← lookup_map_close, h, lookup_map_close]
  funext g
  simp only [Group.rangeError?, hlookup]

theorem findSome?_eq_of_map_eq {α β γ : Type} {f : α → Option γ} {f' : β → Option γ} {as : List α}
    {bs : List β} (h : as.map f = bs.map f') : as.findSome? f = bs.findSome? f' := by
  have hid : (as.map f).findSome? id = (bs.map f').findSome? id := by rw [h]
  rwa [List.findSome?_map, List.findSome?_map] at hid

theorem checkBranches_set {gs : List Group} {i : ℕ} {k k' : Group} (hk : gs[i]? = some k)
    (hclose : k'.close = k.close) (hbranch : k.branch = false) (hbranch' : k'.branch = false) :
    checkBranches (gs.set i k') = checkBranches gs := by
  have hquiet : ∀ g : Group, g.branch = false → g.rangeError? gs = none := by
    intro g hg
    simp [Group.rangeError?, hg]
  have hsame : (gs.set i k').findSome? (Group.rangeError? gs) = gs.findSome? (Group.rangeError? gs) :=
    findSome?_eq_of_map_eq (map_set_eq hk ((hquiet k' hbranch').trans (hquiet k hbranch).symm))
  rw [checkBranches, checkBranches, rangeError?_congr (map_set_eq hk hclose), hsame]

section
variable {groups : List Group} {i v : ℕ} {g h : Group} (hi : groups[i]? = some g) (hf : g.Filled v h)
include hi hf

theorem any_defines_set (name : List Char) :
    (groups.set i h).any (Group.defines name) = groups.any (Group.defines name) := by
  obtain ⟨hg,hh⟩ := hf.defines_eq_false name
  have hany : ∀ gs : List Group, (gs.map (Group.defines name)).any id = gs.any (Group.defines name) :=
    fun gs => List.any_map
  rw [← hany, map_set_eq hi (hh.trans hg.symm), hany]

theorem undefinedError?_set (hdef : g.undefinedError? groups = none) :
    undefinedError? (groups.set i h) = undefinedError? groups := by
  have hsame : Group.undefinedError? (groups.set i h) = Group.undefinedError? groups := by
    funext k
    simp only [Group.undefinedError?, any_defines_set hi hf]
  rw [undefinedError?, undefinedError?, hsame]
  refine findSome?_eq_of_map_eq (map_set_eq hi ?_)
  rw [hdef, Group.undefinedError?, hf.awaited?_eq_none, Option.bind_none, ite_self]

theorem countP_emits_set : (groups.set i h).countP (·.emits) = groups.countP (·.emits) := by
  have hcount : ∀ gs : List Group, (gs.map (·.emits)).countP id = gs.countP (·.emits) :=
    fun gs => List.countP_map
  rw [← hcount, map_set_eq hi hf.emits_eq, hcount]

variable {origin : UInt16} (hvalue : ∀ W, g.awaited?.bind (value? origin.toNat groups W) = some v)
include hvalue

omit hi hf in
theorem undefinedError?_of_value? : g.undefinedError? groups = none := by
  obtain ⟨name,hn,hv⟩ := Option.bind_eq_some_iff.mp (hvalue ⊥)
  have hany := List.any_eq_true.mpr (exists_value?_iff.mp ⟨v,hv⟩)
  simp only [Group.undefinedError?, hn, Option.bind_some, hany, if_true, ite_self]

/-- A name for a constant can be exchanged for the literal before resolution. -/
theorem resolve_set (hp : ∀ k ∈ groups, k.Parsed) (hp' : ∀ k ∈ groups.set i h, k.Parsed)
    (hroom : origin.toNat + 3 * groups.countP (·.emits) ≤ 0xFFFF) (checkRange : Bool) :
    resolve origin checkRange (groups.set i h) = resolve origin checkRange groups := by
  have hroom' := hroom
  rw [← countP_emits_set hi hf] at hroom'
  obtain ⟨hself,hother⟩ := least_set hi hf hvalue
  have hk : (arrange origin.toNat groups (least origin.toNat groups))[i]? =
      some (groupAt origin.toNat groups (least origin.toNat groups) i g) := by
    rw [getElem?_arrange, hi, Option.map_some]
  have hclose : ({ h with offset := place origin.toNat groups (least origin.toNat groups) i } :
      Group).close = (groupAt origin.toNat groups (least origin.toNat groups) i g).close := by
    rw [hf.close_groupAt (hvalue _) hself, Group.close, hf.state_eq,
      if_neg (by simp [OperandState.isPending])]
  have hbranches := checkBranches_set hk hclose hf.branch (hf.branch_eq.trans hf.branch)
  have hclosed := map_set_eq hk hclose
  rw [resolve_of_room hp hroom, resolve_of_room hp' hroom',
    undefinedError?_set hi hf (undefinedError?_of_value? hvalue),
    arrange_set hi hf hother hself]
  dsimp only
  rw [hbranches, hclosed]

end

theorem assemble_set {options : Options} {source source' : List Char} {groups : List Group}
    {i v : ℕ} {g h : Group} (hsource : parseSource source = .ok groups)
    (hsource' : parseSource source' = .ok (groups.set i h)) (hi : groups[i]? = some g)
    (hf : g.Filled v h) (hvalue : ∀ W, g.awaited?.bind (value? options.origin.toNat groups W) = some v)
    (hroom : options.origin.toNat + 3 * (written source).length ≤ 0xFFFF) :
    assemble options source = assemble options source' := by
  rw [length_written hsource] at hroom
  have hresolve := resolve_set hi hf hvalue (parsed_of_parseSource hsource)
    (parsed_of_parseSource hsource') hroom options.checkRange
  simp only [assemble, hsource, hsource', hresolve, bind, Except.bind]

end Nmos6502.Assembly
