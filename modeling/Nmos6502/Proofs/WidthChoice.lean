import Mathlib.Algebra.BigOperators.Group.Finset.Basic
import Mathlib.Algebra.GroupWithZero.Nat
import Mathlib.Algebra.Order.BigOperators.Group.Finset
import Mathlib.Data.Fintype.Order
import Mathlib.Order.FixedPoints
import Nmos6502.Assembly.Resolution

/-! # Choices of operand widths

An operand that names a symbol may have a narrow and a wide form. A choice says which
operands take the wide one, and places the groups in a memory without end. An operand
wants two bytes exactly if the value of its name, placed so, is 256 or more. Wider
operands never make a value smaller, so among the choices that every operand agrees
with there is a least one.
-/
namespace Nmos6502.Assembly
open Finset

def Group.awaited? (g : Group) : Option (List Char) :=
  match g.state with
  | .pending name _ => some name
  | _ => none

def Group.twoForms (g : Group) : Bool := (g.form? 1).isSome && (g.form? 2).isSome

/-- Operand bytes under a choice; a group with one form keeps the bytes it has. -/
def Group.widthIn (wide : Bool) (g : Group) : ℕ :=
  if g.twoForms then (if wide then 2 else 1) else g.bytes.length

def Group.sizeIn (wide : Bool) (g : Group) : ℕ :=
  if g.emits then g.content.size + g.widthIn wide else 0

def Group.valueAt (address : ℕ) (g : Group) : ℕ :=
  match g.content with
  | .label _ => address
  | _ => g.value

/-- For every group, by its index, whether its operand takes two bytes. -/
abbrev WidthChoice := ℕ → Bool

namespace WidthChoice
variable (origin : ℕ) (groups : List Group)

def sizeAt (W : WidthChoice) (i : ℕ) : ℕ :=
  match groups[i]? with
  | some g => g.sizeIn (W i)
  | none => 0

/-- Where the group at an index begins, in a memory without end. -/
def place (W : WidthChoice) (i : ℕ) : ℕ := origin + ∑ j ∈ range i, sizeAt groups W j

def value? (W : WidthChoice) (name : List Char) : Option ℕ :=
  (groups.findIdx? (Group.defines name)).bind fun i =>
    groups[i]?.map (Group.valueAt (place origin groups W i))

/-- The operands with two forms that name a value of 256 or more. -/
def widen (W : WidthChoice) : WidthChoice := fun i =>
  groups[i]?.any fun g =>
    g.twoForms && (g.awaited?.bind (value? origin groups W)).any (256 ≤ ·)

def InMemory (W : WidthChoice) : Prop :=
  ∀ i < groups.length, place origin groups W i ≤ 0xFFFF ∧ place origin groups W (i + 1) ≤ 0x10000

variable {origin groups} {V W : WidthChoice}

theorem place_succ (i : ℕ) :
    place origin groups W (i + 1) = place origin groups W i + sizeAt groups W i := by
  simp only [place, sum_range_succ, Nat.add_assoc]

theorem widthIn_mono (g : Group) {b c : Bool} (h : b ≤ c) : g.widthIn b ≤ g.widthIn c := by
  have hw : (if b then 2 else 1) ≤ if c then 2 else 1 := by
    revert b c
    decide
  unfold Group.widthIn
  split
  · exact hw
  · exact le_rfl

theorem sizeIn_mono (g : Group) {b c : Bool} (h : b ≤ c) : g.sizeIn b ≤ g.sizeIn c := by
  unfold Group.sizeIn
  split
  · exact Nat.add_le_add_left (widthIn_mono g h) _
  · exact le_rfl

theorem sizeAt_mono (h : V ≤ W) (i : ℕ) : sizeAt groups V i ≤ sizeAt groups W i := by
  unfold sizeAt
  split
  · exact sizeIn_mono _ (h i)
  · exact le_rfl

theorem place_mono (h : V ≤ W) (i : ℕ) : place origin groups V i ≤ place origin groups W i :=
  Nat.add_le_add_left (sum_le_sum fun j _ => sizeAt_mono h j) origin

theorem InMemory.anti (h : V ≤ W) (hW : InMemory origin groups W) : InMemory origin groups V := by
  intro i hi
  obtain ⟨hstart, hend⟩ := hW i hi
  exact ⟨(place_mono h i).trans hstart, (place_mono h (i + 1)).trans hend⟩

theorem value?_eq_some_iff {name : List Char} {v : ℕ} :
    value? origin groups W name = some v ↔
      ∃ i g, groups.findIdx? (Group.defines name) = some i ∧ groups[i]? = some g ∧
        g.valueAt (place origin groups W i) = v := by
  simp only [value?, Option.bind_eq_some_iff, Option.map_eq_some_iff]
  grind

theorem exists_value?_iff {name : List Char} :
    (∃ v, value? origin groups W name = some v) ↔ ∃ d ∈ groups, d.defines name = true := by
  constructor
  · rintro ⟨v, hv⟩
    obtain ⟨i, g, hi, hg, -⟩ := value?_eq_some_iff.mp hv
    obtain ⟨hlt, hd, -⟩ := List.findIdx?_eq_some_iff_getElem.mp hi
    exact ⟨groups[i], List.getElem_mem hlt, hd⟩
  · rintro ⟨d, hd, hname⟩
    have hfind : (groups.findIdx? (Group.defines name)).isSome = true := by
      rw [List.findIdx?_isSome, List.any_eq_true]
      exact ⟨d, hd, hname⟩
    obtain ⟨i, hi⟩ := Option.isSome_iff_exists.mp hfind
    have hlt := (List.findIdx?_eq_some_iff_getElem.mp hi).1
    exact ⟨_, value?_eq_some_iff.mpr ⟨i, groups[i], hi, List.getElem?_eq_getElem hlt, rfl⟩⟩

theorem value?_mono (h : V ≤ W) {name : List Char} {v : ℕ}
    (hv : value? origin groups V name = some v) :
    ∃ w, value? origin groups W name = some w ∧ v ≤ w := by
  obtain ⟨i, g, hi, hg, rfl⟩ := value?_eq_some_iff.mp hv
  refine ⟨_, value?_eq_some_iff.mpr ⟨i, g, hi, hg, rfl⟩, ?_⟩
  unfold Group.valueAt
  split
  · exact place_mono h i
  · exact le_rfl

theorem widen_eq_true_iff {i : ℕ} :
    widen origin groups W i = true ↔
      ∃ g name v, groups[i]? = some g ∧ g.twoForms = true ∧ g.awaited? = some name ∧
        value? origin groups W name = some v ∧ 256 ≤ v := by
  simp only [widen, Option.any_eq_true, Bool.and_eq_true, decide_eq_true_eq,
    Option.bind_eq_some_iff]
  grind

variable (origin groups) in
theorem widen_mono : Monotone (widen origin groups) := by
  intro V W h i hi
  obtain ⟨g, name, v, hg, hforms, hname, hv, hbig⟩ := widen_eq_true_iff.mp hi
  obtain ⟨w, hw, hle⟩ := value?_mono h hv
  exact widen_eq_true_iff.mpr ⟨g, name, w, hg, hforms, hname, hw, hbig.trans hle⟩

variable (origin groups) in
/-- The least choice that every operand agrees with. -/
noncomputable def least : WidthChoice := OrderHom.lfp ⟨widen origin groups, widen_mono origin groups⟩

variable (origin groups) in
theorem isLeast_least : IsLeast {W | widen origin groups W = W} (least origin groups) :=
  OrderHom.isLeast_lfp ⟨widen origin groups, widen_mono origin groups⟩

@[simp] theorem widen_least : widen origin groups (least origin groups) = least origin groups :=
  (isLeast_least origin groups).1

theorem least_le (h : widen origin groups W = W) : least origin groups ≤ W :=
  (isLeast_least origin groups).2 h

end WidthChoice
end Nmos6502.Assembly
