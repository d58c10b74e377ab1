import Nmos6502.Proofs.ParsedGroups

/-! # Renditions

While names are resolved a group changes its form, its operand bytes and its place and
nothing else. A rendition of the parsed groups has each of them in one of its forms,
placed one after the other. Which operands are wide in it is a choice of widths, and
the choice alone decides where every group lies and what every name stands for.
-/
namespace Nmos6502.Assembly
open Finset WidthChoice

/-- `h` is `g` in a form that it may take, anywhere. -/
structure Group.Variant (g h : Group) : Prop where
  eq_with : h = { g with offset := h.offset, content := h.content, bytes := h.bytes }
  known : g.state.isPending = false → h.content = g.content ∧ h.bytes = g.bytes
  pending : g.state.isPending = true → g.form? h.bytes.length = some h.content

def Group.wide (g : Group) : Bool := g.twoForms && g.bytes.length == 2

/-- The choice of widths that groups show. -/
def choiceOf (groups : List Group) : WidthChoice := fun i => groups[i]?.any Group.wide

theorem choiceOf_eq_true_iff {gs : List Group} {i : ℕ} :
    choiceOf gs i = true ↔ ∃ h, gs[i]? = some h ∧ h.wide = true := by
  simp only [choiceOf, Option.any_eq_true]

structure Rendition (origin : ℕ) (groups gs : List Group) : Prop where
  variant : List.Forall₂ Group.Variant groups gs
  placed : layout origin gs = gs

theorem Group.of_form?_eq_some {g : Group} {width : ℕ} {content : Content}
    (h : g.form? width = some content) :
    ∃ code operation mode code' mode', g.content = .opcode code operation mode ∧
      content = .opcode code' operation mode' := by
  unfold Group.form? at h
  split at h
  · rename_i code operation mode _ hc
    obtain ⟨form,-,h⟩ := Option.bind_eq_some_iff.mp h
    obtain ⟨code',-,h⟩ := Option.bind_eq_some_iff.mp h
    cases h
    exact ⟨code,operation,mode,code',form.2,hc,rfl⟩
  · simp at h

namespace Group.Variant
variable {g h : Group}

theorem refl (hg : g.Parsed) : Variant g g :=
  ⟨rfl,fun _ => ⟨rfl,rfl⟩,hg.form?_self⟩

theorem place (hv : Variant g h) (offset : ℕ) : Variant g { h with offset } := by
  refine ⟨?_,hv.known,hv.pending⟩
  rw [hv.eq_with]

theorem emits_eq (hv : Variant g h) : h.emits = g.emits := by rw [hv.eq_with]

theorem branch_eq (hv : Variant g h) : h.branch = g.branch := by rw [hv.eq_with]

theorem state_eq (hv : Variant g h) : h.state = g.state := by rw [hv.eq_with]

theorem awaited?_eq (hv : Variant g h) : h.awaited? = g.awaited? := by
  unfold Group.awaited?
  rw [hv.state_eq]

theorem form?_eq (hv : Variant g h) (width : ℕ) : h.form? width = g.form? width := by
  cases hp : g.state.isPending with
  | false =>
    rw [Group.form?_eq_none hp, Group.form?_eq_none (by rw [hv.state_eq]; exact hp)]
  | true =>
    obtain ⟨code,operation,mode,code',mode',hc,hc'⟩ := Group.of_form?_eq_some (hv.pending hp)
    unfold Group.form?
    rw [hv.state_eq, hc, hc']
    cases g.state <;> rfl

theorem twoForms_eq (hv : Variant g h) : h.twoForms = g.twoForms := by
  simp only [Group.twoForms, hv.form?_eq]

theorem defines_eq (hv : Variant g h) (name : List Char) : h.defines name = g.defines name := by
  cases hp : g.state.isPending with
  | false => simp only [Group.defines, (hv.known hp).1]
  | true =>
    obtain ⟨code,operation,mode,code',mode',hc,hc'⟩ := Group.of_form?_eq_some (hv.pending hp)
    simp only [Group.defines, hc, hc']

theorem content_size_eq (hv : Variant g h) : h.content.size = g.content.size := by
  cases hp : g.state.isPending with
  | false => rw [(hv.known hp).1]
  | true =>
    obtain ⟨code,operation,mode,code',mode',hc,hc'⟩ := Group.of_form?_eq_some (hv.pending hp)
    rw [hc, hc']
    rfl

theorem length_bytes (hg : g.Parsed) (hv : Variant g h) : h.bytes.length = g.widthIn h.wide := by
  unfold Group.widthIn Group.wide
  rw [hv.twoForms_eq]
  cases hp : g.state.isPending with
  | false =>
    have htwo : g.twoForms = false := by simp [Group.twoForms, Group.form?_eq_none hp]
    simp [htwo, (hv.known hp).2]
  | true =>
    have hself := hv.pending hp
    have hwidth := hg.width_of_form? (Option.isSome_iff_exists.mpr ⟨_,hself⟩)
    cases htwo : g.twoForms with
    | true => rcases hwidth with hw | hw <;> simp [hw]
    | false =>
      have hfirst := hg.form?_self hp
      have hstart := hg.width_of_form? (Option.isSome_iff_exists.mpr ⟨_,hfirst⟩)
      simp only [Group.twoForms, Bool.and_eq_false_iff] at htwo
      simp only [Bool.false_eq_true, if_false]
      rcases hwidth with hw | hw <;> rcases hstart with hs | hs <;>
        simp_all

theorem size_eq (hg : g.Parsed) (hv : Variant g h) : h.size = g.sizeIn h.wide := by
  unfold Group.size Group.sizeIn
  rw [hv.emits_eq, hv.content_size_eq, hv.length_bytes hg]

theorem symbol?_eq (hg : g.Parsed) (hv : Variant g h) {name : List Char}
    (hd : g.defines name = true) :
    h.symbol?.map (·.value) = some (UInt16.ofNat (g.valueAt h.offset)) := by
  have hp : g.state.isPending = false := by
    by_contra hp
    obtain ⟨code,operation,mode,_,_,hc,-⟩ :=
      Group.of_form?_eq_some (hg.form?_self (by simpa using hp))
    simp [Group.defines, hc] at hd
  obtain ⟨hc,hb⟩ := hv.known hp
  unfold Group.symbol? Group.valueAt
  unfold Group.defines at hd
  rw [hc]
  split at hd
  · simp at hd
  · rename_i hlabel
    simp [hlabel]
  · rename_i hconstant
    simp [hconstant, Group.value, hb]

end Group.Variant

theorem getElem?_layout (origin : ℕ) (gs : List Group) (i : ℕ) :
    (layout origin gs)[i]? =
      gs[i]?.map fun g => { g with offset := origin + ((gs.map Group.size).take i).sum } := by
  induction gs generalizing origin i with
  | nil => rfl
  | cons g gs ih =>
    cases i with
    | zero => simp [layout]
    | succ i => simp [layout, ih, Nat.add_assoc]

theorem layout_eq_self_iff {origin : ℕ} {gs : List Group} :
    layout origin gs = gs ↔
      ∀ i g, gs[i]? = some g → g.offset = origin + ((gs.map Group.size).take i).sum := by
  constructor
  · intro h i g hg
    have hat := getElem?_layout origin gs i
    rw [h, hg] at hat
    exact congrArg Group.offset (Option.some.inj hat)
  · intro h
    apply List.ext_getElem?
    intro i
    rw [getElem?_layout]
    cases hg : gs[i]? with
    | none => rfl
    | some g => rw [Option.map_some, ← h i g hg]

@[simp] theorem layout_layout (origin : ℕ) (gs : List Group) :
    layout origin (layout origin gs) = layout origin gs := by
  rw [layout_eq_self_iff]
  intro i g hg
  rw [map_size_layout]
  obtain ⟨g',-,rfl⟩ := Option.map_eq_some_iff.mp ((getElem?_layout origin gs i).symm.trans hg)
  rfl

theorem layout_set {origin : ℕ} {gs : List Group} (h : layout origin gs = gs) {i : ℕ}
    {g g' : Group} (hg : gs[i]? = some g) (ho : g'.offset = g.offset) (hs : g'.size = g.size) :
    layout origin (gs.set i g') = gs.set i g' := by
  rw [layout_eq_self_iff] at h ⊢
  obtain ⟨hlt,rfl⟩ := List.getElem?_eq_some_iff.mp hg
  have hsizes : (gs.set i g').map Group.size = gs.map Group.size := by
    rw [List.map_set, hs, ← List.getElem_map (f := Group.size) (h := by simpa),
      List.set_getElem_self]
  intro j k hk
  rw [hsizes]
  rw [List.getElem?_set] at hk
  split at hk
  · rename_i hij
    subst hij
    cases hk
    rw [ho]
    exact h i gs[i] hg
  · exact h j k hk

theorem checkSpace_eq_ok_iff_forall {gs : List Group} :
    checkSpace gs = .ok () ↔ ∀ h ∈ gs, h.inMemory = true := by
  unfold checkSpace
  cases hf : gs.find? (!·.inMemory) with
  | none => simpa using hf
  | some h =>
    have hout := List.find?_some hf
    simp only [reduceCtorEq, false_iff, not_forall]
    exact ⟨h,List.mem_of_find?_eq_some hf,by simpa using hout⟩

namespace Rendition
variable {origin : ℕ} {groups gs : List Group}

theorem length_eq (hr : Rendition origin groups gs) : gs.length = groups.length :=
  hr.variant.length_eq.symm

theorem getElem? (hr : Rendition origin groups gs) {i : ℕ} {h : Group} (hi : gs[i]? = some h) :
    ∃ g, groups[i]? = some g ∧ g.Variant h := by
  obtain ⟨hlt,rfl⟩ := List.getElem?_eq_some_iff.mp hi
  have hlt' : i < groups.length := hr.length_eq ▸ hlt
  exact ⟨groups[i],List.getElem?_eq_getElem hlt',hr.variant.get hlt' hlt⟩

theorem exists_mem (hr : Rendition origin groups gs) {h : Group} (hh : h ∈ gs) :
    ∃ g ∈ groups, g.Variant h := by
  obtain ⟨i,hi⟩ := List.mem_iff_getElem?.mp hh
  obtain ⟨g,hg,hv⟩ := hr.getElem? hi
  exact ⟨g,List.mem_of_getElem? hg,hv⟩

theorem exists_variant (hr : Rendition origin groups gs) {i : ℕ} {g : Group}
    (hg : groups[i]? = some g) : ∃ h, gs[i]? = some h ∧ g.Variant h := by
  obtain ⟨hlt,rfl⟩ := List.getElem?_eq_some_iff.mp hg
  have hlt' : i < gs.length := hr.length_eq ▸ hlt
  exact ⟨gs[i],List.getElem?_eq_getElem hlt',hr.variant.get hlt hlt'⟩

theorem placed_offset (hr : Rendition origin groups gs) {i : ℕ} {h : Group}
    (hi : gs[i]? = some h) : h.offset = origin + ((gs.map Group.size).take i).sum :=
  layout_eq_self_iff.mp hr.placed i h hi

theorem findIdx?_defines (hr : Rendition origin groups gs) (name : List Char) :
    gs.findIdx? (Group.defines name) = groups.findIdx? (Group.defines name) := by
  obtain ⟨hv,-⟩ := hr
  induction hv with
  | nil => rfl
  | cons hv _ ih => rw [List.findIdx?_cons, List.findIdx?_cons, hv.defines_eq, ih]

variable (hp : ∀ g ∈ groups, g.Parsed)
include hp

theorem ofParsed : Rendition origin groups (layout origin groups) := by
  refine ⟨?_,layout_layout origin groups⟩
  induction groups generalizing origin with
  | nil => exact .nil
  | cons g groups ih =>
    exact .cons ((Group.Variant.refl (hp g (List.mem_cons_self ..))).place origin)
      (ih fun g hg => hp g (List.mem_cons_of_mem _ hg))

theorem sizeAt_eq (hr : Rendition origin groups gs) (i : ℕ) :
    sizeAt groups (choiceOf gs) i = (gs[i]?.map Group.size).getD 0 := by
  unfold sizeAt choiceOf
  cases hi : gs[i]? with
  | none =>
    have hlen : groups.length ≤ i := hr.length_eq ▸ List.getElem?_eq_none_iff.mp hi
    rw [List.getElem?_eq_none hlen]
    rfl
  | some h =>
    obtain ⟨g,hg,hv⟩ := hr.getElem? hi
    rw [hg]
    exact (hv.size_eq (hp g (List.mem_of_getElem? hg))).symm

/-- The choice of widths decides where every group lies. -/
theorem place_eq (hr : Rendition origin groups gs) (i : ℕ) :
    place origin groups (choiceOf gs) i = origin + ((gs.map Group.size).take i).sum := by
  induction i with
  | zero => simp [WidthChoice.place]
  | succ i ih =>
    rw [place_succ, ih, hr.sizeAt_eq hp, List.take_add_one, List.sum_append, List.getElem?_map]
    cases gs[i]? <;> simp [Nat.add_assoc]

theorem offset_eq (hr : Rendition origin groups gs) {i : ℕ} {h : Group} (hi : gs[i]? = some h) :
    h.offset = place origin groups (choiceOf gs) i :=
  (hr.placed_offset hi).trans (hr.place_eq hp i).symm

theorem next_eq (hr : Rendition origin groups gs) {i : ℕ} {h : Group} (hi : gs[i]? = some h) :
    h.next = place origin groups (choiceOf gs) (i + 1) := by
  rw [place_succ, ← hr.offset_eq hp hi, hr.sizeAt_eq hp, hi]
  rfl

theorem lookup_eq (hr : Rendition origin groups gs) (name : List Char) :
    (lookup gs name).map (·.value) =
      (value? origin groups (choiceOf gs) name).map UInt16.ofNat := by
  unfold lookup value?
  rw [List.find?_eq_bind_findIdx?_getElem?, hr.findIdx?_defines]
  cases hi : groups.findIdx? (Group.defines name) with
  | none => rfl
  | some i =>
    obtain ⟨hlt,hd,-⟩ := List.findIdx?_eq_some_iff_getElem.mp hi
    have hg := List.getElem?_eq_getElem hlt
    have hh := List.getElem?_eq_getElem (hr.length_eq.symm ▸ hlt : i < gs.length)
    have hv := hr.variant.get hlt (hr.length_eq.symm ▸ hlt)
    simp only [Option.bind_some, hh, hg, Option.map_some, ← hr.offset_eq hp hh]
    exact hv.symbol?_eq (hp _ (List.getElem_mem hlt)) hd

theorem exists_lookup (hr : Rendition origin groups gs) {name : List Char}
    (hd : ∃ d ∈ groups, d.defines name = true) : ∃ symbol, lookup gs name = some symbol := by
  obtain ⟨v,hv⟩ := exists_value?_iff.mpr hd
  have hlookup := hr.lookup_eq hp name
  rw [hv] at hlookup
  obtain ⟨symbol,hl,-⟩ := Option.map_eq_some_iff.mp hlookup
  exact ⟨symbol,hl⟩

theorem value?_lt {W : WidthChoice} (hW : InMemory origin groups W) {name : List Char} {v : ℕ}
    (hv : value? origin groups W name = some v) : v < 65536 := by
  obtain ⟨i,g,hi,hg,rfl⟩ := value?_eq_some_iff.mp hv
  obtain ⟨hlt,hd,-⟩ := List.findIdx?_eq_some_iff_getElem.mp hi
  obtain ⟨_,rfl⟩ := List.getElem?_eq_some_iff.mp hg
  have hstart := (hW i hlt).1
  unfold Group.defines at hd
  unfold Group.valueAt
  split
  · omega
  · rename_i hlabel
    split at hd
    · simp at hd
    · rename_i name' hc
      exact absurd hc (hlabel name')
    · rename_i name' hc
      exact (hp _ (List.getElem_mem hlt)).value_lt hc

theorem lookup_eq_some_iff (hr : Rendition origin groups gs)
    (hmem : InMemory origin groups (choiceOf gs)) {name : List Char} {value : UInt16} :
    (lookup gs name).map (·.value) = some value ↔
      value? origin groups (choiceOf gs) name = some value.toNat := by
  rw [hr.lookup_eq hp, Option.map_eq_some_iff]
  constructor
  · rintro ⟨v,hv,rfl⟩
    rw [hv, UInt16.toNat_ofNat_of_lt' (value?_lt hp hmem hv)]
  · intro hv
    exact ⟨value.toNat,hv,UInt16.ofNat_toNat⟩

theorem checkSpace_eq_ok_iff (hr : Rendition origin groups gs) :
    checkSpace gs = .ok () ↔ InMemory origin groups (choiceOf gs) := by
  rw [checkSpace_eq_ok_iff_forall]
  simp only [Group.inMemory, Bool.and_eq_true, decide_eq_true_eq]
  constructor
  · intro hall i hi
    have hat := List.getElem?_eq_getElem (hr.length_eq.symm ▸ hi : i < gs.length)
    rw [← hr.offset_eq hp hat, ← hr.next_eq hp hat]
    exact hall _ (List.mem_of_getElem? hat)
  · intro hmem h hh
    obtain ⟨i,hi,rfl⟩ := List.getElem_of_mem hh
    have hat := List.getElem?_eq_getElem hi
    rw [hr.offset_eq hp hat, hr.next_eq hp hat]
    exact hmem i (hr.length_eq ▸ hi)

end Rendition
end Nmos6502.Assembly
