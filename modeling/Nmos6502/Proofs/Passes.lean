import Nmos6502.Proofs.Rendition

/-! # Passes

A step of a pass fills the operand of one group from the value of its name. It turns a
rendition into a rendition, and at most the width of that one operand changes. After a
pass that changed no width every operand is what its name asks for.
-/
namespace Nmos6502.Assembly
open WidthChoice

def Group.fill (value : UInt16) (g : Group) : Group :=
  if g.branch then g.fillBranch value else g.fillOperand value

/-- Each of the first groups that waits for a name has the operand that its value asks for. -/
def FilledBelow (n : ℕ) (gs : List Group) : Prop :=
  ∀ i < n, ∀ h name, gs[i]? = some h → h.awaited? = some name →
    ∃ value, (lookup gs name).map (·.value) = some value ∧ h.fill value = h

theorem length_valueBytes (width : ℕ) (value : UInt16) :
    (valueBytes width value).length = width := length_littleEndian width value.toNat

theorem widthOf_eq_one_or_two (value : UInt16) : widthOf value = 1 ∨ widthOf value = 2 := by
  unfold widthOf
  split
  · exact .inl rfl
  · exact .inr rfl

theorem two_eq_widthOf_iff {value : UInt16} : widthOf value = 2 ↔ 256 ≤ value.toNat := by
  unfold widthOf
  split <;> omega

namespace Group

theorem awaited?_eq_some_iff {g : Group} {name : List Char} :
    g.awaited? = some name ↔ ∃ modes, g.state = .pending name modes := by
  unfold Group.awaited?
  split
  · rename_i hs
    simp [hs]
  · rename_i hs
    simp only [reduceCtorEq, false_iff, not_exists]
    exact hs name

theorem isPending_of_awaited? {g : Group} {name : List Char} (h : g.awaited? = some name) :
    g.state.isPending = true := by
  obtain ⟨modes,hs⟩ := awaited?_eq_some_iff.mp h
  rw [hs]
  rfl

theorem awaited?_of_twoForms {g : Group} (h : g.twoForms = true) :
    ∃ name, g.awaited? = some name := by
  simp only [Group.twoForms, Group.form?, Bool.and_eq_true] at h
  split at h
  · rename_i hs _
    exact ⟨_,awaited?_eq_some_iff.mpr ⟨_,hs⟩⟩
  · simp at h

theorem fill_eq_with (g : Group) (value : UInt16) :
    g.fill value = { g with content := (g.fill value).content, bytes := (g.fill value).bytes } := by
  unfold Group.fill Group.fillOperand
  split
  · rfl
  · dsimp only
    split
    · rfl
    · split <;> rfl

@[simp] theorem fill_offset (g : Group) (value : UInt16) : (g.fill value).offset = g.offset := by
  rw [fill_eq_with]

theorem fillOperand_cases (g : Group) (value : UInt16) :
    (∃ content, widthOf value ≠ g.bytes.length ∧ g.form? (widthOf value) = some content ∧
      g.fillOperand value = { g with content, bytes := valueBytes (widthOf value) value }) ∨
    ((widthOf value = g.bytes.length ∨ g.form? (widthOf value) = none) ∧
      g.fillOperand value = { g with bytes := valueBytes g.bytes.length value }) := by
  unfold Group.fillOperand
  dsimp only
  split
  · rename_i h
    exact .inr ⟨.inl h,rfl⟩
  · rename_i h
    split
    · rename_i content hf
      exact .inl ⟨content,h,hf,rfl⟩
    · rename_i hf
      exact .inr ⟨.inr hf,rfl⟩

theorem fillOperand_fillOperand (g : Group) (value : UInt16) :
    (g.fillOperand value).fillOperand value = g.fillOperand value := by
  rcases g.fillOperand_cases value with ⟨content,-,-,h⟩ | ⟨hf,h⟩
  · rw [h]
    unfold Group.fillOperand
    simp [length_valueBytes]
  · rw [h]
    unfold Group.fillOperand
    rcases hf with hf | hf
    · simp [length_valueBytes, hf]
    · have hform : ({ g with bytes := valueBytes g.bytes.length value } : Group).form?
          (widthOf value) = none := hf
      simp [length_valueBytes, hform]

namespace Variant
variable {g h : Group} (hg : g.Parsed) (hv : Variant g h)

include hg hv in
theorem twoForms_of_branch (hb : h.branch = true) : h.twoForms = false := by
  by_contra htwo
  rw [Bool.not_eq_false, hv.twoForms_eq, Group.twoForms, Bool.and_eq_true] at htwo
  exact absurd (hg.width_of_branch (hv.branch_eq ▸ hb) htwo.2) (by decide)

variable (hp : g.state.isPending = true)
include hg hv hp

theorem length_of_branch (hb : h.branch = true) : h.bytes.length = 1 :=
  hg.width_of_branch (hv.branch_eq ▸ hb) (Option.isSome_iff_exists.mpr ⟨_,hv.pending hp⟩)

theorem twoForms_of_form? {width : ℕ} {content : Content} (hne : width ≠ h.bytes.length)
    (hf : h.form? width = some content) : h.twoForms = true := by
  have hself := hv.form?_eq _ ▸ hv.pending hp
  have hlength := hg.width_of_form? (Option.isSome_iff_exists.mpr ⟨_,hv.pending hp⟩)
  have hwidth := hg.width_of_form? (Option.isSome_iff_exists.mpr ⟨_,hv.form?_eq _ ▸ hf⟩)
  unfold Group.twoForms
  rcases hwidth with rfl | rfl <;> rcases hlength with hl | hl <;> simp_all

theorem length_fill (value : UInt16) :
    (h.fill value).bytes.length = if h.twoForms then widthOf value else h.bytes.length := by
  unfold Group.fill
  by_cases hb : h.branch = true
  · rw [if_pos hb, hv.twoForms_of_branch hg hb, hv.length_of_branch hg hp hb]
    rfl
  rw [if_neg hb]
  rcases h.fillOperand_cases value with ⟨content,hne,hf,heq⟩ | ⟨hf,heq⟩
  · rw [heq, hv.twoForms_of_form? hg hp hne hf]
    exact length_valueBytes ..
  · rw [heq]
    dsimp only
    rw [length_valueBytes]
    split
    · rename_i htwo
      rcases hf with hf | hf
      · exact hf.symm
      · simp only [Group.twoForms, Bool.and_eq_true] at htwo
        rcases widthOf_eq_one_or_two value with hw | hw <;> simp_all
    · rfl

theorem fill (value : UInt16) : Variant g (h.fill value) := by
  have hself := hv.pending hp
  refine ⟨?_,fun hknown => by simp [hknown] at hp,fun _ => ?_⟩
  · rw [fill_eq_with, hv.eq_with]
  · unfold Group.fill
    by_cases hb : h.branch = true
    · rw [hv.length_of_branch hg hp hb] at hself
      rw [if_pos hb]
      exact hself
    rw [if_neg hb]
    rcases h.fillOperand_cases value with ⟨content,-,hf,heq⟩ | ⟨-,heq⟩
    · rw [heq]
      dsimp only
      rw [length_valueBytes, ← hv.form?_eq, hf]
    · rw [heq]
      dsimp only
      rw [length_valueBytes, hself]

theorem wide_fill (value : UInt16) :
    (h.fill value).wide = (h.twoForms && decide (256 ≤ value.toNat)) := by
  unfold Group.wide
  rw [(hv.fill hg hp value).twoForms_eq, ← hv.twoForms_eq, hv.length_fill hg hp value]
  cases h.twoForms with
  | false => rfl
  | true => simp [beq_eq_decide, ← two_eq_widthOf_iff]

theorem size_fill {value : UInt16} (hl : (h.fill value).bytes.length = h.bytes.length) :
    (h.fill value).size = h.size := by
  have hv' := hv.fill hg hp value
  unfold Group.size
  rw [hv'.emits_eq, hv.emits_eq, hv'.content_size_eq, hv.content_size_eq, hl]

theorem fill_fill (value : UInt16) : (h.fill value).fill value = h.fill value := by
  unfold Group.fill
  by_cases hb : h.branch = true
  · have hnext : (h.fillBranch value).next = h.next := by
      simp [Group.next, Group.size, Group.fillBranch, hv.length_of_branch hg hp hb]
    have hb' : (h.fillBranch value).branch = true := hb
    have hd : (h.fillBranch value).displacement value = h.displacement value := by
      rw [Group.displacement, hnext, Group.displacement]
    rw [if_pos hb, if_pos hb', Group.fillBranch, hd]
    rfl
  · have hb' : (h.fillOperand value).branch = h.branch := by
      rcases h.fillOperand_cases value with ⟨content,-,-,heq⟩ | ⟨-,heq⟩ <;> rw [heq]
    rw [if_neg hb, hb', if_neg hb, fillOperand_fillOperand]

end Variant
end Group

theorem Rendition.replace {origin : ℕ} {groups gs : List Group} (hr : Rendition origin groups gs)
    {i : ℕ} {g h : Group} (hi : groups[i]? = some g) (hv : g.Variant h) :
    Rendition origin groups (layout origin (gs.set i h)) := by
  refine ⟨List.forall₂_iff_get.mpr ⟨by simp [hr.length_eq],?_⟩,layout_layout origin _⟩
  intro j hj hj'
  have hat := getElem?_layout origin (gs.set i h) j
  rw [List.getElem?_eq_getElem hj'] at hat
  obtain ⟨k,hk,heq⟩ := Option.map_eq_some_iff.mp hat.symm
  rw [List.get_eq_getElem, List.get_eq_getElem, ← heq]
  apply Group.Variant.place
  by_cases hij : i = j
  · subst hij
    rw [List.getElem?_set_self (hr.length_eq ▸ hj)] at hk
    cases hk
    rw [List.getElem?_eq_getElem hj] at hi
    cases hi
    exact hv
  · rw [List.getElem?_set_ne hij] at hk
    obtain ⟨g',hg',hv'⟩ := hr.getElem? hk
    rw [List.getElem?_eq_getElem hj] at hg'
    cases hg'
    exact hv'

theorem choiceOf_layout (origin : ℕ) (gs : List Group) :
    choiceOf (layout origin gs) = choiceOf gs := by
  funext i
  unfold choiceOf
  rw [getElem?_layout]
  cases gs[i]? <;> rfl

theorem choiceOf_set {gs : List Group} {i : ℕ} (hi : i < gs.length) (h : Group) :
    choiceOf (gs.set i h) = Function.update (choiceOf gs) i h.wide := by
  funext j
  unfold choiceOf
  by_cases hij : j = i
  · subst hij
    rw [List.getElem?_set_self hi, Function.update_self]
    rfl
  · rw [List.getElem?_set_ne (Ne.symm hij), Function.update_of_ne hij]

theorem known_or_awaits (gs : List Group) (i : ℕ) :
    (∀ g, gs[i]? = some g → g.awaited? = none) ∨
      ∃ (h : Group) (name : List Char), gs[i]? = some h ∧ h.awaited? = some name := by
  cases hi : gs[i]? with
  | none => exact .inl (by simp)
  | some h =>
    cases hn : h.awaited? with
    | none => exact .inl (by simp [hn])
    | some name => exact .inr ⟨h,name,rfl,hn⟩

theorem Pass.fillAt_of_known {origin : ℕ} {pass : Pass} {i : ℕ}
    (h : ∀ g, pass.groups[i]? = some g → g.awaited? = none) :
    pass.fillAt origin i = .ok pass := by
  unfold Pass.fillAt
  split
  · rfl
  · rename_i g hi
    have hg := h g hi
    split
    · rename_i hs
      simp [Group.awaited?_eq_some_iff.mpr ⟨_,hs⟩] at hg
    · rfl

section
variable {origin : ℕ} {groups : List Group} (hp : ∀ g ∈ groups, g.Parsed)
include hp

theorem Rendition.getElem?_of_awaited? {gs : List Group} (hr : Rendition origin groups gs) {i : ℕ}
    {h : Group} (hi : gs[i]? = some h) {name : List Char} (hn : h.awaited? = some name) :
    ∃ g, groups[i]? = some g ∧ g.Parsed ∧ g.state.isPending = true ∧ g.Variant h := by
  obtain ⟨g,hg,hv⟩ := hr.getElem? hi
  exact ⟨g,hg,hp g (List.mem_of_getElem? hg),hv.state_eq ▸ Group.isPending_of_awaited? hn,hv⟩

/-- A step of a pass. A group that waits for a name gets its operand, and the groups are
laid out anew if that changed a width; it makes no difference if they always are. -/
theorem Pass.fillAt_of_awaited {pass : Pass} (hr : Rendition origin groups pass.groups) {i : ℕ}
    {h : Group} (hi : pass.groups[i]? = some h) {name : List Char} (hn : h.awaited? = some name) :
    pass.fillAt origin i =
      match lookup pass.groups name with
      | none => .error ⟨h.line, .undefinedLabel name⟩
      | some symbol => .ok
          ⟨layout origin (pass.groups.set i (h.fill symbol.value)),
            pass.resized + if (h.fill symbol.value).bytes.length = h.bytes.length then 0 else 1⟩ := by
  obtain ⟨g,-,hparsed,hpend,hv⟩ := hr.getElem?_of_awaited? hp hi hn
  have hemits : h.emits = true := hv.emits_eq ▸ hparsed.emits_of_pending hpend
  obtain ⟨modes,hstate⟩ := Group.awaited?_eq_some_iff.mp hn
  unfold Pass.fillAt
  simp only [hi, hemits, hstate]
  cases lookup pass.groups name with
  | none => rfl
  | some symbol =>
    dsimp only
    have hsame : (h.fill symbol.value).bytes.length = h.bytes.length →
        layout origin (pass.groups.set i (h.fill symbol.value)) =
          pass.groups.set i (h.fill symbol.value) := fun hl =>
      layout_set hr.placed hi (Group.fill_offset ..) (hv.size_fill hparsed hpend hl)
    by_cases hb : h.branch = true
    · have hfill : h.fill symbol.value = h.fillBranch symbol.value := if_pos hb
      have hl : (h.fillBranch symbol.value).bytes.length = h.bytes.length :=
        (hv.length_of_branch hparsed hpend hb).symm
      rw [hfill] at hsame ⊢
      simp only [if_pos hb, if_pos hl, hsame hl, Nat.add_zero]
    · have hfill : h.fill symbol.value = h.fillOperand symbol.value := if_neg hb
      rw [hfill] at hsame ⊢
      simp only [if_neg hb]
      split
      · rename_i hl
        rw [hsame hl, Nat.add_zero]
      · rfl

/-- What a step can do to the group at an index. -/
inductive Pass.Step (origin : ℕ) (i : ℕ) (pass : Pass) : Pass → Prop
  | rest (h : ∀ g, pass.groups[i]? = some g → g.awaited? = none) : Step origin i pass pass
  | fill (h : Group) (name : List Char) (symbol : Symbol) (hi : pass.groups[i]? = some h)
      (hn : h.awaited? = some name) (hl : lookup pass.groups name = some symbol) :
      Step origin i pass ⟨layout origin (pass.groups.set i (h.fill symbol.value)),
        pass.resized + if (h.fill symbol.value).bytes.length = h.bytes.length then 0 else 1⟩

theorem Pass.step_of_fillAt {pass pass' : Pass} (hr : Rendition origin groups pass.groups) {i : ℕ}
    (h : pass.fillAt origin i = .ok pass') : Pass.Step origin i pass pass' := by
  rcases known_or_awaits pass.groups i with hknown | ⟨k,name,hi,hn⟩
  · rw [Pass.fillAt_of_known hknown] at h
    cases h
    exact .rest hknown
  · rw [Pass.fillAt_of_awaited hp hr hi hn] at h
    cases hl : lookup pass.groups name with
    | none => simp [hl] at h
    | some symbol =>
      rw [hl] at h
      cases h
      exact .fill k name symbol hi hn hl

namespace Pass.Step
variable {pass pass' : Pass} {i : ℕ} (hs : Step origin i pass pass')
  (hr : Rendition origin groups pass.groups)
include hs hr

theorem rendition : Rendition origin groups pass'.groups := by
  cases hs with
  | rest => exact hr
  | fill h name symbol hi hn hl =>
    obtain ⟨g,hg,hparsed,hpend,hv⟩ := hr.getElem?_of_awaited? hp hi hn
    exact hr.replace hg (hv.fill hparsed hpend symbol.value)

theorem resized_eq :
    pass'.resized = pass.resized +
      if choiceOf pass'.groups i = choiceOf pass.groups i then 0 else 1 := by
  cases hs with
  | rest => simp
  | fill h name symbol hi hn hl =>
    obtain ⟨g,-,hparsed,hpend,hv⟩ := hr.getElem?_of_awaited? hp hi hn
    have hv' := hv.fill hparsed hpend symbol.value
    have hlt := (List.getElem?_eq_some_iff.mp hi).1
    have hat : choiceOf pass.groups i = h.wide := by simp [choiceOf, hi]
    have hiff : (h.fill symbol.value).bytes.length = h.bytes.length ↔
        (h.fill symbol.value).wide = h.wide := by
      constructor
      · intro hl
        unfold Group.wide
        rw [hl, hv'.twoForms_eq, hv.twoForms_eq]
      · intro hw
        rw [hv'.length_bytes hparsed, hv.length_bytes hparsed, hw]
    simp only [choiceOf_layout, choiceOf_set hlt, Function.update_self, hat, hiff]

/-- In memory a step is a step towards the choice that the operands ask for. -/
theorem choiceOf_eq (hmem : InMemory origin groups (choiceOf pass.groups)) :
    choiceOf pass'.groups = Function.update (choiceOf pass.groups) i
      (widen origin groups (choiceOf pass.groups) i) := by
  cases hs with
  | rest hrest =>
    have hnarrow : choiceOf pass.groups i = false := by
      by_contra hw
      obtain ⟨h,hi,hw⟩ := choiceOf_eq_true_iff.mp (Bool.not_eq_false _ ▸ hw)
      simp only [Group.wide, Bool.and_eq_true] at hw
      obtain ⟨name,hn⟩ := Group.awaited?_of_twoForms hw.1
      simp [hrest h hi] at hn
    have hstay : widen origin groups (choiceOf pass.groups) i = false := by
      by_contra hw
      obtain ⟨g,name,_,hg,-,hn,-⟩ := widen_eq_true_iff.mp (Bool.not_eq_false _ ▸ hw)
      obtain ⟨h,hi,hv⟩ := hr.exists_variant hg
      rw [← hv.awaited?_eq, hrest _ hi] at hn
      simp at hn
    rw [hstay, ← hnarrow, Function.update_eq_self]
  | fill h name symbol hi hn hl =>
    obtain ⟨g,hg,hparsed,hpend,hv⟩ := hr.getElem?_of_awaited? hp hi hn
    have hlt := (List.getElem?_eq_some_iff.mp hi).1
    have hvalue := (hr.lookup_eq_some_iff hp hmem).mp (congrArg (Option.map (·.value)) hl)
    rw [choiceOf_layout, choiceOf_set hlt, hv.wide_fill hparsed hpend, hv.twoForms_eq]
    congr 1
    simp [widen, hg, ← hv.awaited?_eq, hn, hvalue]

theorem choiceOf_of_resized (h0 : pass'.resized = 0) :
    pass.resized = 0 ∧ choiceOf pass'.groups = choiceOf pass.groups := by
  have hcount := hs.resized_eq hp hr
  have hat : choiceOf pass'.groups i = choiceOf pass.groups i := by
    by_contra hne
    rw [if_neg hne] at hcount
    omega
  rw [if_pos hat] at hcount
  refine ⟨by omega,?_⟩
  cases hs with
  | rest => rfl
  | fill h name symbol hi =>
    have hlt := (List.getElem?_eq_some_iff.mp hi).1
    rw [choiceOf_layout, choiceOf_set hlt] at hat ⊢
    rw [Function.update_self] at hat
    rw [hat, Function.update_eq_self]

/-- Without a change of width nothing moves, and the operands filled before stay right. -/
theorem filledBelow (h0 : pass'.resized = 0) (hf : FilledBelow i pass.groups) :
    FilledBelow (i + 1) pass'.groups := by
  have hr' := hs.rendition hp hr
  have hchoice := (hs.choiceOf_of_resized hp hr h0).2
  have hvalue : ∀ name, (lookup pass'.groups name).map (·.value) =
      (lookup pass.groups name).map (·.value) := by
    intro name
    rw [hr'.lookup_eq hp, hr.lookup_eq hp, hchoice]
  intro j hj k other hk ho
  rw [hvalue]
  cases hs with
  | rest hrest =>
    rcases Nat.lt_succ_iff_lt_or_eq.mp hj with hj | rfl
    · exact hf j hj k other hk ho
    · simp [hrest k hk] at ho
  | fill h name symbol hi hn hl =>
    obtain ⟨g,-,hparsed,hpend,hv⟩ := hr.getElem?_of_awaited? hp hi hn
    have hlength : (h.fill symbol.value).bytes.length = h.bytes.length := by
      by_contra hne
      simp [hne] at h0
    dsimp only at hk
    rw [layout_set hr.placed hi (Group.fill_offset ..)
      (hv.size_fill hparsed hpend hlength)] at hk
    rcases Nat.lt_succ_iff_lt_or_eq.mp hj with hj | rfl
    · rw [List.getElem?_set_ne hj.ne'] at hk
      exact hf j hj k other hk ho
    · rw [List.getElem?_set_self (List.getElem?_eq_some_iff.mp hi).1] at hk
      cases hk
      rw [(hv.fill hparsed hpend symbol.value).awaited?_eq, ← hv.awaited?_eq, hn] at ho
      cases ho
      exact ⟨symbol.value,by rw [hl]; rfl,hv.fill_fill hparsed hpend symbol.value⟩

end Pass.Step

section
variable {gs : List Group} {pass : Pass} (hr : Rendition origin groups (layout origin gs))
  (h : runPass origin gs = .ok pass)
include hr h

theorem runPass_rendition : Rendition origin groups pass.groups :=
  foldlM_range_induction (P := fun _ a => Rendition origin groups a.groups) hr
    (fun _ _ _ _ ha hab => (Pass.step_of_fillAt hp ha hab).rendition hp ha) h

theorem runPass_filled (h0 : pass.resized = 0) :
    FilledBelow pass.groups.length pass.groups ∧ choiceOf pass.groups = choiceOf gs := by
  have hrun := foldlM_range_induction
    (P := fun i a => Rendition origin groups a.groups ∧
      (a.resized = 0 → FilledBelow i a.groups ∧ choiceOf a.groups = choiceOf gs))
    ⟨hr,fun _ => ⟨fun _ hi => absurd hi (Nat.not_lt_zero _),choiceOf_layout origin gs⟩⟩ ?_ h
  · have hlength : pass.groups.length = gs.length := by
      rw [hrun.1.length_eq, ← hr.length_eq, length_layout]
    rw [hlength]
    exact hrun.2 h0
  · intro i _ a b ⟨ha,hfilled⟩ hab
    have hs := Pass.step_of_fillAt hp ha hab
    refine ⟨hs.rendition hp ha,fun hb => ?_⟩
    obtain ⟨hzero,hchoice⟩ := hs.choiceOf_of_resized hp ha hb
    obtain ⟨hbelow,hsame⟩ := hfilled hzero
    exact ⟨hs.filledBelow hp ha hb hbelow,hchoice.trans hsame⟩

end

section
variable {gs : List Group} (hf : FilledBelow gs.length gs) (hr : Rendition origin groups gs)
  (hmem : InMemory origin groups (choiceOf gs))
include hf hr hmem

theorem FilledBelow.wide_eq {i : ℕ} {h : Group} {name : List Char} (hi : gs[i]? = some h)
    (hn : h.awaited? = some name) :
    ∃ (g : Group) (value : UInt16), groups[i]? = some g ∧ g.awaited? = some name ∧
      value? origin groups (choiceOf gs) name = some value.toNat ∧
      h.wide = (g.twoForms && decide (256 ≤ value.toNat)) := by
  obtain ⟨g,hg,hparsed,hpend,hv⟩ := hr.getElem?_of_awaited? hp hi hn
  obtain ⟨value,hl,hfill⟩ := hf i (List.getElem?_eq_some_iff.mp hi).1 h name hi hn
  refine ⟨g,value,hg,hv.awaited?_eq ▸ hn,(hr.lookup_eq_some_iff hp hmem).mp hl,?_⟩
  rw [← hfill, hv.wide_fill hparsed hpend, hv.twoForms_eq]

theorem FilledBelow.widen_eq : widen origin groups (choiceOf gs) = choiceOf gs := by
  funext i
  rw [Bool.eq_iff_iff, widen_eq_true_iff, choiceOf_eq_true_iff]
  constructor
  · rintro ⟨g,name,v,hg,htwo,hn,hv,hbig⟩
    obtain ⟨h,hi,hvariant⟩ := hr.exists_variant hg
    obtain ⟨g',value,hg',-,hvalue,hw⟩ := hf.wide_eq hp hr hmem hi (hvariant.awaited?_eq ▸ hn)
    cases hg.symm.trans hg'
    cases hv.symm.trans hvalue
    exact ⟨_,hi,by rw [hw, htwo]; simpa using hbig⟩
  · rintro ⟨h,hi,hw⟩
    simp only [Group.wide, Bool.and_eq_true] at hw
    obtain ⟨name,hn⟩ := Group.awaited?_of_twoForms hw.1
    obtain ⟨g,value,hg,hname,hvalue,hwide⟩ := hf.wide_eq hp hr hmem hi hn
    simp only [Group.wide, hw, Bool.and_self, Bool.true_eq, Bool.and_eq_true,
      decide_eq_true_eq] at hwide
    exact ⟨g,name,_,hg,hwide.1,hname,hvalue,hwide.2⟩

end

theorem Pass.Step.exists_value? {pass pass' : Pass} {i : ℕ} (hs : Step origin i pass pass')
    (hr : Rendition origin groups pass.groups) {g : Group} (hg : groups[i]? = some g)
    {name : List Char} (hn : g.awaited? = some name) :
    ∃ v, value? origin groups (choiceOf pass.groups) name = some v := by
  obtain ⟨k,hi,hv⟩ := hr.exists_variant hg
  rw [← hv.awaited?_eq] at hn
  cases hs with
  | rest hrest => simp [hrest _ hi] at hn
  | fill h other symbol hi' ho hl =>
    cases hi.symm.trans hi'
    cases hn.symm.trans ho
    have hlookup := hr.lookup_eq hp name
    rw [hl] at hlookup
    obtain ⟨v,hv,-⟩ := Option.map_eq_some_iff.mp hlookup.symm
    exact ⟨v,hv⟩

theorem settle_rendition {gs final : List Group} {n : ℕ}
    (hr : Rendition origin groups (layout origin gs)) (h : settle origin (n + 1) gs = .ok final) :
    Rendition origin groups final := by
  induction n generalizing gs with
  | zero =>
    obtain ⟨pass,hpass,h⟩ := bind_eq_ok_iff.mp h
    have hrun := runPass_rendition hp hr hpass
    simp only [settle, ite_self, Except.ok.injEq] at h
    exact h ▸ hrun
  | succ n ih =>
    obtain ⟨pass,hpass,h⟩ := bind_eq_ok_iff.mp h
    have hrun := runPass_rendition hp hr hpass
    split at h
    · cases h
      exact hrun
    · exact ih (hrun.placed.symm ▸ hrun) h

end

theorem checkBranches_eq_ok_iff {gs : List Group} :
    checkBranches gs = .ok () ↔ ∀ h ∈ gs, h.rangeError? gs = none := by
  unfold checkBranches
  cases hf : gs.findSome? (Group.rangeError? gs) with
  | none => simpa using hf
  | some error =>
    obtain ⟨h,hh,herror⟩ := List.exists_of_findSome?_eq_some hf
    simp only [reduceCtorEq, false_iff, not_forall]
    exact ⟨h,hh,by simp [herror]⟩

theorem resolve_eq_ok_iff {origin : UInt16} {checkRange : Bool} {groups final : List Group} :
    resolve origin checkRange groups = .ok final ↔
      ∃ gs, settle origin.toNat (groups.countP (·.state.isPending) + 1) groups = .ok gs ∧
        checkSpace gs = .ok () ∧ (checkRange = true → checkBranches gs = .ok ()) ∧
        final = gs.map Group.close := by
  unfold resolve
  constructor
  · intro h
    obtain ⟨gs,hgs,h⟩ := bind_eq_ok_iff.mp h
    obtain ⟨_,hspace,h⟩ := bind_eq_ok_iff.mp h
    refine ⟨gs,hgs,hspace,?_⟩
    cases checkRange with
    | false =>
      cases h
      exact ⟨by simp,rfl⟩
    | true =>
      obtain ⟨_,hrange,h⟩ := bind_eq_ok_iff.mp h
      cases h
      exact ⟨fun _ => hrange,rfl⟩
  · rintro ⟨gs,hgs,hspace,hrange,rfl⟩
    cases checkRange with
    | false => simp [hgs, hspace, bind, Except.bind]
    | true => simp [hgs, hspace, hrange rfl, bind, Except.bind]

end Nmos6502.Assembly
