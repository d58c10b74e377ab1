import Nmos6502.Proofs.Passes

/-! # Convergence to the least choice of widths

As long as the groups lie in memory a pass is a climb: every step brings the choice of
widths nearer to the one that its own layout asks for, and never beyond the least choice
that every operand agrees with. A pass that changes a width makes more operands wide,
so the climb ends, and it can only end at the least choice.
-/
namespace Nmos6502.Assembly
open WidthChoice

/-- Some group defines every name that a group waits for. -/
def NamesDefined (groups : List Group) : Prop :=
  ∀ g ∈ groups, ∀ name, g.awaited? = some name → ∃ d ∈ groups, d.defines name = true

def Pass.after (origin : ℕ) : ℕ → Pass → Except Error Pass
  | 0, pass => .ok pass
  | k + 1, pass => runPass origin pass.groups >>= Pass.after origin k

/-- Groups on the way up to the least choice of widths. -/
structure Climbing (origin : ℕ) (groups gs : List Group) : Prop where
  rendition : Rendition origin groups gs
  le_widen : choiceOf gs ≤ widen origin groups (choiceOf gs)
  le_least : choiceOf gs ≤ least origin groups

theorem Pass.after_succ (origin k : ℕ) (pass : Pass) :
    Pass.after origin (k + 1) pass =
      Pass.after origin k pass >>= fun last => runPass origin last.groups := by
  induction k generalizing pass with
  | zero => exact bind_pure _
  | succ k ih =>
    rw [Pass.after, Pass.after]
    cases runPass origin pass.groups with
    | error e => rfl
    | ok next => exact ih next

@[simp] theorem countP_wide_layout (origin : ℕ) (gs : List Group) :
    (layout origin gs).countP Group.wide = gs.countP Group.wide := by
  induction gs generalizing origin with
  | nil => rfl
  | cons g gs ih =>
    rw [layout, List.countP_cons, List.countP_cons, ih]
    rfl

theorem Rendition.countP_wide_le {origin : ℕ} {groups gs : List Group}
    (hr : Rendition origin groups gs) :
    gs.countP Group.wide ≤ groups.countP (·.state.isPending) := by
  obtain ⟨hv,-⟩ := hr
  induction hv with
  | nil => exact le_rfl
  | @cons g h groups gs hv _ ih =>
    have hhead : h.wide = true → g.state.isPending = true := by
      intro hw
      simp only [Group.wide, Bool.and_eq_true] at hw
      obtain ⟨name,hn⟩ := Group.awaited?_of_twoForms hw.1
      exact hv.state_eq ▸ Group.isPending_of_awaited? hn
    rw [List.countP_cons, List.countP_cons]
    cases hw : h.wide with
    | false => simpa using ih.trans (Nat.le_add_right _ _)
    | true => simpa [hhead hw] using ih

section
variable {origin : ℕ} {groups : List Group} (hp : ∀ g ∈ groups, g.Parsed)
include hp

theorem Rendition.length_bytes {gs : List Group} (hr : Rendition origin groups (layout origin gs))
    {i : ℕ} {g h : Group} (hg : groups[i]? = some g) (hi : gs[i]? = some h) :
    h.bytes.length = g.widthIn (choiceOf gs i) := by
  have hat := getElem?_layout origin gs i
  rw [hi, Option.map_some] at hat
  obtain ⟨g',hg',hv⟩ := hr.getElem? hat
  cases hg.symm.trans hg'
  have hwide : choiceOf gs i = h.wide := by simp [choiceOf, hi]
  rw [hwide]
  have hlength := hv.length_bytes (hp g (List.mem_of_getElem? hg))
  exact hlength

theorem choiceOf_parsed : choiceOf groups = ⊥ := by
  funext i
  by_contra hw
  obtain ⟨g,hi,hw⟩ := choiceOf_eq_true_iff.mp (Bool.not_eq_false _ ▸ hw)
  simp only [Group.wide, Bool.and_eq_true, beq_iff_eq] at hw
  have := (hp g (List.mem_of_getElem? hi)).narrow_of_twoForms hw.1
  omega

theorem namesDefined_of_runPass {gs : List Group} {pass : Pass}
    (hr : Rendition origin groups (layout origin gs)) (h : runPass origin gs = .ok pass) :
    NamesDefined groups := by
  have hrun := foldlM_range_induction
    (P := fun n a => Rendition origin groups a.groups ∧ ∀ i < n, ∀ g name,
      groups[i]? = some g → g.awaited? = some name → ∃ d ∈ groups, d.defines name = true)
    ⟨hr,fun _ hi => absurd hi (Nat.not_lt_zero _)⟩ ?_ h
  · intro g hg name hn
    obtain ⟨i,hi,rfl⟩ := List.getElem_of_mem hg
    have hlength : groups.length = gs.length := by rw [← hr.length_eq, length_layout]
    exact hrun.2 i (hlength ▸ hi) _ name (List.getElem?_eq_getElem hi) hn
  · intro n _ a b ⟨ha,hdefined⟩ hab
    have hs := Pass.step_of_fillAt hp ha hab
    refine ⟨hs.rendition hp ha,fun i hi g name hg hn => ?_⟩
    rcases Nat.lt_succ_iff_lt_or_eq.mp hi with hi | rfl
    · exact hdefined i hi g name hg hn
    · exact exists_value?_iff.mp (hs.exists_value? hp ha hg hn)

theorem climbing_parsed : Climbing origin groups (layout origin groups) := by
  refine ⟨Rendition.ofParsed hp,?_,?_⟩ <;> rw [choiceOf_layout, choiceOf_parsed hp] <;> exact bot_le

theorem Pass.Step.countP_wide {pass pass' : Pass} {i : ℕ} (hs : Step origin i pass pass')
    (hr : Rendition origin groups pass.groups)
    (hle : choiceOf pass.groups ≤ choiceOf pass'.groups) :
    pass'.resized + pass.groups.countP Group.wide =
      pass.resized + pass'.groups.countP Group.wide := by
  have hcount := hs.resized_eq hp hr
  have hup := hle i
  cases hs with
  | rest => rfl
  | fill h name symbol hi =>
    obtain ⟨hlt,rfl⟩ := List.getElem?_eq_some_iff.mp hi
    have hat : choiceOf pass.groups i = (pass.groups[i]).wide := by simp [choiceOf, hlt]
    have hpos : (pass.groups[i]).wide = true → 0 < pass.groups.countP Group.wide :=
      fun hw => List.countP_pos_iff.mpr ⟨_,List.getElem_mem hlt,hw⟩
    rw [choiceOf_layout, choiceOf_set hlt, Function.update_self, hat] at hcount hup
    rw [hcount, countP_wide_layout, List.countP_set hlt]
    generalize (pass.groups[i].fill symbol.value).wide = new at hup
    cases hold : (pass.groups[i]).wide with
    | false => cases new <;> simp [Nat.add_comm, Nat.add_left_comm]
    | true =>
      have hnew : new = true := Bool.le_iff_imp.mp hup hold
      have := hpos hold
      simp only [hnew, if_true]
      omega

theorem Rendition.exists_fillAt (hdef : NamesDefined groups) {pass : Pass}
    (hr : Rendition origin groups pass.groups) (i : ℕ) :
    ∃ pass', pass.fillAt origin i = .ok pass' := by
  rcases known_or_awaits pass.groups i with hknown | ⟨h,name,hi,hn⟩
  · exact ⟨pass,Pass.fillAt_of_known hknown⟩
  · obtain ⟨g,hg,-,-,hv⟩ := hr.getElem?_of_awaited? hp hi hn
    obtain ⟨symbol,hl⟩ := hr.exists_lookup hp
      (hdef g (List.mem_of_getElem? hg) name (hv.awaited?_eq ▸ hn))
    rw [Pass.fillAt_of_awaited hp hr hi hn, hl]
    exact ⟨_,rfl⟩

variable (hmem : InMemory origin groups (least origin groups))
include hmem

/-- A step of a pass goes up, and not beyond the least choice. -/
theorem Climbing.step {pass pass' : Pass} {i : ℕ} (hc : Climbing origin groups pass.groups)
    (hs : Pass.Step origin i pass pass') :
    Climbing origin groups pass'.groups ∧ choiceOf pass.groups ≤ choiceOf pass'.groups := by
  have hr := hc.rendition
  have hnext := hs.choiceOf_eq hp hr (hmem.anti hc.le_least)
  have hup : choiceOf pass.groups ≤ choiceOf pass'.groups := by
    rw [hnext]
    exact le_update_self_iff.mpr (hc.le_widen i)
  have hdown : choiceOf pass'.groups ≤ widen origin groups (choiceOf pass.groups) := by
    rw [hnext]
    exact update_le_iff.mpr ⟨le_rfl,fun j _ => hc.le_widen j⟩
  have hmono := widen_mono origin groups
  exact ⟨⟨hs.rendition hp hr,hdown.trans (hmono hup),
    hdown.trans ((hmono hc.le_least).trans widen_least.le)⟩,hup⟩

variable (hdef : NamesDefined groups)
include hdef

theorem Climbing.runPass {gs : List Group} (hc : Climbing origin groups (layout origin gs)) :
    ∃ pass, Assembly.runPass origin gs = .ok pass ∧ Climbing origin groups pass.groups ∧
      choiceOf gs ≤ choiceOf pass.groups ∧
      pass.resized + gs.countP Group.wide = pass.groups.countP Group.wide := by
  have hrun := foldlM_range_ok (f := Pass.fillAt origin) (n := gs.length)
    (s := ⟨layout origin gs,0⟩)
    (P := fun _ pass => Climbing origin groups pass.groups ∧
      choiceOf gs ≤ choiceOf pass.groups ∧
      pass.resized + gs.countP Group.wide = pass.groups.countP Group.wide)
    ⟨hc,(choiceOf_layout origin gs).ge,by simp⟩ ?_
  · exact hrun
  · intro i _ a ⟨ha,hle,hcount⟩
    obtain ⟨b,hb⟩ := ha.rendition.exists_fillAt hp hdef i
    have hs := Pass.step_of_fillAt hp ha.rendition hb
    obtain ⟨hclimb,hup⟩ := ha.step hp hmem hs
    have := hs.countP_wide hp ha.rendition hup
    exact ⟨b,hb,hclimb,hle.trans hup,by omega⟩

theorem Climbing.exists_settle {gs : List Group} {n : ℕ}
    (hc : Climbing origin groups (layout origin gs))
    (hn : groups.countP (·.state.isPending) ≤ n + gs.countP Group.wide) (resized : ℕ) :
    ∃ k ≤ n, ∃ pass, Pass.after origin (k + 1) ⟨gs,resized⟩ = .ok pass ∧ pass.resized = 0 ∧
      settle origin (n + 1) gs = .ok pass.groups ∧ Climbing origin groups pass.groups ∧
      FilledBelow pass.groups.length pass.groups := by
  induction n generalizing gs resized with
  | zero =>
    obtain ⟨pass,hpass,hclimb,-,hcount⟩ := hc.runPass hp hmem hdef
    have hle := hclimb.rendition.countP_wide_le
    have h0 : pass.resized = 0 := by omega
    exact ⟨0,le_rfl,pass,by simp [Pass.after, hpass, bind, Except.bind],h0,
      by simp [settle, hpass, bind, Except.bind],hclimb,(runPass_filled hp hc.rendition hpass h0).1⟩
  | succ n ih =>
    obtain ⟨pass,hpass,hclimb,-,hcount⟩ := hc.runPass hp hmem hdef
    by_cases h0 : pass.resized = 0
    · exact ⟨0,Nat.zero_le _,pass,by simp [Pass.after, hpass, bind, Except.bind],h0,
        by simp [settle, hpass, h0, bind, Except.bind],hclimb,
        (runPass_filled hp hc.rendition hpass h0).1⟩
    · obtain ⟨k,hk,last,hafter,hlast,hsettle,hend⟩ := ih (hclimb.rendition.placed.symm ▸ hclimb)
        (by omega) pass.resized
      refine ⟨k + 1,Nat.succ_le_succ hk,last,?_,hlast,?_,hend⟩
      · rw [Pass.after, hpass]
        exact hafter
      · rw [settle, hpass]
        simpa [h0, bind, Except.bind] using hsettle

theorem Climbing.exists_state {gs : List Group} (hc : Climbing origin groups (layout origin gs))
    (k resized : ℕ) :
    ∃ last, Pass.after origin k ⟨gs,resized⟩ = .ok last ∧
      Climbing origin groups (layout origin last.groups) := by
  induction k with
  | zero => exact ⟨_,rfl,hc⟩
  | succ k ih =>
    obtain ⟨last,hlast,hclimb⟩ := ih
    obtain ⟨next,hnext,hup,-⟩ := hclimb.runPass hp hmem hdef
    exact ⟨next,by rw [Pass.after_succ, hlast]; exact hnext,hup.rendition.placed.symm ▸ hup⟩

theorem Climbing.exists_after {gs : List Group} (hc : Climbing origin groups (layout origin gs))
    (k resized : ℕ) :
    ∃ before after, Pass.after origin k ⟨gs,resized⟩ = .ok before ∧
      Pass.after origin (k + 1) ⟨gs,resized⟩ = .ok after ∧
      List.Forall₂ (fun g h => g.bytes.length ≤ h.bytes.length) before.groups after.groups := by
  obtain ⟨before,hbefore,hclimb⟩ := hc.exists_state hp hmem hdef k resized
  obtain ⟨after,hafter,hup,hle,-⟩ := hclimb.runPass hp hmem hdef
  have hr := hclimb.rendition
  have hr' : Rendition origin groups (layout origin after.groups) :=
    hup.rendition.placed.symm ▸ hup.rendition
  have hlength := hr.length_eq
  have hlength' := hr'.length_eq
  rw [length_layout] at hlength hlength'
  refine ⟨before,after,hbefore,by rw [Pass.after_succ, hbefore]; exact hafter,?_⟩
  refine List.forall₂_iff_get.mpr ⟨hlength.trans hlength'.symm,?_⟩
  intro i hi hi'
  have hg := List.getElem?_eq_getElem (hlength ▸ hi : i < groups.length)
  rw [List.get_eq_getElem, List.get_eq_getElem,
    hr.length_bytes hp hg (List.getElem?_eq_getElem hi),
    hr'.length_bytes hp hg (List.getElem?_eq_getElem hi')]
  exact widthIn_mono _ (hle i)

/-- The passes end at the least choice of widths. -/
theorem exists_settled (resized : ℕ) :
    ∃ k ≤ groups.countP (·.state.isPending), ∃ pass,
      Pass.after origin (k + 1) ⟨groups,resized⟩ = .ok pass ∧ pass.resized = 0 ∧
      settle origin (groups.countP (·.state.isPending) + 1) groups = .ok pass.groups ∧
      Rendition origin groups pass.groups ∧ choiceOf pass.groups = least origin groups ∧
      FilledBelow pass.groups.length pass.groups := by
  obtain ⟨k,hk,pass,hafter,h0,hsettle,hclimb,hfilled⟩ :=
    (climbing_parsed hp).exists_settle hp hmem hdef (Nat.le_add_right _ _) resized
  have hfixed := hfilled.widen_eq hp hclimb.rendition (hmem.anti hclimb.le_least)
  exact ⟨k,hk,pass,hafter,h0,hsettle,hclimb.rendition,
    le_antisymm hclimb.le_least (least_le hfixed),hfilled⟩

end

/-- Resolution comes to the least choice of widths, if that lies in memory. -/
theorem resolve_least {source : List Char} {groups : List Group}
    (hsource : parseSource source = .ok groups) (hdef : NamesDefined groups) (origin : UInt16) :
    IsLeast {W | widen origin.toNat groups W = W} (least origin.toNat groups) ∧
      (InMemory origin.toNat groups (least origin.toNat groups) →
        ∃ final, resolve origin false groups = .ok final ∧
          (final.length = groups.length ∧ ∀ i g h, groups[i]? = some g → final[i]? = some h →
            h.bytes.length = g.widthIn (least origin.toNat groups i) ∧
            h.offset = place origin.toNat groups (least origin.toNat groups) i) ∧
          (∀ k, ∃ before after, Pass.after origin.toNat k ⟨groups,0⟩ = .ok before ∧
            Pass.after origin.toNat (k + 1) ⟨groups,0⟩ = .ok after ∧
            List.Forall₂ (fun g h => g.bytes.length ≤ h.bytes.length) before.groups after.groups) ∧
          ∃ k ≤ groups.countP (·.state.isPending), ∃ pass,
            Pass.after origin.toNat (k + 1) ⟨groups,0⟩ = .ok pass ∧ pass.resized = 0 ∧
            final = pass.groups.map Group.close) := by
  refine ⟨isLeast_least origin.toNat groups,fun hmem => ?_⟩
  have hp := parsed_of_parseSource hsource
  obtain ⟨k,hk,pass,hafter,h0,hsettle,hr,hchoice,-⟩ := exists_settled hp hmem hdef 0
  have hspace := (hr.checkSpace_eq_ok_iff hp).mpr (hchoice ▸ hmem)
  refine ⟨pass.groups.map Group.close,?_,⟨by rw [List.length_map, hr.length_eq],?_⟩,
    fun k => (climbing_parsed hp).exists_after hp hmem hdef k 0,k,hk,pass,hafter,h0,rfl⟩
  · exact resolve_eq_ok_iff.mpr ⟨_,hsettle,hspace,by simp,rfl⟩
  · intro i g h hg hh
    rw [List.getElem?_map] at hh
    obtain ⟨g',hi,rfl⟩ := Option.map_eq_some_iff.mp hh
    rw [← hchoice, Group.close_bytes, Group.close_offset]
    exact ⟨(hr.placed.symm ▸ hr : Rendition _ _ (layout _ _)).length_bytes hp hg hi,
      hr.offset_eq hp hi⟩

theorem resolve_least_below_page : ∃ groups,
    parseSource "LDA x\nx:".toList = .ok groups ∧ NamesDefined groups ∧
      widen 0xFD groups (· == 0) = (· == 0) ∧ least 0xFD groups = ⊥ ∧
      ∃ final, resolve 0xFD false groups = .ok final ∧ final.map (·.offset) = [0xFD, 0xFF] := by
  let groups := [Group.instruction 1 ['L', 'D', 'A'] .lda .zeroPage 0xA5
    (.pending ['X'] [(1, .zeroPage), (2, .absolute)]) [0], Group.label 2 ['X']]
  have hsource : parseSource "LDA x\nx:".toList = .ok groups := by rfl
  have hdef : NamesDefined groups := by
    intro g hg name hn
    refine ⟨Group.label 2 ['X'],by simp [groups],?_⟩
    rcases List.mem_pair.mp hg with rfl | rfl <;> cases hn
    rfl
  have hwide : widen 0xFD groups (· == 0) = (· == 0) := by
    funext i
    rcases i with _ | _ | i <;> rfl
  have hnarrow : widen 0xFD groups ⊥ = ⊥ := by
    funext i
    rcases i with _ | _ | i <;> rfl
  have hleast : least 0xFD groups = ⊥ := le_bot_iff.mp (least_le hnarrow)
  have hmem : InMemory 0xFD groups (least 0xFD groups) := by
    rw [hleast, InMemory]
    decide
  obtain ⟨final,hfinal,⟨hlength,hall⟩,-⟩ := (resolve_least hsource hdef 0xFD).2 hmem
  obtain ⟨a,b,rfl⟩ := List.length_eq_two.mp hlength
  have ha : a.offset = place 0xFD groups (least 0xFD groups) 0 := (hall 0 _ a rfl rfl).2
  have hb : b.offset = place 0xFD groups (least 0xFD groups) 1 := (hall 1 _ b rfl rfl).2
  refine ⟨groups,hsource,hdef,hwide,hleast,_,hfinal,?_⟩
  rw [List.map_cons, List.map_cons, List.map_nil, ha, hb, hleast]
  rfl

end Nmos6502.Assembly
