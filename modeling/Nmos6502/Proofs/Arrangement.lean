import Nmos6502.Proofs.ErrorOrder

/-! # Arranged groups

A choice of widths leaves nothing open about the groups: it gives every group its place and
its form, and every operand its bytes from the value of its name. Resolution comes to the groups
as the least choice arranges them. Where the origin leaves three bytes of room for every
instruction, every choice lies in memory, and resolution can only fail for a name that is not
defined or, if that is asked for, for a branch.
-/
namespace Nmos6502.Assembly
open Finset WidthChoice

namespace WidthChoice
variable (origin : ℕ) (groups : List Group) (W : WidthChoice)

def operandAt (i : ℕ) (g : Group) : List UInt8 :=
  match g.awaited?.bind (value? origin groups W) with
  | none => g.bytes
  | some value =>
    if g.branch then [UInt8.ofInt ((value : ℤ) - place origin groups W (i + 1))]
    else littleEndian (g.widthIn (W i)) value

def groupAt (i : ℕ) (g : Group) : Group :=
  { g with
    offset := place origin groups W i
    content := (g.form? (g.widthIn (W i))).getD g.content
    bytes := operandAt origin groups W i g }

/-- The groups as a choice has them. -/
def arrange : List Group := groups.mapIdx (groupAt origin groups W)

@[simp] theorem length_arrange : (arrange origin groups W).length = groups.length :=
  List.length_mapIdx

theorem getElem?_arrange (i : ℕ) :
    (arrange origin groups W)[i]? = groups[i]?.map (groupAt origin groups W i) :=
  List.getElem?_mapIdx

end WidthChoice

section
variable {origin : ℕ} {groups gs : List Group} (hp : ∀ g ∈ groups, g.Parsed)
include hp

theorem Rendition.bytes_eq_operandAt (hr : Rendition origin groups gs)
    (hf : FilledBelow gs.length gs) (hmem : InMemory origin groups (choiceOf gs)) {i : ℕ}
    {g h : Group} (hg : groups[i]? = some g) (hi : gs[i]? = some h) (hv : g.Variant h) :
    h.bytes = operandAt origin groups (choiceOf gs) i g := by
  have hparsed := hp g (List.mem_of_getElem? hg)
  unfold operandAt
  cases hn : g.awaited? with
  | none =>
    have hknown : g.state.isPending = false := by
      unfold Group.awaited? at hn
      unfold OperandState.isPending
      split at hn <;> simp_all
    exact (hv.known hknown).2
  | some name =>
    have hpend := Group.isPending_of_awaited? hn
    obtain ⟨value,hlookup,hfill⟩ :=
      hf i (List.getElem?_eq_some_iff.mp hi).1 h name hi (hv.awaited?_eq.trans hn)
    rw [Option.bind_some, (hr.lookup_eq_some_iff hp hmem).mp hlookup]
    dsimp only
    cases hb : g.branch with
    | true =>
      rw [if_pos rfl, ← hr.next_eq hp hi]
      exact (Group.fill_eq_self_iff_of_branch (hv.branch_eq.trans hb) value).mp hfill
    | false =>
      have hbytes := ((hv.fill_eq_self_iff hparsed hpend (hv.branch_eq.trans hb) value).mp hfill).1
      have hwide : choiceOf gs i = h.wide := by simp [choiceOf, hi]
      rw [if_neg (by simp), hwide, ← hv.length_bytes hparsed]
      exact hbytes

theorem Rendition.eq_arrange (hr : Rendition origin groups gs) (hf : FilledBelow gs.length gs)
    (hmem : InMemory origin groups (choiceOf gs)) :
    gs = arrange origin groups (choiceOf gs) := by
  apply List.ext_getElem?
  intro i
  rw [getElem?_arrange]
  cases hi : gs[i]? with
  | none =>
    have hlen := List.getElem?_eq_none_iff.mp hi
    rw [List.getElem?_eq_none (hr.length_eq ▸ hlen), Option.map_none]
  | some h =>
    obtain ⟨g,hg,hv⟩ := hr.getElem? hi
    have hwide : choiceOf gs i = h.wide := by simp [choiceOf, hi]
    have hcontent : h.content = (g.form? (g.widthIn (choiceOf gs i))).getD g.content := by
      rw [hwide, ← hv.length_bytes (hp g (List.mem_of_getElem? hg))]
      cases hpend : g.state.isPending with
      | true => rw [hv.pending hpend, Option.getD_some]
      | false => rw [Group.form?_eq_none hpend, Option.getD_none, (hv.known hpend).1]
    rw [hg, Option.map_some, groupAt, ← hr.bytes_eq_operandAt hp hf hmem hg hi hv,
      ← hcontent, ← hr.offset_eq hp hi]
    exact congrArg some hv.eq_with

/-- Where the least choice lies in memory, resolution comes to its arrangement. -/
theorem settle_eq_arrange (hdef : NamesDefined groups)
    (hmem : InMemory origin groups (least origin groups)) :
    settle origin (groups.countP (·.state.isPending) + 1) groups =
        .ok (arrange origin groups (least origin groups)) ∧
      checkSpace (arrange origin groups (least origin groups)) = .ok () := by
  obtain ⟨-,-,pass,-,-,hsettle,hr,hchoice,hfilled⟩ := exists_settled hp hmem hdef 0
  have heq := hr.eq_arrange hp hfilled (hchoice ▸ hmem)
  have hspace := (hr.checkSpace_eq_ok_iff hp).mpr (hchoice ▸ hmem)
  rw [hchoice] at heq
  rw [heq] at hsettle hspace
  exact ⟨hsettle,hspace⟩

end

theorem Group.Parsed.sizeIn_le {g : Group} (hg : g.Parsed) (wide : Bool) :
    g.sizeIn wide ≤ if g.emits then 3 else 0 := by
  cases hg with
  | label => exact le_rfl
  | constant => exact le_rfl
  | instruction w _ h =>
    have hemits := Written.emits_of_group? h
    obtain ⟨mode,code,hmode,-,heq⟩ := Written.group?_eq_some_iff.mp h
    have hcontent : g.content.size = 1 := by rw [heq]; rfl
    have hlength : g.bytes.length = mode.operandSize := by rw [heq]; exact Written.length_fill hmode
    have hle := mode.operandSize_le
    rw [Group.sizeIn, Group.widthIn, if_pos hemits, if_pos hemits, hcontent]
    split
    · cases wide <;> decide
    · omega

section
variable {origin : ℕ} {groups : List Group} (hp : ∀ g ∈ groups, g.Parsed)
include hp

theorem sum_sizeAt_le (W : WidthChoice) (i : ℕ) :
    ∑ j ∈ range i, sizeAt groups W j ≤ 3 * (groups.take i).countP (·.emits) := by
  induction i with
  | zero => simp
  | succ i ih =>
    rw [sum_range_succ, List.take_add_one, List.countP_append, Nat.mul_add]
    refine Nat.add_le_add ih ?_
    unfold sizeAt
    cases hg : groups[i]? with
    | none => simp
    | some g =>
      have hle := (hp g (List.mem_of_getElem? hg)).sizeIn_le (W i)
      cases hemits : g.emits <;> simp [hemits] at hle ⊢ <;> exact hle

variable (hroom : origin + 3 * groups.countP (·.emits) ≤ 0xFFFF)
include hroom

theorem place_le_of_room (W : WidthChoice) (i : ℕ) : place origin groups W i ≤ 0xFFFF := by
  have hsum := sum_sizeAt_le hp W i
  have hcount := (List.take_sublist i groups).countP_le (p := (·.emits))
  unfold place
  omega

theorem inMemory_of_room (W : WidthChoice) : InMemory origin groups W := by
  intro i _
  have hend := place_le_of_room hp hroom W (i + 1)
  exact ⟨place_le_of_room hp hroom W i,by omega⟩

end

theorem resolve_of_room {origin : UInt16} {groups : List Group} (hp : ∀ g ∈ groups, g.Parsed)
    (hroom : origin.toNat + 3 * groups.countP (·.emits) ≤ 0xFFFF) (checkRange : Bool) :
    resolve origin checkRange groups =
      let gs := arrange origin.toNat groups (least origin.toNat groups)
      match undefinedError? groups with
      | some error => .error error
      | none => (if checkRange then checkBranches gs else .ok ()).map fun _ => gs.map Group.close := by
  dsimp only
  cases hfirst : undefinedError? groups with
  | some error => exact resolve_of_undefined hp hfirst
  | none =>
    have hdef := (undefinedError?_eq_none_iff hp).mp hfirst
    have hmem := inMemory_of_room hp hroom (least origin.toNat groups)
    obtain ⟨hsettle,hspace⟩ := settle_eq_arrange hp hdef hmem
    simp only [resolve, hsettle, hspace, bind, Except.bind]
    cases checkRange with
    | false => rfl
    | true =>
      simp only [if_true]
      cases checkBranches (arrange origin.toNat groups (least origin.toNat groups)) <;> rfl

theorem symbolTable_map_close (gs : List Group) : symbolTable (gs.map Group.close) = symbolTable gs := by
  have hsymbol : Group.symbol? ∘ Group.close = Group.symbol? := by
    funext g
    exact g.symbol?_close
  rw [symbolTable, symbolTable, List.filterMap_map, hsymbol]

theorem length_written {source : List Char} {groups : List Group}
    (h : parseSource source = .ok groups) :
    (written source).length = groups.countP (·.emits) := by
  have hlength := congrArg List.length (written_of_parseSource h)
  rw [List.length_map, List.length_map] at hlength
  rw [hlength, List.countP_eq_length_filter]

section
variable {source : List Char} {groups : List Group} (hsource : parseSource source = .ok groups)
include hsource

theorem assemble_of_undefined {options : Options} {error : Error}
    (h : undefinedError? groups = some error) : assemble options source = .error error :=
  assemble_eq_error_iff.mpr
    (.inr ⟨groups,hsource,resolve_of_undefined (parsed_of_parseSource hsource) h⟩)

theorem assemble_of_room {origin : UInt16} (h : undefinedError? groups = none)
    (hroom : origin.toNat + 3 * groups.countP (·.emits) ≤ 0xFFFF) :
    let gs := arrange origin.toNat groups (least origin.toNat groups)
    ∃ bytes, image (gs.map Group.close) = .ok bytes ∧
      assemble ⟨origin,false⟩ source = .ok ⟨bytes,origin,symbolTable gs⟩ := by
  have hp := parsed_of_parseSource hsource
  have hdef := (undefinedError?_eq_none_iff hp).mp h
  have hmem := inMemory_of_room hp hroom (least origin.toNat groups)
  obtain ⟨bytes,hbytes⟩ := exists_image hsource (settle_eq_arrange hp hdef hmem).1
  refine ⟨bytes,hbytes,?_⟩
  have hresolve := resolve_of_room hp hroom false
  simp only [h, Bool.false_eq_true, if_false, Except.map] at hresolve
  simp only [assemble, hsource, hresolve, hbytes, symbolTable_map_close, bind, Except.bind]

theorem exists_symbols_of_room {origin : UInt16} (h : undefinedError? groups = none)
    (hroom : origin.toNat + 3 * groups.countP (·.emits) ≤ 0xFFFF) :
    ∃ program, assemble ⟨origin,false⟩ source = .ok program ∧
      program.symbols = symbolTable (arrange origin.toNat groups (least origin.toNat groups)) := by
  obtain ⟨bytes,-,hprogram⟩ := assemble_of_room hsource h hroom
  exact ⟨_,hprogram,rfl⟩

end

namespace Assembled
variable {options : Options} {source : List Char} {program : Program} {groups gs : List Group}
  {rows : List Row} (ha : Assembled options source program groups gs rows)
include ha

theorem arranged (hroom : options.origin.toNat + 3 * groups.countP (·.emits) ≤ 0xFFFF) :
    gs = arrange options.origin.toNat groups (least options.origin.toNat groups) ∧
      ∀ row ∈ rows, row.Agrees program := by
  have hp := ha.groups_parsed
  have hmem := inMemory_of_room hp hroom (least options.origin.toNat groups)
  have hsettle := (settle_eq_arrange hp ha.namesDefined hmem).1
  rw [ha.settled] at hsettle
  exact ⟨Except.ok.inj hsettle,ha.agree_iff_filled.mpr (ha.filled_iff.mpr hmem)⟩

end Assembled

end Nmos6502.Assembly
