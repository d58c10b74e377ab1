import Nmos6502.Proofs.JoinedGroups
import Nmos6502.Proofs.LineNumbers

/-! # Sources one behind the other

Two sources that share no names can be assembled apart and put together. The groups of the second
one are the same on lines further down, and lines matter for nothing but the symbols. While the
operands of the first source widen, the labels of the second lie at the wrong places, but what
both come to in the end is what each comes to by itself.
-/
namespace Nmos6502.Assembly
open Finset WidthChoice

/-- The same group `k` lines further down. -/
def Group.lower (k : ℕ) (g : Group) : Group := { g with line := g.line + k }

def Symbol.lower (k : ℕ) (s : Symbol) : Symbol := { s with definedAt := s.definedAt + k }

theorem ShareNoName.apart_lower {groups others : List Group} (h : ShareNoName groups others) (k : ℕ)
    (hdef : NamesDefined others) : Apart groups (others.map (Group.lower k)) := by
  intro g hg name hn d hd
  obtain ⟨b,hb,rfl⟩ := List.mem_map.mp hg
  obtain ⟨e,he,hename⟩ := hdef b hb name hn
  by_contra hdname
  exact Bool.false_ne_true ((h d hd e he name (by simpa using hdname)).symm.trans hename)

theorem NamesDefined.append_lower {groups others : List Group} (h : NamesDefined groups) (k : ℕ)
    (h' : NamesDefined others) : NamesDefined (groups ++ others.map (Group.lower k)) := by
  intro g hg name hn
  rcases List.mem_append.mp hg with hg | hg
  · obtain ⟨d,hd,hname⟩ := h g hg name hn
    exact ⟨d,List.mem_append_left _ hd,hname⟩
  · obtain ⟨b,hb,rfl⟩ := List.mem_map.mp hg
    obtain ⟨d,hd,hname⟩ := h' b hb name hn
    exact ⟨d.lower k,List.mem_append_right _ (List.mem_map_of_mem hd),hname⟩

theorem Group.lower_eq (k : ℕ) : Group.lower k = (Relabelling.ofLine (· + k)).group :=
  funext fun g => (Relabelling.group_ofLine (· + k) g).symm

theorem parseLines_lower {line k : ℕ} {texts : List (List Char)} {groups : List Group}
    (h : parseLines line texts = .ok groups) :
    parseLines (line + k) texts = .ok (groups.map (Group.lower k)) := by
  have hlines : SameGroups (fun _ l l' => l' = l + k) (parseLines line texts)
      (parseLines (line + k) texts) :=
    parseLines_sameGroups fun i _ _ => Nat.add_right_comm line k i
  rw [h] at hlines
  cases hlower : parseLines (line + k) texts with
  | error e =>
    rw [hlower] at hlines
    cases hlines
  | ok groups' =>
    rw [hlower] at hlines
    cases hlines with
    | ok hgroups =>
      have hsame : ∀ g g' : Group, g.OnLines (fun _ l l' => l' = l + k) g' → g.lower k = g' := by
        intro g g' hg
        rw [hg.1, hg.2]
        rfl
      have heq := List.forall₂_map_left_iff.mpr (hgroups.imp hsame)
      rw [List.forall₂_eq_eq_eq] at heq
      rw [heq]

theorem parseSource_append {first second both : List Char} {groups others : List Group}
    (hlines : Text.lines both = Text.lines first ++ Text.lines second)
    (hfirst : parseSource first = .ok groups) (hsecond : parseSource second = .ok others) :
    parseSource both = .ok (groups ++ others.map (Group.lower (Text.lines first).length)) := by
  unfold parseSource at hfirst hsecond ⊢
  rw [hlines, parseLines_append, hfirst, parseLines_lower hsecond]
  rfl

namespace WidthChoice
variable {origin : ℕ} {groups : List Group} {W : WidthChoice} (k : ℕ)

theorem sizeAt_lower (i : ℕ) : sizeAt (groups.map (Group.lower k)) W i = sizeAt groups W i := by
  rw [sizeAt, sizeAt, List.getElem?_map]
  cases groups[i]? <;> rfl

theorem place_lower (i : ℕ) :
    place origin (groups.map (Group.lower k)) W i = place origin groups W i := by
  simp only [place, sizeAt_lower]

theorem value?_lower :
    value? origin (groups.map (Group.lower k)) W = value? origin groups W := by
  funext name
  unfold value?
  rw [List.findIdx?_map]
  change (groups.findIdx? (Group.defines name)).bind _ = _
  congr 1
  funext i
  rw [List.getElem?_map, place_lower]
  cases groups[i]? <;> rfl

theorem widen_lower : widen origin (groups.map (Group.lower k)) = widen origin groups := by
  funext W i
  rw [widen, widen, value?_lower, List.getElem?_map]
  cases groups[i]? <;> rfl

theorem least_lower : least origin (groups.map (Group.lower k)) = least origin groups := by
  simp only [least, widen_lower]

theorem arrange_lower : arrange origin (groups.map (Group.lower k)) W =
    (arrange origin groups W).map (Group.lower k) := by
  refine List.ext_getElem (by simp only [length_arrange, List.length_map]) fun i _ _ => ?_
  simp only [arrange, List.getElem_mapIdx, List.getElem_map, groupAt, operandAt, place_lower,
    value?_lower]
  rfl

end WidthChoice

theorem image_lower (k : ℕ) {gs : List Group} {bytes : List UInt8} (h : image gs = .ok bytes) :
    image (gs.map (Group.lower k)) = .ok bytes := by
  rw [Group.lower_eq, Relabelling.image_map, h]
  rfl

theorem close_lower (k : ℕ) (g : Group) : (g.lower k).close = g.close.lower k := by
  simp only [Group.lower_eq, Relabelling.close_group]

theorem symbolTable_lower (k : ℕ) (gs : List Group) :
    symbolTable (gs.map (Group.lower k)) = (symbolTable gs).map (Symbol.lower k) := by
  rw [Group.lower_eq]
  exact Relabelling.symbolTable_map Function.injective_id gs

/-- The groups of a source with room for them, as its program shows them. -/
structure LaidOut (origin : UInt16) (source : List Char) (program : Program)
    (groups gs : List Group) : Prop where
  parsed : parseSource source = .ok groups
  names : NamesDefined groups
  rendition : Rendition origin.toNat groups gs
  choice_eq : choiceOf gs = least origin.toNat groups
  eq_arrange : gs = arrange origin.toNat groups (least origin.toNat groups)
  image_eq : image (gs.map Group.close) = .ok program.bytes
  symbols_eq : program.symbols = symbolTable gs

theorem exists_laidOut {origin : UInt16} {source : List Char} {program : Program}
    (hroom : origin.toNat + 3 * (written source).length ≤ 0xFFFF)
    (h : assemble ⟨origin,false⟩ source = .ok program) :
    ∃ groups gs, LaidOut origin source program groups gs := by
  obtain ⟨groups,hsource,-⟩ := bind_eq_ok_iff.mp h
  have hp := parsed_of_parseSource hsource
  rw [length_written hsource] at hroom
  cases hfirst : undefinedError? groups with
  | some error => cases h.symm.trans (assemble_of_undefined hsource hfirst)
  | none =>
    have hdef := (undefinedError?_eq_none_iff hp).mp hfirst
    have hmem := inMemory_of_room hp hroom (least origin.toNat groups)
    obtain ⟨-,-,pass,-,-,-,hr,hchoice,hfilled⟩ := exists_settled hp hmem hdef 0
    have heq := hr.eq_arrange hp hfilled (hchoice ▸ hmem)
    rw [hchoice] at heq
    obtain ⟨bytes,hbytes,hprogram⟩ := assemble_of_room hsource hfirst hroom
    rw [← heq] at hbytes hprogram
    cases h.symm.trans hprogram
    exact ⟨groups,pass.groups,hsource,hdef,hr,hchoice,heq,hbytes,rfl⟩

namespace LaidOut
variable {origin : UInt16} {source : List Char} {program : Program} {groups gs : List Group}
  (hl : LaidOut origin source program groups gs)
include hl

theorem place_length : place origin.toNat groups (least origin.toNat groups) groups.length =
    origin.toNat + program.bytes.length := by
  have hp := parsed_of_parseSource hl.parsed
  have hplace := hl.rendition.place_eq hp gs.length
  have hsize : Group.size ∘ Group.close = Group.size := by
    funext g
    simp only [Function.comp_apply, Group.size, Group.close_emits, Group.close_content,
      Group.close_bytes]
  rw [hl.choice_eq, ← List.length_map Group.size, List.take_length] at hplace
  rw [← hl.rendition.length_eq, ← List.length_map Group.size, hplace, length_of_image hl.image_eq,
    List.map_map, hsize]

theorem length_bytes_le : program.bytes.length ≤ 3 * (written source).length := by
  have hp := parsed_of_parseSource hl.parsed
  have hsum := sum_sizeAt_le hp (least origin.toNat groups) groups.length
  have hplace := hl.place_length
  rw [List.take_length, ← length_written hl.parsed] at hsum
  unfold place at hplace
  omega

theorem defines_of_mem {h : Group} (hh : h ∈ gs) :
    ∃ g ∈ groups, ∀ name, h.defines name = g.defines name := by
  obtain ⟨i,hi⟩ := List.mem_iff_getElem?.mp hh
  obtain ⟨g,hg,hv⟩ := hl.rendition.getElem? hi
  exact ⟨g,List.mem_of_getElem? hg,hv.defines_eq⟩

end LaidOut

theorem LaidOut.shareNoName {origin origin' : UInt16} {first second : List Char} {p q : Program}
    {groups gs others hs : List Group} (hp : LaidOut origin first p groups gs)
    (hq : LaidOut origin' second q others hs) (h : ShareNoName groups others) (k : ℕ) :
    ShareNoName gs (hs.map (Group.lower k)) := by
  intro g hg g' hg' name hname
  obtain ⟨h',hh',rfl⟩ := List.mem_map.mp hg'
  obtain ⟨a,ha,hga⟩ := hp.defines_of_mem hg
  obtain ⟨b,hb,hgb⟩ := hq.defines_of_mem hh'
  exact (hgb name).trans (h a ha b hb name ((hga name).symm.trans hname))

theorem shareNoName_of_definitions {first second : List Char} {groups others : List Group}
    (hfirst : parseSource first = .ok groups) (hsecond : parseSource second = .ok others)
    (h : ∀ d ∈ definitions first, ∀ e ∈ definitions second, d.name ≠ e.name) :
    ShareNoName groups others := by
  intro g hg k hk name hname
  by_contra hother
  have hany := any_defines hfirst name
  have hany' := any_defines hsecond name
  rw [List.any_eq_true.mpr ⟨g,hg,hname⟩] at hany
  rw [List.any_eq_true.mpr ⟨k,hk,by simpa using hother⟩] at hany'
  obtain ⟨d,hd,hdname⟩ := List.any_eq_true.mp hany.symm
  obtain ⟨e,he,hename⟩ := List.any_eq_true.mp hany'.symm
  exact h d hd e he ((beq_iff_eq.mp hdname).trans (beq_iff_eq.mp hename).symm)

/-- Two sources that can be assembled one behind the other, so that each defines the names that it
uses, and that define no name in common, can be assembled as one source. The image and the
symbols of the second follow those of the first, with the lines of the symbols counted on. -/
theorem assemble_append {origin : UInt16} {first second : List Char} {p q : Program}
    (hnames : ∀ d ∈ definitions first, ∀ e ∈ definitions second, d.name ≠ e.name)
    (hroom : origin.toNat + 3 * ((written first).length + (written second).length) ≤ 0xFFFF)
    (hfirst : assemble ⟨origin,false⟩ first = .ok p)
    (hsecond : assemble ⟨origin + UInt16.ofNat p.bytes.length,false⟩ second = .ok q) :
    (∃ both, Text.lines both = Text.lines first ++ Text.lines second) ∧
      ∀ both, Text.lines both = Text.lines first ++ Text.lines second →
        assemble ⟨origin,false⟩ both = .ok ⟨p.bytes ++ q.bytes,origin,
          p.symbols ++ q.symbols.map (Symbol.lower (Text.lines first).length)⟩ := by
  refine ⟨Text.exists_lines_append first second,fun both hlines => ?_⟩
  obtain ⟨groups,gs,hp⟩ := exists_laidOut (by omega) hfirst
  have hlength := hp.length_bytes_le
  have horigin : (origin + UInt16.ofNat p.bytes.length).toNat = origin.toNat + p.bytes.length := by
    rw [UInt16.toNat_add, UInt16.toNat_ofNat_of_lt' (Nat.lt_succ_of_le (by omega)),
      Nat.mod_eq_of_lt (by omega)]
  obtain ⟨others,hs,hq⟩ := exists_laidOut (by omega) hsecond
  have hshare := shareNoName_of_definitions hp.parsed hq.parsed hnames
  let k := (Text.lines first).length
  have hboth := parseSource_append hlines hp.parsed hq.parsed
  have hapart := hshare.apart_lower k hq.names
  have harrange : arrange origin.toNat (groups ++ others.map (Group.lower k))
      (least origin.toNat (groups ++ others.map (Group.lower k))) =
        gs ++ hs.map (Group.lower k) := by
    rw [arrange_least_append hp.names hapart, hp.place_length, ← horigin, least_lower,
      arrange_lower, ← hp.eq_arrange, ← hq.eq_arrange]
  have hcount : (groups ++ others.map (Group.lower k)).countP (·.emits) =
      (written first).length + (written second).length := by
    rw [length_written hp.parsed, length_written hq.parsed, List.countP_append, List.countP_map]
    rfl
  have hdefined := (undefinedError?_eq_none_iff (parsed_of_parseSource hboth)).mpr
    (hp.names.append_lower k hq.names)
  obtain ⟨bytes,himage,hprogram⟩ := assemble_of_room hboth hdefined (hcount ▸ hroom)
  have hclose : (hs.map (Group.lower k)).map Group.close =
      (hs.map Group.close).map (Group.lower k) := by
    rw [List.map_map, List.map_map]
    exact List.map_congr_left fun h _ => close_lower k h
  rw [harrange] at himage hprogram
  rw [List.map_append, hclose, image_append hp.image_eq (image_lower k hq.image_eq)] at himage
  cases himage
  rw [hprogram, symbolTable_append (hp.shareNoName hq hshare k), symbolTable_lower, hp.symbols_eq,
    hq.symbols_eq]

theorem assemble_append_across_page :
    assemble ⟨0xFC,false⟩ "LDA c\nDEFINE c 256".toList =
        .ok ⟨[0xAD, 0, 1],0xFC,[⟨['C'],256,.constant,2⟩]⟩ ∧
      assemble ⟨0xFF,false⟩ "INX\ny: STA y".toList =
        .ok ⟨[0xE8, 0x8D, 0, 1],0xFF,[⟨['Y'],0x100,.label,2⟩]⟩ ∧
      assemble ⟨0xFC,false⟩ "LDA c\nDEFINE c 256\nINX\ny: STA y".toList =
        .ok ⟨[0xAD, 0, 1] ++ [0xE8, 0x8D, 0, 1],0xFC,
          [⟨['C'],256,.constant,2⟩] ++ [⟨['Y'],0x100,.label,4⟩]⟩ := by
  have hfirst : assemble ⟨0xFC,false⟩ "LDA c\nDEFINE c 256".toList =
      .ok ⟨[0xAD, 0, 1],0xFC,[⟨['C'],256,.constant,2⟩]⟩ := by rfl
  have hsecond : assemble ⟨0xFF,false⟩ "INX\ny: STA y".toList =
      .ok ⟨[0xE8, 0x8D, 0, 1],0xFF,[⟨['Y'],0x100,.label,2⟩]⟩ := by rfl
  exact ⟨hfirst,hsecond,(assemble_append (by decide) (by decide) hfirst hsecond).2 _ (by rfl)⟩

end Nmos6502.Assembly
