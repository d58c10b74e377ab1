import Nmos6502.Proofs.Passes

/-! # Rows of a rendition

The image of a rendition has a listing: its rows show the groups that emit bytes, one
for each instruction of the source, with the address and the operand of the group.
-/
namespace Nmos6502.Assembly

/-- The row shows a group in the form that it came to have. -/
structure Row.Shows (row : Row) (h : Group) : Prop where
  of_group : ∃ g, row.written.group? = some g ∧ g.Variant h
  address_eq : row.address = h.offset
  operand_eq : row.instruction.operand = h.bytes
  image_eq : h.close.image? = some row.instruction.bytes
  size_eq : h.size = row.instruction.opcode.size

theorem Row.operand_of_isBranch {row : Row} (hb : row.written.operation.isBranch = true) :
    ∃ offset, row.instruction.operand = [offset] := by
  have hcode := encode_of_decode row.instruction.decode_code
  have hmode := mode_of_isBranch (row.operation_eq ▸ hb) hcode
  have hlength := row.instruction.length_operand
  rw [hmode] at hlength
  exact List.length_eq_one_iff.mp hlength

theorem Row.Shows.next_eq {row : Row} {h : Group} (hs : row.Shows h)
    (hb : row.written.operation.isBranch = true) : (h.next : ℤ) = row.address + 2 := by
  obtain ⟨offset,ho⟩ := Row.operand_of_isBranch hb
  rw [Group.next, hs.size_eq, Opcode.size, ← row.instruction.length_operand, ho, hs.address_eq]
  rfl

namespace Group.Variant
variable {w : Written} {g h : Group} (hw : w.group? = some g) (hv : Variant g h)
include hw hv

theorem exists_opcode : ∃ code mode, h.content = .opcode code w.operation mode ∧ mode ∈ w.modes ∧
    encode w.operation mode = some code ∧ h.bytes.length = mode.operandSize := by
  cases hp : g.state.isPending with
  | true =>
    obtain ⟨mode,hm,hsize,code,hcode,hc⟩ := Written.of_form?_eq_some hw (hv.pending hp)
    exact ⟨code,mode,hc,hm,hcode,hsize.symm⟩
  | false =>
    obtain ⟨hc,hb⟩ := hv.known hp
    rw [hc, hb]
    obtain ⟨mode,code,hmode,hcode,rfl⟩ := Written.group?_eq_some_iff.mp hw
    exact ⟨code,mode,rfl,Written.mem_of_mode? hmode,hcode,Written.length_fill hmode⟩

theorem state_close : h.close.state = .known := by
  have hs : h.state.isPending = true ∨ h.state = .known := by
    rw [hv.state_eq]
    obtain ⟨mode,code,-,-,rfl⟩ := Written.group?_eq_some_iff.mp hw
    simp only [Group.instruction, Statement.fill]
    split
    · exact .inr rfl
    · exact .inl rfl
  unfold Group.close
  rcases hs with hs | hs
  · rw [if_pos hs]
  · simp [hs, OperandState.isPending]

theorem exists_row : ∃ row : Row, row.written = w ∧ row.Shows h := by
  obtain ⟨code,mode,hc,hm,hcode,hlength⟩ := hv.exists_opcode hw
  obtain ⟨cycles,hdecode⟩ := decode_of_encode hcode
  have hemits : h.emits = true := hv.emits_eq ▸ Written.emits_of_group? hw
  refine ⟨⟨h.offset,w,⟨code,_,h.bytes,hdecode,hlength⟩,rfl,hm⟩,rfl,⟨g,hw,hv⟩,rfl,rfl,?_,?_⟩
  · simp only [Group.image?, hv.state_close hw, Group.close_content, Group.close_bytes, hc]
    rfl
  · rw [Group.size, if_pos hemits, hc, hlength]
    rfl

end Group.Variant

theorem Consecutive.cons {address : ℕ} {row : Row} {h : Group} {rows : List Row} (hs : row.Shows h)
    (ho : h.offset = address) (hrows : Consecutive (address + h.size) rows) :
    Consecutive address (row :: rows) :=
  ⟨hs.address_eq.trans ho,hs.size_eq ▸ hrows⟩

/-- The groups of the instructions `ws`, in any of their forms, have rows and an image. -/
theorem exists_rows {origin : ℕ} {groups gs : List Group} {ws : List Written}
    (hr : Rendition origin groups gs)
    (hw : ws.map Written.group? = (groups.filter (·.emits)).map some) :
    ∃ rows, rows.map Row.written = ws ∧ Consecutive origin rows ∧
      List.Forall₂ Row.Shows rows (gs.filter (·.emits)) ∧
      image (gs.map Group.close) = .ok ((rows.map Row.instruction).flatMap Instruction.bytes) := by
  obtain ⟨hv,hplaced⟩ := hr
  induction hv generalizing origin ws with
  | nil =>
    obtain rfl : ws = [] := by simpa using hw
    exact ⟨[],rfl,trivial,.nil,rfl⟩
  | @cons g h groups gs hv _ ih =>
    rw [layout, List.cons.injEq] at hplaced
    obtain ⟨hhead,htail⟩ := hplaced
    have horigin : h.offset = origin := (congrArg Group.offset hhead).symm
    cases hemits : g.emits with
    | false =>
      have hquiet : h.emits = false := hv.emits_eq ▸ hemits
      have hsize : h.size = 0 := by simp [Group.size, hquiet]
      rw [List.filter_cons_of_neg (by simp [hemits])] at hw
      rw [hsize, Nat.add_zero] at htail
      rw [List.filter_cons_of_neg (by simp [hquiet])]
      simp only [List.map_cons, image, Group.close_emits, hquiet, Bool.false_eq_true, if_false]
      exact ih hw htail
    | true =>
      have hloud : h.emits = true := hv.emits_eq ▸ hemits
      rw [List.filter_cons_of_pos (by simp [hemits]), List.map_cons] at hw
      obtain ⟨w,ws',rfl,hfirst,hrest⟩ := List.map_eq_cons_iff.mp hw
      obtain ⟨row,hwritten,hshows⟩ := hv.exists_row hfirst
      obtain ⟨rows,hrows,hconsecutive,hall,himage⟩ := ih hrest htail
      refine ⟨row :: rows,by rw [List.map_cons, hwritten, hrows],
        .cons hshows horigin hconsecutive,?_,?_⟩
      · rw [List.filter_cons_of_pos (by simp [hloud])]
        exact .cons hshows hall
      · simp only [List.map_cons, image, Group.close_emits, hloud, if_true, hshows.image_eq, himage]
        rfl

theorem exists_of_forall₂ {α β : Type} {R : α → β → Prop} {as : List α} {bs : List β}
    (hall : List.Forall₂ R as bs) {a : α} (ha : a ∈ as) : ∃ b ∈ bs, R a b := by
  induction hall with
  | nil => simp at ha
  | cons hfirst _ ih =>
    rcases List.mem_cons.mp ha with rfl | ha
    · exact ⟨_,List.mem_cons_self ..,hfirst⟩
    · obtain ⟨b,hb,hR⟩ := ih ha
      exact ⟨b,List.mem_cons_of_mem _ hb,hR⟩

theorem lookup_map_close (gs : List Group) (name : List Char) :
    lookup (gs.map Group.close) name = lookup gs name := by
  have hdefines : Group.defines name ∘ Group.close = Group.defines name := by
    funext g
    simp only [Function.comp_apply, Group.defines, Group.close_content]
  unfold lookup
  rw [List.find?_map, hdefines]
  cases gs.find? (Group.defines name) with
  | none => rfl
  | some g => simp only [Option.map_some, Option.bind_some, Group.symbol?_close]

structure Assembled (options : Options) (source : List Char) (program : Program)
    (groups gs : List Group) (rows : List Row) : Prop where
  parsed : parseSource source = .ok groups
  settled : settle options.origin.toNat (groups.countP (·.state.isPending) + 1) groups = .ok gs
  rendition : Rendition options.origin.toNat groups gs
  inMemory : checkSpace gs = .ok ()
  inRange : options.checkRange = true → checkBranches gs = .ok ()
  listing : Listing source program rows
  shows : List.Forall₂ Row.Shows rows (gs.filter (·.emits))
  origin_eq : program.origin = options.origin
  symbol?_eq : ∀ name, program.symbol? name = lookup gs name

theorem exists_assembled {options : Options} {source : List Char} {program : Program}
    (h : assemble options source = .ok program) :
    ∃ groups gs rows, Assembled options source program groups gs rows := by
  obtain ⟨groups,hparsed,h⟩ := bind_eq_ok_iff.mp h
  obtain ⟨final,hfinal,h⟩ := bind_eq_ok_iff.mp h
  obtain ⟨bytes,hbytes,h⟩ := bind_eq_ok_iff.mp h
  obtain ⟨gs,hsettled,hspace,hrange,rfl⟩ := resolve_eq_ok_iff.mp hfinal
  cases h
  have hp := parsed_of_parseSource hparsed
  have hr := settle_rendition hp (Rendition.ofParsed hp) hsettled
  obtain ⟨rows,hrows,hconsecutive,hshows,himage⟩ := exists_rows hr (written_of_parseSource hparsed)
  rw [himage] at hbytes
  cases hbytes
  refine ⟨groups,gs,rows,hparsed,hsettled,hr,hspace,hrange,⟨hrows,rfl,hconsecutive⟩,hshows,rfl,?_⟩
  intro name
  rw [Program.symbol?, findSymbol_symbolTable, lookup_map_close]

namespace Assembled
variable {options : Options} {source : List Char} {program : Program} {groups gs : List Group}
  {rows : List Row} (ha : Assembled options source program groups gs rows)
include ha

theorem groups_parsed : ∀ g ∈ groups, g.Parsed := parsed_of_parseSource ha.parsed

theorem exists_shown {row : Row} (hrow : row ∈ rows) :
    ∃ (i : ℕ) (h : Group), gs[i]? = some h ∧ h.emits = true ∧ row.Shows h := by
  obtain ⟨h,hh,hshows⟩ := exists_of_forall₂ ha.shows hrow
  obtain ⟨hmem,hemits⟩ := List.mem_filter.mp hh
  obtain ⟨i,hi⟩ := List.mem_iff_getElem?.mp hmem
  exact ⟨i,h,hi,hemits,hshows⟩

theorem exists_showing {i : ℕ} {h : Group} (hi : gs[i]? = some h) (hemits : h.emits = true) :
    ∃ row ∈ rows, row.Shows h :=
  exists_of_forall₂ ha.shows.flip (List.mem_filter.mpr ⟨List.mem_of_getElem? hi,hemits⟩)

end Assembled
end Nmos6502.Assembly
