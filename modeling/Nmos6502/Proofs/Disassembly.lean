import Nmos6502.Proofs.Passes
import Nmos6502.Proofs.Spelling

/-! # Assembling what was disassembled

A list of instructions, each written on a line of its own, is assembled to the bytes of
the instructions again. No operand waits for a name, so that one pass changes nothing,
and the program needs no more than to end in memory.
-/
namespace Nmos6502
open Assembly

def groupsFrom : ℕ → List Instruction → List Group
  | _, [] => []
  | line, i :: is => i.group line :: groupsFrom (line + 1) is

/-- Every instruction has a line of its own; the last line may lack its line feed. -/
def Disassembly (is : List Instruction) (source : List Char) : Prop :=
  ∃ lines, List.Forall₂ Instruction.Renders is lines ∧
    (source = lines.flatMap (· ++ ['\n']) ∨ source = ['\n'].intercalate lines)

/-- The instructions in upper case, the accumulator left out. -/
def disassemble (is : List Instruction) : List Char :=
  (is.map fun i => i.lineOf (i.opcode.mode.spell (hexNumeral i.operand))).flatMap (· ++ ['\n'])

theorem disassembly_disassemble (is : List Instruction) : Disassembly is (disassemble is) := by
  refine ⟨_,?_,.inl rfl⟩
  induction is with
  | nil => exact .nil
  | cons i is ih => exact .cons (Instruction.renders_lineOf (.inl rfl)) ih

theorem lines_flatMap {is : List Instruction} {lines : List (List Char)}
    (h : List.Forall₂ Instruction.Renders is lines) :
    Text.lines (lines.flatMap (· ++ ['\n'])) = lines := by
  induction h with
  | nil => rfl
  | @cons i line is lines hi _ ih =>
    obtain ⟨hfeed,hreturn,-⟩ := Instruction.not_mem_of_renders hi
    rw [List.flatMap_cons, List.append_assoc, List.singleton_append,
      Text.lines_append hfeed hreturn, ih]

theorem lines_intercalate {is : List Instruction} {lines : List (List Char)}
    (h : List.Forall₂ Instruction.Renders is lines) :
    Text.lines (['\n'].intercalate lines) = lines := by
  induction h with
  | nil => rfl
  | @cons i line is lines hi hrest ih =>
    obtain ⟨hfeed,hreturn,-⟩ := Instruction.not_mem_of_renders hi
    cases hrest with
    | nil =>
      rw [List.intercalate_singleton]
      exact Text.lines_of_line (Instruction.ne_nil_of_renders hi) hfeed
    | cons hnext hrest =>
      rw [List.intercalate_cons_cons, List.append_assoc, List.singleton_append,
        Text.lines_append hfeed hreturn, ih]

theorem parseLines_of_renders {is : List Instruction} {lines : List (List Char)}
    (h : List.Forall₂ Instruction.Renders is lines) (number : ℕ) :
    parseLines number lines = .ok (groupsFrom number is) := by
  induction h generalizing number with
  | nil => rfl
  | cons hi _ ih =>
    simp only [parseLines, Instruction.parseLine_of_renders hi, ih, bind, Except.bind]
    rfl

theorem parseSource_of_disassembly {is : List Instruction} {source : List Char}
    (h : Disassembly is source) : parseSource source = .ok (groupsFrom 1 is) := by
  obtain ⟨lines,hlines,hsource⟩ := h
  have hcut : Text.lines source = lines := by
    rcases hsource with rfl | rfl
    · exact lines_flatMap hlines
    · exact lines_intercalate hlines
  rw [parseSource, hcut]
  exact parseLines_of_renders hlines 1

theorem exists_of_mem_layout {origin : ℕ} {groups : List Group} {h : Group}
    (hh : h ∈ layout origin groups) : ∃ g ∈ groups, ∃ offset, h = { g with offset } := by
  obtain ⟨i,hi,rfl⟩ := List.getElem_of_mem hh
  have hat := getElem?_layout origin groups i
  rw [List.getElem?_eq_getElem hi] at hat
  obtain ⟨g,hg,heq⟩ := Option.map_eq_some_iff.mp hat.symm
  exact ⟨g,List.mem_of_getElem? hg,_,heq.symm⟩

section
variable {groups : List Group} (hknown : ∀ g ∈ groups, g.state = .known)
include hknown

theorem state_of_mem_layout {origin : ℕ} {h : Group} (hh : h ∈ layout origin groups) :
    h.state = .known := by
  obtain ⟨g,hg,_,rfl⟩ := exists_of_mem_layout hh
  exact hknown g hg

theorem runPass_of_known (origin : ℕ) :
    runPass origin groups = .ok ⟨layout origin groups,0⟩ := by
  obtain ⟨pass,hpass,rfl⟩ := foldlM_range_ok (f := Pass.fillAt origin) (n := groups.length)
    (P := fun _ pass => pass = ⟨layout origin groups,0⟩) rfl (by
      rintro i - _ rfl
      refine ⟨_,Pass.fillAt_of_known fun h hi => ?_,rfl⟩
      rw [Group.awaited?, state_of_mem_layout hknown (List.mem_of_getElem? hi)])
  exact hpass

theorem resolve_of_known {origin : UInt16} {checkRange : Bool}
    (hspace : checkSpace (layout origin.toNat groups) = .ok ()) :
    resolve origin checkRange groups = .ok (layout origin.toNat groups) := by
  have hrange : checkBranches (layout origin.toNat groups) = .ok () := by
    rw [checkBranches_eq_ok_iff]
    intro h hh
    simp [Group.rangeError?, state_of_mem_layout hknown hh]
  have hclose : (layout origin.toNat groups).map Group.close = layout origin.toNat groups := by
    refine (List.map_congr_left fun h hh => ?_).trans (List.map_id _)
    simp [Group.close, state_of_mem_layout hknown hh, OperandState.isPending]
  refine resolve_eq_ok_iff.mpr ⟨_,?_,hspace,fun _ => hrange,hclose.symm⟩
  simp [settle, runPass_of_known hknown, bind, Except.bind]

end

theorem exists_of_mem_groupsFrom {is : List Instruction} {line : ℕ} {g : Group}
    (hg : g ∈ groupsFrom line is) : ∃ (i : Instruction) (number : ℕ), g = i.group number := by
  induction is generalizing line with
  | nil => simp [groupsFrom] at hg
  | cons i is ih =>
    rcases List.mem_cons.mp hg with rfl | hg
    · exact ⟨i,line,rfl⟩
    · exact ih hg

theorem size_group (i : Instruction) (line : ℕ) : (i.group line).size = i.bytes.length := by
  simp [Group.size, Instruction.group, Group.instruction, Content.size, Instruction.bytes,
    Nat.add_comm]

theorem inMemory_of_fit {is : List Instruction} {line origin : ℕ}
    (hfit : origin + (is.flatMap Instruction.bytes).length ≤ 65536) {h : Group}
    (hh : h ∈ layout origin (groupsFrom line is)) : h.inMemory = true := by
  induction is generalizing line origin with
  | nil => simp [groupsFrom, layout] at hh
  | cons i is ih =>
    rw [List.flatMap_cons, List.length_append] at hfit
    rw [groupsFrom, layout, size_group] at hh
    rcases List.mem_cons.mp hh with rfl | hh
    · have hsize := size_group i line
      have hpos : 0 < i.bytes.length := Nat.zero_lt_succ _
      have hplaced : ({ i.group line with offset := origin } : Group).size = i.bytes.length := hsize
      simp only [Group.inMemory, Group.next, hplaced, Bool.and_eq_true, decide_eq_true_eq]
      omega
    · exact ih (by omega) hh

theorem image_layout_groupsFrom (is : List Instruction) (line origin : ℕ) :
    image (layout origin (groupsFrom line is)) = .ok (is.flatMap Instruction.bytes) := by
  induction is generalizing line origin with
  | nil => rfl
  | cons i is ih =>
    rw [groupsFrom, layout, image, ih, List.flatMap_cons]
    rfl

theorem symbolTable_layout_groupsFrom (is : List Instruction) (line origin : ℕ) :
    symbolTable (layout origin (groupsFrom line is)) = [] := by
  have hnone : (layout origin (groupsFrom line is)).filterMap Group.symbol? = [] := by
    rw [List.filterMap_eq_nil_iff]
    intro h hh
    obtain ⟨g,hg,_,rfl⟩ := exists_of_mem_layout hh
    obtain ⟨i,number,rfl⟩ := exists_of_mem_groupsFrom hg
    rfl
  rw [symbolTable, hnone]
  rfl

/-- What was disassembled is assembled to its bytes again, if it ends in memory. -/
theorem assemble_disassembly {is : List Instruction} {options : Options}
    (hfit : options.origin.toNat + (is.flatMap Instruction.bytes).length ≤ 65536) :
    Disassembly is (disassemble is) ∧ ∀ source, Disassembly is source →
      assemble options source = .ok ⟨is.flatMap Instruction.bytes,options.origin,[]⟩ := by
  refine ⟨disassembly_disassemble is,fun source h => ?_⟩
  have hknown : ∀ g ∈ groupsFrom 1 is, g.state = .known := by
    intro g hg
    obtain ⟨i,number,rfl⟩ := exists_of_mem_groupsFrom hg
    rfl
  have hspace : checkSpace (layout options.origin.toNat (groupsFrom 1 is)) = .ok () :=
    checkSpace_eq_ok_iff_forall.mpr fun g hg => inMemory_of_fit hfit hg
  simp only [assemble, parseSource_of_disassembly h, resolve_of_known hknown hspace,
    image_layout_groupsFrom, symbolTable_layout_groupsFrom, bind, Except.bind]

theorem assemble_disassembly_wide : ∃ is : List Instruction,
    Disassembly is "lda $0010\nASL\nasl a\nBNE $fe\nJMP ($12aB)".toList ∧
      0xFFF6 + (is.flatMap Instruction.bytes).length = 65536 ∧
      assemble ⟨0xFFF6,true⟩ "lda $0010\nASL\nasl a\nBNE $fe\nJMP ($12aB)".toList =
        .ok ⟨[0xAD, 0x10, 0x00, 0x0A, 0x0A, 0xD0, 0xFE, 0x6C, 0xAB, 0x12],0xFFF6,[]⟩ := by
  let lda : Instruction := ⟨0xAD,⟨.lda,.absolute,4⟩,[0x10, 0x00],by rfl,rfl⟩
  let asl : Instruction := ⟨0x0A,⟨.asl,.accumulator,2⟩,[],by rfl,rfl⟩
  let bne : Instruction := ⟨0xD0,⟨.bne,.relative,2⟩,[0xFE],by rfl,rfl⟩
  let jmp : Instruction := ⟨0x6C,⟨.jmp,.indirect,5⟩,[0xAB, 0x12],by rfl,rfl⟩
  have h : Disassembly [lda,asl,asl,bne,jmp]
      "lda $0010\nASL\nasl a\nBNE $fe\nJMP ($12aB)".toList := by
    refine ⟨["lda $0010".toList,"ASL".toList,"asl a".toList,"BNE $fe".toList,
      "JMP ($12aB)".toList],?_,.inr (by rfl)⟩
    refine .cons ⟨_,.inl rfl,by rfl⟩ (.cons ⟨_,.inl rfl,by rfl⟩ (.cons ⟨_,.inr ⟨rfl,rfl⟩,by rfl⟩
      (.cons ⟨_,.inl rfl,by rfl⟩ (.cons ⟨_,.inl rfl,by rfl⟩ .nil))))
  exact ⟨_,h,rfl,(assemble_disassembly (by decide)).2 _ h⟩

end Nmos6502
