import Nmos6502.Proofs.ParsedGroups

/-! # Names in operands

A name in an operand is cut out of the line that it is written on. Lines are read in upper
case, so that every name is in upper case as well.
-/
namespace Nmos6502

namespace Text

theorem mem_of_mem_words {text word : List Char} (hw : word ∈ words text) {c : Char}
    (hc : c ∈ word) : c ∈ text :=
  (mem_of_mem_splitOnP (List.mem_of_mem_filter hw) hc).1

theorem infix_of_beforeEnd? {ending text before : List Char}
    (h : beforeEnd? ending text = some before) : before <:+: text := by
  rw [beforeEnd?_eq_some.mp h]
  exact (List.prefix_append ..).isInfix

theorem toUpper_toUpper (c : Char) : c.toUpper.toUpper = c.toUpper := by
  apply Char.toNat_inj.mp
  simp only [toNat_toUpper]
  by_cases h : 97 ≤ c.toNat ∧ c.toNat ≤ 122
  · rw [if_pos h, if_neg (by omega)]
  · rw [if_neg h, if_neg h]

theorem upper_eq_self {text : List Char} (h : ∀ c ∈ text, c.toUpper = c) : upper text = text :=
  (List.map_congr_left h).trans (List.map_id _)

end Text

namespace Assembly

theorem toUpper_of_mem_cleanLine {line : List Char} {c : Char} (h : c ∈ cleanLine line) :
    c.toUpper = c := by
  obtain ⟨d,-,rfl⟩ := List.mem_map.mp h
  exact Text.toUpper_toUpper d

theorem Value.parse_eq_name {text name : List Char} (h : Value.parse text = .ok (.name name)) :
    isName name = true ∧ name = text := by
  unfold Value.parse at h
  split at h
  · split at h <;> cases h
  · split at h
    · rename_i hname
      cases h
      exact ⟨hname,rfl⟩
    · cases h

namespace Operand

theorem name_of_map {shape : Value → Operand} (hshape : ∀ value, (shape value).value = value)
    {part text : List Char} (hpart : part <:+: text) {operand : Operand}
    (h : (Value.parse part).map shape = .ok operand) {name : List Char}
    (hn : operand.value = .name name) : isName name = true ∧ name <:+: text := by
  obtain ⟨value,hvalue,rfl⟩ := map_eq_ok_iff.mp h
  rw [hshape] at hn
  obtain ⟨hname,rfl⟩ := Value.parse_eq_name (hn ▸ hvalue)
  exact ⟨hname,hpart⟩

theorem name_of_parseInner {inner : List Char} {operand : Operand}
    (h : parseInner inner = .ok operand) {name : List Char} (hn : operand.value = .name name) :
    isName name = true ∧ name <:+: inner := by
  unfold parseInner at h
  split at h
  · rename_i text htext
    exact name_of_map (fun _ => rfl) (Text.infix_of_beforeEnd? htext) h hn
  · split at h
    · rename_i text htext
      exact name_of_map (fun _ => rfl) (Text.infix_of_beforeEnd? htext) h hn
    · split at h
      · rename_i text htext
        exact name_of_map (fun _ => rfl) (Text.infix_of_beforeEnd? htext) h hn
      · cases h

theorem name_of_parseDirect {text : List Char} {operand : Operand}
    (h : parseDirect text = .ok operand) {name : List Char} (hn : operand.value = .name name) :
    isName name = true ∧ name <:+: text := by
  unfold parseDirect at h
  split at h
  · rename_i base hbase
    exact name_of_map (fun _ => rfl) (Text.infix_of_beforeEnd? hbase) h hn
  · split at h
    · rename_i base hbase
      exact name_of_map (fun _ => rfl) (Text.infix_of_beforeEnd? hbase) h hn
    · exact name_of_map (fun _ => rfl) List.infix_rfl h hn

theorem name_of_parse {text : List Char} {operand : Operand} (h : parse text = .ok operand)
    {name : List Char} (hn : operand.value = .name name) : isName name = true ∧ name <:+: text := by
  unfold parse at h
  split at h
  · cases h
    cases hn
  · cases h
    cases hn
  · exact name_of_map (fun _ => rfl) (List.suffix_cons ..).isInfix h hn
  · obtain ⟨hname,hinner⟩ := name_of_parseInner h hn
    exact ⟨hname,List.infix_cons hinner⟩
  · exact name_of_parseDirect h hn

end Operand

theorem Statement.parse_instruct {operator : List Char} {arguments : List (List Char)}
    {operation : Operation} {operand : Operand} {text : List Char}
    (h : Statement.parse operator arguments = .ok (.instruct operation operand text)) :
    Operand.parse arguments.flatten = .ok operand := by
  obtain ⟨_,_,_,_,-,-,-,-,hdefine⟩ | ⟨_,_,-,hoperand,hinstruct⟩ := Statement.parse_cases h
  · cases hdefine
  · cases hinstruct
    exact hoperand

theorem Operand.name_of_reading {operation : Operation} {operand : Operand} {name : List Char}
    (h : (operand.reading operation).value = .name name) :
    operand.value = .name name ∨ name = ['A'] := by
  unfold Operand.reading at h
  split at h
  · split at h
    · cases h
    · cases h
      exact .inr rfl
  · exact .inl h

theorem SourceLine.name_of_parse {text : List Char} {line : SourceLine}
    (h : SourceLine.parse text = .ok line) {number : ℕ} {w : Written}
    (hw : line.written? number = some w) {name : List Char} (hn : w.operand.value = .name name) :
    isName name = true ∧ Text.upper name = name := by
  unfold SourceLine.written? at hw
  split at hw
  · rename_i operation operand written hs
    cases hw
    rcases Operand.name_of_reading hn with hn | rfl
    · obtain ⟨operator,arguments,hstatement,hwords⟩ := SourceLine.exists_parse h hs
      obtain ⟨hname,hcut⟩ := Operand.name_of_parse (Statement.parse_instruct hstatement) hn
      refine ⟨hname,Text.upper_eq_self fun c hc => ?_⟩
      obtain ⟨argument,hargument,hc⟩ := List.mem_flatten.mp (hcut.subset hc)
      exact toUpper_of_mem_cleanLine (Text.mem_of_mem_words (hwords argument hargument) hc)
    · exact ⟨by decide,by decide⟩
  · cases hw

theorem name_of_writtenFrom {number : ℕ} {texts : List (List Char)} {w : Written}
    (hw : w ∈ writtenFrom number texts) {name : List Char} (hn : w.operand.value = .name name) :
    isName name = true ∧ Text.upper name = name := by
  induction texts generalizing number with
  | nil => cases hw
  | cons text rest ih =>
    rw [writtenFrom] at hw
    split at hw
    · rename_i line hparse
      rcases List.mem_append.mp hw with hw | hw
      · exact SourceLine.name_of_parse hparse (Option.mem_toList.mp hw) hn
      · exact ih hw
    · exact ih hw

theorem name_of_written {source : List Char} {w : Written} (hw : w ∈ written source)
    {name : List Char} (hn : w.operand.value = .name name) :
    isName name = true ∧ Text.upper name = name := name_of_writtenFrom hw hn

end Assembly
end Nmos6502
