import Mathlib.Data.List.TakeWhile
import Nmos6502.Proofs.OperandNames

/-! # The words of a line

Only the words before the comment of a line matter, in upper case. Blanks around words and their
number between words do not, and a text put behind another one leaves all words but the last
alone.
-/
namespace Nmos6502
namespace Text
variable {p q gap text : List Char}

def Blanks (text : List Char) : Prop := ∀ c ∈ text, isBlank c = true

theorem words_cons_blank {c : Char} (hc : isBlank c = true) (text : List Char) :
    words (c :: text) = words text := words_append hc [] text

theorem words_blanks_append (h : Blanks gap) (text : List Char) :
    words (gap ++ text) = words text := by
  induction gap with
  | nil => rfl
  | cons c gap ih =>
    rw [List.cons_append, words_cons_blank (h c (List.mem_cons_self ..))]
    exact ih fun d hd => h d (List.mem_cons_of_mem c hd)

theorem words_of_blanks (h : Blanks text) : words text = [] := by
  rw [← List.append_nil text, words_blanks_append h]
  rfl

theorem words_append_gap (hne : gap ≠ []) (h : Blanks gap) (p q : List Char) :
    words (p ++ (gap ++ q)) = words p ++ words q := by
  cases gap with
  | nil => exact absurd rfl hne
  | cons c gap =>
    rw [List.cons_append, words_append (h c (List.mem_cons_self ..)),
      words_blanks_append fun d hd => h d (List.mem_cons_of_mem c hd)]

theorem words_append_blanks (h : Blanks gap) (text : List Char) :
    words (text ++ gap) = words text := by
  by_cases hne : gap = []
  · rw [hne, List.append_nil]
  · have hgap := words_append_gap hne h text []
    rwa [List.append_nil, show words [] = [] from rfl, List.append_nil] at hgap

theorem blanks_takeWhile (text : List Char) : Blanks (text.takeWhile isBlank) :=
  fun _ hc => List.mem_takeWhile_imp hc

theorem exists_trim (text : List Char) :
    ∃ before after, Blanks before ∧ Blanks after ∧ text = before ++ (trim text ++ after) := by
  let rest := (text.dropWhile isBlank).reverse
  have hafter : Blanks (rest.takeWhile isBlank).reverse := fun c hc =>
    blanks_takeWhile rest c (List.mem_reverse.mp hc)
  refine ⟨text.takeWhile isBlank,_,blanks_takeWhile text,hafter,?_⟩
  calc text = text.takeWhile isBlank ++ text.dropWhile isBlank :=
        List.takeWhile_append_dropWhile.symm
    _ = text.takeWhile isBlank ++ (rest.takeWhile isBlank ++ rest.dropWhile isBlank).reverse := by
        rw [List.takeWhile_append_dropWhile (l := rest), List.reverse_reverse]
    _ = text.takeWhile isBlank ++ (trim text ++ (rest.takeWhile isBlank).reverse) := by
        rw [List.reverse_append]
        rfl

theorem words_trim (text : List Char) : words (trim text) = words text := by
  obtain ⟨before,after,hbefore,hafter,heq⟩ := exists_trim text
  conv_rhs => rw [heq]
  rw [words_blanks_append hbefore, words_append_blanks hafter]

theorem splitOnP_map {cut : Char → Bool} {f : Char → Char} (hf : ∀ c, cut (f c) = cut c)
    (text : List Char) : (text.map f).splitOnP cut = (text.splitOnP cut).map (List.map f) := by
  induction text with
  | nil => rfl
  | cons c text ih =>
    rw [List.map_cons, List.splitOnP_cons_eq_if_modifyHead, List.splitOnP_cons_eq_if_modifyHead,
      hf, ih]
    split
    · rfl
    · cases text.splitOnP cut <;> rfl

theorem toUpper_eq_iff {c d : Char} (hd : d.toNat < 65) : c.toUpper = d ↔ c = d := by
  simp only [← Char.toNat_inj, toNat_toUpper]
  split <;> omega

theorem words_upper (text : List Char) : words (upper text) = (words text).map upper := by
  rw [words, upper, splitOnP_map isBlank_toUpper, words, List.filter_map]
  congr 2
  funext word
  cases word <;> rfl

theorem flatten_words (text : List Char) : (words text).flatten = text.filter (!isBlank ·) := by
  rw [words, List.flatten_filter_not_isEmpty, flatten_splitOnP]

theorem exists_splitOnP_append (cut : Char → Bool) (p : List Char) :
    ∃ init last, p.splitOnP cut = init ++ [last] ∧
      ∀ q, ∃ rest, (p ++ q).splitOnP cut = init ++ rest := by
  induction p with
  | nil => exact ⟨[],[],rfl,fun q => ⟨q.splitOnP cut,rfl⟩⟩
  | cons c p ih =>
    obtain ⟨init,last,hp,hq⟩ := ih
    simp only [List.cons_append, List.splitOnP_cons_eq_if_modifyHead, hp]
    split
    · refine ⟨[] :: init,last,rfl,fun q => ?_⟩
      obtain ⟨rest,hrest⟩ := hq q
      exact ⟨rest,congrArg ([] :: ·) hrest⟩
    · cases init with
      | nil => exact ⟨[],c :: last,rfl,fun q => ⟨_,rfl⟩⟩
      | cons first init =>
        refine ⟨(c :: first) :: init,last,rfl,fun q => ?_⟩
        obtain ⟨rest,hrest⟩ := hq q
        exact ⟨rest,congrArg (List.modifyHead (c :: ·)) hrest⟩

/-- What is put behind a text can only go on with its last word. -/
theorem words_append_of_last {init : List (List Char)} {last : List Char}
    (h : words p = init ++ [last]) (q : List Char) :
    ∃ more, words (p ++ q) = init ++ more ∧ more.flatten = last ++ (words q).flatten := by
  have hinit : ∃ more, words (p ++ q) = init ++ more := by
    obtain ⟨before,piece,hp,hq⟩ := exists_splitOnP_append isBlank p
    obtain ⟨rest,hrest⟩ := hq q
    rw [words, hp, List.filter_append] at h
    rw [words, hrest, List.filter_append]
    cases piece with
    | nil =>
      rw [List.filter_cons_of_neg (by simp), List.filter_nil, List.append_nil] at h
      exact ⟨_,by rw [h, List.append_assoc]⟩
    | cons c piece =>
      rw [List.filter_cons_of_pos (by simp), List.filter_nil] at h
      exact ⟨_,by rw [(List.append_inj' h rfl).1]⟩
  obtain ⟨more,hmore⟩ := hinit
  refine ⟨more,hmore,List.append_cancel_left (?_ : init.flatten ++ _ = init.flatten ++ _)⟩
  calc init.flatten ++ more.flatten = (words (p ++ q)).flatten := by
        rw [hmore, List.flatten_append]
    _ = (words p).flatten ++ (words q).flatten := by
        rw [flatten_words, flatten_words, flatten_words, List.filter_append]
    _ = init.flatten ++ (last ++ (words q).flatten) := by
        rw [h, List.flatten_append, List.flatten_singleton, List.append_assoc]

end Text

namespace Assembly
variable {p line : List Char}

def code (line : List Char) : List Char := line.takeWhile (· != ';')

theorem words_cleanLine (line : List Char) :
    Text.words (cleanLine line) = (Text.words (code line)).map Text.upper := by
  rw [cleanLine, Text.words_upper, Text.words_trim, code]

theorem code_append (h : ';' ∉ p) (q : List Char) : code (p ++ q) = p ++ code q := by
  refine List.takeWhile_append_of_pos fun c hc => ?_
  simpa using fun heq : c = ';' => h (heq ▸ hc)

theorem code_eq_self (h : ';' ∉ p) : code p = p := by
  simpa [code] using code_append h []

theorem code_append_of_mem (h : ';' ∈ p) (q : List Char) : code (p ++ q) = code p := by
  obtain ⟨before,after,hsplit,hbefore⟩ := List.eq_append_cons_of_mem h
  have hcode : ∀ rest, code (before ++ ';' :: rest) = before := fun rest => by
    rw [code_append hbefore, code, List.takeWhile_cons_of_neg (by simp), List.append_nil]
  rw [hsplit, List.append_assoc, List.cons_append, hcode, hcode]

theorem notMem_of_blanks {gap : List Char} (h : Text.Blanks gap) : ';' ∉ gap := fun hc =>
  absurd (h _ hc) (by decide)

theorem code_upper (line : List Char) : code (Text.upper line) = Text.upper (code line) := by
  have hstop : (· != ';') ∘ Char.toUpper = (· != ';') := by
    funext c
    simp only [Function.comp_apply, bne, Bool.beq_eq_decide_eq,
      Text.toUpper_eq_iff (d := ';') (by decide)]
  rw [code, Text.upper, List.takeWhile_map, hstop]
  rfl

end Assembly
end Nmos6502
