import Nmos6502.Text.Blank

/-! # Lines and words

Cutting a text at some of its characters. Every cut ends one piece and begins another,
so the pieces of a text are those before any of its cuts followed by those after.
Words are the pieces between blanks that are not empty, lines those between line feeds.
-/
namespace Nmos6502.Text

/-- The longest runs without blanks. -/
def words (text : List Char) : List (List Char) :=
  (text.splitOnP isBlank).filter (!·.isEmpty)

/-- What stands before a given ending. -/
def beforeEnd? (ending text : List Char) : Option (List Char) :=
  if ending.isSuffixOf text then some (text.take (text.length - ending.length)) else none

/-- The lines that end in a line feed, without it and one carriage return before it,
and the rest if it is not empty. -/
def closeLines : List (List Char) → List (List Char)
  | [] => []
  | [last] => if last.isEmpty then [] else [last]
  | line :: next :: rest => (beforeEnd? ['\r'] line).getD line :: closeLines (next :: rest)

def lines (text : List Char) : List (List Char) := closeLines (text.splitOn '\n')

def trim (text : List Char) : List Char :=
  ((text.dropWhile isBlank).reverse.dropWhile isBlank).reverse

/-- Upper case for the letters of ASCII; all other characters stay. -/
def upper (text : List Char) : List Char := text.map Char.toUpper

theorem flatten_splitOnP (cut : Char → Bool) (text : List Char) :
    (text.splitOnP cut).flatten = text.filter (!cut ·) := by
  induction text with
  | nil => rfl
  | cons c text ih =>
    rw [List.splitOnP_cons_eq_if_modifyHead]
    split
    · rename_i hc
      rw [List.filter_cons_of_neg (by simpa using hc), ← ih]
      rfl
    · rename_i hc
      obtain ⟨first,rest,hpieces⟩ := List.exists_cons_of_ne_nil (List.splitOnP_ne_nil cut text)
      rw [List.filter_cons_of_pos (by simpa using hc), ← ih, hpieces]
      rfl

theorem mem_of_mem_splitOnP {cut : Char → Bool} {text piece : List Char}
    (hp : piece ∈ text.splitOnP cut) {c : Char} (hc : c ∈ piece) : c ∈ text ∧ cut c = false := by
  have hmem := List.mem_flatten_of_mem hp hc
  rw [flatten_splitOnP, List.mem_filter] at hmem
  simpa using hmem

theorem words_append {c : Char} (hc : isBlank c = true) (before after : List Char) :
    words (before ++ c :: after) = words before ++ words after := by
  rw [words, List.splitOnP_append_cons before after hc, List.filter_append]
  rfl

theorem words_of_unblank {text : List Char} (hne : text ≠ []) (h : ∀ c ∈ text, isBlank c = false) :
    words text = [text] := by
  rw [words, List.splitOnP_eq_singleton h]
  cases text with
  | nil => exact absurd rfl hne
  | cons c text => rfl

theorem trim_eq_self {text : List Char} (hstart : text.head?.any isBlank = false)
    (hend : text.getLast?.any isBlank = false) : trim text = text := by
  have hkeep : ∀ l : List Char, l.head?.any isBlank = false → l.dropWhile isBlank = l := by
    intro l hl
    cases l with
    | nil => rfl
    | cons c l => exact List.dropWhile_cons_of_neg (by simpa using hl)
  rw [trim, hkeep text hstart, hkeep text.reverse (by rwa [List.head?_reverse]),
    List.reverse_reverse]

theorem trim_upper (text : List Char) : trim (upper text) = upper (trim text) := by
  have hblank : isBlank ∘ Char.toUpper = isBlank := by
    funext c
    exact isBlank_toUpper c
  simp only [trim, upper, List.dropWhile_map, ← List.map_reverse, hblank]

theorem beforeEnd?_eq_some {ending text before : List Char} :
    beforeEnd? ending text = some before ↔ text = before ++ ending := by
  simp only [beforeEnd?, Option.ite_none_right_eq_some, List.isSuffixOf_iff_suffix,
    Option.some.injEq]
  constructor
  · rintro ⟨⟨start, rfl⟩, rfl⟩
    simp
  · rintro rfl
    simp

theorem beforeEnd?_of_not_mem {ending text : List Char} {c : Char} (he : c ∈ ending)
    (ht : c ∉ text) : beforeEnd? ending text = none := by
  cases h : beforeEnd? ending text with
  | none => rfl
  | some before =>
    rw [beforeEnd?_eq_some] at h
    exact absurd (h ▸ List.mem_append_right before he) ht

theorem beforeEnd?_append_of_ne {ending other : List Char} (hlength : ending.length = other.length)
    (hne : ending ≠ other) (text : List Char) : beforeEnd? ending (text ++ other) = none := by
  cases h : beforeEnd? ending (text ++ other) with
  | none => rfl
  | some before =>
    rw [beforeEnd?_eq_some] at h
    exact absurd (List.append_inj_right' h hlength.symm).symm hne

theorem lines_append {line rest : List Char} (hfeed : '\n' ∉ line) (hreturn : '\r' ∉ line) :
    lines (line ++ '\n' :: rest) = line :: lines rest := by
  have hkeep : beforeEnd? ['\r'] line = none :=
    beforeEnd?_of_not_mem (List.mem_singleton_self _) hreturn
  obtain ⟨next,more,hrest⟩ := List.exists_cons_of_ne_nil (List.splitOn_ne_nil '\n' rest)
  rw [lines, lines, List.splitOn_append_cons_self_of_not_mem hfeed, hrest, closeLines, hkeep,
    Option.getD_none]

theorem lines_of_line {line : List Char} (hne : line ≠ []) (hfeed : '\n' ∉ line) :
    lines line = [line] := by
  rw [lines, List.splitOn_eq_singleton hfeed]
  cases line with
  | nil => exact absurd rfl hne
  | cons c line => rfl

theorem prefix_of_mem_closeLines {texts : List (List Char)} {line : List Char}
    (h : line ∈ closeLines texts) : ∃ text ∈ texts, line <+: text := by
  induction texts with
  | nil => cases h
  | cons text texts ih =>
    cases texts with
    | nil =>
      rw [closeLines] at h
      split at h
      · cases h
      · exact ⟨text, List.mem_cons_self .., List.mem_singleton.mp h ▸ List.prefix_rfl⟩
    | cons next rest =>
      rw [closeLines] at h
      rcases List.mem_cons.mp h with rfl | h
      · refine ⟨text, List.mem_cons_self .., ?_⟩
        cases hbefore : beforeEnd? ['\r'] text with
        | none => exact List.prefix_rfl
        | some before =>
          rw [beforeEnd?_eq_some.mp hbefore]
          exact List.prefix_append ..
      · obtain ⟨found, hfound, hinitial⟩ := ih h
        exact ⟨found, List.mem_cons_of_mem _ hfound, hinitial⟩

theorem feed_notMem_lines {text line : List Char} (h : line ∈ lines text) : '\n' ∉ line := by
  intro hfeed
  obtain ⟨piece,hpiece,hinitial⟩ := prefix_of_mem_closeLines h
  exact absurd (mem_of_mem_splitOnP hpiece (hinitial.subset hfeed)).2 (by simp)

theorem lines_flatMap_return_feed {texts : List (List Char)} (h : ∀ text ∈ texts, '\n' ∉ text) :
    lines (texts.flatMap (· ++ ['\r', '\n'])) = texts := by
  induction texts with
  | nil => rfl
  | cons text texts ih =>
    have hfeed : '\n' ∉ text ++ ['\r'] := by simpa using h text (List.mem_cons_self ..)
    have hrest := ih fun text ht => h text (List.mem_cons_of_mem _ ht)
    have hsplit : (text :: texts).flatMap (· ++ ['\r', '\n']) =
        (text ++ ['\r']) ++ '\n' :: texts.flatMap (· ++ ['\r', '\n']) := by
      simp
    obtain ⟨next,more,hmore⟩ := List.exists_cons_of_ne_nil
      (List.splitOn_ne_nil '\n' (texts.flatMap (· ++ ['\r', '\n'])))
    rw [lines, hmore] at hrest
    rw [lines, hsplit, List.splitOn_append_cons_self_of_not_mem hfeed, hmore, closeLines, hrest,
      beforeEnd?_eq_some.mpr rfl, Option.getD_some]

/-- The lines of two texts, one after the other, are those of a text. -/
theorem exists_lines_append (first second : List Char) :
    ∃ both, lines both = lines first ++ lines second := by
  refine ⟨_, lines_flatMap_return_feed fun line hline => ?_⟩
  rcases List.mem_append.mp hline with hline | hline
  · exact feed_notMem_lines hline
  · exact feed_notMem_lines hline

end Nmos6502.Text
