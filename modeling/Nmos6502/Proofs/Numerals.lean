import Mathlib.Data.List.Forall2
import Mathlib.Data.Nat.Digits.Defs
import Nmos6502.Proofs.ParsedGroups
import Nmos6502.Proofs.Spelling

/-! # Numerals and what they denote

A numeral is a sign, none for decimals, and digits of its base. It denotes the number with these
digits, the first one counting most, and is read as the bytes of that number. How many they are is
told by the digits of a hexadecimal numeral, zeros in front included, and by the number otherwise.
Nothing else is read, but for one plus sign in front of binary digits.
-/
namespace Nmos6502.Assembly

/-- The digits with their values; from ten on they are letters of either case. -/
def figures : List (Char × ℕ) :=
  ['0', '1', '2', '3', '4', '5', '6', '7', '8', '9', 'A', 'B', 'C', 'D', 'E', 'F'].zipIdx ++
    ['a', 'b', 'c', 'd', 'e', 'f'].zipIdx 10

def Figure (base : ℕ) (c : Char) (digit : ℕ) : Prop := (c, digit) ∈ figures ∧ digit < base

/-- The text has at least one digit, and these are the digits of the number from the highest place
down. -/
def Denotes (base : ℕ) (text : List Char) (number : ℕ) : Prop :=
  text ≠ [] ∧ ∃ digits, List.Forall₂ (Figure base) text digits ∧
    Nat.ofDigits base digits.reverse = number

inductive Radix where
  | hexadecimal | binary | decimal
deriving DecidableEq

namespace Radix

def base : Radix → ℕ
  | .hexadecimal => 16
  | .binary => 2
  | .decimal => 10

def sign : Radix → List Char
  | .hexadecimal => ['$']
  | .binary => ['%']
  | .decimal => []

/-- The bytes that a numeral takes. -/
def width (r : Radix) (text : List Char) (number : ℕ) : ℕ :=
  match r with
  | .hexadecimal => if text.length ≤ 2 then 1 else 2
  | .binary | .decimal => if number < 256 then 1 else 2

/-- The text behind the sign makes a numeral for the number. -/
structure Spells (r : Radix) (text : List Char) (number : ℕ) : Prop where
  denotes : Denotes r.base text number
  short : r = .hexadecimal → text.length ≤ 4
  small : number ≤ 65535

end Radix

/-- The text is a sign with digits of its base behind it, and these make the number. -/
def IsNumeral (text : List Char) (number : ℕ) : Prop :=
  ∃ (r : Radix) (digits : List Char), text = r.sign ++ digits ∧ r.Spells digits number

section
variable {base digit number : ℕ} {c : Char} {text : List Char}

theorem digit?_eq_filter (hb : base ≤ 16) (c : Char) :
    digit? base c = (digit? 16 c).filter (· < base) := by
  simp only [digit?, Option.filter_filter]
  congr 1
  funext d
  grind

theorem toNat_lt_of_digit? (h : digit? base c = some digit) : c.toNat < 128 := by
  have hbelow : ∀ d : Char, c.val ≤ d.val → d.toNat < 128 → c.toNat < 128 :=
    fun _ hle hd => (UInt32.le_iff_toNat_le.mp hle).trans_lt hd
  unfold digit? at h
  obtain ⟨hvalue,-⟩ := Option.filter_eq_some_iff.mp h
  split at hvalue
  · rename_i hdigit
    exact hbelow '9' (of_decide_eq_true (Bool.and_eq_true_iff.mp hdigit).2) (by decide)
  · split at hvalue
    · rename_i hupper
      exact hbelow 'F' (of_decide_eq_true (Bool.and_eq_true_iff.mp hupper).2) (by decide)
    · split at hvalue
      · rename_i hlower
        exact hbelow 'f' (of_decide_eq_true (Bool.and_eq_true_iff.mp hlower).2) (by decide)
      · cases hvalue

theorem digit?_of_mem_figures : ∀ figure ∈ figures, digit? 16 figure.1 = some figure.2 := by
  decide

theorem mem_figures_of_digit? (h : digit? 16 c = some digit) : (c, digit) ∈ figures := by
  have hall : ∀ n < 128, ∀ d ∈ digit? 16 (Char.ofNat n), (Char.ofNat n, d) ∈ figures := by
    decide +kernel
  have hc := hall c.toNat (toNat_lt_of_digit? h)
  rw [Char.ofNat_toNat] at hc
  exact hc digit h

theorem digit?_eq_some_iff (hb : base ≤ 16) : digit? base c = some digit ↔ Figure base c digit := by
  rw [digit?_eq_filter hb, Option.filter_eq_some_iff, decide_eq_true_eq, Figure]
  exact and_congr_left fun _ => ⟨mem_figures_of_digit?,digit?_of_mem_figures (c, digit)⟩

theorem readDigits_eq_some_iff (hb : base ≤ 16) {start : ℕ} :
    readDigits base start text = some number ↔ ∃ digits, List.Forall₂ (Figure base) text digits ∧
      Nat.ofDigits base digits.reverse + base ^ digits.length * start = number := by
  induction text generalizing start with
  | nil => simp [readDigits]
  | cons c text ih =>
    have hplace : ∀ digit digits, Nat.ofDigits base (digit :: digits).reverse +
        base ^ (digit :: digits).length * start =
          Nat.ofDigits base digits.reverse + base ^ digits.length * (base * start + digit) := by
      intro digit digits
      rw [List.reverse_cons, Nat.ofDigits_append, Nat.ofDigits_singleton, List.length_reverse,
        List.length_cons]
      ring
    simp only [readDigits, Option.bind_eq_some_iff, digit?_eq_some_iff hb, ih,
      List.forall₂_cons_left_iff]
    constructor
    · rintro ⟨digit,hdigit,digits,hdigits,rfl⟩
      exact ⟨_,⟨digit,digits,hdigit,hdigits,rfl⟩,hplace ..⟩
    · rintro ⟨_,⟨digit,digits,hdigit,hdigits,rfl⟩,rfl⟩
      exact ⟨digit,hdigit,digits,hdigits,(hplace ..).symm⟩

theorem digits?_eq_some_iff (hb : base ≤ 16) :
    digits? base text = some number ↔ Denotes base text number := by
  simp only [digits?, Denotes, List.isEmpty_iff]
  split
  · rename_i hempty
    simp [hempty]
  · rename_i hne
    simp [readDigits_eq_some_iff hb, hne]

theorem Denotes.lt (h : Denotes base text number) (hb : 1 < base) : number < base ^ text.length := by
  obtain ⟨-,digits,hdigits,rfl⟩ := h
  have hsmall : ∀ digit ∈ digits, digit < base := by
    induction hdigits with
    | nil => simp
    | cons hdigit _ ih => exact List.forall_mem_cons.mpr ⟨hdigit.2,ih⟩
  rw [hdigits.length_eq, ← List.length_reverse]
  exact Nat.ofDigits_lt_base_pow_length hb fun digit hdigit =>
    hsmall digit (List.mem_reverse.mp hdigit)

theorem shortest?_eq_some_iff {bytes : List UInt8} : shortest? number = some bytes ↔
    number ≤ 65535 ∧ littleEndian (if number < 256 then 1 else 2) number = bytes := by
  unfold shortest?
  split
  · simp
    omega
  · split <;> simp <;> omega

end

namespace Radix
variable {r : Radix} {text : List Char} {number : ℕ}

theorem base_le (r : Radix) : r.base ≤ 16 := by
  cases r <;> decide

theorem width_of_hexadecimal (h : hexadecimal.Spells text number) :
    (text.length + 1) / 2 = hexadecimal.width text number := by
  have hpos := List.length_pos_iff.mpr h.denotes.1
  have hshort := h.short rfl
  rw [width]
  split <;> omega

theorem Spells.lt (h : r.Spells text number) : number < 256 ^ r.width text number := by
  have hsmall := h.small
  cases r with
  | hexadecimal =>
    rw [width]
    split
    · rename_i hlength
      have hlt : number < 16 ^ text.length := h.denotes.lt (by decide)
      exact hlt.trans_le (Nat.pow_le_pow_right (n := 16) (by decide) hlength)
    · omega
  | binary | decimal =>
    rw [width]
    split <;> omega

theorem spells_hexadecimal_iff : hexadecimal.Spells text number ↔
    text.length ≤ 4 ∧ digits? 16 text = some number := by
  rw [digits?_eq_some_iff (by decide)]
  constructor
  · intro h
    exact ⟨h.short rfl,h.denotes⟩
  · rintro ⟨hlength,hdenotes⟩
    have hlt := hdenotes.lt (by decide)
    have hmost : 16 ^ text.length ≤ 16 ^ 4 := Nat.pow_le_pow_right (by decide) hlength
    exact ⟨hdenotes,fun _ => hlength,by omega⟩

theorem spells_iff (hr : r ≠ hexadecimal) : r.Spells text number ↔
    digits? r.base text = some number ∧ number ≤ 65535 := by
  rw [digits?_eq_some_iff r.base_le]
  constructor
  · intro h
    exact ⟨h.denotes,h.small⟩
  · rintro ⟨hdenotes,hsmall⟩
    exact ⟨hdenotes,fun h => absurd h hr,hsmall⟩

theorem Spells.ne_cons (h : r.Spells text number) {c : Char} (hc : c ∈ ['$', '%', '+'])
    (rest : List Char) : text ≠ c :: rest := by
  rintro rfl
  have hdigits := (digits?_eq_some_iff r.base_le).mpr h.denotes
  obtain ⟨digit,hdigit⟩ := exists_digit_of_digits? hdigits (List.mem_cons_self ..)
  simp only [List.mem_cons, List.not_mem_nil, or_false] at hc
  rcases hc with rfl | rfl | rfl <;> cases r <;> cases hdigit

end Radix

section
variable {text : List Char} {bytes : List UInt8}

theorem numeral?_dollar_eq_some_iff : numeral? ('$' :: text) = some bytes ↔
    ∃ number, Radix.hexadecimal.Spells text number ∧
      littleEndian (Radix.hexadecimal.width text number) number = bytes := by
  simp only [numeral?_eq, Option.ite_none_right_eq_some, Option.map_eq_some_iff]
  constructor
  · rintro ⟨hlength,number,hdigits,rfl⟩
    have hspells := Radix.spells_hexadecimal_iff.mpr ⟨hlength,hdigits⟩
    exact ⟨number,hspells,by rw [Radix.width_of_hexadecimal hspells]⟩
  · rintro ⟨number,hspells,rfl⟩
    obtain ⟨hlength,hdigits⟩ := Radix.spells_hexadecimal_iff.mp hspells
    exact ⟨hlength,number,hdigits,by rw [Radix.width_of_hexadecimal hspells]⟩

theorem bind_shortest?_eq_some_iff {r : Radix} (hr : r ≠ .hexadecimal) :
    (digits? r.base text).bind shortest? = some bytes ↔
      ∃ number, r.Spells text number ∧ littleEndian (r.width text number) number = bytes := by
  have hwidth : ∀ number, r.width text number = if number < 256 then 1 else 2 := by
    intro number
    cases r with
    | hexadecimal => exact absurd rfl hr
    | binary | decimal => rfl
  simp only [Option.bind_eq_some_iff, shortest?_eq_some_iff, Radix.spells_iff hr, hwidth, and_assoc]

theorem numeral?_percent (h : ∀ rest, text ≠ '+' :: rest) :
    numeral? ('%' :: text) = (digits? 2 text).bind shortest? := by
  rw [numeral?_eq]
  split
  · rename_i heq
    cases heq
  · rename_i heq
    exact absurd (List.cons.inj heq).2 (h _)
  · rename_i heq
    rw [(List.cons.inj heq).2]
  · rename_i hother
    exact absurd rfl (hother text)

theorem numeral?_unsigned (h : ∀ c ∈ ['$', '%'], ∀ rest, text ≠ c :: rest) :
    numeral? text = (digits? 10 text).bind shortest? := by
  rw [numeral?_eq]
  split
  · exact absurd rfl (h '$' (by simp) _)
  · exact absurd rfl (h '%' (by simp) _)
  · exact absurd rfl (h '%' (by simp) _)
  · rfl

/-- A text is read exactly if it is the sign of a base with digits behind it, or binary digits with
both a percent and a plus sign in front, and is read as the bytes of the number. -/
theorem numeral?_eq_some_iff : numeral? text = some bytes ↔ ∃ (r : Radix) (digits : List Char),
    (text = r.sign ++ digits ∨ r = .binary ∧ text = '%' :: '+' :: digits) ∧
      ∃ number, r.Spells digits number ∧ littleEndian (r.width digits number) number = bytes := by
  constructor
  · intro h
    rw [numeral?_eq] at h
    split at h
    · rename_i digits
      exact ⟨.hexadecimal,digits,.inl rfl,
        numeral?_dollar_eq_some_iff.mp ((numeral?_eq ('$' :: digits)).trans h)⟩
    · rename_i digits
      exact ⟨.binary,digits,.inr ⟨rfl,rfl⟩,(bind_shortest?_eq_some_iff (by decide)).mp h⟩
    · rename_i digits _
      exact ⟨.binary,digits,.inl rfl,(bind_shortest?_eq_some_iff (by decide)).mp h⟩
    · exact ⟨.decimal,text,.inl rfl,(bind_shortest?_eq_some_iff (by decide)).mp h⟩
  · rintro ⟨r,digits,htext,hnumber⟩
    have hhead : ∀ c ∈ ['$', '%', '+'], ∀ rest, digits ≠ c :: rest := by
      obtain ⟨number,hspells,-⟩ := hnumber
      exact fun c hc rest => hspells.ne_cons hc rest
    rcases htext with rfl | ⟨rfl,rfl⟩
    · cases r with
      | hexadecimal => exact numeral?_dollar_eq_some_iff.mpr hnumber
      | binary =>
        refine (numeral?_percent (hhead '+' (by simp))).trans ?_
        exact (bind_shortest?_eq_some_iff (by decide)).mpr hnumber
      | decimal =>
        refine (numeral?_unsigned fun c hc => hhead c ?_).trans ?_
        · exact List.mem_append_left ['+'] hc
        · exact (bind_shortest?_eq_some_iff (by decide)).mpr hnumber
    · refine (numeral?_eq ('%' :: '+' :: digits)).trans ?_
      exact (bind_shortest?_eq_some_iff (r := .binary) (by decide)).mpr hnumber

theorem not_isNumeral_plus (digits : List Char) (number : ℕ) :
    ¬ IsNumeral ('%' :: '+' :: digits) number := by
  rintro ⟨r,text,htext,hspells⟩
  cases r with
  | hexadecimal => cases htext
  | binary => exact hspells.ne_cons (by simp) digits (List.cons.inj htext).2.symm
  | decimal => exact hspells.ne_cons (by simp) _ htext.symm

/-- A text is read exactly if it is a numeral, or would be one but for a plus sign between a percent
sign and the digits. -/
theorem isSome_numeral?_iff (text : List Char) :
    ((numeral? text).isSome = true ↔ (∃ number, IsNumeral text number) ∨
      ∃ digits number, text = '%' :: '+' :: digits ∧ Radix.binary.Spells digits number) ∧
    ∀ digits number, text = '%' :: '+' :: digits → ¬ IsNumeral text number := by
  rw [Option.isSome_iff_exists]
  refine ⟨⟨?_,?_⟩,?_⟩
  · rintro ⟨bytes,h⟩
    obtain ⟨r,digits,htext,number,hspells,-⟩ := numeral?_eq_some_iff.mp h
    rcases htext with htext | ⟨rfl,htext⟩
    · exact .inl ⟨number,r,digits,htext,hspells⟩
    · exact .inr ⟨digits,number,htext,hspells⟩
  · rintro (⟨number,r,digits,htext,hspells⟩ | ⟨digits,number,htext,hspells⟩)
    · exact ⟨_,numeral?_eq_some_iff.mpr ⟨r,digits,.inl htext,number,hspells,rfl⟩⟩
    · exact ⟨_,numeral?_eq_some_iff.mpr ⟨.binary,digits,.inr ⟨rfl,htext⟩,number,hspells,rfl⟩⟩
  · rintro digits number rfl
    exact not_isNumeral_plus digits number

/-- A sign in front of binary digits is read over. -/
theorem plus_sign_read : numeral? ['%', '+', '1'] = some [1] ∧
    ¬ ∃ number, IsNumeral ['%', '+', '1'] number := by
  refine ⟨by decide,?_⟩
  rintro ⟨number,hnumeral⟩
  exact not_isNumeral_plus ['1'] number hnumeral

end

section
variable {r r' : Radix} {text text' : List Char} {number : ℕ}

theorem numeral?_of_spells (h : r.Spells text number) :
    numeral? (r.sign ++ text) = some (littleEndian (r.width text number) number) :=
  numeral?_eq_some_iff.mpr ⟨r,text,.inl rfl,number,h,rfl⟩

theorem ofLittleEndian_of_spells (h : r.Spells text number) :
    ofLittleEndian (littleEndian (r.width text number) number) = number := by
  rw [ofLittleEndian_littleEndian, Nat.mod_eq_of_lt h.lt]

theorem width_eq (hr : r ≠ .hexadecimal) (hr' : r' ≠ .hexadecimal) :
    r.width text number = r'.width text' number := by
  cases r <;> cases r' <;> first | rfl | contradiction

/-- A numeral is read as the bytes of its number, as many as its digits ask for if it is hexadecimal
and as many as the number needs otherwise. Two numerals for a number have the same value, and the
same bytes if neither is hexadecimal. -/
theorem numeral_value_exact (h : r.Spells text number) :
    numeral? (r.sign ++ text) = some (littleEndian (r.width text number) number) ∧
    (∀ g : Group, g.bytes = littleEndian (r.width text number) number → g.value = number) ∧
    ∀ (r' : Radix) (text' : List Char), r'.Spells text' number →
      (∃ bytes bytes', numeral? (r.sign ++ text) = some bytes ∧
        numeral? (r'.sign ++ text') = some bytes' ∧ ofLittleEndian bytes = ofLittleEndian bytes') ∧
      (r ≠ .hexadecimal → r' ≠ .hexadecimal →
        numeral? (r.sign ++ text) = numeral? (r'.sign ++ text')) := by
  refine ⟨numeral?_of_spells h,fun g hg => ?_,fun r' text' h' => ⟨?_,fun hr hr' => ?_⟩⟩
  · have hsmall := h.small
    rw [Group.value, hg, ofLittleEndian_of_spells h, Nat.mod_eq_of_lt (by omega)]
  · refine ⟨_,_,numeral?_of_spells h,numeral?_of_spells h',?_⟩
    rw [ofLittleEndian_of_spells h, ofLittleEndian_of_spells h']
  · rw [numeral?_of_spells h, numeral?_of_spells h', width_eq hr hr']

end

/-- Three hexadecimal digits of either case make two bytes of a number that takes one in decimal
and in binary digits, however many zeros stand in front of those. -/
theorem numeral_value_exact_padded :
    Radix.hexadecimal.Spells ['0', 'a', 'F'] 175 ∧
    Radix.decimal.Spells ['0', '0', '0', '0', '1', '7', '5'] 175 ∧
    Radix.binary.Spells ['0', '1', '0', '1', '0', '1', '1', '1', '1'] 175 ∧
    numeral? ['$', '0', 'a', 'F'] = some [0xAF, 0x00] ∧
    numeral? ['0', '0', '0', '0', '1', '7', '5'] = some [0xAF] ∧
    numeral? ['%', '0', '1', '0', '1', '0', '1', '1', '1', '1'] = some [0xAF] := by
  have hhexadecimal : Radix.hexadecimal.Spells ['0', 'a', 'F'] 175 :=
    Radix.spells_hexadecimal_iff.mpr ⟨by decide,by decide⟩
  have hdecimal : Radix.decimal.Spells ['0', '0', '0', '0', '1', '7', '5'] 175 :=
    (Radix.spells_iff (by decide)).mpr ⟨by decide,by decide⟩
  have hbinary : Radix.binary.Spells ['0', '1', '0', '1', '0', '1', '1', '1', '1'] 175 :=
    (Radix.spells_iff (by decide)).mpr ⟨by decide,by decide⟩
  obtain ⟨hread,-,-⟩ := numeral_value_exact hhexadecimal
  obtain ⟨hread',-,hsame⟩ := numeral_value_exact hdecimal
  have hbytes := (hsame .binary _ hbinary).2 (by decide) (by decide)
  exact ⟨hhexadecimal,hdecimal,hbinary,hread,hread',hbytes.symm.trans hread'⟩

end Nmos6502.Assembly
