import Mathlib.Data.Nat.Digits.Defs
import Nmos6502.Assembly.Numeral

/-! # The bytes of a numeral

Hexadecimal digits that are put together two by two make the bytes of their number, lowest first,
and half as many as there are digits. The digits that a number is printed with have its value, and
make as many bytes as it needs. `numeral?_eq` says in numbers what a numeral is read as.
-/
namespace Nmos6502

theorem ofLittleEndian_append_singleton (bytes : List UInt8) (byte : UInt8) :
    ofLittleEndian (bytes ++ [byte]) = ofLittleEndian bytes + 256 ^ bytes.length * byte.toNat := by
  induction bytes with
  | nil => simp [ofLittleEndian]
  | cons first bytes ih =>
    simp only [List.cons_append, ofLittleEndian, ih, List.length_cons, Nat.pow_succ]
    ring

namespace Assembly

/-- The fewest bytes that hold a number, if two do. -/
def shortest? (value : ℕ) : Option (List UInt8) :=
  if value < 256 then some (littleEndian 1 value)
  else if value < 65536 then some (littleEndian 2 value)
  else none

section
variable {base start number : ℕ} {text : List Char}

theorem exists_digit_of_readDigits (h : readDigits base start text = some number) {c : Char}
    (hc : c ∈ text) : ∃ digit, digit? base c = some digit := by
  induction text generalizing start with
  | nil => cases hc
  | cons d text ih =>
    obtain ⟨digit,hdigit,hrest⟩ := Option.bind_eq_some_iff.mp h
    rcases List.mem_cons.mp hc with rfl | hc
    · exact ⟨digit,hdigit⟩
    · exact ih hrest hc

theorem exists_digit_of_digits? (h : digits? base text = some number) {c : Char} (hc : c ∈ text) :
    ∃ digit, digit? base c = some digit := by
  unfold digits? at h
  split at h
  · cases h
  · exact exists_digit_of_readDigits h hc

theorem digit?_lt {c : Char} {digit : ℕ} (h : digit? base c = some digit) : digit < base :=
  of_decide_eq_true (Option.filter_eq_some_iff.mp h).2

theorem exists_pairBytes (hlength : text.length % 2 = 0) (h : text.all isHexDigit = true) :
    ∃ bytes, pairBytes? text = some bytes ∧ 2 * bytes.length = text.length ∧
      ∀ start, readDigits 16 start text =
        some (256 ^ bytes.length * start + ofLittleEndian bytes.reverse) := by
  unfold pairBytes?
  fun_induction inTwos text with
  | case1 => exact ⟨[],rfl,rfl,fun start => by simp [readDigits, ofLittleEndian]⟩
  | case2 => cases hlength
  | case3 c d text ih =>
    simp only [List.all_cons, Bool.and_eq_true, isHexDigit, Option.isSome_iff_exists] at h
    obtain ⟨⟨high,hhigh⟩,⟨low,hlow⟩,htext⟩ := h
    have hhigh' := digit?_lt hhigh
    have hlow' := digit?_lt hlow
    have hpair : digits? 16 [c, d] = some (16 * high + low) := by
      simp [digits?, readDigits, hhigh, hlow]
    have heven : text.length % 2 = 0 := by
      simp only [List.length_cons] at hlength
      omega
    obtain ⟨bytes,hbytes,hcount,hread⟩ := ih heven htext
    refine ⟨UInt8.ofNat (16 * high + low) :: bytes,?_,?_,fun start => ?_⟩
    · simp [hpair, hbytes]
    · simp only [List.length_cons]
      omega
    · have hbyte : (UInt8.ofNat (16 * high + low)).toNat = 16 * high + low := by
        rw [UInt8.toNat_ofNat']
        omega
      simp only [readDigits, hhigh, hlow, Option.bind_some, hread, List.reverse_cons,
        ofLittleEndian_append_singleton, List.length_reverse, hbyte, List.length_cons,
        Nat.pow_succ, Option.some.injEq]
      ring

theorem readDigits_padEven (text : List Char) :
    readDigits 16 0 (padEven text) = readDigits 16 0 text := by
  unfold padEven
  split <;> rfl

theorem all_padEven (h : text.all isHexDigit = true) : (padEven text).all isHexDigit = true := by
  unfold padEven
  split
  · exact h
  · exact h

theorem length_padEven (text : List Char) : (padEven text).length = 2 * ((text.length + 1) / 2) := by
  unfold padEven
  split
  · rw [List.length_cons]
    omega
  · omega

theorem all_isHexDigit_of_digits? (h : digits? 16 text = some number) :
    text.all isHexDigit = true := by
  rw [List.all_eq_true]
  intro c hc
  exact Option.isSome_iff_exists.mpr (exists_digit_of_digits? h hc)

/-- Digits put together two by two make the bytes of their number. -/
theorem hexBytes?_eq (text : List Char) :
    hexBytes? text = (digits? 16 text).map (littleEndian ((text.length + 1) / 2)) := by
  have hlength := length_padEven text
  by_cases hdigits : (text.isEmpty || !text.all isHexDigit) = true
  · have hnone : digits? 16 text = none := by
      rcases Bool.or_eq_true_iff.mp hdigits with hempty | hall
      · exact if_pos hempty
      · cases h : digits? 16 text with
        | none => rfl
        | some number => simp [all_isHexDigit_of_digits? h] at hall
    rw [hexBytes?, if_pos hdigits, hnone, Option.map_none]
  · have hne : ¬ text.isEmpty = true := fun h => hdigits (by rw [h, Bool.true_or])
    have hall : text.all isHexDigit = true := by
      by_contra h
      exact hdigits (by simp [h])
    obtain ⟨bytes,hbytes,hcount,hread⟩ := exists_pairBytes (by omega) (all_padEven hall)
    have hnumber : digits? 16 text = some (ofLittleEndian bytes.reverse) := by
      rw [digits?, if_neg hne, ← readDigits_padEven, hread, Nat.mul_zero, Nat.zero_add]
    have hwidth : (text.length + 1) / 2 = bytes.reverse.length := by
      rw [List.length_reverse]
      omega
    rw [hexBytes?, if_neg hdigits, hbytes, hnumber, Option.map_some, Option.map_some, hwidth,
      littleEndian_ofLittleEndian]

theorem digit?_toUpper_digitChar {digit : ℕ} (h : digit < 16) :
    digit? 16 digit.digitChar.toUpper = some digit := by
  revert digit
  decide

theorem readDigits_hexDigits (value : ℕ) : readDigits 16 0 (Text.hexDigits value) = some value := by
  induction value using Nat.strongRecOn with
  | ind value ih =>
    by_cases hsmall : value < 16
    · rw [Text.hexDigits, Nat.toDigits_of_lt_base hsmall]
      simp [readDigits, digit?_toUpper_digitChar hsmall]
    · have hlast : value % 16 < 16 := Nat.mod_lt _ (by decide)
      have hsplit : Nat.toDigits 16 value =
          Nat.toDigits 16 (value / 16) ++ [(value % 16).digitChar] := by
        rw [← Nat.toDigits_of_lt_base hlast, Nat.toDigits_append_toDigits (by decide) (by omega) hlast,
          Nat.div_add_mod]
      have hfirst := ih (value / 16) (by omega)
      rw [Text.hexDigits] at hfirst ⊢
      rw [hsplit, List.map_append, readDigits_append, hfirst]
      simp [readDigits, digit?_toUpper_digitChar hlast, Nat.div_add_mod]

theorem length_hexDigits_le_iff (value : ℕ) {count : ℕ} (h : 0 < count) :
    (Text.hexDigits value).length ≤ count ↔ value < 16 ^ count := by
  rw [Text.hexDigits, List.length_map, Nat.length_toDigits_le_iff (by decide) h]

theorem valueBytes?_eq (value : ℕ) : valueBytes? value = shortest? value := by
  have hone := length_hexDigits_le_iff value (show 0 < 1 by decide)
  have htwo := length_hexDigits_le_iff value (show 0 < 2 by decide)
  have hfour := length_hexDigits_le_iff value (show 0 < 4 by decide)
  have hpos : 0 < (Text.hexDigits value).length := by
    rw [Text.hexDigits, List.length_map]
    exact Nat.length_toDigits_pos
  have hdigits : digits? 16 (Text.hexDigits value) = some value := by
    rw [digits?, if_neg, readDigits_hexDigits]
    simpa [← List.length_pos_iff] using hpos
  unfold valueBytes? shortest?
  rw [hexBytes?_eq, hdigits, Option.map_some]
  split
  · split
    · rw [show ((Text.hexDigits value).length + 1) / 2 = 1 by omega]
    · rw [show ((Text.hexDigits value).length + 1) / 2 = 2 by omega]
  · rw [if_neg (by omega)]

theorem filter_hexBytes? (text : List Char) :
    (hexBytes? text).filter (fun bytes => decide (bytes.length ≤ 2)) =
      if text.length ≤ 4 then (digits? 16 text).map (littleEndian ((text.length + 1) / 2))
      else none := by
  rw [hexBytes?_eq]
  cases digits? 16 text with
  | none => simp
  | some number =>
    rw [Option.map_some, Option.filter_some, length_littleEndian]
    split <;> split <;> simp_all <;> omega

theorem filter_bind_valueBytes? (value? : Option ℕ) :
    (value?.bind valueBytes?).filter (fun bytes => decide (bytes.length ≤ 2)) =
      value?.bind shortest? := by
  cases value? with
  | none => rfl
  | some value =>
    rw [Option.bind_some, Option.bind_some, valueBytes?_eq]
    unfold shortest?
    split
    · rfl
    · split <;> rfl

theorem numeral?_eq (text : List Char) : numeral? text = match text with
    | '$' :: digits =>
      if digits.length ≤ 4 then (digits? 16 digits).map (littleEndian ((digits.length + 1) / 2))
      else none
    | '%' :: '+' :: digits => (digits? 2 digits).bind shortest?
    | '%' :: digits => (digits? 2 digits).bind shortest?
    | digits => (digits? 10 digits).bind shortest? := by
  unfold numeral?
  split
  · exact filter_hexBytes? _
  · exact filter_bind_valueBytes? _
  · refine (filter_bind_valueBytes? _).trans ?_
    simp_all
  · refine (filter_bind_valueBytes? _).trans ?_
    simp_all

end
end Assembly
end Nmos6502
