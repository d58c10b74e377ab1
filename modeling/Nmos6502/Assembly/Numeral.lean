import Nmos6502.Text.Hex
import Nmos6502.Word

/-! # Numerals

Numbers as a source writes them: hexadecimal after a dollar sign, binary after a
percent sign, decimal without a sign. A numeral stands for one or two bytes, which are
those of hexadecimal digits: its own, so that `$0010` takes two, or in the other notations
those that its value is printed with.
-/
namespace Nmos6502.Assembly

/-- The value of a digit, in either case, below the base. -/
def digit? (base : Nat) (c : Char) : Option Nat :=
  let value? :=
    if c.isDigit then some (c.toNat - '0'.toNat)
    else if 'A' ≤ c && c ≤ 'F' then some (c.toNat - 'A'.toNat + 10)
    else if 'a' ≤ c && c ≤ 'f' then some (c.toNat - 'a'.toNat + 10)
    else none
  value?.filter (· < base)

/-- Reads digits after those that gave `value`. -/
def readDigits (base : Nat) : Nat → List Char → Option Nat
  | value, [] => some value
  | value, c :: text => (digit? base c).bind fun digit => readDigits base (base * value + digit) text

def digits? (base : Nat) (text : List Char) : Option Nat :=
  if text.isEmpty then none else readDigits base 0 text

/-- Cuts a text into twos from the left; what is left over stands alone. -/
def inTwos : List Char → List (List Char)
  | [] => []
  | [c] => [[c]]
  | c :: d :: text => [c, d] :: inTwos text

def isHexDigit (c : Char) : Bool := (digit? 16 c).isSome

/-- An even number of digits for the same number. -/
def padEven (text : List Char) : List Char := if text.length % 2 = 1 then '0' :: text else text

/-- A byte for every two digits, the first byte first. -/
def pairBytes? (text : List Char) : Option (List UInt8) :=
  (inTwos text).mapM fun pair => (digits? 16 pair).map UInt8.ofNat

/-- The bytes of hexadecimal digits, lowest first. -/
def hexBytes? (text : List Char) : Option (List UInt8) :=
  if text.isEmpty || !text.all isHexDigit then none
  else (pairBytes? (padEven text)).map List.reverse

/-- The bytes of a number that fits an address, taken from its hexadecimal digits. -/
def valueBytes? (value : Nat) : Option (List UInt8) :=
  if value < 65536 then hexBytes? (Text.hexDigits value) else none

/-- The bytes that a numeral stands for, lowest first. One plus sign may stand before
binary digits. -/
def numeral? (text : List Char) : Option (List UInt8) :=
  let bytes? := match text with
    | '$' :: digits => hexBytes? digits
    | '%' :: '+' :: digits => (digits? 2 digits).bind valueBytes?
    | '%' :: digits => (digits? 2 digits).bind valueBytes?
    | digits => (digits? 10 digits).bind valueBytes?
  bytes?.filter fun bytes => decide (bytes.length ≤ 2)

theorem readDigits_append (base value : Nat) (s t : List Char) :
    readDigits base value (s ++ t) = (readDigits base value s).bind (readDigits base · t) := by
  induction s generalizing value with
  | nil => rfl
  | cons c s ih =>
    rw [List.cons_append, readDigits, readDigits, Option.bind_assoc]
    simp only [ih]

theorem length_of_numeral? {text : List Char} {bytes : List UInt8}
    (h : numeral? text = some bytes) : bytes.length ≤ 2 :=
  of_decide_eq_true (Option.filter_eq_some_iff.mp h).2

end Nmos6502.Assembly
