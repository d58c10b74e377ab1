/-! # Hexadecimal text

Numbers in upper-case hexadecimal digits, as the messages print them.
-/
namespace Nmos6502.Text

/-- The upper-case hexadecimal digits of `n`, at least one. -/
def hexDigits (n : Nat) : List Char := (Nat.toDigits 16 n).map Char.toUpper

/-- The hexadecimal text of `n`, filled up with zeros on the left to `width` digits. -/
def hex (width n : Nat) : String := String.ofList ((hexDigits n).leftpad width '0')

end Nmos6502.Text
