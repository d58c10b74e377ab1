/-! # Assembly errors

What can be wrong with a source text. Every error belongs to a line, and its text
names the line before the cause.
-/
namespace Nmos6502.Assembly

inductive Cause where
  | unknownOperator (operator : List Char)
  | incompleteDefine
  | invalidOperand (operand : List Char)
  | undefinedLabel (name : List Char)
  | branchOutOfRange (name : List Char) (displacement : Int)
  | pastMemoryEnd
  | unresolved
  deriving DecidableEq, Repr

def Cause.message : Cause → String
  | .unknownOperator operator => "unknown operator '" ++ String.ofList operator ++ "'"
  | .incompleteDefine => "DEFINE requires a name and a value"
  | .invalidOperand operand => "invalid operand '" ++ String.ofList operand ++ "'"
  | .undefinedLabel name => "undefined label '" ++ String.ofList name ++ "'"
  | .branchOutOfRange name displacement =>
    "branch to '" ++ String.ofList name ++ "' out of range (" ++ toString displacement ++ " bytes)"
  | .pastMemoryEnd => "program extends past $FFFF"
  | .unresolved => "segment left unresolved"

/-- A cause with the line, counted from one, that it belongs to. -/
structure Error where
  line : Nat
  cause : Cause
  deriving DecidableEq, Repr

def Error.message (error : Error) : String :=
  "line " ++ toString error.line ++ ": " ++ error.cause.message

end Nmos6502.Assembly
