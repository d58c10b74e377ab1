import Nmos6502.Assembly.Resolution
import Nmos6502.Assembly.Statement

/-! # Assembly

From a source text to the image of a program: the lines are parsed into groups, names
are resolved, and the bytes of the groups are put one after the other. The first
error found is the answer, and a bad line is found before anything else.
-/
namespace Nmos6502.Assembly

def Group.image? (g : Group) : Option (List UInt8) :=
  match g.state, g.content with
  | .known, .opcode code _ _ => some (code :: g.bytes)
  | _, _ => none

def image : List Group → Except Error (List UInt8)
  | [] => .ok []
  | g :: groups =>
    if g.emits then
      match g.image? with
      | none => .error ⟨g.line, .unresolved⟩
      | some bytes => (image groups).map (bytes ++ ·)
    else image groups

structure Options where
  origin : UInt16 := 0x0600
  /-- Branches to names too far away are errors. -/
  checkRange : Bool := false

/-- A program in memory form, with the values of its labels and constants. -/
structure Program where
  bytes : List UInt8
  origin : UInt16
  symbols : List Symbol
  deriving DecidableEq, Repr

def Program.symbol? (program : Program) (name : List Char) : Option Symbol :=
  findSymbol program.symbols name

def assemble (options : Options) (source : List Char) : Except Error Program := do
  let groups ← parseSource source
  let groups ← resolve options.origin options.checkRange groups
  let bytes ← image groups
  .ok { bytes, origin := options.origin, symbols := symbolTable groups }

end Nmos6502.Assembly
