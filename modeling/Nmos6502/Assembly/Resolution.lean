import Nmos6502.Assembly.Error
import Nmos6502.Assembly.Symbol

/-! # Resolution of names

Operands that name a symbol get their bytes from its value. A value from 256 on takes
the wide form of an operand, and the groups behind it move up, so that other values
may change: the groups are gone through until no operand changes its width. An
operand widens at most once, which bounds the passes by the number of operands that
wait for a name, and one more.
-/
namespace Nmos6502.Assembly

def widthOf (value : UInt16) : Nat := if value.toNat < 256 then 1 else 2

/-- A value in so many bytes, cut off or filled up with zeros. -/
def valueBytes (width : Nat) (value : UInt16) : List UInt8 := littleEndian width value.toNat

def Group.displacement (g : Group) (value : UInt16) : Int := value.toNat - g.next

/-- The form of an instruction that takes its operand in so many bytes. -/
def Group.form? (width : Nat) (g : Group) : Option Content :=
  match g.state, g.content with
  | .pending _ modes, .opcode _ operation _ => do
    let (_, mode) ← modes.find? (·.1 == width)
    let code ← encode operation mode
    some (.opcode code operation mode)
  | _, _ => none

def Group.fillBranch (value : UInt16) (g : Group) : Group :=
  { g with bytes := [UInt8.ofInt (g.displacement value)] }

/-- Any other operand takes the value, in the form for its width if there is one. -/
def Group.fillOperand (value : UInt16) (g : Group) : Group :=
  let width := widthOf value
  if width = g.bytes.length then { g with bytes := valueBytes g.bytes.length value }
  else
    match g.form? width with
    | some content => { g with content, bytes := valueBytes width value }
    | none => { g with bytes := valueBytes g.bytes.length value }

/-- Groups in the course of a pass, with the number of operands that changed width. -/
structure Pass where
  groups : List Group
  resized : Nat

/-- Fills the operand of one group. A change of width moves the groups at once. -/
def Pass.fillAt (origin : Nat) (pass : Pass) (index : Nat) : Except Error Pass :=
  match pass.groups[index]? with
  | none => .ok pass
  | some g =>
    match g.emits, g.state with
    | true, .pending name _ =>
      match lookup pass.groups name with
      | none => .error ⟨g.line, .undefinedLabel name⟩
      | some symbol =>
        if g.branch then
          .ok { pass with groups := pass.groups.set index (g.fillBranch symbol.value) }
        else
          let filled := g.fillOperand symbol.value
          let groups := pass.groups.set index filled
          if filled.bytes.length = g.bytes.length then .ok { pass with groups }
          else .ok ⟨layout origin groups, pass.resized + 1⟩
    | _, _ => .ok pass

/-- Lays the groups out and fills every operand once. -/
def runPass (origin : Nat) (groups : List Group) : Except Error Pass :=
  (List.range groups.length).foldlM (Pass.fillAt origin) ⟨layout origin groups, 0⟩

/-- Passes over the groups until one changes no width, at most so many. -/
def settle (origin : Nat) : Nat → List Group → Except Error (List Group)
  | 0, groups => .ok groups
  | passes + 1, groups => do
    let pass ← runPass origin groups
    if pass.resized = 0 then .ok pass.groups else settle origin passes pass.groups

def Group.inMemory (g : Group) : Bool := g.offset ≤ 0xFFFF && g.next ≤ 0x10000

def checkSpace (groups : List Group) : Except Error Unit :=
  match groups.find? (!·.inMemory) with
  | some g => .error ⟨g.line, .pastMemoryEnd⟩
  | none => .ok ()

def Group.rangeError? (groups : List Group) (g : Group) : Option Error :=
  match g.emits && g.branch, g.state with
  | true, .pending name _ => do
    let symbol ← lookup groups name
    let displacement := g.displacement symbol.value
    if -128 ≤ displacement && displacement ≤ 127 then none
    else some ⟨g.line, .branchOutOfRange name displacement⟩
  | _, _ => none

def checkBranches (groups : List Group) : Except Error Unit :=
  match groups.findSome? (Group.rangeError? groups) with
  | some error => .error error
  | none => .ok ()

def Group.close (g : Group) : Group :=
  if g.state.isPending then { g with state := .known } else g

@[simp] theorem Group.close_line (g : Group) : g.close.line = g.line := by
  unfold Group.close
  split <;> rfl

@[simp] theorem Group.close_offset (g : Group) : g.close.offset = g.offset := by
  unfold Group.close
  split <;> rfl

@[simp] theorem Group.close_emits (g : Group) : g.close.emits = g.emits := by
  unfold Group.close
  split <;> rfl

@[simp] theorem Group.close_content (g : Group) : g.close.content = g.content := by
  unfold Group.close
  split <;> rfl

@[simp] theorem Group.close_bytes (g : Group) : g.close.bytes = g.bytes := by
  unfold Group.close
  split <;> rfl

@[simp] theorem Group.symbol?_close (g : Group) : g.close.symbol? = g.symbol? := by
  unfold Group.close
  split <;> rfl

/-- Lays the groups out at the origin and fills every operand that names a symbol.
Branches that are too far away are an error only where that is to be checked. -/
def resolve (origin : UInt16) (checkRange : Bool) (groups : List Group) :
    Except Error (List Group) := do
  let passes := groups.countP (·.state.isPending) + 1
  let groups ← settle origin.toNat passes groups
  checkSpace groups
  if checkRange then checkBranches groups
  .ok (groups.map Group.close)

end Nmos6502.Assembly
