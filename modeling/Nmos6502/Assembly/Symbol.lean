import Nmos6502.Assembly.Group

/-! # Symbols

The names that groups define: a label stands for the place of its group, a constant
for the number in its bytes. Of several definitions of a name the first one counts.
A name can be looked up among the groups or in a table of all symbols.
-/
namespace Nmos6502.Assembly

inductive SymbolKind where
  | label | constant
  deriving DecidableEq, Repr

structure Symbol where
  name : List Char
  value : UInt16
  kind : SymbolKind
  definedAt : Nat
  deriving DecidableEq, Repr

/-- What a group defines, with the low 16 bits of its value. -/
def Group.symbol? (g : Group) : Option Symbol :=
  match g.content with
  | .opcode .. => none
  | .label name => some ⟨name, UInt16.ofNat g.offset, .label, g.line⟩
  | .constant name => some ⟨name, UInt16.ofNat g.value, .constant, g.line⟩

def Group.defines (name : List Char) (g : Group) : Bool :=
  match g.content with
  | .opcode .. => false
  | .label other | .constant other => other == name

def lookup (groups : List Group) (name : List Char) : Option Symbol :=
  (groups.find? (Group.defines name)).bind Group.symbol?

/-- Adds a symbol to a table that does not have its name. -/
def addSymbol (table : List Symbol) (symbol : Symbol) : List Symbol :=
  if table.any (·.name == symbol.name) then table else table ++ [symbol]

def symbolTable (groups : List Group) : List Symbol :=
  (groups.filterMap Group.symbol?).foldl addSymbol []

def findSymbol (table : List Symbol) (name : List Char) : Option Symbol :=
  table.find? (·.name == name)

theorem findSymbol_addSymbol (table : List Symbol) (symbol : Symbol) (name : List Char) :
    findSymbol (addSymbol table symbol) name =
      (findSymbol table name).or (findSymbol [symbol] name) := by
  unfold addSymbol findSymbol
  split
  · rename_i hknown
    cases hfind : table.find? (·.name == name) with
    | some found => rfl
    | none =>
      obtain ⟨other, hmem, hname⟩ := List.any_eq_true.mp hknown
      have hother := List.find?_eq_none.mp hfind other hmem
      simp_all
  · rw [List.find?_append]

theorem findSymbol_foldl (symbols table : List Symbol) (name : List Char) :
    findSymbol (symbols.foldl addSymbol table) name =
      (findSymbol table name).or (findSymbol symbols name) := by
  induction symbols generalizing table with
  | nil => simp [findSymbol]
  | cons symbol symbols ih =>
    rw [List.foldl_cons, ih, findSymbol_addSymbol, Option.or_assoc]
    congr 1
    exact List.find?_append.symm

theorem any_symbol? (g : Group) (name : List Char) :
    g.symbol?.any (·.name == name) = g.defines name := by
  unfold Group.symbol? Group.defines
  split <;> rfl

theorem findSymbol_symbolTable (groups : List Group) (name : List Char) :
    findSymbol (symbolTable groups) name = lookup groups name := by
  unfold symbolTable lookup
  rw [findSymbol_foldl, findSymbol, List.find?_nil, Option.none_or, findSymbol,
    List.find?_filterMap]
  simp only [any_symbol?]

/-- Every symbol of the table is the one that is found under its name. -/
def Unambiguous (table : List Symbol) : Prop :=
  ∀ symbol ∈ table, findSymbol table symbol.name = some symbol

theorem Unambiguous.addSymbol {table : List Symbol} (h : Unambiguous table) (symbol : Symbol) :
    Unambiguous (addSymbol table symbol) := by
  intro other hother
  rw [findSymbol_addSymbol]
  unfold Assembly.addSymbol at hother
  split at hother
  · rw [h other hother, Option.some_or]
  · rename_i hnew
    rcases List.mem_append.mp hother with hother | hother
    · rw [h other hother, Option.some_or]
    · obtain rfl := List.mem_singleton.mp hother
      have hnone : findSymbol table other.name = none := by
        simpa [findSymbol] using hnew
      rw [hnone, Option.none_or]
      simp [findSymbol]

theorem Unambiguous.foldl {table : List Symbol} (h : Unambiguous table) (symbols : List Symbol) :
    Unambiguous (symbols.foldl Assembly.addSymbol table) := by
  induction symbols generalizing table with
  | nil => exact h
  | cons symbol symbols ih => exact ih (h.addSymbol symbol)

theorem unambiguous_symbolTable (groups : List Group) : Unambiguous (symbolTable groups) :=
  Unambiguous.foldl (by simp [Unambiguous]) (groups.filterMap Group.symbol?)

end Nmos6502.Assembly
