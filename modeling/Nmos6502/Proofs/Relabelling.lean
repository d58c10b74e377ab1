import Mathlib.Logic.Function.Basic
import Nmos6502.Proofs.Rendition

/-! # Other lines and other names

What becomes of the groups of a source depends neither on the numbers of their lines nor on how
their symbols are called. Names are only ever compared with each other, and lines are only handed
on. So a source with other line numbers and other names for its symbols, different ones for
different symbols, has the same image, and its symbols or its error carry the new lines and names.
-/
namespace Nmos6502.Assembly

/-- Other numbers for lines, and other names for symbols. -/
structure Relabelling where
  line : ℕ → ℕ
  name : List Char → List Char

/-- What happens to the groups of a source: all but the parsing. -/
def assembleGroups (options : Options) (groups : List Group) : Except Error Program := do
  let groups ← resolve options.origin options.checkRange groups
  let bytes ← image groups
  .ok { bytes, origin := options.origin, symbols := symbolTable groups }

theorem assemble_eq_bind (options : Options) (source : List Char) :
    assemble options source = parseSource source >>= assembleGroups options := rfl

namespace Relabelling
variable (r : Relabelling)

def ofLine (line : ℕ → ℕ) : Relabelling := ⟨line,id⟩

def ofName (name : List Char → List Char) : Relabelling := ⟨id,name⟩

def content : Content → Content
  | .opcode code operation mode => .opcode code operation mode
  | .label name => .label (r.name name)
  | .constant name => .constant (r.name name)

def state : OperandState → OperandState
  | .known => .known
  | .pending name modes => .pending (r.name name) modes
  | .constant => .constant

/-- A label is written with its name, and its operator changes with it. -/
def operator (g : Group) : List Char :=
  match g.content with
  | .label name => if g.operator = name ++ [':'] then r.name name ++ [':'] else g.operator
  | .opcode .. | .constant _ => g.operator

def group (g : Group) : Group where
  line := r.line g.line
  offset := g.offset
  emits := g.emits
  operator := r.operator g
  branch := g.branch
  content := r.content g.content
  state := r.state g.state
  bytes := g.bytes

def pass (p : Pass) : Pass := ⟨p.groups.map r.group,p.resized⟩

def symbol (s : Symbol) : Symbol :=
  { s with name := r.name s.name, definedAt := r.line s.definedAt }

def cause : Cause → Cause
  | .undefinedLabel name => .undefinedLabel (r.name name)
  | .branchOutOfRange name displacement => .branchOutOfRange (r.name name) displacement
  | cause => cause

def error (e : Error) : Error := ⟨r.line e.line,r.cause e.cause⟩

def program (p : Program) : Program := { p with symbols := p.symbols.map r.symbol }

section
variable {α β γ δ : Type}

def outcome (f : α → β) : Except Error α → Except Error β
  | .ok a => .ok (f a)
  | .error e => .error (r.error e)

theorem bind_outcome {f : α → β} {h : γ → δ} {k : α → Except Error γ} {k' : β → Except Error δ}
    (hk : ∀ a, k' (f a) = r.outcome h (k a)) (x : Except Error α) :
    r.outcome f x >>= k' = r.outcome h (x >>= k) := by
  cases x with
  | error e => rfl
  | ok a => exact hk a

theorem map_outcome {f : α → β} {h : γ → δ} {k : α → γ} {k' : β → δ} (hk : ∀ a, k' (f a) = h (k a))
    (x : Except Error α) : (r.outcome f x).map k' = r.outcome h (x.map k) := by
  cases x with
  | error e => rfl
  | ok a => exact congrArg Except.ok (hk a)

theorem foldlM_outcome {f : α → β} {step : α → γ → Except Error α} {step' : β → γ → Except Error β}
    (hstep : ∀ a c, step' (f a) c = r.outcome f (step a c)) (cs : List γ) (a : α) :
    cs.foldlM step' (f a) = r.outcome f (cs.foldlM step a) := by
  induction cs generalizing a with
  | nil => rfl
  | cons c cs ih =>
    rw [List.foldlM_cons, List.foldlM_cons, hstep]
    exact r.bind_outcome ih (step a c)

end

section
variable (g : Group)

@[simp] theorem size_content (c : Content) : (r.content c).size = c.size := by
  cases c <;> rfl

@[simp] theorem isPending_state (s : OperandState) : (r.state s).isPending = s.isPending := by
  cases s <;> rfl

@[simp] theorem size_group : (r.group g).size = g.size := by
  simp only [Group.size, group, size_content]

@[simp] theorem next_group : (r.group g).next = g.next := by
  rw [Group.next, size_group]
  rfl

@[simp] theorem inMemory_group : (r.group g).inMemory = g.inMemory := by
  rw [Group.inMemory, next_group]
  rfl

@[simp] theorem displacement_group (value : UInt16) :
    (r.group g).displacement value = g.displacement value := by
  rw [Group.displacement, next_group]
  rfl

@[simp] theorem symbol?_group : (r.group g).symbol? = g.symbol?.map r.symbol := by
  unfold Group.symbol? group
  cases hc : g.content <;> rfl

@[simp] theorem form?_group (width : ℕ) : (r.group g).form? width = g.form? width := by
  unfold Group.form? group
  cases g.state <;> cases g.content <;> rfl

@[simp] theorem image?_group : (r.group g).image? = g.image? := by
  unfold Group.image? group
  cases g.state <;> cases g.content <;> rfl

theorem fillBranch_group (value : UInt16) :
    (r.group g).fillBranch value = r.group (g.fillBranch value) := by
  rw [Group.fillBranch, displacement_group]
  rfl

theorem fillOperand_group (value : UInt16) :
    (r.group g).fillOperand value = r.group (g.fillOperand value) := by
  have hbytes : (r.group g).bytes = g.bytes := rfl
  simp only [Group.fillOperand, form?_group, hbytes]
  split
  · rfl
  · cases hform : g.form? (widthOf value) with
    | none => rfl
    | some made =>
      obtain ⟨code,operation,mode,code',mode',hc,rfl⟩ := Group.of_form?_eq_some hform
      simp only [group, operator, content, hc]

theorem close_group : (r.group g).close = r.group g.close := by
  have hpending : (r.group g).state.isPending = g.state.isPending := r.isPending_state g.state
  rw [Group.close, Group.close, hpending]
  split <;> rfl

end

theorem layout_map (groups : List Group) (origin : ℕ) :
    layout origin (groups.map r.group) = (layout origin groups).map r.group := by
  induction groups generalizing origin with
  | nil => rfl
  | cons g groups ih =>
    rw [List.map_cons, layout, layout, List.map_cons, size_group, ih]
    rfl

theorem checkSpace_map (groups : List Group) :
    checkSpace (groups.map r.group) = r.outcome id (checkSpace groups) := by
  have hinMemory : (fun g : Group => !g.inMemory) ∘ r.group = fun g => !g.inMemory := by
    funext g
    exact congrArg (!·) (r.inMemory_group g)
  unfold checkSpace
  rw [List.find?_map, hinMemory]
  cases groups.find? (!·.inMemory) <;> rfl

theorem image_map (groups : List Group) :
    image (groups.map r.group) = r.outcome id (image groups) := by
  induction groups with
  | nil => rfl
  | cons g groups ih =>
    have hemits : (r.group g).emits = g.emits := rfl
    rw [List.map_cons, image, image, hemits, image?_group, ih]
    split
    · cases g.image? with
      | none => rfl
      | some bytes => exact r.map_outcome (f := id) (h := id) (k := (bytes ++ ·)) (fun _ => rfl) _
    · rfl

section
variable {r} (hr : Function.Injective r.name) (groups : List Group)
include hr

theorem beq_name (name other : List Char) : (r.name name == r.name other) = (name == other) :=
  Bool.eq_iff_iff.mpr (by simp only [beq_iff_eq, hr.eq_iff])

theorem defines_group (g : Group) (name : List Char) :
    (r.group g).defines (r.name name) = g.defines name := by
  have hname := fun other => beq_name hr other name
  unfold Group.defines group
  cases g.content with
  | opcode code operation mode => rfl
  | label other => exact hname other
  | constant other => exact hname other

theorem lookup_map (name : List Char) :
    lookup (groups.map r.group) (r.name name) = (lookup groups name).map r.symbol := by
  have hdefines : Group.defines (r.name name) ∘ r.group = Group.defines name := by
    funext g
    exact defines_group hr g name
  unfold lookup
  rw [List.find?_map, hdefines]
  cases groups.find? (Group.defines name) with
  | none => rfl
  | some g => exact r.symbol?_group g

theorem fillAt_pass (origin : ℕ) (p : Pass) (i : ℕ) :
    (r.pass p).fillAt origin i = r.outcome r.pass (p.fillAt origin i) := by
  have hat : (r.pass p).groups[i]? = p.groups[i]?.map r.group := List.getElem?_map
  have hset : ∀ g, (r.pass p).groups.set i (r.group g) = (p.groups.set i g).map r.group :=
    fun g => List.map_set.symm
  unfold Pass.fillAt
  rw [hat]
  cases hg : p.groups[i]? with
  | none => rfl
  | some g =>
    have hemits : (r.group g).emits = g.emits := rfl
    have hbranch : (r.group g).branch = g.branch := rfl
    have hstate : (r.group g).state = r.state g.state := rfl
    simp only [Option.map_some, hemits, hbranch, hstate]
    cases g.emits with
    | false => rfl
    | true =>
      cases g.state with
      | known => rfl
      | constant => rfl
      | pending name modes =>
        simp only [state]
        rw [show lookup (r.pass p).groups (r.name name) = _ from lookup_map hr p.groups name]
        cases lookup p.groups name with
        | none => rfl
        | some s =>
          have hvalue : (r.symbol s).value = s.value := rfl
          have hlength : (r.group (g.fillOperand s.value)).bytes.length =
            (g.fillOperand s.value).bytes.length := rfl
          simp only [Option.map_some, hvalue, fillBranch_group, fillOperand_group, hset, hlength,
            layout_map]
          split
          · rfl
          · rw [show (r.group g).bytes.length = g.bytes.length from rfl]
            split <;> rfl

theorem runPass_map (origin : ℕ) :
    runPass origin (groups.map r.group) = r.outcome r.pass (runPass origin groups) := by
  rw [runPass, runPass, layout_map, List.length_map]
  exact r.foldlM_outcome (fillAt_pass hr origin) _ ⟨layout origin groups,0⟩

theorem settle_map (origin passes : ℕ) : settle origin passes (groups.map r.group) =
    r.outcome (List.map r.group) (settle origin passes groups) := by
  induction passes generalizing groups with
  | zero => rfl
  | succ passes ih =>
    rw [settle, settle, runPass_map hr]
    refine r.bind_outcome (fun p => ?_) (runPass origin groups)
    rw [show (r.pass p).resized = p.resized from rfl]
    split
    · rfl
    · exact ih p.groups

theorem rangeError?_map (g : Group) :
    (r.group g).rangeError? (groups.map r.group) = (g.rangeError? groups).map r.error := by
  have hflags : ((r.group g).emits && (r.group g).branch) = (g.emits && g.branch) := rfl
  have hstate : (r.group g).state = r.state g.state := rfl
  unfold Group.rangeError?
  rw [hflags, hstate]
  cases g.emits && g.branch with
  | false => rfl
  | true =>
    cases g.state with
    | known => rfl
    | constant => rfl
    | pending name modes =>
      simp only [state, lookup_map hr, displacement_group]
      cases lookup groups name with
      | none => rfl
      | some s =>
        have hvalue : (r.symbol s).value = s.value := rfl
        simp only [Option.map_some, bind, Option.bind_some, hvalue]
        split <;> rfl

theorem checkBranches_map :
    checkBranches (groups.map r.group) = r.outcome id (checkBranches groups) := by
  have herror : Group.rangeError? (groups.map r.group) ∘ r.group =
      fun g => (g.rangeError? groups).map r.error := by
    funext g
    exact rangeError?_map hr groups g
  unfold checkBranches
  rw [List.findSome?_map, herror,
    show groups.findSome? (fun g => (g.rangeError? groups).map r.error) = _ from
      List.map_findSome?.symm]
  cases groups.findSome? (Group.rangeError? groups) <;> rfl

theorem resolve_map (origin : UInt16) (checkRange : Bool) :
    resolve origin checkRange (groups.map r.group) =
      r.outcome (List.map r.group) (resolve origin checkRange groups) := by
  have hpending : (fun g : Group => g.state.isPending) ∘ r.group = fun g => g.state.isPending := by
    funext g
    exact r.isPending_state g.state
  have hclose : ∀ gs : List Group,
      (gs.map r.group).map Group.close = (gs.map Group.close).map r.group := by
    intro gs
    rw [List.map_map, List.map_map]
    exact List.map_congr_left fun g _ => r.close_group g
  simp only [resolve, List.countP_map, hpending, settle_map hr]
  refine r.bind_outcome (fun gs => ?_) _
  rw [checkSpace_map]
  refine r.bind_outcome (fun _ => ?_) _
  cases checkRange with
  | false => exact congrArg Except.ok (hclose gs)
  | true =>
    simp only [if_true, checkBranches_map hr]
    exact r.bind_outcome (fun _ => congrArg Except.ok (hclose gs)) _

theorem addSymbol_map (table : List Symbol) (s : Symbol) :
    addSymbol (table.map r.symbol) (r.symbol s) = (addSymbol table s).map r.symbol := by
  have hknown : (fun t : Symbol => t.name == (r.symbol s).name) ∘ r.symbol =
      fun t => t.name == s.name := by
    funext t
    exact beq_name hr t.name s.name
  unfold addSymbol
  rw [List.any_map, hknown]
  split
  · rfl
  · rw [List.map_append, List.map_singleton]

theorem symbolTable_map : symbolTable (groups.map r.group) = (symbolTable groups).map r.symbol := by
  have hfold : ∀ symbols table : List Symbol,
      (symbols.map r.symbol).foldl addSymbol (table.map r.symbol) =
        (symbols.foldl addSymbol table).map r.symbol := by
    intro symbols
    induction symbols with
    | nil => exact fun _ => rfl
    | cons s symbols ih =>
      intro table
      rw [List.map_cons, List.foldl_cons, List.foldl_cons, addSymbol_map hr, ih]
  have hsymbols : (groups.map r.group).filterMap Group.symbol? =
      (groups.filterMap Group.symbol?).map r.symbol := by
    rw [List.filterMap_map, List.map_filterMap]
    exact List.filterMap_congr fun g _ => r.symbol?_group g
  rw [symbolTable, hsymbols]
  exact hfold _ []

/-- Groups on other lines and with other names for their symbols assemble to the same image, with
the symbols or the error on those lines and under those names. -/
theorem assembleGroups_map (options : Options) : assembleGroups options (groups.map r.group) =
    r.outcome r.program (assembleGroups options groups) := by
  unfold assembleGroups
  rw [resolve_map hr]
  refine r.bind_outcome (fun gs => ?_) _
  rw [image_map]
  refine r.bind_outcome (fun bytes => ?_) _
  rw [symbolTable_map hr]
  rfl

/-- A change that leaves every group alone shows nowhere in the outcome. -/
theorem outcome_of_fixed (options : Options) (h : ∀ g ∈ groups, r.group g = g) :
    r.outcome r.program (assembleGroups options groups) = assembleGroups options groups := by
  rw [← assembleGroups_map hr]
  exact congrArg (assembleGroups options) ((List.map_congr_left h).trans (List.map_id groups))

end

theorem group_ofLine (line : ℕ → ℕ) (g : Group) :
    (ofLine line).group g = { g with line := line g.line } := by
  have hcontent : (ofLine line).content g.content = g.content := by cases g.content <;> rfl
  have hstate : (ofLine line).state g.state = g.state := by cases g.state <;> rfl
  have hoperator : (ofLine line).operator g = g.operator := by
    unfold operator
    cases g.content with
    | opcode code operation mode => rfl
    | constant name => rfl
    | label name =>
      simp only [ofLine, id_eq, ite_eq_right_iff]
      exact Eq.symm
  rw [group, hcontent, hstate, hoperator]
  rfl

theorem error_ofLine (line : ℕ → ℕ) (e : Error) :
    (ofLine line).error e = ⟨line e.line,e.cause⟩ := by
  obtain ⟨number,cause⟩ := e
  cases cause <;> rfl

end Relabelling

end Nmos6502.Assembly
