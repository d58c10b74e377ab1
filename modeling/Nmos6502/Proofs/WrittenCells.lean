import Nmos6502.Proofs.ActionFrame

/-! # Cells that are written

Stores write the cell that they work on, and so do changes in place unless the operand is
in the accumulator; pushes, calls and interrupts fill the slots from the stack pointer
down. No other operation writes at all, so that a cell which none of these sets has in it
keeps its byte over a whole run, and pushed bytes never leave page one.
-/
namespace Nmos6502

/-- The cells that an operation writes; the program counter is behind the opcode. -/
def Operation.writeCells (r : Registers) (m : Memory) (mode : AddressingMode) :
    Operation → List UInt16
  | .sta | .stx | .sty | .inc | .dec | .asl | .lsr | .rol | .ror =>
    (effectiveAddress? r m mode).toList
  | .pha | .php => [r.sp]
  | .jsr => [r.sp, slotBelow r.sp]
  | .brk => [r.sp, slotBelow r.sp, slotBelow (slotBelow r.sp)]
  | _ => []

def Operation.fillsStack : Operation → Bool
  | .pha | .php | .jsr | .brk => true
  | _ => false

section
variable {r : Registers} {m : Memory} {mode : AddressingMode} {effect : Effect}

namespace Action

theorem cells_of_read {result : Registers → UInt8 → Registers}
    (h : (Action.read result).effect r m mode = .ok effect) : effect.cells = [] := by
  obtain ⟨byte,-,h⟩ := bind_eq_ok_iff.mp h
  cases h
  rfl

theorem cells_of_store {byte : Registers → UInt8}
    (h : (Action.store byte).effect r m mode = .ok effect) :
    effect.cells = (effectiveAddress? r m mode).toList := by
  obtain ⟨address,haddress,h⟩ := bind_eq_ok_iff.mp h
  cases h
  rw [effectiveAddress_eq_ok_iff.mp haddress]
  rfl

theorem cells_of_modify {change : UInt8 → Bool → Changed}
    (h : (Action.modify change).effect r m mode = .ok effect) :
    effect.cells = (effectiveAddress? r m mode).toList := by
  obtain ⟨byte,-,h⟩ := bind_eq_ok_iff.mp h
  split at h
  · rename_i hmode
    cases h
    rw [hmode]
    rfl
  · obtain ⟨address,haddress,h⟩ := bind_eq_ok_iff.mp h
    cases h
    rw [effectiveAddress_eq_ok_iff.mp haddress]
    rfl

theorem cells_of_count {change : UInt8 → UInt8}
    (h : (Action.count change).effect r m mode = .ok effect) :
    effect.cells = (effectiveAddress? r m mode).toList := by
  obtain ⟨address,haddress,h⟩ := bind_eq_ok_iff.mp h
  obtain ⟨byte,-,h⟩ := bind_eq_ok_iff.mp h
  cases h
  rw [effectiveAddress_eq_ok_iff.mp haddress]
  rfl

theorem cells_of_branch {flag : Flag} {value : Bool}
    (h : (Action.branch flag value).effect r m mode = .ok effect) : effect.cells = [] := by
  simp only [Action.effect] at h
  split at h <;> cases h <;> rfl

end Action

theorem Operation.cells_of_effect {operation : Operation}
    (h : operation.action.effect r m mode = .ok effect) :
    effect.cells = operation.writeCells r m mode := by
  cases operation with
  | sta | stx | sty => exact Action.cells_of_store h
  | asl | lsr | rol | ror => exact Action.cells_of_modify h
  | inc | dec => exact Action.cells_of_count h
  | adc | sbc | and | ora | eor | bit | cmp | cpx | cpy | lda | ldx | ldy =>
    exact Action.cells_of_read h
  | bcc | bcs | beq | bne | bmi | bpl | bvc | bvs => exact Action.cells_of_branch h
  | jmp | jsr =>
    obtain ⟨address,-,h⟩ := bind_eq_ok_iff.mp h
    cases h
    rfl
  | _ =>
    cases h
    rfl

theorem Operation.onStack_of_mem_writeCells {operation : Operation}
    (hf : operation.fillsStack = true) (hs : OnStack r.sp) {cell : UInt16}
    (h : cell ∈ operation.writeCells r m mode) : OnStack cell := by
  have hbelow := onStack_slotBelow hs
  have hlowest := onStack_slotBelow hbelow
  cases operation with
  | pha | php | jsr | brk =>
    simp only [Operation.writeCells, List.mem_cons, List.not_mem_nil, or_false] at h
    rcases h with rfl | rfl | rfl <;> assumption
  | _ => cases hf

end

namespace Cpu
variable {c : Cpu}

theorem writtenCells_of_decode {opcode : Opcode} (h : decode c.opcodeByte = some opcode) :
    c.writtenCells =
      opcode.operation.writeCells c.fetched.toRegisters c.memory opcode.mode := by
  obtain ⟨effect,-,heffect,-⟩ := exists_execute_of_decode h
  rw [writtenCells_of_effect h heffect, Operation.cells_of_effect heffect]

theorem writtenCells_of_undocumented (h : decode c.opcodeByte = none) : c.writtenCells = [] := by
  simp only [writtenCells, h]

theorem read_iterate_of_notMem {address : UInt16} {n : ℕ}
    (h : ∀ k < n, address ∉ (next^[k] c).writtenCells) :
    (next^[n] c).memory.read address = c.memory.read address := by
  induction n with
  | zero => rfl
  | succ n ih =>
    rw [Function.iterate_succ_apply', read_next_of_notMem (h n (Nat.lt_succ_self n))]
    exact ih fun k hk => h k (Nat.lt_succ_of_lt hk)

/-- An instruction writes the cells of its operation, the stack only inside page one, and
leaves every other cell alone. So a cell that is in no such set keeps its byte over a run,
and the stack pointer never leaves its page. -/
theorem written_cells_exact (h : OnStack c.sp) :
    (∀ opcode, decode c.opcodeByte = some opcode →
      c.writtenCells = opcode.operation.writeCells c.fetched.toRegisters c.memory opcode.mode ∧
      (∀ address ∉ opcode.operation.writeCells c.fetched.toRegisters c.memory opcode.mode,
        c.next.memory.read address = c.memory.read address) ∧
      (opcode.operation.fillsStack = true →
        ∀ cell ∈ opcode.operation.writeCells c.fetched.toRegisters c.memory opcode.mode,
          0x0100 ≤ cell ∧ cell ≤ 0x01FF)) ∧
    ∀ n, 0x0100 ≤ (next^[n] c).sp ∧ (next^[n] c).sp ≤ 0x01FF ∧
      ∀ address, (∀ k < n, ∀ opcode, decode (next^[k] c).opcodeByte = some opcode →
          address ∉ opcode.operation.writeCells (next^[k] c).fetched.toRegisters
            (next^[k] c).memory opcode.mode) →
        (next^[n] c).memory.read address = c.memory.read address := by
  constructor
  · intro opcode hdecode
    have hwritten := writtenCells_of_decode hdecode
    refine ⟨hwritten,fun address haddress => ?_,fun hfills cell hcell => ?_⟩
    · exact read_next_of_notMem (hwritten ▸ haddress)
    · have hfetched : OnStack c.fetched.sp := h
      exact Operation.onStack_of_mem_writeCells hfills hfetched hcell
  · intro n
    obtain ⟨hlow,hhigh⟩ := Function.Iterate.rec (fun s : Cpu => OnStack s.sp)
      h (fun _ => onStack_next) n
    refine ⟨hlow,hhigh,fun address haddress => read_iterate_of_notMem fun k hk => ?_⟩
    cases hdecode : decode (next^[k] c).opcodeByte with
    | none => simp [writtenCells_of_undocumented hdecode]
    | some opcode =>
      rw [writtenCells_of_decode hdecode]
      exact haddress k hk opcode hdecode

theorem written_cells_exact_interrupt : ∃ c : Cpu, OnStack c.sp ∧ c.sp = 0x0100 ∧
    decode c.opcodeByte = some ⟨.brk,.implicit,7⟩ ∧ c.writtenCells = [0x0100, 0x01FF, 0x01FE] ∧
    c.next.sp ≤ 0x01FF ∧ ∀ address ∉ [0x0100, 0x01FF, 0x01FE],
      c.next.memory.read address = c.memory.read address := by
  let c : Cpu := ⟨⟨0,0,0,0x600,stackBottom,.powerUp⟩,Memory.zero,0,0,0⟩
  have hstack : OnStack c.sp := ⟨by decide,by decide⟩
  have hbrk : decode c.opcodeByte = some ⟨.brk,.implicit,7⟩ := by
    have hbyte : c.opcodeByte = 0 := Memory.read_zero _
    rw [hbyte]
    rfl
  obtain ⟨hstep,hrun⟩ := written_cells_exact hstack
  obtain ⟨hwritten,hframe,-⟩ := hstep _ hbrk
  obtain ⟨-,hhigh,-⟩ := hrun 1
  rw [Function.iterate_one] at hhigh
  have hcells : [stackBottom, slotBelow stackBottom, slotBelow (slotBelow stackBottom)] =
      [0x0100, 0x01FF, 0x01FE] := by decide
  exact ⟨c,hstack,rfl,hbrk,hwritten.trans hcells,hhigh,hcells ▸ hframe⟩

end Cpu
end Nmos6502
