import Nmos6502.Proofs.OperandCells

/-! # What an instruction changes in the registers

A table lists for every operation the registers and flags that it may change, the program
counter apart. Nothing else changes, whatever the state. Whenever a byte goes into a register, or
is computed in a cell, the zero and negative flags tell about that byte as it stands there
afterwards.
-/
namespace Nmos6502

/-- What the registers hold beside the program counter. -/
inductive Part where
  | a | x | y | sp
  | flag (flag : Flag)
  deriving DecidableEq

def Part.flags : List Part := [.flag .carry, .flag .zero, .flag .interruptDisable, .flag .decimal,
  .flag .brk, .flag .overflow, .flag .negative]

def Part.Same (before after : Registers) : Part → Prop
  | .a => after.a = before.a
  | .x => after.x = before.x
  | .y => after.y = before.y
  | .sp => after.sp = before.sp
  | .flag one => after.status.get one = before.status.get one

inductive Target where
  | a | x | y
  /-- The cell of the operand. -/
  | cell
  deriving DecidableEq

namespace Operation

/-- The parts that an operation may change. -/
def changes : Operation → AddressingMode → List Part
  | .adc, _ | .sbc, _ => [.flag .carry, .flag .overflow, .a, .flag .zero, .flag .negative]
  | .and, _ | .ora, _ | .eor, _ | .lda, _ | .txa, _ | .tya, _ =>
    [.a, .flag .zero, .flag .negative]
  | .pla, _ => [.sp, .a, .flag .zero, .flag .negative]
  | .ldx, _ | .inx, _ | .dex, _ | .tax, _ | .tsx, _ => [.x, .flag .zero, .flag .negative]
  | .ldy, _ | .iny, _ | .dey, _ | .tay, _ => [.y, .flag .zero, .flag .negative]
  | .inc, _ | .dec, _ => [.flag .zero, .flag .negative]
  | .asl, .accumulator | .lsr, .accumulator | .rol, .accumulator | .ror, .accumulator =>
    [.a, .flag .carry, .flag .zero, .flag .negative]
  | .asl, _ | .lsr, _ | .rol, _ | .ror, _ | .cmp, _ | .cpx, _ | .cpy, _ =>
    [.flag .carry, .flag .zero, .flag .negative]
  | .bit, _ => [.flag .overflow, .flag .zero, .flag .negative]
  | .clc, _ | .sec, _ => [.flag .carry]
  | .cli, _ | .sei, _ => [.flag .interruptDisable]
  | .cld, _ | .sed, _ => [.flag .decimal]
  | .clv, _ => [.flag .overflow]
  | .txs, _ | .pha, _ | .php, _ | .jsr, _ | .rts, _ => [.sp]
  | .plp, _ | .rti, _ => .sp :: Part.flags
  | .brk, _ => [.sp, .flag .brk]
  | .sta, _ | .stx, _ | .sty, _ | .jmp, _ | .nop, _ | .bcc, _ | .bcs, _ | .beq, _ | .bne, _
  | .bmi, _ | .bpl, _ | .bvc, _ | .bvs, _ => []

/-- Where an operation leaves its byte, if it loads or computes one. -/
def target? : Operation → AddressingMode → Option Target
  | .lda, _ | .txa, _ | .tya, _ | .pla, _ | .and, _ | .ora, _ | .eor, _ | .adc, _ | .sbc, _
  | .asl, .accumulator | .lsr, .accumulator | .rol, .accumulator | .ror, .accumulator => some .a
  | .ldx, _ | .tax, _ | .tsx, _ | .inx, _ | .dex, _ => some .x
  | .ldy, _ | .tay, _ | .iny, _ | .dey, _ => some .y
  | .inc, _ | .dec, _ | .asl, _ | .lsr, _ | .rol, _ | .ror, _ => some .cell
  | _, _ => none

end Operation

def Target.byte? (c d : Cpu) (mode : AddressingMode) : Target → Option UInt8
  | .a => some d.a
  | .x => some d.x
  | .y => some d.y
  | .cell => (c.cell? mode).map fun cell => d.memory.read (UInt16.ofNat cell)

/-- The zero and negative flags tell about the byte. -/
structure Status.Shows (s : Status) (byte : UInt8) : Prop where
  zero : s.zero = (byte == 0)
  negative : s.negative = byte.toNat.testBit 7

/-- The index registers, the stack pointer and the flags that a result of one byte does not decide
are the same before and after. -/
structure Cpu.SameBesideResult (c d : Cpu) : Prop where
  x : d.x = c.x
  y : d.y = c.y
  sp : d.sp = c.sp
  interruptDisable : d.status.interruptDisable = c.status.interruptDisable
  decimal : d.status.decimal = c.status.decimal
  brk : d.status.brk = c.status.brk
  overflow : d.status.overflow = c.status.overflow

namespace Part
variable {part : Part} {r s : Registers}

theorem same_setFlag {flag : Flag} {value : Bool} (h : part = .flag flag → value = r.status.get flag)
    (hs : part.Same r s) : part.Same r (s.setFlag flag value) := by
  cases part with
  | a | x | y | sp => exact hs
  | flag other =>
    change (s.status.set flag value).get other = r.status.get other
    rw [Status.get_set]
    split
    · rename_i heq
      subst heq
      exact h rfl
    · exact hs

theorem same_setFlag_of_ne {flag : Flag} (h : part ≠ .flag flag) (value : Bool)
    (hs : part.Same r s) : part.Same r (s.setFlag flag value) :=
  same_setFlag (fun heq => absurd heq h) hs

theorem same_withResult (h : part ∉ [.flag .zero, .flag .negative]) (byte : UInt8)
    (hs : part.Same r s) : part.Same r (s.withResult byte) := by
  simp only [List.mem_cons, List.not_mem_nil, or_false, not_or] at h
  exact same_setFlag_of_ne h.2 _ (same_setFlag_of_ne h.1 _ hs)

theorem same_with_pc (address : UInt16) (hs : part.Same r s) :
    part.Same r { s with pc := address } := by
  cases part <;> exact hs

theorem same_with_sp (h : part ≠ .sp) (slot : UInt16) (hs : part.Same r s) :
    part.Same r { s with sp := slot } := by
  cases part with
  | sp => exact absurd rfl h
  | _ => exact hs

theorem same_with_pc_sp (h : part ≠ .sp) (address slot : UInt16) (hs : part.Same r s) :
    part.Same r { s with pc := address, sp := slot } :=
  same_with_sp h slot (same_with_pc address hs)

theorem same_with_a (h : part ≠ .a) (byte : UInt8) (hs : part.Same r s) :
    part.Same r { s with a := byte } := by
  cases part with
  | a => exact absurd rfl h
  | _ => exact hs

theorem same_loadA (h : part ∉ [.a, .flag .zero, .flag .negative]) (byte : UInt8)
    (hs : part.Same r s) : part.Same r (s.loadA byte) := by
  obtain ⟨ha,hresult⟩ := List.ne_and_not_mem_of_not_mem_cons h
  exact same_withResult hresult byte (same_with_a ha byte hs)

theorem same_loadX (h : part ∉ [.x, .flag .zero, .flag .negative]) (byte : UInt8)
    (hs : part.Same r s) : part.Same r (s.loadX byte) := by
  obtain ⟨hx,hresult⟩ := List.ne_and_not_mem_of_not_mem_cons h
  refine same_withResult hresult byte ?_
  cases part with
  | x => exact absurd rfl hx
  | _ => exact hs

theorem same_loadY (h : part ∉ [.y, .flag .zero, .flag .negative]) (byte : UInt8)
    (hs : part.Same r s) : part.Same r (s.loadY byte) := by
  obtain ⟨hy,hresult⟩ := List.ne_and_not_mem_of_not_mem_cons h
  refine same_withResult hresult byte ?_
  cases part with
  | y => exact absurd rfl hy
  | _ => exact hs

theorem same_sum (h : part ∉ [.flag .carry, .flag .overflow, .a, .flag .zero, .flag .negative])
    (overflow carry : Bool) (byte : UInt8) (hs : part.Same r s) :
    part.Same r (((s.setFlag .overflow overflow).setFlag .carry carry).loadA byte) := by
  obtain ⟨hc,h⟩ := List.ne_and_not_mem_of_not_mem_cons h
  obtain ⟨hv,hload⟩ := List.ne_and_not_mem_of_not_mem_cons h
  exact same_loadA hload _ (same_setFlag_of_ne hc _ (same_setFlag_of_ne hv _ hs))

theorem same_compare (h : part ∉ [.flag .carry, .flag .zero, .flag .negative])
    (register byte : UInt8) (hs : part.Same r s) : part.Same r (s.compare register byte) := by
  obtain ⟨hc,hresult⟩ := List.ne_and_not_mem_of_not_mem_cons h
  exact same_withResult hresult _ (same_setFlag_of_ne hc _ hs)

theorem same_testBits (h : part ∉ [.flag .overflow, .flag .zero, .flag .negative])
    (byte : UInt8) (hs : part.Same r s) : part.Same r (s.testBits byte) := by
  simp only [List.mem_cons, List.not_mem_nil, or_false, not_or] at h
  obtain ⟨hv,hz,hn⟩ := h
  apply same_setFlag_of_ne hv
  exact same_setFlag_of_ne hn _ (same_setFlag_of_ne hz _ hs)

theorem same_with_status (h : part ∉ flags) (status : Status) (hs : part.Same r s) :
    part.Same r { s with status } := by
  cases part with
  | flag one => cases one <;> simp [flags] at h
  | _ => exact hs

end Part

namespace Operation
variable {operation : Operation} {mode : AddressingMode} {part : Part}

theorem keeps_same (h : part ∉ operation.changes mode) (r : Registers) :
    operation.action.Keeps (part.Same r) := by
  cases operation with
  | adc | sbc => exact fun _ _ hs => Part.same_sum h _ _ _ hs
  | and | ora | eor | lda => exact fun _ _ hs => Part.same_loadA h _ hs
  | ldx => exact fun _ _ hs => Part.same_loadX h _ hs
  | ldy => exact fun _ _ hs => Part.same_loadY h _ hs
  | pla => exact fun _ _ hs => Part.same_loadA (List.not_mem_of_not_mem_cons h) _ hs
  | txa | tya => exact fun _ hs => Part.same_loadA h _ hs
  | inx | dex | tax | tsx => exact fun _ hs => Part.same_loadX h _ hs
  | iny | dey | tay => exact fun _ hs => Part.same_loadY h _ hs
  | cmp | cpx | cpy => exact fun _ _ hs => Part.same_compare h _ _ hs
  | bit => exact fun _ _ hs => Part.same_testBits h _ hs
  | clc | sec | cli | sei | cld | sed | clv =>
    exact fun _ hs => Part.same_setFlag_of_ne (List.ne_of_not_mem_cons h) _ hs
  | txs => exact fun _ hs => Part.same_with_sp (List.ne_of_not_mem_cons h) _ hs
  | plp => exact fun _ _ hs => Part.same_with_status (List.not_mem_of_not_mem_cons h) _ hs
  | nop => exact fun _ hs => hs
  | _ => exact trivial

end Operation

section
variable {operation : Operation} {r : Registers} {m : Memory} {mode : AddressingMode} {part : Part}
  {effect : Effect}

theorem Part.same_refl (part : Part) (r : Registers) : part.Same r r := by
  cases part <;> rfl

theorem Action.same_of_modify {change : UInt8 → Bool → Changed} (hc : part ≠ .flag .carry)
    (hr : part ∉ [.flag .zero, .flag .negative]) (ha : mode = .accumulator → part ≠ .a)
    (h : (Action.modify change).effect r m mode = .ok effect) : part.Same r effect.registers := by
  obtain ⟨byte,-,h⟩ := bind_eq_ok_iff.mp h
  have hskip : part.Same r (r.skip mode.operandSize) := Part.same_with_pc _ (part.same_refl r)
  have hnext := Part.same_withResult hr (change byte r.status.carry).byte
    (Part.same_setFlag_of_ne hc (change byte r.status.carry).carry hskip)
  split at h
  · rename_i hmode
    cases h
    exact Part.same_with_a (ha hmode) _ hnext
  · obtain ⟨address,-,h⟩ := bind_eq_ok_iff.mp h
    cases h
    exact hnext

/-- An operation changes nothing in the registers that the table does not list. -/
theorem Operation.same_of_effect (h : part ∉ operation.changes mode)
    (he : operation.action.effect r m mode = .ok effect) : part.Same r effect.registers := by
  have hk := operation.keeps_same h r
  have hr := part.same_refl r
  cases operation with
  | adc | sbc | and | ora | eor | bit | cmp | cpx | cpy | lda | ldx | ldy =>
    obtain ⟨byte,-,he⟩ := bind_eq_ok_iff.mp he
    cases he
    exact hk _ byte (Part.same_with_pc _ hr)
  | sta | stx | sty | jmp =>
    obtain ⟨address,-,he⟩ := bind_eq_ok_iff.mp he
    cases he
    exact Part.same_with_pc _ hr
  | asl | lsr | rol | ror =>
    have hparts : part ≠ .flag .carry ∧ part ∉ [.flag .zero, .flag .negative] ∧
        (mode = .accumulator → part ≠ .a) := by
      cases mode with
      | accumulator =>
        obtain ⟨ha,h⟩ := List.ne_and_not_mem_of_not_mem_cons h
        obtain ⟨hc,hresult⟩ := List.ne_and_not_mem_of_not_mem_cons h
        exact ⟨hc,hresult,fun _ => ha⟩
      | _ =>
        obtain ⟨hc,hresult⟩ := List.ne_and_not_mem_of_not_mem_cons h
        exact ⟨hc,hresult,nofun⟩
    obtain ⟨hc,hresult,ha⟩ := hparts
    exact Action.same_of_modify hc hresult ha he
  | inc | dec =>
    obtain ⟨address,-,he⟩ := bind_eq_ok_iff.mp he
    obtain ⟨byte,-,he⟩ := bind_eq_ok_iff.mp he
    cases he
    exact Part.same_withResult h _ (Part.same_with_pc _ hr)
  | inx | iny | dex | dey | tax | tay | txa | tya | tsx | txs | clc | sec | cli | sei | cld | sed
  | clv | nop =>
    cases he
    exact hk r hr
  | bcc | bcs | beq | bne | bmi | bpl | bvc | bvs =>
    simp only [action, Action.effect] at he
    split at he <;> cases he <;> exact Part.same_with_pc _ hr
  | jsr =>
    obtain ⟨address,-,he⟩ := bind_eq_ok_iff.mp he
    cases he
    exact Part.same_with_pc_sp (List.ne_of_not_mem_cons h) _ _ hr
  | rts =>
    cases he
    exact Part.same_with_pc_sp (List.ne_of_not_mem_cons h) _ _ hr
  | brk =>
    obtain ⟨hsp,hbrk⟩ := List.ne_and_not_mem_of_not_mem_cons h
    cases he
    exact Part.same_with_pc_sp hsp _ _
      (Part.same_setFlag_of_ne (List.ne_of_not_mem_cons hbrk) true hr)
  | rti =>
    obtain ⟨hsp,hflags⟩ := List.ne_and_not_mem_of_not_mem_cons h
    cases he
    exact Part.same_with_pc_sp hsp _ _
      (Part.same_with_status hflags (Status.restore (m.read (slotAbove r.sp))) hr)
  | pha | php =>
    cases he
    exact Part.same_with_sp (List.ne_of_not_mem_cons h) _ hr
  | pla | plp =>
    cases he
    exact hk _ _ (Part.same_with_sp (List.ne_of_not_mem_cons h) _ hr)

end

theorem Opcode.target?_of_mem_documented :
    ∀ row ∈ documented, row.2.operation ∈ [.asl, .lsr, .rol, .ror] →
      row.2.operation.target? row.2.mode =
        some (if row.2.mode = .accumulator then .a else .cell) := by
  decide +kernel

theorem Status.shows_withResult (s : Status) (byte : UInt8) : (s.withResult byte).Shows byte :=
  ⟨rfl,sign_eq_testBit byte⟩

namespace Cpu
variable {c : Cpu} {opcode : Opcode}

theorem same_next (h : decode c.opcodeByte = some opcode) {part : Part}
    (hp : part ∉ opcode.operation.changes opcode.mode) :
    part.Same c.toRegisters c.next.toRegisters := by
  obtain ⟨effect,elapsed,heffect,-,hnext,-⟩ := exists_next_of_decode h
  have hsame := Operation.same_of_effect hp heffect
  rw [hnext]
  cases part <;> exact hsame

theorem sameBesideResult_next (h : decode c.opcodeByte = some opcode)
    (hc : opcode.operation.changes opcode.mode ⊆
      [.a, .flag .carry, .flag .zero, .flag .negative]) : c.SameBesideResult c.next := by
  have hsame : ∀ part ∉ [Part.a, .flag .carry, .flag .zero, .flag .negative],
      part.Same c.toRegisters c.next.toRegisters := fun part hpart => same_next h fun hmem =>
    hpart (hc hmem)
  exact ⟨hsame .x (by decide),hsame .y (by decide),hsame .sp (by decide),
    hsame (.flag .interruptDisable) (by decide),hsame (.flag .decimal) (by decide),
    hsame (.flag .brk) (by decide),hsame (.flag .overflow) (by decide)⟩

theorem next_of_transfer (h : decode c.opcodeByte = some opcode) {result : Registers → Registers}
    (ha : opcode.operation.action = .transfer result) :
    c.next.toRegisters = result c.fetched.toRegisters := by
  obtain ⟨effect,elapsed,heffect,-,hnext,-⟩ := exists_next_of_decode h
  rw [ha] at heffect
  cases heffect
  rw [hnext]
  rfl

theorem next_of_pull (h : decode c.opcodeByte = some opcode) {result : Registers → UInt8 → Registers}
    (ha : opcode.operation.action = .pull result) :
    c.next.toRegisters = result { c.fetched.toRegisters with sp := slotAbove c.sp } c.peek := by
  obtain ⟨effect,elapsed,heffect,-,hnext,-⟩ := exists_next_of_decode h
  rw [ha] at heffect
  cases heffect
  rw [hnext]
  rfl

theorem shows_next (h : decode c.opcodeByte = some opcode) {target : Target}
    (ht : opcode.operation.target? opcode.mode = some target) :
    ∃ byte, target.byte? c c.next opcode.mode = some byte ∧ c.next.status.Shows byte := by
  cases ho : opcode.operation with
  | lda | ldx | ldy | and | ora | eor | adc | sbc =>
    obtain ⟨byte,-,hregisters,-⟩ := next_of_read h (congrArg Operation.action ho)
    rw [ho] at ht
    cases ht
    refine ⟨_,rfl,?_⟩
    rw [hregisters]
    exact Status.shows_withResult ..
  | tax | tay | txa | tya | tsx | inx | iny | dex | dey =>
    have hregisters := next_of_transfer h (congrArg Operation.action ho)
    rw [ho] at ht
    cases ht
    refine ⟨_,rfl,?_⟩
    rw [hregisters]
    exact Status.shows_withResult ..
  | pla =>
    have hregisters := next_of_pull h (congrArg Operation.action ho)
    rw [ho] at ht
    cases ht
    refine ⟨_,rfl,?_⟩
    rw [hregisters]
    exact Status.shows_withResult ..
  | inc | dec =>
    obtain ⟨cell,hcell,hregisters,hmemory⟩ := next_of_count h (congrArg Operation.action ho)
    rw [ho] at ht
    cases ht
    rw [Target.byte?, hcell, Option.map_some, hmemory, Memory.read_write_self, hregisters]
    exact ⟨_,rfl,Status.shows_withResult ..⟩
  | asl | lsr | rol | ror =>
    obtain ⟨byte,-,hnext⟩ := next_of_modify h (congrArg Operation.action ho)
    have htable := Opcode.target?_of_mem_documented _ (mem_documented_of_decode h) (by rw [ho]; decide)
    obtain rfl := Option.some_inj.mp (htable.symm.trans ht)
    rcases hnext with ⟨hmode,hregisters,-⟩ | ⟨cell,hcell,-,hregisters,hmemory⟩
    · rw [if_pos hmode]
      refine ⟨_,rfl,?_⟩
      rw [hregisters]
      exact Status.shows_withResult ..
    · have hmode : opcode.mode ≠ .accumulator := by
        intro hmode
        rw [hmode] at hcell
        cases hcell
      rw [if_neg hmode, Target.byte?, hcell, Option.map_some, hmemory, Memory.read_write_self,
        hregisters]
      exact ⟨_,rfl,Status.shows_withResult ..⟩
  | _ =>
    rw [ho] at ht
    cases ht

/-- An instruction changes in the registers no more than the table lists for its operation, and
where it loads or computes a byte the flags tell about it. -/
theorem registers_exact (h : (c.memory.read c.pc, opcode) ∈ Opcode.documented) :
    (∃ elapsed, c.execute = (c.next, .ok elapsed)) ∧
    (∀ part ∉ opcode.operation.changes opcode.mode,
      part.Same c.toRegisters c.next.toRegisters) ∧
    ∀ target, opcode.operation.target? opcode.mode = some target →
      ∃ byte, target.byte? c c.next opcode.mode = some byte ∧
        c.next.status.zero = (byte == 0) ∧ c.next.status.negative = byte.toNat.testBit 7 := by
  have hdecode : decode c.opcodeByte = some opcode := Opcode.lookup_of_mem_documented _ h
  refine ⟨exists_execute_next hdecode,fun part hpart => same_next hdecode hpart,?_⟩
  intro target htarget
  obtain ⟨byte,hbyte,hzero,hnegative⟩ := shows_next hdecode htarget
  exact ⟨byte,hbyte,hzero,hnegative⟩

theorem registers_exact_shifted_out : ∃ c : Cpu, c.a = 0x80 ∧
    (c.memory.read c.pc, ⟨.asl,.accumulator,2⟩) ∈ Opcode.documented ∧ c.next.a = 0 ∧
    c.next.status.zero = true ∧ c.next.status.negative = false ∧ c.next.x = c.x ∧
    c.next.sp = c.sp ∧ c.next.status.overflow = c.status.overflow := by
  let c : Cpu := ⟨⟨0x80,0,0,0x600,stackTop,.powerUp⟩,Memory.zero.write 0x600 0x0A,0,0,0⟩
  have hcode : c.memory.read c.pc = 0x0A := Memory.read_write_self ..
  have hdocumented : (c.memory.read c.pc, ⟨.asl,.accumulator,2⟩) ∈ Opcode.documented := by
    rw [hcode]
    exact mem_documented_of_decode rfl
  have hdecode : decode c.opcodeByte = some ⟨.asl,.accumulator,2⟩ := by
    rw [opcodeByte, hcode]
    rfl
  have ha : c.next.a = 0 := by
    rw [next_of_effect hdecode rfl]
    change (0x80 : UInt8) <<< 1 = 0
    decide
  obtain ⟨-,hframe,htarget⟩ := registers_exact hdocumented
  obtain ⟨byte,hbyte,hzero,hnegative⟩ := htarget .a rfl
  obtain rfl : 0 = byte := ha.symm.trans (Option.some_inj.mp hbyte)
  exact ⟨c,rfl,hdocumented,ha,hzero,hnegative,hframe .x (by decide),hframe .sp (by decide),
    hframe (.flag .overflow) (by decide)⟩

end Cpu
end Nmos6502
