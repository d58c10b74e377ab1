import Nmos6502.Proofs.CycleBudget
import Nmos6502.Proofs.RegisterFrame
import Nmos6502.Proofs.StackPage

/-! # Calls and interrupts come back

A call pushes the address behind it, and an interrupt the address two bytes on and the status. What
runs in between may do anything, as long as the stack pointer is back where it was and the pushed
bytes are still there: a return then goes on at the pushed address with the stack pointer from
before, and a return from an interrupt brings the whole status back. The frame may go around the
lower end of the page, and may lie on the instruction itself, since a call reads its target first.
-/
namespace Nmos6502

namespace Cpu

def operation? (c : Cpu) : Option Operation := (decode c.opcodeByte).map (·.operation)

/-- A run of instructions, none of which fails, leads from one state to the other. -/
def LeadsTo (c t : Cpu) : Prop := ∃ n, c.Succeeds n ∧ next^[n] c = t

/-- The stack pointer and the cells that the instruction at the first state writes are in the other
as right after it. -/
structure KeepsFrame (c t : Cpu) : Prop where
  sp : t.sp = c.next.sp
  cells : ∀ cell ∈ c.writtenCells, t.memory.read cell = c.next.memory.read cell

/-- The instruction at the second state is carried out and leads to an address, with the stack
pointer of the first state. -/
structure ComesBack (c t : Cpu) (address : UInt16) : Prop where
  execute : ∃ elapsed, t.execute = (t.next, .ok elapsed)
  pc : t.next.pc = address
  sp : t.next.sp = c.sp

end Cpu

section
variable {m : Memory} {sp : UInt16}

theorem slotAbove_iterate_slotBelow (h : OnStack sp) (k : ℕ) :
    slotAbove^[k] (slotBelow^[k] sp) = sp := by
  induction k generalizing sp with
  | zero => rfl
  | succ k ih =>
    rw [Function.iterate_succ_apply', Function.iterate_succ_apply slotBelow,
      ih (onStack_slotBelow h), slotAbove_slotBelow h]

theorem Stacked.pushes {bytes : List UInt8} (h : Stacked m sp bytes) (hs : OnStack sp)
    (frame : List UInt8) (hl : frame.length + bytes.length ≤ 256) :
    Stacked (m.writeAll (Nmos6502.pushes sp frame)) (slotBelow^[frame.length] sp)
      (frame.reverse ++ bytes) := by
  induction frame generalizing m sp bytes with
  | nil => exact h
  | cons byte frame ih =>
    rw [List.length_cons] at hl
    have hpushed := h.push hs byte
    rw [List.take_of_length_le (by rw [List.length_cons]; omega)] at hpushed
    have hrest := ih hpushed (onStack_slotBelow hs) (by rw [List.length_cons]; omega)
    rwa [List.reverse_cons, List.append_assoc, List.singleton_append]

theorem mem_cells_pushes (h : OnStack sp) {frame : List UInt8} {i : ℕ} (hi : i < frame.length) :
    slotAbove^[i + 1] (slotBelow^[frame.length] sp) ∈ (pushes sp frame).map (·.1) := by
  induction frame generalizing sp with
  | nil => cases hi
  | cons byte frame ih =>
    rw [pushes, List.map_cons, List.mem_cons, List.length_cons]
    rcases Nat.lt_succ_iff_lt_or_eq.mp hi with hlt | rfl
    · rw [Function.iterate_succ_apply]
      exact .inr (ih (onStack_slotBelow h) hlt)
    · exact .inl (slotAbove_iterate_slotBelow h _)

end

theorem Opcode.mode_of_mem_documented :
    ∀ row ∈ documented, row.2.operation = .jsr → row.2.mode = .absolute := by
  decide +kernel

namespace Cpu
variable {c t : Cpu} {opcode : Opcode}

theorem operation?_eq_some_iff {operation : Operation} : c.operation? = some operation ↔
    ∃ opcode, decode c.opcodeByte = some opcode ∧ opcode.operation = operation :=
  Option.map_eq_some_iff

theorem leadsTo_self (c : Cpu) : c.LeadsTo c := ⟨0,c.succeeds_zero,rfl⟩

theorem leadsTo_next (h : decode c.opcodeByte = some opcode) : c.LeadsTo c.next := by
  obtain ⟨elapsed,hexecute⟩ := exists_execute_next h
  refine ⟨1,fun k hk => ?_,rfl⟩
  obtain rfl := Nat.lt_one_iff.mp hk
  exact ⟨elapsed,congrArg Prod.snd hexecute⟩

/-- Where the frame of an instruction is kept, it stands on the stack. -/
theorem KeepsFrame.stacked (ht : c.KeepsFrame t) (hs : OnStack c.sp) {effect : Effect}
    (h : decode c.opcodeByte = some opcode)
    (he : opcode.operation.action.effect c.fetched.toRegisters c.memory opcode.mode = .ok effect)
    {frame : List UInt8} (hw : effect.writes = pushes c.sp frame)
    (hsp : effect.registers.sp = slotBelow^[frame.length] c.sp) (hl : frame.length ≤ 256) :
    Stacked t.memory t.sp frame.reverse ∧ slotAbove^[frame.length] t.sp = c.sp := by
  have hnext := next_of_effect h he
  have hpointer : t.sp = slotBelow^[frame.length] c.sp := by
    rw [ht.sp, hnext]
    exact hsp
  have hpushed : Stacked c.next.memory (slotBelow^[frame.length] c.sp) frame.reverse := by
    have hempty := (Stacked.nil c.memory c.sp).pushes hs frame hl
    rw [List.append_nil, ← hw] at hempty
    rwa [hnext]
  have hcells : c.writtenCells = (pushes c.sp frame).map (·.1) := by
    rw [writtenCells_of_effect h he, Effect.cells, hw]
  rw [hpointer]
  refine ⟨fun i byte hi => ?_,slotAbove_iterate_slotBelow hs _⟩
  obtain ⟨hlt,-⟩ := List.getElem?_eq_some_iff.mp hi
  rw [ht.cells _ (hcells ▸ mem_cells_pushes hs (List.length_reverse ▸ hlt))]
  exact hpushed i byte hi

theorem effect_of_call (h : decode c.opcodeByte = some opcode) (ho : opcode.operation = .jsr) :
    opcode.operation.action.effect c.fetched.toRegisters c.memory opcode.mode = .ok
      { registers := { c.fetched.skip 2 with
          pc := c.memory.readWord (c.pc + 1), sp := slotBelow^[2] c.sp }
        writes := pushes c.sp [highByte (c.pc + 3), lowByte (c.pc + 3)] } := by
  have hmode := Opcode.mode_of_mem_documented _ (mem_documented_of_decode h) ho
  have hbehind : (c.fetched.skip 2).pc = c.pc + 3 := UInt16.add_assoc ..
  rw [ho, hmode, ← hbehind]
  rfl

theorem next_of_call (h : decode c.opcodeByte = some opcode) (ho : opcode.operation = .jsr) :
    c.next.pc = c.memory.readWord (c.pc + 1) ∧
      c.next.memory = (c.memory.write c.sp (highByte (c.pc + 3))).write (slotBelow c.sp)
        (lowByte (c.pc + 3)) := by
  rw [next_of_effect h (effect_of_call h ho)]
  exact ⟨rfl,rfl⟩

/-- The bytes that an interrupt pushes: the address two bytes on and the status from before. -/
def interruptFrame (c : Cpu) : List (UInt16 × UInt8) :=
  pushes c.sp [highByte (c.pc + 2), lowByte (c.pc + 2), c.status.toByte]

theorem effect_of_interrupt (ho : opcode.operation = .brk) :
    opcode.operation.action.effect c.fetched.toRegisters c.memory opcode.mode = .ok
      { registers := { c.fetched.setFlag .brk true with
          pc := (c.memory.writeAll c.interruptFrame).readWord interruptVector
          sp := slotBelow^[3] c.sp }
        writes := c.interruptFrame } := by
  rw [ho, interruptFrame, ← c.pc_fetched_add_one]
  rfl

theorem next_of_interrupt (h : decode c.opcodeByte = some opcode) (ho : opcode.operation = .brk) :
    c.next.pc = c.next.memory.readWord interruptVector ∧
      c.next.status = c.status.set .brk true := by
  rw [next_of_effect h (effect_of_interrupt ho)]
  exact ⟨rfl,rfl⟩

theorem next_of_nop (h : decode c.opcodeByte = some opcode) (ho : opcode.operation = .nop) :
    c.next.toRegisters = c.fetched.toRegisters ∧ c.next.memory = c.memory := by
  obtain ⟨effect,elapsed,heffect,-,hnext,-⟩ := exists_next_of_decode h
  rw [ho] at heffect
  cases heffect
  rw [hnext]
  exact ⟨rfl,rfl⟩

theorem keepsFrame_of_nop (h : decode c.next.opcodeByte = some opcode)
    (ho : opcode.operation = .nop) : c.KeepsFrame c.next.next := by
  obtain ⟨hregisters,hmemory⟩ := next_of_nop h ho
  have hsp : c.next.next.sp = c.next.fetched.sp := congrArg Registers.sp hregisters
  exact ⟨hsp,fun cell _ => by rw [hmemory]⟩

theorem next_of_leave (h : decode t.opcodeByte = some opcode) (ho : opcode.operation = .rts)
    {address : UInt16} (hs : Stacked t.memory t.sp [lowByte address, highByte address]) :
    t.next.pc = address ∧ t.next.sp = slotAbove^[2] t.sp := by
  obtain ⟨effect,elapsed,heffect,-,hnext,-⟩ := exists_next_of_decode h
  have hlow := hs 0 _ rfl
  have hhigh := hs 1 _ rfl
  rw [ho] at heffect
  cases heffect
  rw [hnext]
  refine ⟨?_,rfl⟩
  rw [← word_lowByte_highByte address, ← hlow, ← hhigh]
  rfl

theorem next_of_resume (h : decode t.opcodeByte = some opcode) (ho : opcode.operation = .rti)
    {byte : UInt8} {address : UInt16}
    (hs : Stacked t.memory t.sp [byte, lowByte address, highByte address]) :
    t.next.pc = address ∧ t.next.sp = slotAbove^[3] t.sp ∧
      t.next.status = Status.restore byte := by
  obtain ⟨effect,elapsed,heffect,-,hnext,-⟩ := exists_next_of_decode h
  have hstatus := hs 0 _ rfl
  have hlow := hs 1 _ rfl
  have hhigh := hs 2 _ rfl
  rw [ho] at heffect
  cases heffect
  rw [hnext]
  refine ⟨?_,rfl,?_⟩
  · rw [← word_lowByte_highByte address, ← hlow, ← hhigh]
    rfl
  · rw [← hstatus]
    rfl

theorem comesBack_of_call (hs : OnStack c.sp) (hc : c.operation? = some .jsr)
    (hk : c.KeepsFrame t) (ht : t.operation? = some .rts) : c.ComesBack t (c.pc + 3) := by
  obtain ⟨opcode,hdecode,ho⟩ := operation?_eq_some_iff.mp hc
  obtain ⟨back,hback,hrts⟩ := operation?_eq_some_iff.mp ht
  obtain ⟨hstacked,hsp⟩ := hk.stacked hs hdecode (effect_of_call hdecode ho) rfl rfl (by simp)
  obtain ⟨hpc,hpointer⟩ := next_of_leave hback hrts hstacked
  exact ⟨exists_execute_next hback,hpc,hpointer.trans hsp⟩

theorem comesBack_of_interrupt (hs : c.Sound) (hc : c.operation? = some .brk)
    (hk : c.KeepsFrame t) (ht : t.operation? = some .rti) :
    c.ComesBack t (c.pc + 2) ∧ t.next.status = c.status := by
  obtain ⟨opcode,hdecode,ho⟩ := operation?_eq_some_iff.mp hc
  obtain ⟨back,hback,hrti⟩ := operation?_eq_some_iff.mp ht
  obtain ⟨hstacked,hsp⟩ := hk.stacked hs.onStack hdecode (effect_of_interrupt ho) rfl rfl (by simp)
  obtain ⟨hpc,hpointer,hstatus⟩ := next_of_resume hback hrti hstacked
  refine ⟨⟨exists_execute_next hback,hpc,hpointer.trans hsp⟩,?_⟩
  rw [hstatus, Status.restore_toByte hs.packed]

/-- After any run that leaves the stack pointer and the frame as they were, a return goes on behind
the call, and a return from an interrupt two bytes behind its opcode with the status from before.
Both find the stack pointer that was there before the push. A call goes where its operand said
before anything was pushed. -/
theorem calls_and_interrupts_return (h : c.Reachable) :
    (c.operation? = some .jsr →
      (∃ elapsed, c.execute = (c.next, .ok elapsed)) ∧
      c.next.pc = c.memory.readWord (c.pc + 1) ∧
      c.writtenCells = [c.sp, slotBelow c.sp] ∧
      ∀ t, c.next.LeadsTo t → c.KeepsFrame t → t.operation? = some .rts →
        c.ComesBack t (c.pc + 3)) ∧
    (c.operation? = some .brk →
      (∃ elapsed, c.execute = (c.next, .ok elapsed)) ∧
      c.writtenCells = [c.sp, slotBelow c.sp, slotBelow (slotBelow c.sp)] ∧
      ∀ t, c.next.LeadsTo t → c.KeepsFrame t → t.operation? = some .rti →
        c.ComesBack t (c.pc + 2) ∧ t.next.status = c.status) := by
  have hsound := h.sound
  constructor
  · intro hcall
    obtain ⟨opcode,hdecode,ho⟩ := operation?_eq_some_iff.mp hcall
    have heffect := effect_of_call hdecode ho
    exact ⟨exists_execute_next hdecode,(next_of_call hdecode ho).1,
      writtenCells_of_effect hdecode heffect,
      fun t _ hk ht => comesBack_of_call hsound.onStack hcall hk ht⟩
  · intro hinterrupt
    obtain ⟨opcode,hdecode,ho⟩ := operation?_eq_some_iff.mp hinterrupt
    exact ⟨exists_execute_next hdecode,writtenCells_of_effect hdecode (effect_of_interrupt ho),
      fun t _ hk ht => comesBack_of_interrupt hsound hinterrupt hk ht⟩

theorem exists_reachable (m : Memory) (pc sp : UInt16) (byte : UInt8) :
    ∃ c : Cpu, c.Reachable ∧ c.pc = pc ∧ c.sp = stackAddress sp ∧ c.memory = m ∧
      c.status = .restore byte :=
  ⟨_,⟨Memory.zero,[.replaceMemory m, .setPc pc, .setSp sp, .setStatus byte],rfl⟩,rfl,rfl,rfl,rfl⟩

/-- `JSR $0620` from the end of page zero, to `NOP` and `RTS`. -/
theorem exists_call_around_page_end :
    ∃ c : Cpu, c.Reachable ∧ c.operation? = some .jsr ∧ c.pc = 0x00FE ∧ c.sp = 0x0100 ∧
      c.memory.read 0x0100 = 0x06 ∧ c.next.memory.read 0x0100 = 0x01 ∧ c.next.pc = 0x0620 ∧
      c.next.LeadsTo c.next.next ∧ c.KeepsFrame c.next.next ∧ c.next.next.pc = 0x0621 ∧
      c.next.next.operation? = some .rts := by
  let m := ((((Memory.zero.write 0x00FE 0x20).write 0x00FF 0x20).write 0x0100 0x06).write
    0x0620 0xEA).write 0x0621 0x60
  have hread : ∀ address, m.read address = if 0x0621 = address then 0x60 else
      if 0x0620 = address then 0xEA else if 0x0100 = address then 0x06 else
      if 0x00FF = address then 0x20 else if 0x00FE = address then 0x20 else 0 := by
    intro address
    simp only [m, Memory.read_write, Memory.read_zero]
  obtain ⟨c,hreachable,hpc,hsp,hmemory,-⟩ := exists_reachable m 0x00FE 0x0100 0
  clear_value m
  have hcode : decode c.opcodeByte = some ⟨.jsr,.absolute,6⟩ := by
    rw [opcodeByte, hpc, hmemory, hread]
    rfl
  obtain ⟨hgoal,hpushed⟩ := next_of_call hcode rfl
  rw [Memory.readWord, hpc, hmemory, hread, hread] at hgoal
  rw [hpc, hsp, hmemory] at hpushed
  have hnop : decode c.next.opcodeByte = some ⟨.nop,.implicit,2⟩ := by
    rw [opcodeByte, hgoal, hpushed, Memory.read_write, Memory.read_write, hread]
    rfl
  obtain ⟨hregisters,hkept⟩ := next_of_nop hnop rfl
  have hpc' : c.next.next.pc = 0x0621 := by
    rw [congrArg Registers.pc hregisters, pc_fetched, hgoal]
    rfl
  have hrts : c.next.next.operation? = some .rts := by
    rw [operation?, opcodeByte, hpc', hkept, hpushed, Memory.read_write, Memory.read_write, hread]
    rfl
  refine ⟨c,hreachable,operation?_eq_some_iff.mpr ⟨_,hcode,rfl⟩,hpc,hsp,?_,?_,hgoal,
    leadsTo_next hnop,keepsFrame_of_nop hnop rfl,hpc',hrts⟩
  · rw [hmemory, hread]
    rfl
  · rw [hpushed, Memory.read_write, Memory.read_write]
    rfl

/-- `BRK` in the last cell, which is the high byte of the vector as well, to `RTI`. -/
theorem exists_interrupt_at_memory_end :
    ∃ c : Cpu, c.Reachable ∧ c.operation? = some .brk ∧ c.pc = 0xFFFF ∧ c.sp = 0x0101 ∧
      c.status.brk = false ∧ c.next.operation? = some .rti ∧ c.next.status.brk = true := by
  let m := (Memory.zero.write 0xFFFE 0x40).write 0x0040 0x40
  have hread : ∀ address, m.read address = if 0x0040 = address then 0x40 else
      if 0xFFFE = address then 0x40 else 0 := by
    intro address
    simp only [m, Memory.read_write, Memory.read_zero]
  obtain ⟨c,hreachable,hpc,hsp,hmemory,hstatus⟩ := exists_reachable m 0xFFFF 0x0101 0xC1
  clear_value m
  have hcode : decode c.opcodeByte = some ⟨.brk,.implicit,7⟩ := by
    rw [opcodeByte, hpc, hmemory, hread]
    rfl
  obtain ⟨hgoal,hset⟩ := next_of_interrupt hcode rfl
  have hkept : ∀ cell ∉ [0x0101, 0x0100, 0x01FF], c.next.memory.read cell = m.read cell := by
    intro cell hcell
    rw [← hmemory]
    apply read_next_of_notMem
    rw [writtenCells_of_effect hcode (effect_of_interrupt rfl)]
    change cell ∉ [c.sp, slotBelow c.sp, slotBelow (slotBelow c.sp)]
    rw [hsp]
    exact hcell
  rw [Memory.readWord, hkept _ (by decide), hkept _ (by decide), hread, hread] at hgoal
  have hrti : c.next.operation? = some .rti := by
    rw [operation?, opcodeByte, hgoal, hkept _ (by decide), hread]
    rfl
  refine ⟨c,hreachable,operation?_eq_some_iff.mpr ⟨_,hcode,rfl⟩,hpc,hsp,?_,hrti,?_⟩
  · rw [hstatus]
    rfl
  · rw [hset]
    rfl

/-- A call from the end of page zero whose frame goes around the end of the stack page and covers a
byte of its own operand, and an interrupt in the last cell of memory. -/
theorem calls_and_interrupts_return_wrapped :
    (∃ c t : Cpu, c.Reachable ∧ c.operation? = some .jsr ∧ c.pc = 0x00FE ∧ c.sp = 0x0100 ∧
      c.writtenCells = [0x0100, 0x01FF] ∧ c.memory.read 0x0100 = 0x06 ∧
      c.next.memory.read 0x0100 = 0x01 ∧ c.next.pc = 0x0620 ∧ c.next.LeadsTo t ∧
      c.KeepsFrame t ∧ t.pc = 0x0621 ∧ t.operation? = some .rts ∧
      t.next.pc = 0x0101 ∧ t.next.sp = 0x0100) ∧
    ∃ c : Cpu, c.Reachable ∧ c.operation? = some .brk ∧ c.pc = 0xFFFF ∧ c.sp = 0x0101 ∧
      c.status.brk = false ∧ c.next.LeadsTo c.next ∧ c.KeepsFrame c.next ∧
      c.next.operation? = some .rti ∧ c.next.status.brk = true ∧ c.next.next.pc = 0x0001 ∧
      c.next.next.sp = 0x0101 ∧ c.next.next.status = c.status := by
  constructor
  · obtain ⟨c,hreachable,hcall,hpc,hsp,hold,hnew,hgoal,hrun,hkept,hpc',hrts⟩ :=
      exists_call_around_page_end
    obtain ⟨-,-,hwritten,hreturn⟩ := (calls_and_interrupts_return hreachable).1 hcall
    obtain ⟨-,hback,hpointer⟩ := hreturn _ hrun hkept hrts
    have hcells : [c.sp, slotBelow c.sp] = [0x0100, 0x01FF] := by
      rw [hsp]
      rfl
    have hbehind : (0x00FE : UInt16) + 3 = 0x0101 := by decide
    exact ⟨c,_,hreachable,hcall,hpc,hsp,hwritten.trans hcells,hold,hnew,hgoal,hrun,hkept,hpc',hrts,
      hback.trans (hpc ▸ hbehind),hpointer.trans hsp⟩
  · obtain ⟨c,hreachable,hinterrupt,hpc,hsp,hclear,hrti,hset⟩ := exists_interrupt_at_memory_end
    obtain ⟨-,-,hreturn⟩ := (calls_and_interrupts_return hreachable).2 hinterrupt
    have hrun : c.next.LeadsTo c.next := leadsTo_self _
    have hkept : c.KeepsFrame c.next := ⟨rfl,fun _ _ => rfl⟩
    obtain ⟨⟨-,hback,hpointer⟩,hstatus⟩ := hreturn _ hrun hkept hrti
    have hbehind : (0xFFFF : UInt16) + 2 = 0x0001 := by decide
    exact ⟨c,hreachable,hinterrupt,hpc,hsp,hclear,hrun,hkept,hrti,hset,
      hback.trans (hpc ▸ hbehind),hpointer.trans hsp,hstatus⟩

end Cpu
end Nmos6502
