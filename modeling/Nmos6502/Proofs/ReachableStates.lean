import Nmos6502.Proofs.ActionFrame
import Nmos6502.Run

/-! # States that the processor can be in

Registers are sound if the stack pointer is in page one and the status byte shows the
flags. No instruction and no other operation that the processor offers leads from sound
registers to others, and a new processor has sound ones, so that every state it can be
brought to is sound.
-/
namespace Nmos6502

structure Registers.Sound (r : Registers) : Prop where
  onStack : OnStack r.sp
  packed : r.status.Packed

theorem Operation.keeps_packed (operation : Operation) :
    operation.action.Keeps (·.status.Packed) := by
  cases operation with
  | adc | sbc | and | ora | eor | cmp | cpx | cpy | lda | ldx | ldy | pla =>
    intro r byte hr
    exact Status.packed_withResult ..
  | bit =>
    intro r byte hr
    exact Status.packed_set ..
  | plp =>
    intro r byte hr
    exact Status.packed_restore byte
  | inx | iny | dex | dey | tax | tay | txa | tya | tsx =>
    intro r hr
    exact Status.packed_withResult ..
  | clc | sec | cli | sei | cld | sed | clv =>
    intro r hr
    exact Status.packed_set ..
  | txs | nop =>
    intro r hr
    exact hr
  | _ => exact trivial

theorem Action.packed_of_effect {action : Action} (hk : action.Keeps (·.status.Packed))
    {r : Registers} (hr : r.status.Packed) {m : Memory} {mode : AddressingMode} {effect : Effect}
    (h : action.effect r m mode = .ok effect) : effect.registers.status.Packed := by
  cases action with
  | read result =>
    obtain ⟨byte,-,h⟩ := bind_eq_ok_iff.mp h
    cases h
    exact hk (r.skip mode.operandSize) byte hr
  | store | jump | call =>
    obtain ⟨address,-,h⟩ := bind_eq_ok_iff.mp h
    cases h
    exact hr
  | modify change =>
    obtain ⟨byte,-,h⟩ := bind_eq_ok_iff.mp h
    split at h
    · cases h
      exact Status.packed_withResult ..
    · obtain ⟨address,-,h⟩ := bind_eq_ok_iff.mp h
      cases h
      exact Status.packed_withResult ..
  | count change =>
    obtain ⟨address,-,h⟩ := bind_eq_ok_iff.mp h
    obtain ⟨byte,-,h⟩ := bind_eq_ok_iff.mp h
    cases h
    exact Status.packed_withResult ..
  | transfer result =>
    cases h
    exact hk r hr
  | branch flag value =>
    simp only [Action.effect] at h
    split at h <;> cases h <;> exact hr
  | interrupt =>
    cases h
    exact Status.packed_set ..
  | resume =>
    cases h
    exact Status.packed_restore _
  | leave | push =>
    cases h
    exact hr
  | pull result =>
    cases h
    exact hk { r with sp := slotAbove r.sp } _ hr

namespace Cpu

inductive Call where
  | execute
  | runForCycles (budget : ℕ)
  | reset
  | load (origin : UInt16) (image : List UInt8)
  | setA (byte : UInt8)
  | setX (byte : UInt8)
  | setY (byte : UInt8)
  | setPc (address : UInt16)
  | setSp (address : UInt16)
  | setStatus (byte : UInt8)
  | setFlag (flag : Flag) (value : Bool)
  | packStatus
  | refreshStatus
  | push (byte : UInt8)
  | pop
  | peek
  | write (address : UInt16) (byte : UInt8)
  /-- Any other change of the memory. -/
  | replaceMemory (memory : Memory)

def perform (c : Cpu) : Call → Cpu
  | .execute => c.execute.1
  | .runForCycles budget => (c.runForCycles budget).1
  | .reset => c.reset
  | .load origin image => (c.load origin image).toOption.getD c
  | .setA byte => c.setA byte
  | .setX byte => c.setX byte
  | .setY byte => c.setY byte
  | .setPc address => c.setPc address
  | .setSp address => c.setSp address
  | .setStatus byte => c.setStatus byte
  | .setFlag flag value => c.setFlag flag value
  | .packStatus => c.packStatus
  | .refreshStatus => c.refreshStatus
  | .push byte => c.push byte
  | .pop => c.pop.2
  | .peek => c
  | .write address byte => c.write address byte
  | .replaceMemory memory => { c with memory }

/-- The state that calls lead to from a new processor. -/
def reached (memory : Memory) (calls : List Call) : Cpu := calls.foldl perform (new memory)

def Reachable (c : Cpu) : Prop := ∃ memory calls, reached memory calls = c

variable {c : Cpu}

theorem sound_reset (c : Cpu) : c.reset.Sound := by
  have htop : OnStack stackTop := ⟨by decide,by decide⟩
  exact ⟨htop,Status.packed_powerUp⟩

theorem sound_execute (h : c.Sound) : c.execute.1.Sound := by
  refine ⟨onStack_next h.onStack,?_⟩
  rcases c.execute_cases with ⟨-,hexecute⟩ | ⟨opcode,effect,elapsed,-,heffect,-,hexecute⟩
  · rw [hexecute]
    exact h.packed
  · have hfetched : c.fetched.status.Packed := h.packed
    rw [hexecute]
    exact Action.packed_of_effect opcode.operation.keeps_packed hfetched heffect

theorem sound_spend (h : c.Sound) (budget limit spent : ℕ) :
    (c.spend budget limit spent).1.Sound := by
  induction limit generalizing c spent with
  | zero => exact h
  | succ limit ih =>
    unfold spend
    split
    · exact h
    · have hnext := sound_execute h
      split
      · rename_i hexecute
        rw [hexecute] at hnext
        exact hnext
      · rename_i hexecute
        rw [hexecute] at hnext
        exact ih hnext _

theorem sound_load (h : c.Sound) (origin : UInt16) (image : List UInt8) :
    ((c.load origin image).toOption.getD c).Sound := by
  unfold load
  split
  · exact ⟨h.onStack,h.packed⟩
  · exact h

theorem sound_perform (h : c.Sound) (call : Call) : (c.perform call).Sound := by
  cases call with
  | execute => exact sound_execute h
  | runForCycles budget => exact sound_spend h ..
  | reset => exact sound_reset c
  | load origin image => exact sound_load h origin image
  | setSp address => exact ⟨onStack_stackAddress address,h.packed⟩
  | setStatus | refreshStatus => exact ⟨h.onStack,Status.packed_restore _⟩
  | setFlag flag value => exact ⟨h.onStack,Status.packed_set ..⟩
  | packStatus => exact ⟨h.onStack,Status.packed_pack _⟩
  | push byte => exact ⟨onStack_slotBelow h.onStack,h.packed⟩
  | pop => exact ⟨onStack_slotAbove h.onStack,h.packed⟩
  | _ => exact ⟨h.onStack,h.packed⟩

theorem sound_foldl_perform (h : c.Sound) (calls : List Call) : (calls.foldl perform c).Sound := by
  induction calls generalizing c with
  | nil => exact h
  | cons call calls ih => exact ih (sound_perform h call)

theorem Reachable.sound (h : c.Reachable) : c.Sound := by
  obtain ⟨memory,calls,rfl⟩ := h
  exact sound_foldl_perform (sound_reset _) calls

/-- In every state that calls lead to, the stack pointer is in page one, the status byte
shows each flag in its place, and the bit without a flag is one. -/
theorem reached_sound (memory : Memory) (calls : List Call) :
    0x0100 ≤ (reached memory calls).sp ∧ (reached memory calls).sp ≤ 0x01FF ∧
      (∀ flag : Flag, (reached memory calls).status.toByte.toNat.testBit flag.bit =
        (reached memory calls).status.get flag) ∧
      (reached memory calls).status.toByte.toNat.testBit 5 = true := by
  obtain ⟨⟨hlow,hhigh⟩,hpacked⟩ := sound_foldl_perform (sound_reset _) calls (c := new memory)
  have hbyte : (reached memory calls).status.toByte = (reached memory calls).status.flagByte :=
    hpacked
  refine ⟨hlow,hhigh,?_,?_⟩
  · intro flag
    rw [hbyte, Status.testBit_flagByte]
  · rw [hbyte, Status.testBit_five_flagByte]

end Cpu
end Nmos6502
