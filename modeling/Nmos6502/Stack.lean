import Nmos6502.Word

/-! # The stack page

The stack pointer is a whole address. It moves inside page one, down from the top and
from the bottom back to the top, so that the page is a ring of 256 slots. A pull goes
back to the slot that the push before it left.
-/
namespace Nmos6502

def stackBottom : UInt16 := 0x0100

def stackTop : UInt16 := 0x01FF

/-- The slot under `sp`, where the stack pointer goes after a push. -/
def slotBelow (sp : UInt16) : UInt16 := if sp = stackBottom then stackTop else sp - 1

/-- The slot over `sp`, from which a pull reads. -/
def slotAbove (sp : UInt16) : UInt16 := if stackTop ≤ sp then stackBottom else sp + 1

def stackAddress (w : UInt16) : UInt16 := word (lowByte w) 1

def pushes (sp : UInt16) : List UInt8 → List (UInt16 × UInt8)
  | [] => []
  | byte :: bytes => (sp, byte) :: pushes (slotBelow sp) bytes

def OnStack (sp : UInt16) : Prop := stackBottom ≤ sp ∧ sp ≤ stackTop

theorem onStack_iff {sp : UInt16} : OnStack sp ↔ 256 ≤ sp.toNat ∧ sp.toNat ≤ 511 := by
  simp [OnStack, stackBottom, stackTop, UInt16.le_iff_toNat_le]

theorem onStack_stackAddress (w : UInt16) : OnStack (stackAddress w) := by
  simp only [onStack_iff, stackAddress, toNat_word, toNat_lowByte, UInt8.reduceToNat]
  omega

theorem toNat_slotBelow {sp : UInt16} (h : OnStack sp) :
    (slotBelow sp).toNat = if sp.toNat = 256 then 511 else sp.toNat - 1 := by
  rw [onStack_iff] at h
  simp only [slotBelow, stackBottom, stackTop, ← UInt16.toNat_inj, UInt16.reduceToNat]
  split
  · rfl
  · rw [UInt16.toNat_sub_of_le _ _ (by rw [UInt16.le_iff_toNat_le, UInt16.toNat_one]; omega)]
    rfl

theorem toNat_slotAbove {sp : UInt16} (h : OnStack sp) :
    (slotAbove sp).toNat = if sp.toNat = 511 then 256 else sp.toNat + 1 := by
  rw [onStack_iff] at h
  simp only [slotAbove, stackBottom, stackTop, UInt16.le_iff_toNat_le, UInt16.reduceToNat]
  split
  · rw [if_pos (by omega)]
    rfl
  · rw [if_neg (by omega), UInt16.toNat_add, UInt16.toNat_one]
    omega

theorem onStack_slotBelow {sp : UInt16} (h : OnStack sp) : OnStack (slotBelow sp) := by
  have hn := toNat_slotBelow h
  rw [onStack_iff] at h ⊢
  split at hn <;> omega

theorem onStack_slotAbove {sp : UInt16} (h : OnStack sp) : OnStack (slotAbove sp) := by
  have hn := toNat_slotAbove h
  rw [onStack_iff] at h ⊢
  split at hn <;> omega

theorem slotAbove_slotBelow {sp : UInt16} (h : OnStack sp) : slotAbove (slotBelow sp) = sp := by
  have hb := toNat_slotBelow h
  have ha := toNat_slotAbove (onStack_slotBelow h)
  rw [onStack_iff] at h
  apply UInt16.toNat_inj.mp
  split at hb <;> split at ha <;> omega

end Nmos6502
