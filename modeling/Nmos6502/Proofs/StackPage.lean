import Mathlib.Algebra.Ring.Int.Defs
import Mathlib.Data.List.Induction
import Mathlib.Data.List.Infix
import Nmos6502.Proofs.ReachableStates

/-! # The stack page as a stack

The page is a ring of 256 slots. As long as no more bytes are pushed than it has slots, and none is
taken that was not pushed, pulls return what a list would that is used as a stack, and the stack
pointer tells how many bytes are outstanding modulo 256. A page that is full forgets the oldest
byte with every further push, and keeps the last 256.
-/
namespace Nmos6502

inductive StackCall where
  | push (byte : UInt8)
  | pop
  | peek
deriving DecidableEq

namespace StackCall

/-- What a call returns from a list with the top of the stack in front. -/
def answer? (bytes : List UInt8) : StackCall → Option UInt8
  | .push _ => none
  | .pop | .peek => bytes.head?

/-- The list after a call. -/
def onList (bytes : List UInt8) : StackCall → List UInt8
  | .push byte => byte :: bytes
  | .pop => bytes.tail
  | .peek => bytes

def growth : StackCall → ℤ
  | .push _ => 1
  | .pop => -1
  | .peek => 0

def toCall : StackCall → Cpu.Call
  | .push byte => .push byte
  | .pop => .pop
  | .peek => .peek

end StackCall

/-- The bytes on a stack without bounds, the last one pushed in front. -/
def stackAfter (calls : List StackCall) : List UInt8 := calls.foldl StackCall.onList []

/-- The pushes that no pull has taken back. -/
def outstanding (calls : List StackCall) : ℤ := (calls.map StackCall.growth).sum

/-- Never are fewer than no bytes outstanding, or more than 256, and there is one wherever the calls
look at the top. -/
structure Balanced (calls : List StackCall) : Prop where
  within : ∀ before, before <+: calls → 0 ≤ outstanding before ∧ outstanding before ≤ 256
  peeks : ∀ before, before ++ [.peek] <+: calls → 1 ≤ outstanding before

theorem balanced_iff_inits {calls : List StackCall} : Balanced calls ↔
    (∀ before ∈ calls.inits, 0 ≤ outstanding before ∧ outstanding before ≤ 256) ∧
      ∀ before ∈ calls.inits, before ++ [.peek] <+: calls → 1 ≤ outstanding before := by
  simp only [List.mem_inits]
  constructor
  · intro h
    exact ⟨h.within,fun before _ => h.peeks before⟩
  · rintro ⟨hwithin,hpeeks⟩
    refine ⟨hwithin,fun before hbefore => ?_⟩
    exact hpeeks before ((List.prefix_append ..).trans hbefore) hbefore

instance (calls : List StackCall) : Decidable (Balanced calls) :=
  decidable_of_iff' _ balanced_iff_inits

/-- The bytes on a stack with room for 256, which forgets the oldest. -/
def ringAfter (calls : List StackCall) : List UInt8 :=
  calls.foldl (fun bytes call => (call.onList bytes).take 256) []

/-- The bytes stand in the slots above the stack pointer, the first one next to it. -/
def Stacked (m : Memory) (sp : UInt16) (bytes : List UInt8) : Prop :=
  ∀ i byte, bytes[i]? = some byte → m.read (slotAbove^[i + 1] sp) = byte

namespace Cpu

def answer (c : Cpu) : StackCall → Option UInt8
  | .push _ => none
  | .pop => some c.pop.1
  | .peek => some c.peek

def afterCalls (c : Cpu) (calls : List StackCall) : Cpu :=
  (calls.map StackCall.toCall).foldl perform c

end Cpu

section
variable {sp : UInt16}

theorem toNat_iterate_slotAbove (h : OnStack sp) (k : ℕ) :
    (slotAbove^[k] sp).toNat = 256 + (sp.toNat + k) % 256 := by
  induction k generalizing sp with
  | zero =>
    rw [onStack_iff] at h
    rw [Function.iterate_zero_apply]
    omega
  | succ k ih =>
    have habove := toNat_slotAbove h
    rw [Function.iterate_succ_apply, ih (onStack_slotAbove h), habove]
    split <;> omega

theorem iterate_slotAbove_ne (h : OnStack sp) {k : ℕ} (hpos : 0 < k) (hlt : k < 256) :
    slotAbove^[k] sp ≠ sp := by
  intro heq
  have hplace := toNat_iterate_slotAbove h k
  rw [onStack_iff] at h
  rw [heq] at hplace
  omega

end

namespace Stacked
variable {m : Memory} {sp : UInt16} {bytes : List UInt8}

theorem nil (m : Memory) (sp : UInt16) : Stacked m sp [] := by
  intro i byte hi
  cases hi

theorem take (h : Stacked m sp bytes) (n : ℕ) : Stacked m sp (bytes.take n) := by
  intro i byte hi
  rw [List.getElem?_take] at hi
  split at hi
  · exact h i byte hi
  · cases hi

theorem tail (h : Stacked m sp bytes) : Stacked m (slotAbove sp) bytes.tail := by
  intro i byte hi
  rw [List.getElem?_tail] at hi
  exact h (i + 1) byte hi

/-- A byte that is pushed takes the slot of the oldest of 256 others. -/
theorem push (h : Stacked m sp bytes) (hs : OnStack sp) (byte : UInt8) :
    Stacked (m.write sp byte) (slotBelow sp) ((byte :: bytes).take 256) := by
  intro i other hi
  rw [List.getElem?_take] at hi
  split at hi
  · rename_i hlt
    rw [Function.iterate_succ_apply, slotAbove_slotBelow hs]
    cases i with
    | zero =>
      cases hi
      exact Memory.read_write_self ..
    | succ i =>
      have hne := iterate_slotAbove_ne hs (Nat.succ_pos i) hlt
      rw [Memory.read_write_of_ne _ _ hne.symm]
      exact h i other hi
  · cases hi

end Stacked

@[simp] theorem outstanding_append (calls more : List StackCall) :
    outstanding (calls ++ more) = outstanding calls + outstanding more := by
  simp only [outstanding, List.map_append, List.sum_append]

@[simp] theorem outstanding_singleton (call : StackCall) : outstanding [call] = call.growth := by
  simp only [outstanding, List.map_singleton, List.sum_singleton]

theorem stackAfter_append (calls : List StackCall) (call : StackCall) :
    stackAfter (calls ++ [call]) = call.onList (stackAfter calls) := List.foldl_concat ..

theorem ringAfter_append (calls : List StackCall) (call : StackCall) :
    ringAfter (calls ++ [call]) = (call.onList (ringAfter calls)).take 256 := List.foldl_concat ..

theorem Balanced.of_append {calls more : List StackCall} (h : Balanced (calls ++ more)) :
    Balanced calls where
  within before hbefore := h.within before (hbefore.trans (List.prefix_append ..))
  peeks before hbefore := h.peeks before (hbefore.trans (List.prefix_append ..))

theorem Balanced.bounds {calls : List StackCall} (h : Balanced calls) :
    0 ≤ outstanding calls ∧ outstanding calls ≤ 256 := h.within calls List.prefix_rfl

theorem Balanced.length_stackAfter {calls : List StackCall} (h : Balanced calls) :
    ((stackAfter calls).length : ℤ) = outstanding calls := by
  induction calls using List.reverseRecOn with
  | nil => rfl
  | append_singleton calls call ih =>
    have hbefore := ih h.of_append
    have hbounds := h.bounds
    rw [outstanding_append, outstanding_singleton] at hbounds ⊢
    rw [stackAfter_append]
    cases call with
    | push byte =>
      rw [StackCall.onList, StackCall.growth, List.length_cons]
      omega
    | pop =>
      simp only [StackCall.growth] at hbounds
      rw [StackCall.onList, StackCall.growth, List.length_tail]
      omega
    | peek =>
      rw [StackCall.onList, StackCall.growth]
      omega

theorem Balanced.ringAfter_eq {calls : List StackCall} (h : Balanced calls) :
    ringAfter calls = stackAfter calls := by
  induction calls using List.reverseRecOn with
  | nil => rfl
  | append_singleton calls call ih =>
    have hlength := h.length_stackAfter
    have hbounds := h.bounds
    rw [ringAfter_append, ih h.of_append, ← stackAfter_append]
    apply List.take_of_length_le
    omega

theorem Balanced.exists_head {calls : List StackCall} {call : StackCall}
    (h : Balanced (calls ++ [call])) (hc : call = .pop ∨ call = .peek) :
    ∃ byte rest, stackAfter calls = byte :: rest := by
  have hlength := h.of_append.length_stackAfter
  have hpos : 1 ≤ outstanding calls := by
    rcases hc with rfl | rfl
    · have hbounds := h.bounds
      rw [outstanding_append, outstanding_singleton, StackCall.growth] at hbounds
      omega
    · exact h.peeks calls List.prefix_rfl
  apply List.exists_cons_of_length_pos
  omega

theorem ringAfter_pushes (bytes : List UInt8) :
    ringAfter (bytes.map .push) = bytes.reverse.take 256 := by
  induction bytes using List.reverseRecOn with
  | nil => rfl
  | append_singleton bytes byte ih =>
    rw [List.map_append, List.map_singleton, ringAfter_append, ih, StackCall.onList,
      List.take_succ_cons, List.take_take, List.reverse_append, List.reverse_singleton,
      List.singleton_append, List.take_succ_cons]
    rfl

theorem length_ringAfter_le (calls : List StackCall) : (ringAfter calls).length ≤ 256 := by
  induction calls using List.reverseRecOn with
  | nil => exact Nat.zero_le _
  | append_singleton calls call _ =>
    rw [ringAfter_append]
    exact List.length_take_le ..

theorem ringAfter_pops (calls : List StackCall) (i : ℕ) :
    ringAfter (calls ++ List.replicate i .pop) = (ringAfter calls).drop i := by
  induction i with
  | zero => rw [List.replicate_zero, List.append_nil, List.drop_zero]
  | succ i ih =>
    have hlength := length_ringAfter_le calls
    rw [List.replicate_succ', ← List.append_assoc, ringAfter_append, ih, StackCall.onList,
      List.tail_drop]
    apply List.take_of_length_le
    rw [List.length_drop]
    omega

namespace Cpu
variable {c : Cpu}

theorem stacked_perform (h : OnStack c.sp) {bytes : List UInt8}
    (hb : Stacked c.memory c.sp bytes) (call : StackCall) :
    OnStack (c.perform call.toCall).sp ∧
      Stacked (c.perform call.toCall).memory (c.perform call.toCall).sp
        ((call.onList bytes).take 256) := by
  cases call with
  | push byte => exact ⟨onStack_slotBelow h,hb.push h byte⟩
  | pop => exact ⟨onStack_slotAbove h,hb.tail.take 256⟩
  | peek => exact ⟨h,hb.take 256⟩

theorem toNat_sp_perform (h : OnStack c.sp) (call : StackCall) :
    ((c.perform call.toCall).sp.toNat : ℤ) = 256 + (c.sp.toNat - 256 - call.growth) % 256 := by
  have hbelow := toNat_slotBelow h
  have habove := toNat_slotAbove h
  rw [onStack_iff] at h
  cases call with
  | push byte =>
    change ((slotBelow c.sp).toNat : ℤ) = 256 + (c.sp.toNat - 256 - 1) % 256
    split at hbelow <;> omega
  | pop =>
    change ((slotAbove c.sp).toNat : ℤ) = 256 + (c.sp.toNat - 256 - -1) % 256
    split at habove <;> omega
  | peek =>
    change (c.sp.toNat : ℤ) = 256 + (c.sp.toNat - 256 - 0) % 256
    omega

theorem read_perform_of_not_onStack (h : OnStack c.sp) (call : StackCall) {address : UInt16}
    (ha : ¬ OnStack address) :
    (c.perform call.toCall).memory.read address = c.memory.read address := by
  cases call with
  | push byte =>
    apply Memory.read_write_of_ne
    rintro rfl
    exact ha h
  | pop | peek => rfl

theorem afterCalls_append (c : Cpu) (calls : List StackCall) (call : StackCall) :
    c.afterCalls (calls ++ [call]) = (c.afterCalls calls).perform call.toCall := by
  rw [afterCalls, List.map_append, List.map_singleton, List.foldl_concat, ← afterCalls]

/-- The processor has the bytes of the ring above its stack pointer. -/
theorem stacked_afterCalls (h : OnStack c.sp) (calls : List StackCall) :
    OnStack (c.afterCalls calls).sp ∧
      Stacked (c.afterCalls calls).memory (c.afterCalls calls).sp (ringAfter calls) := by
  induction calls using List.reverseRecOn with
  | nil => exact ⟨h,Stacked.nil _ _⟩
  | append_singleton calls call ih =>
    rw [afterCalls_append, ringAfter_append]
    exact stacked_perform ih.1 ih.2 call

theorem toNat_sp_afterCalls (h : OnStack c.sp) (calls : List StackCall) :
    ((c.afterCalls calls).sp.toNat : ℤ) =
      256 + (c.sp.toNat - 256 - outstanding calls) % 256 := by
  induction calls using List.reverseRecOn with
  | nil =>
    rw [onStack_iff] at h
    change (c.sp.toNat : ℤ) = 256 + (c.sp.toNat - 256 - 0) % 256
    omega
  | append_singleton calls call ih =>
    have hs := (stacked_afterCalls h calls).1
    rw [afterCalls_append, toNat_sp_perform hs, ih, outstanding_append, outstanding_singleton]
    omega

theorem read_afterCalls_of_not_onStack (h : OnStack c.sp) (calls : List StackCall)
    {address : UInt16} (ha : ¬ OnStack address) :
    (c.afterCalls calls).memory.read address = c.memory.read address := by
  induction calls using List.reverseRecOn with
  | nil => rfl
  | append_singleton calls call ih =>
    have hs := (stacked_afterCalls h calls).1
    rw [afterCalls_append, read_perform_of_not_onStack hs call ha, ih]

theorem answer_afterCalls (h : OnStack c.sp) {calls : List StackCall} {call : StackCall}
    (hc : call = .pop ∨ call = .peek) {byte : UInt8} (hb : (ringAfter calls).head? = some byte) :
    (c.afterCalls calls).answer call = some byte := by
  have hread := (stacked_afterCalls h calls).2 0 byte (List.head?_eq_getElem? ▸ hb)
  rcases hc with rfl | rfl <;> exact congrArg some hread

theorem answer_of_balanced (h : OnStack c.sp) {calls : List StackCall} {call : StackCall}
    (hb : Balanced (calls ++ [call])) :
    (c.afterCalls calls).answer call = call.answer? (stackAfter calls) := by
  cases call with
  | push byte => rfl
  | pop | peek =>
    obtain ⟨byte,rest,htop⟩ := hb.exists_head (by simp)
    rw [StackCall.answer?, htop, List.head?_cons]
    apply answer_afterCalls h (by simp)
    rw [hb.of_append.ringAfter_eq, htop, List.head?_cons]

theorem answer_after_pushes (h : OnStack c.sp) {bytes : List UInt8} (hl : 256 < bytes.length)
    {i : ℕ} (hi : i < 256) :
    (c.afterCalls (bytes.map .push ++ List.replicate i .pop)).answer .pop = bytes.reverse[i]? := by
  have hlast : i < bytes.reverse.length := by
    rw [List.length_reverse]
    omega
  rw [List.getElem?_eq_getElem hlast]
  apply answer_afterCalls h (.inl rfl)
  rw [ringAfter_pops, ringAfter_pushes, List.head?_drop, List.getElem?_take, if_pos hi,
    List.getElem?_eq_getElem hlast]

/-- In a balanced sequence of calls, each pull and each look at the top returns what a list would.
After any calls the stack pointer is as many slots down the ring as there are bytes outstanding,
and no cell outside of page one has changed. Of more than 256 bytes that are pushed in a row the
next 256 pulls return the last ones, in reverse order. -/
theorem stack_page_exact (h : c.Reachable) :
    (∀ calls call, Balanced (calls ++ [call]) →
      (c.afterCalls calls).answer call = call.answer? (stackAfter calls)) ∧
    (∀ calls, ((c.afterCalls calls).sp.toNat : ℤ) =
        0x0100 + (c.sp.toNat - 0x0100 - outstanding calls) % 256 ∧
      (outstanding calls = 0 → (c.afterCalls calls).sp = c.sp) ∧
      c.afterCalls (calls ++ [.peek]) = c.afterCalls calls ∧
      ∀ address, ¬ (0x0100 ≤ address ∧ address ≤ 0x01FF) →
        (c.afterCalls calls).memory.read address = c.memory.read address) ∧
    ∀ bytes : List UInt8, 256 < bytes.length → ∀ i < 256,
      (c.afterCalls (bytes.map .push ++ List.replicate i .pop)).answer .pop =
        bytes.reverse[i]? := by
  have hs := h.sound.onStack
  refine ⟨fun calls call hb => answer_of_balanced hs hb,fun calls => ?_,
    fun bytes hl i hi => answer_after_pushes hs hl hi⟩
  have hsp := toNat_sp_afterCalls hs calls
  refine ⟨hsp,fun hnone => ?_,afterCalls_append ..,
    fun address ha => read_afterCalls_of_not_onStack hs calls ha⟩
  rw [onStack_iff] at hs
  apply UInt16.toNat_inj.mp
  omega

/-- Two bytes go around the lower end of the page and come back, and of 257 bytes pushed from there
the last and the second one are left. -/
theorem stack_page_exact_wrapped : ∃ c : Cpu, c.Reachable ∧ c.sp = 0x0100 ∧
    (c.afterCalls [.push 0xAB, .push 0xCD]).sp = 0x01FE ∧
    (c.afterCalls [.push 0xAB, .push 0xCD]).answer .peek = some 0xCD ∧
    (c.afterCalls [.push 0xAB, .push 0xCD, .pop]).answer .pop = some 0xAB ∧
    (c.afterCalls [.push 0xAB, .push 0xCD, .pop, .pop]).sp = 0x0100 ∧
    (c.afterCalls [.push 0xAB, .push 0xCD]).memory.read 0x0200 = c.memory.read 0x0200 ∧
    (c.afterCalls ((1 :: 2 :: List.replicate 255 3).map .push ++
      List.replicate 255 .pop)).answer .pop = some 2 := by
  obtain ⟨c,h,hsp⟩ : ∃ c : Cpu, c.Reachable ∧ c.sp = 0x0100 :=
    ⟨_,⟨Memory.zero,[.setSp 0x0100],rfl⟩,rfl⟩
  obtain ⟨hanswer,hafter,hlast⟩ := stack_page_exact h
  obtain ⟨hpointer,-,-,houtside⟩ := hafter [.push 0xAB, .push 0xCD]
  refine ⟨c,h,hsp,?_,hanswer [.push 0xAB, .push 0xCD] .peek (by decide),
    hanswer [.push 0xAB, .push 0xCD, .pop] .pop (by decide),
    ((hafter [.push 0xAB, .push 0xCD, .pop, .pop]).2.1 rfl).trans hsp,
    houtside 0x0200 (by decide),?_⟩
  · rw [hsp] at hpointer
    apply UInt16.toNat_inj.mp
    exact Int.ofNat_inj.mp hpointer
  · have hlength : (1 :: 2 :: List.replicate 255 3 : List UInt8).length = 257 := by
      rw [List.length_cons, List.length_cons, List.length_replicate]
    rw [hlast _ (hlength ▸ by decide) 255 (by decide), List.getElem?_reverse (hlength ▸ by decide),
      hlength]
    rfl

end Cpu
end Nmos6502
