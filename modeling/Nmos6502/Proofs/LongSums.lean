import Nmos6502.Proofs.Sums

/-! # Sums of long numbers

A number of many bytes is added byte by byte, lowest first: a load of one byte, an addition of the
other, and the carry of each addition goes over the next load into the next addition. The bytes
that the accumulator shows and the last carry are the sum of the two numbers and the first carry.
Numbers of any length are covered, in a program anywhere in memory.
-/
namespace Nmos6502

/-- The program that adds two numbers: for each pair of bytes `LDA #x` and `ADC #y`. -/
def longSum : List UInt8 → List UInt8 → List UInt8
  | x :: xs, y :: ys => 0xA9 :: x :: 0x69 :: y :: longSum xs ys
  | _, _ => []

namespace Cpu

/-- The accumulator after every second instruction. -/
def sumBytes (c : Cpu) (n : ℕ) : List UInt8 :=
  (List.range n).map fun i => (next^[2 * (i + 1)] c).a

/-- Two instructions add a pair of bytes and the carry, and leave the memory alone. -/
structure AddsPair (c : Cpu) (x y : UInt8) : Prop where
  loads : ∃ elapsed, c.execute = (c.next, .ok elapsed)
  adds : ∃ elapsed, c.next.execute = (c.next.next, .ok elapsed)
  value : 256 * c.next.next.status.carry.toNat + c.next.next.a.toNat =
    x.toNat + y.toNat + c.status.carry.toNat
  pc : c.next.next.pc = c.pc + 4
  memory : c.next.next.memory = c.memory

structure AddsLong (c : Cpu) (a b : List UInt8) : Prop where
  succeeds : ∀ k < 2 * a.length, ∃ elapsed,
    (next^[k] c).execute = (next^[k + 1] c, .ok elapsed)
  value : ofLittleEndian (c.sumBytes a.length) +
      (next^[2 * a.length] c).status.carry.toNat * 256 ^ a.length =
    ofLittleEndian a + ofLittleEndian b + c.status.carry.toNat
  pc : (next^[2 * a.length] c).pc = c.pc + UInt16.ofNat (4 * a.length)
  memory : (next^[2 * a.length] c).memory = c.memory

variable {c : Cpu}

theorem next_of_immediate {opcode : Opcode} {code byte : UInt8} {rest : List UInt8}
    {result : Registers → UInt8 → Registers} (hd : decode code = some opcode)
    (hm : opcode.mode = .immediate) (ha : opcode.operation.action = .read result)
    (h : c.memory.Holds c.pc (code :: byte :: rest)) :
    (∃ elapsed, c.execute = (c.next, .ok elapsed)) ∧
      c.next.toRegisters = result (c.toRegisters.skip 2) byte ∧ c.next.memory = c.memory ∧
      c.memory.Holds (c.pc + 2) rest := by
  rw [Memory.holds_cons, Memory.holds_cons] at h
  obtain ⟨rfl,rfl,hrest⟩ := h
  obtain ⟨byte,hbyte,hregisters,hmemory⟩ := next_of_read hd ha
  rw [hm] at hbyte
  cases hbyte
  have hsize : opcode.size = 2 := by rw [Opcode.size, hm]; rfl
  rw [hsize] at hregisters
  rw [UInt16.add_assoc] at hrest
  exact ⟨exists_execute_next hd,hregisters,hmemory,hrest⟩

/-- The carry goes over the load into the addition. -/
theorem addsPair {x y : UInt8} {rest : List UInt8}
    (h : c.memory.Holds c.pc (0xA9 :: x :: 0x69 :: y :: rest)) :
    c.AddsPair x y ∧ c.memory.Holds (c.pc + 4) rest := by
  have hlda : decode 0xA9 = some ⟨.lda,.immediate,2⟩ := rfl
  have hadc : decode 0x69 = some ⟨.adc,.immediate,2⟩ := rfl
  obtain ⟨hloads,hloaded,hsame,hrest⟩ := next_of_immediate hlda rfl rfl h
  have hpc : c.next.pc = c.pc + 2 := congrArg Registers.pc hloaded
  rw [← hsame, ← hpc] at hrest
  obtain ⟨hadds,hadded,hkept,hrest⟩ := next_of_immediate hadc rfl rfl hrest
  have hend : c.next.next.pc = c.pc + 4 := by
    have hskip : c.next.next.pc = c.next.pc + 2 := congrArg Registers.pc hadded
    rw [hskip, hpc, UInt16.add_assoc]
    rfl
  have hvalue : 256 * c.next.next.status.carry.toNat + c.next.next.a.toNat =
      c.next.a.toNat + y.toNat + c.next.status.carry.toNat := by
    rw [hadded]
    exact (c.next.toRegisters.skip 2).add_value y
  have ha : c.next.a = x := congrArg Registers.a hloaded
  have hcarry : c.next.status.carry = c.status.carry := congrArg (·.status.carry) hloaded
  rw [ha, hcarry] at hvalue
  rw [hpc, UInt16.add_assoc, hsame] at hrest
  exact ⟨⟨hloads,hadds,hvalue,hend,hkept.trans hsame⟩,hrest⟩

theorem iterate_next_add_two (c : Cpu) (k : ℕ) : next^[k + 2] c = next^[k] c.next.next := rfl

theorem sumBytes_succ (c : Cpu) (n : ℕ) :
    c.sumBytes (n + 1) = c.next.next.a :: c.next.next.sumBytes n := by
  rw [sumBytes, List.range_succ_eq_map, List.map_cons, List.map_map]
  rfl

theorem addsLong_nil (c : Cpu) : c.AddsLong [] [] where
  succeeds k hk := absurd hk (Nat.not_lt_zero k)
  value := Nat.add_comm _ _
  pc := (UInt16.add_zero c.pc).symm
  memory := rfl

theorem AddsPair.cons {x y : UInt8} {a b : List UInt8} (hp : c.AddsPair x y)
    (hl : c.next.next.AddsLong a b) : c.AddsLong (x :: a) (y :: b) := by
  have hlast : next^[2 * (x :: a).length] c = next^[2 * a.length] c.next.next := by
    rw [List.length_cons, Nat.mul_succ, iterate_next_add_two]
  constructor
  case succeeds =>
    intro k hk
    rw [List.length_cons] at hk
    rcases k with _ | _ | k
    · exact hp.loads
    · exact hp.adds
    · exact hl.succeeds k (by omega)
  case value =>
    have hpair := hp.value
    -- Behind the first pair every weight is 256 times as large.
    have hrest := hl.value
    rw [hlast, List.length_cons, sumBytes_succ, ofLittleEndian, ofLittleEndian, ofLittleEndian,
      Nat.pow_succ, ← Nat.mul_assoc]
    omega
  case pc =>
    rw [hlast, hl.pc, hp.pc, UInt16.add_assoc, List.length_cons, Nat.mul_succ, Nat.add_comm,
      UInt16.ofNat_add]
    rfl
  case memory => rw [hlast, hl.memory, hp.memory]

/-- A program of loads and additions is carried out to its end, and the bytes that the accumulator
shows after the additions together with the last carry are the exact sum, however long the
numbers are. -/
theorem long_sum_exact {a b : List UInt8} (hlength : a.length = b.length)
    (h : c.memory.Holds c.pc (longSum a b)) : c.AddsLong a b := by
  -- The carry between the pairs is in the state, so the induction is over every state.
  induction a generalizing b c with
  | nil =>
    obtain rfl := List.eq_nil_of_length_eq_zero hlength.symm
    exact c.addsLong_nil
  | cons x a ih =>
    cases b with
    | nil => cases hlength
    | cons y b =>
      obtain ⟨hpair,hrest⟩ := addsPair h
      apply hpair.cons
      apply ih (Nat.succ.inj hlength)
      rwa [hpair.memory, hpair.pc]

theorem long_sum_exact_rippling : ∃ c : Cpu, c.pc = 0xFFFA ∧ c.status.carry = true ∧
    c.memory.Holds c.pc (longSum [0xFF, 0xFF] [0x00, 0x00]) ∧
    ofLittleEndian (c.sumBytes 2) + (next^[4] c).status.carry.toNat * 256 ^ 2 = 256 ^ 2 ∧
    (next^[4] c).pc = 0x0002 ∧ (next^[4] c).memory = c.memory := by
  let s : Status := ⟨true,false,false,false,false,false,false,0x21⟩
  let m := Memory.zero.writeBytes 0xFFFA (longSum [0xFF, 0xFF] [0x00, 0x00])
  let c : Cpu := ⟨⟨0,0,0,0xFFFA,stackTop,s⟩,m,0,0,0⟩
  have hheld : c.memory.Holds c.pc (longSum [0xFF, 0xFF] [0x00, 0x00]) :=
    Memory.holds_writeBytes (by decide)
  have hlength : [(0xFF : UInt8), 0xFF].length = 2 := rfl
  obtain ⟨-,hvalue,hpc,hmemory⟩ := long_sum_exact (hlength.trans rfl) hheld
  simp only [hlength, Nat.reduceMul] at hvalue hpc hmemory
  have hsum : ofLittleEndian [0xFF, 0xFF] + ofLittleEndian [0x00, 0x00] + c.status.carry.toNat =
      256 ^ 2 := by decide
  have hend : (0xFFFA : UInt16) + UInt16.ofNat 8 = 0x0002 := by decide
  exact ⟨c,rfl,rfl,hheld,hvalue.trans hsum,hpc.trans hend,hmemory⟩

end Cpu
end Nmos6502
