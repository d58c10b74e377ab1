import Nmos6502.Proofs.ReachableStates

/-! # A reset forgets everything

A reset fills the low part of memory, marks four bytes in each of its blocks, and clears the rest.
Together the writes reach every address, and the last one to reach it decides: `read_fill` and
`read_mark` say what each of them leaves behind. With the registers that describes the processor
completely, so that nothing from before a reset can be seen behind it.
-/
namespace Nmos6502

/-- The bytes that stand out in a block of 2048, by their place in it. -/
def marker? : ℕ → Option UInt8
  | 0x008 => some 0xF7
  | 0x009 => some 0xEF
  | 0x00A => some 0xDF
  | 0x00F => some 0xBF
  | _ => none

def powerUpByte (place : ℕ) : UInt8 :=
  if place < 0x2000 then (marker? (place % 0x800)).getD 0xFF else 0x00

theorem marker?_eq_none {place : ℕ} (h : 16 ≤ place) : marker? place = none := by
  obtain ⟨more,rfl⟩ := Nat.exists_eq_add_of_le' h
  rfl

theorem Status.get_powerUp_iff (flag : Flag) :
    powerUp.get flag = true ↔ flag = .zero ∨ flag = .interruptDisable ∨ flag = .brk := by
  cases flag <;> decide

namespace Memory

def mark (m : Memory) (base : UInt16) : Memory :=
  (((m.write (base + 0x008) 0xF7).write (base + 0x009) 0xEF).write (base + 0x00A) 0xDF).write
    (base + 0x00F) 0xBF

theorem read_fill (m : Memory) {address : UInt16} (other : UInt16) (byte : UInt8) {count : ℕ}
    (h : count ≤ 65536) : (m.fill address byte count).read other =
      if (other - address).toNat < count then byte else m.read other := by
  induction count generalizing m address with
  | zero => rfl
  | succ count ih =>
    have hnext := UInt16.toNat_sub other (address + 1)
    rw [UInt16.toNat_add, UInt16.toNat_one] at hnext
    rw [fill, ih _ (by omega), read_write, hnext, UInt16.toNat_sub]
    have haddress := address.toNat_lt
    have hother := other.toNat_lt
    by_cases heq : address = other
    -- The rest of the fill ends before it comes around to the first cell again.
    · rw [← heq, if_neg (by omega), if_pos rfl, if_pos (by omega)]
    · have hne : address.toNat ≠ other.toNat := mt UInt16.toNat_inj.mp heq
      rw [if_neg heq]
      congr 1
      apply propext
      omega

theorem read_mark (m : Memory) (base address : UInt16) :
    (m.mark base).read address = (marker? (address - base).toNat).getD (m.read address) := by
  have hplace (offset : UInt16) :
      base + offset = address ↔ (address - base).toNat = offset.toNat := by
    rw [UInt16.toNat_inj]
    constructor
    · rintro rfl
      rw [UInt16.add_comm, UInt16.add_sub_cancel]
    · rintro rfl
      rw [UInt16.add_comm, UInt16.sub_add_cancel]
  simp only [mark, read_write, hplace, UInt16.reduceToNat]
  generalize (address - base).toNat = place
  fun_cases marker? place <;> simp_all

theorem marker?_distance {address base : UInt16} (h : address.toNat < 0x2000)
    (hbase : base.toNat < 0x2000) (hblock : base.toNat % 0x800 = 0) :
    marker? (address - base).toNat =
      if address.toNat / 0x800 = base.toNat / 0x800 then marker? (address.toNat % 0x800)
      else none := by
  have hdistance := UInt16.toNat_sub address base
  by_cases heq : address.toNat / 0x800 = base.toNat / 0x800
  · rw [if_pos heq, show (address - base).toNat = address.toNat % 0x800 by omega]
  · rw [if_neg heq, marker?_eq_none (by omega)]

theorem read_foldl_mark (m : Memory) {address : UInt16} (h : address.toNat < 0x2000) :
    (([0x0000, 0x0800, 0x1000, 0x1800] : List UInt16).foldl mark m).read address =
      (marker? (address.toNat % 0x800)).getD (m.read address) := by
  have hblock : address.toNat / 0x800 = 0 ∨ address.toNat / 0x800 = 1 ∨
      address.toNat / 0x800 = 2 ∨ address.toNat / 0x800 = 3 := by omega
  simp only [List.foldl_cons, List.foldl_nil, read_mark]
  rw [marker?_distance h (by decide) (by decide), marker?_distance h (by decide) (by decide),
    marker?_distance h (by decide) (by decide), marker?_distance h (by decide) (by decide)]
  rcases hblock with hblock | hblock | hblock | hblock <;> simp [hblock]

theorem read_powerUp (m : Memory) (address : UInt16) :
    m.powerUp.read address = powerUpByte address.toNat := by
  have hpowerUp : m.powerUp = (([0x0000, 0x0800, 0x1000, 0x1800] : List UInt16).foldl mark
      (m.fill 0x0000 0xFF 0x2000)).fill 0x2000 0x00 0xE000 := rfl
  have haddress := address.toNat_lt
  have hlow := UInt16.toNat_sub address 0x0000
  have hhigh := UInt16.toNat_sub address 0x2000
  simp only [UInt16.reduceToNat] at hlow hhigh
  rw [hpowerUp, read_fill _ _ _ (by decide), powerUpByte]
  by_cases h : address.toNat < 0x2000
  · rw [if_pos h, if_neg (by omega), read_foldl_mark _ h, read_fill _ _ _ (by decide),
      if_pos (by omega)]
  · rw [if_neg h, if_pos (by omega)]

example : powerUpByte 0x180F = 0xBF ∧ powerUpByte 0x1FFF = 0xFF ∧ powerUpByte 0x2008 = 0x00 := by
  decide

end Memory

namespace Cpu
variable {c d : Cpu}

/-- A processor that has just been reset. All that it keeps is named here, the counts of a pending
instruction included. -/
structure PoweredUp (c : Cpu) : Prop where
  a_eq : c.a = 0
  x_eq : c.x = 0
  y_eq : c.y = 0
  sp_eq : c.sp = 0x01FF
  pc_eq : c.pc = 0x07FF
  get_iff : ∀ flag : Flag,
    c.status.get flag = true ↔ flag = .zero ∨ flag = .interruptDisable ∨ flag = .brk
  packed : c.status.Packed
  toByte_eq : c.status.toByte = 0x36
  cycles_eq : c.cycles = 0
  memoryCycles_eq : c.memoryCycles = 0
  extraCycles_eq : c.extraCycles = 0
  read_eq : ∀ address : UInt16, c.memory.read address = powerUpByte address.toNat

theorem memory_reset (c : Cpu) : c.reset.memory = c.memory.powerUp := by rw [reset]

theorem poweredUp_reset (c : Cpu) : c.reset.PoweredUp where
  a_eq := rfl
  x_eq := rfl
  y_eq := rfl
  sp_eq := rfl
  pc_eq := rfl
  get_iff := Status.get_powerUp_iff
  packed := Status.packed_powerUp
  toByte_eq := rfl
  cycles_eq := rfl
  memoryCycles_eq := rfl
  extraCycles_eq := rfl
  read_eq address := by rw [memory_reset, Memory.read_powerUp]

/-- The description leaves nothing open. -/
theorem PoweredUp.unique (hc : c.PoweredUp) (hd : d.PoweredUp) : c = d := by
  have hstatus : c.status = d.status := by
    refine Status.ext_get (fun flag => ?_) (hc.toByte_eq.trans hd.toByte_eq.symm)
    exact Bool.eq_iff_iff.mpr ((hc.get_iff flag).trans (hd.get_iff flag).symm)
  have hmemory : c.memory = d.memory :=
    Memory.ext_read fun address => (hc.read_eq address).trans (hd.read_eq address).symm
  have ha := hc.a_eq.trans hd.a_eq.symm
  have hx := hc.x_eq.trans hd.x_eq.symm
  have hy := hc.y_eq.trans hd.y_eq.symm
  have hpc := hc.pc_eq.trans hd.pc_eq.symm
  have hsp := hc.sp_eq.trans hd.sp_eq.symm
  have hcycles := hc.cycles_eq.trans hd.cycles_eq.symm
  have hmemoryCycles := hc.memoryCycles_eq.trans hd.memoryCycles_eq.symm
  have hextraCycles := hc.extraCycles_eq.trans hd.extraCycles_eq.symm
  obtain ⟨⟨⟩⟩ := c
  obtain ⟨⟨⟩⟩ := d
  simp_all

/-- A reset leads from every state, whatever its last instruction has counted, to one and the same,
which is that of a new processor whatever its memory was. So whatever is done behind a reset leads
where it leads on a new processor. -/
theorem reset_forgets (c : Cpu) :
    c.reset.PoweredUp ∧ (∀ d : Cpu, d.reset = c.reset) ∧ (∀ memory, new memory = c.reset) ∧
      ∀ (memory : Memory) (calls : List Call),
        calls.foldl perform c.reset = reached memory calls := by
  have hsame (d : Cpu) : d.reset = c.reset := (poweredUp_reset d).unique (poweredUp_reset c)
  have hnew (memory : Memory) : new memory = c.reset := hsame _
  refine ⟨poweredUp_reset c,hsame,hnew,fun memory calls => ?_⟩
  rw [reached, hnew]

end Cpu
end Nmos6502
