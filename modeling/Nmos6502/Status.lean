/-! # The status register

Seven flags, and the status byte that shows all of them at once. The byte has a bit for
every flag and one without, which reads as one. Whoever changes a flag packs the byte
anew, and a byte that is written is taken apart into the flags, so that the two agree. A
flag set is the flag read, the other flags stay, and the byte gives the register back.
-/
namespace Nmos6502

inductive Flag where
  | carry | zero | interruptDisable | decimal | brk | overflow | negative
  deriving DecidableEq, Repr

def Flag.bit : Flag → Nat
  | .carry => 0
  | .zero => 1
  | .interruptDisable => 2
  | .decimal => 3
  | .brk => 4
  | .overflow => 6
  | .negative => 7

structure Status where
  carry : Bool
  zero : Bool
  interruptDisable : Bool
  decimal : Bool
  brk : Bool
  overflow : Bool
  negative : Bool
  /-- The byte as it was packed last. -/
  toByte : UInt8
  deriving DecidableEq, Repr

/-- Bit 7 of a byte, its sign in two's complement. -/
def sign (byte : UInt8) : Bool := decide (128 ≤ byte.toNat)

namespace Status

def flagByte (s : Status) : UInt8 :=
  UInt8.ofNat (s.carry.toNat + 2 * s.zero.toNat + 4 * s.interruptDisable.toNat +
    8 * s.decimal.toNat + 16 * s.brk.toNat + 32 + 64 * s.overflow.toNat + 128 * s.negative.toNat)

/-- Brings the byte up to date with the flags. -/
def pack (s : Status) : Status := { s with toByte := s.flagByte }

/-- The flags that a byte shows, beside that byte. -/
def ofByte (byte : UInt8) : Status where
  carry := byte.toNat.testBit 0
  zero := byte.toNat.testBit 1
  interruptDisable := byte.toNat.testBit 2
  decimal := byte.toNat.testBit 3
  brk := byte.toNat.testBit 4
  overflow := byte.toNat.testBit 6
  negative := byte.toNat.testBit 7
  toByte := byte

/-- The register after a byte is put into it: the flags follow the byte, the bit
without a flag stays one. -/
def restore (byte : UInt8) : Status := (ofByte byte).pack

def powerUp : Status :=
  pack {
    carry := false
    zero := true
    interruptDisable := true
    decimal := false
    brk := true
    overflow := false
    negative := false
    toByte := 0 }

def get (s : Status) : Flag → Bool
  | .carry => s.carry
  | .zero => s.zero
  | .interruptDisable => s.interruptDisable
  | .decimal => s.decimal
  | .brk => s.brk
  | .overflow => s.overflow
  | .negative => s.negative

/-- Changes a flag and packs the byte anew. -/
def set (s : Status) (flag : Flag) (value : Bool) : Status :=
  pack <| match flag with
    | .carry => { s with carry := value }
    | .zero => { s with zero := value }
    | .interruptDisable => { s with interruptDisable := value }
    | .decimal => { s with decimal := value }
    | .brk => { s with brk := value }
    | .overflow => { s with overflow := value }
    | .negative => { s with negative := value }

def withResult (s : Status) (byte : UInt8) : Status :=
  (s.set .zero (byte == 0)).set .negative (sign byte)

def Packed (s : Status) : Prop := s.toByte = s.flagByte

@[simp] theorem get_set (s : Status) (flag other : Flag) (value : Bool) :
    (s.set flag value).get other = if flag = other then value else s.get other := by
  cases flag <;> cases other <;> rfl

theorem packed_pack (s : Status) : s.pack.Packed := rfl

theorem packed_set (s : Status) (flag : Flag) (value : Bool) : (s.set flag value).Packed :=
  packed_pack _

theorem packed_withResult (s : Status) (byte : UInt8) : (s.withResult byte).Packed :=
  packed_set ..

theorem packed_restore (byte : UInt8) : (restore byte).Packed := packed_pack _

theorem packed_powerUp : powerUp.Packed := packed_pack _

theorem testBit_flagByte (s : Status) (flag : Flag) :
    s.flagByte.toNat.testBit flag.bit = s.get flag := by
  obtain ⟨c, z, i, d, b, v, n, byte⟩ := s
  change (flagByte ⟨c, z, i, d, b, v, n, 0⟩).toNat.testBit flag.bit =
    get ⟨c, z, i, d, b, v, n, 0⟩ flag
  revert c z i d b v n
  cases flag <;> decide

theorem testBit_five_flagByte (s : Status) : s.flagByte.toNat.testBit 5 = true := by
  obtain ⟨c, z, i, d, b, v, n, byte⟩ := s
  change (flagByte ⟨c, z, i, d, b, v, n, 0⟩).toNat.testBit 5 = true
  revert c z i d b v n
  decide

theorem ext_get {s t : Status} (h : ∀ flag, s.get flag = t.get flag)
    (hb : s.toByte = t.toByte) : s = t := by
  have hc := h .carry
  have hz := h .zero
  have hi := h .interruptDisable
  have hd := h .decimal
  have hk := h .brk
  have hv := h .overflow
  have hn := h .negative
  cases s
  cases t
  simp_all [get]

theorem pack_eq_self_iff {s : Status} : s.pack = s ↔ s.Packed := by
  obtain ⟨c, z, i, d, b, v, n, byte⟩ := s
  simp [pack, Packed, eq_comm]

theorem restore_flagByte (s : Status) : restore s.flagByte = s.pack := by
  obtain ⟨c, z, i, d, b, v, n, byte⟩ := s
  change restore (flagByte ⟨c, z, i, d, b, v, n, 0⟩) = pack ⟨c, z, i, d, b, v, n, 0⟩
  revert c z i d b v n
  decide

theorem restore_toByte {s : Status} (h : s.Packed) : restore s.toByte = s := by
  have hbyte : s.toByte = s.flagByte := h
  rw [hbyte, restore_flagByte, pack_eq_self_iff.mpr h]

end Status
end Nmos6502
