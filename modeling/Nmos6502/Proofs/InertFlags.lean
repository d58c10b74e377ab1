import Mathlib.Tactic.IntervalCases
import Nmos6502.Proofs.ActionFrame

/-! # Inert flags

Nothing that the processor computes depends on the interrupt disable, decimal and break
flags. They only show in a status byte that is written to memory, which takes a push of
the status or an interrupt. Until then two states that differ in these flags alone have
the same outcomes and go on to differ in them alone.
-/
namespace Nmos6502

/-- The flags that no instruction tests. -/
def Flag.inert : Flag → Bool
  | .interruptDisable | .decimal | .brk => true
  | .carry | .zero | .overflow | .negative => false

/-- The same flags and the same status byte, up to the inert flags and their bits. -/
structure Status.Like (s t : Status) : Prop where
  get_eq : ∀ flag, flag.inert = false → s.get flag = t.get flag
  testBit_eq : ∀ i, (∀ flag : Flag, flag.inert = true → flag.bit ≠ i) →
    s.toByte.toNat.testBit i = t.toByte.toNat.testBit i

structure Registers.Like (r s : Registers) : Prop where
  eq_with : s = { r with status := s.status }
  status : r.status.Like s.status

/-- An action does the same to registers that differ in the inert flags only. -/
def Action.Blind : Action → Prop
  | .read result | .pull result => ∀ r s byte, r.Like s → (result r byte).Like (result s byte)
  | .transfer result => ∀ r s, r.Like s → (result r).Like (result s)
  | .store byte | .push byte => ∀ r s, r.Like s → byte r = byte s
  | .branch flag _ => flag.inert = false
  | .interrupt => False
  | .modify _ | .count _ | .jump | .call | .leave | .resume => True

structure Effect.Like (e f : Effect) : Prop where
  registers : e.registers.Like f.registers
  writes_eq : e.writes = f.writes
  memoryCycles_eq : e.memoryCycles = f.memoryCycles
  extraCycles_eq : e.extraCycles = f.extraCycles

def Effect.LikeOk (x y : Except Fault Effect) : Prop := ∀ e, x = .ok e → ∃ f, y = .ok f ∧ e.Like f

/-- The same state, up to the inert flags. -/
structure Cpu.Like (c d : Cpu) : Prop where
  registers : c.toRegisters.Like d.toRegisters
  memory_eq : c.memory = d.memory
  cycles_eq : c.cycles = d.cycles
  memoryCycles_eq : c.memoryCycles = d.memoryCycles
  extraCycles_eq : c.extraCycles = d.extraCycles

theorem Flag.exists_bit_eq {i : ℕ} (h : i < 8) : i = 5 ∨ ∃ flag : Flag, flag.bit = i := by
  interval_cases i
  · exact .inr ⟨.carry,rfl⟩
  · exact .inr ⟨.zero,rfl⟩
  · exact .inr ⟨.interruptDisable,rfl⟩
  · exact .inr ⟨.decimal,rfl⟩
  · exact .inr ⟨.brk,rfl⟩
  · exact .inl rfl
  · exact .inr ⟨.overflow,rfl⟩
  · exact .inr ⟨.negative,rfl⟩

namespace Status

theorem Like.refl (s : Status) : s.Like s := ⟨fun _ _ => rfl,fun _ _ => rfl⟩

theorem like_pack {s t : Status} (h : ∀ flag, flag.inert = false → s.get flag = t.get flag) :
    s.pack.Like t.pack := by
  refine ⟨h,fun i hi => ?_⟩
  change s.flagByte.toNat.testBit i = t.flagByte.toNat.testBit i
  by_cases hlt : i < 8
  · rcases Flag.exists_bit_eq hlt with rfl | ⟨flag,rfl⟩
    · rw [testBit_five_flagByte, testBit_five_flagByte]
    · have hflag : flag.inert = false := by
        by_contra hinert
        exact hi flag (by simpa using hinert) rfl
      rw [testBit_flagByte, testBit_flagByte, h flag hflag]
  · -- a byte has no bits from the eighth on
    have hzero : ∀ byte : UInt8, byte.toNat.testBit i = false := by
      intro byte
      apply Nat.testBit_lt_two_pow
      exact byte.toNat_lt.trans_le (Nat.pow_le_pow_right (by decide) (not_lt.mp hlt))
    rw [hzero, hzero]

theorem Like.set {s t : Status} (h : s.Like t) (flag : Flag) (value : Bool) :
    (s.set flag value).Like (t.set flag value) := by
  rw [← pack_eq_self_iff.mpr (packed_set s flag value),
    ← pack_eq_self_iff.mpr (packed_set t flag value)]
  apply like_pack
  intro other hother
  rw [get_set, get_set, h.get_eq other hother]

theorem Like.withResult {s t : Status} (h : s.Like t) (byte : UInt8) :
    (s.withResult byte).Like (t.withResult byte) := (h.set ..).set ..

end Status

namespace Registers.Like
variable {r s : Registers}

theorem with_status {t : Status} (h : r.status.Like t) : r.Like { r with status := t } := ⟨rfl,h⟩

theorem a_eq (h : r.Like s) : r.a = s.a := by rw [h.eq_with]

theorem x_eq (h : r.Like s) : r.x = s.x := by rw [h.eq_with]

theorem y_eq (h : r.Like s) : r.y = s.y := by rw [h.eq_with]

theorem pc_eq (h : r.Like s) : r.pc = s.pc := by rw [h.eq_with]

theorem sp_eq (h : r.Like s) : r.sp = s.sp := by rw [h.eq_with]

theorem carry_eq (h : r.Like s) : r.status.carry = s.status.carry :=
  h.status.get_eq .carry rfl

theorem setFlag (h : r.Like s) (flag : Flag) (value : Bool) :
    (r.setFlag flag value).Like (s.setFlag flag value) := by
  rw [h.eq_with]
  exact with_status (h.status.set flag value)

theorem withResult (h : r.Like s) (byte : UInt8) :
    (r.withResult byte).Like (s.withResult byte) := by
  rw [h.eq_with]
  exact with_status (h.status.withResult byte)

theorem with_a (h : r.Like s) (byte : UInt8) :
    Registers.Like { r with a := byte } { s with a := byte } := by
  rw [h.eq_with]
  exact with_status h.status

theorem with_pc (h : r.Like s) (address : UInt16) :
    Registers.Like { r with pc := address } { s with pc := address } := by
  rw [h.eq_with]
  exact with_status h.status

theorem loadA (h : r.Like s) (byte : UInt8) : (r.loadA byte).Like (s.loadA byte) := by
  rw [h.eq_with]
  exact with_status (h.status.withResult byte)

theorem loadX (h : r.Like s) (byte : UInt8) : (r.loadX byte).Like (s.loadX byte) := by
  rw [h.eq_with]
  exact with_status (h.status.withResult byte)

theorem loadY (h : r.Like s) (byte : UInt8) : (r.loadY byte).Like (s.loadY byte) := by
  rw [h.eq_with]
  exact with_status (h.status.withResult byte)

theorem add (h : r.Like s) (byte : UInt8) : (r.add byte).Like (s.add byte) := by
  simp only [Registers.add, h.a_eq, h.carry_eq]
  exact ((h.setFlag ..).setFlag ..).loadA _

theorem subtract (h : r.Like s) (byte : UInt8) : (r.subtract byte).Like (s.subtract byte) := by
  simp only [Registers.subtract, h.a_eq, h.carry_eq]
  exact ((h.setFlag ..).setFlag ..).loadA _

theorem compare (h : r.Like s) (register byte : UInt8) :
    (r.compare register byte).Like (s.compare register byte) := (h.setFlag ..).withResult _

theorem testBits (h : r.Like s) (byte : UInt8) : (r.testBits byte).Like (s.testBits byte) := by
  simp only [Registers.testBits, h.a_eq]
  exact ((h.setFlag ..).setFlag ..).setFlag ..

end Registers.Like

/-- Only a push of the status and an interrupt show the inert flags. -/
theorem Operation.blind {operation : Operation} (hphp : operation ≠ .php)
    (hbrk : operation ≠ .brk) : operation.action.Blind := by
  cases operation with
  | php => exact absurd rfl hphp
  | brk => exact absurd rfl hbrk
  | adc => exact fun _ _ byte h => h.add byte
  | sbc => exact fun _ _ byte h => h.subtract byte
  | and | ora | eor =>
    intro r s byte h
    simp only [h.a_eq]
    exact h.loadA _
  | bit => exact fun _ _ byte h => h.testBits byte
  | cmp | cpx | cpy =>
    intro r s byte h
    simp only [h.a_eq, h.x_eq, h.y_eq]
    exact h.compare _ byte
  | lda | pla => exact fun _ _ byte h => h.loadA byte
  | ldx => exact fun _ _ byte h => h.loadX byte
  | ldy => exact fun _ _ byte h => h.loadY byte
  | sta | pha => exact fun _ _ h => h.a_eq
  | stx => exact fun _ _ h => h.x_eq
  | sty => exact fun _ _ h => h.y_eq
  | inx | dex | tax | tsx =>
    intro r s h
    simp only [h.a_eq, h.x_eq, h.sp_eq]
    exact h.loadX _
  | iny | dey | tay =>
    intro r s h
    simp only [h.a_eq, h.y_eq]
    exact h.loadY _
  | txa | tya =>
    intro r s h
    simp only [h.x_eq, h.y_eq]
    exact h.loadA _
  | txs =>
    intro r s h
    rw [h.eq_with]
    exact .with_status h.status
  | clc | sec | cli | sei | cld | sed | clv => exact fun _ _ h => h.setFlag ..
  | nop => exact fun _ _ h => h
  | plp =>
    intro r s byte h
    rw [h.eq_with]
    exact .with_status (.refl _)
  | bcc | bcs | bne | beq | bpl | bmi | bvc | bvs => exact rfl
  | asl | lsr | rol | ror | inc | dec | jmp | jsr | rts | rti => exact trivial

section
variable {r s : Registers} {m : Memory} {mode : AddressingMode}

namespace Registers.Like

theorem skip (h : r.Like s) (count : ℕ) : (r.skip count).Like (s.skip count) := by
  rw [h.eq_with]
  exact with_status h.status

theorem effectiveAddress_eq (h : r.Like s) :
    effectiveAddress r m mode = effectiveAddress s m mode := by
  rw [h.eq_with]
  cases mode <;> rfl

theorem operandByte_eq (h : r.Like s) : operandByte r m mode = operandByte s m mode := by
  rw [h.eq_with]
  cases mode <;> rfl

theorem indexingCycles_eq (h : r.Like s) : indexingCycles r m mode = indexingCycles s m mode := by
  rw [h.eq_with]
  cases mode <;> rfl

end Registers.Like

namespace Effect

theorem Like.penalty_eq {e f : Effect} (h : e.Like f) : e.penalty = f.penalty := by
  rw [penalty, penalty, h.memoryCycles_eq, h.extraCycles_eq]

theorem Like.likeOk {e f : Effect} (h : e.Like f) : LikeOk (.ok e) (.ok f) := by
  intro _ he
  cases he
  exact ⟨f,rfl,h⟩

theorem likeOk_bind {α : Type} {x : Except Fault α} {k l : α → Except Fault Effect}
    (h : ∀ a, LikeOk (k a) (l a)) : LikeOk (x >>= k) (x >>= l) := by
  intro e he
  obtain ⟨a,ha,he⟩ := bind_eq_ok_iff.mp he
  obtain ⟨f,hf,hlike⟩ := h a e he
  exact ⟨f,bind_eq_ok_iff.mpr ⟨a,ha,hf⟩,hlike⟩

end Effect

namespace Action

theorem like_modify (h : r.Like s) (change : UInt8 → Bool → Changed) :
    Effect.LikeOk ((modify change).effect r m mode) ((modify change).effect s m mode) := by
  -- the change reads the carry, which is no inert flag
  simp only [effect, ← h.operandByte_eq, ← h.effectiveAddress_eq, ← h.carry_eq]
  refine Effect.likeOk_bind fun byte => ?_
  have hnext := ((h.skip mode.operandSize).setFlag .carry
    (change byte r.status.carry).carry).withResult (change byte r.status.carry).byte
  split
  · exact Effect.Like.likeOk ⟨hnext.with_a _,rfl,rfl,rfl⟩
  · exact Effect.likeOk_bind fun address => Effect.Like.likeOk
      ⟨hnext,rfl,h.indexingCycles_eq,rfl⟩

theorem like_branch (h : r.Like s) {flag : Flag} (hf : flag.inert = false) (value : Bool) :
    Effect.LikeOk ((branch flag value).effect r m mode) ((branch flag value).effect s m mode) := by
  have hnext := h.skip 1
  simp only [effect, h.status.get_eq flag hf, h.pc_eq, hnext.pc_eq]
  split
  · exact Effect.Like.likeOk ⟨hnext.with_pc _,rfl,rfl,rfl⟩
  · exact Effect.Like.likeOk ⟨hnext,rfl,rfl,rfl⟩

theorem like_effect {action : Action} (hb : action.Blind) (h : r.Like s) :
    Effect.LikeOk (action.effect r m mode) (action.effect s m mode) := by
  cases action with
  | read result =>
    rw [effect, effect, ← h.operandByte_eq]
    exact Effect.likeOk_bind fun byte => Effect.Like.likeOk
      ⟨hb _ _ byte (h.skip _),rfl,h.indexingCycles_eq,rfl⟩
  | store byte =>
    rw [effect, effect, ← h.effectiveAddress_eq, hb r s h]
    exact Effect.likeOk_bind fun address => Effect.Like.likeOk
      ⟨h.skip _,rfl,h.indexingCycles_eq,rfl⟩
  | modify change => exact like_modify h change
  | count change =>
    rw [effect, effect, ← h.effectiveAddress_eq, ← h.operandByte_eq]
    exact Effect.likeOk_bind fun address => Effect.likeOk_bind fun byte => Effect.Like.likeOk
      ⟨(h.skip _).withResult _,rfl,h.indexingCycles_eq,rfl⟩
  | transfer result => exact Effect.Like.likeOk ⟨hb r s h,rfl,rfl,rfl⟩
  | branch flag value => exact like_branch h hb value
  | jump | call =>
    rw [effect, effect, ← h.effectiveAddress_eq, h.eq_with]
    refine Effect.likeOk_bind fun address => Effect.Like.likeOk ⟨.with_status h.status,rfl,?_,rfl⟩
    cases mode <;> rfl
  | leave =>
    rw [effect, effect, h.eq_with]
    exact Effect.Like.likeOk ⟨.with_status h.status,rfl,rfl,rfl⟩
  | interrupt => exact hb.elim
  | resume =>
    rw [effect, effect, h.eq_with]
    exact Effect.Like.likeOk ⟨.with_status (.refl _),rfl,rfl,rfl⟩
  | push byte =>
    rw [effect, effect, hb r s h, h.eq_with]
    exact Effect.Like.likeOk ⟨.with_status h.status,rfl,rfl,rfl⟩
  | pull result =>
    rw [effect, effect, h.eq_with]
    exact Effect.Like.likeOk ⟨hb _ _ _ (.with_status h.status),rfl,rfl,rfl⟩

end Action

end

namespace Cpu
variable {c d : Cpu}

namespace Like

theorem fetched (h : c.Like d) : c.fetched.toRegisters.Like d.fetched.toRegisters :=
  h.registers.skip 1

theorem execute (h : c.Like d) (ho : ∀ opcode, decode c.opcodeByte = some opcode →
    opcode.operation ≠ .php ∧ opcode.operation ≠ .brk) :
    c.execute.2 = d.execute.2 ∧ c.next.Like d.next := by
  have hbyte : c.opcodeByte = d.opcodeByte := by
    rw [opcodeByte, opcodeByte, h.memory_eq, h.registers.pc_eq]
  cases hdecode : decode c.opcodeByte with
  | none =>
    rw [next, next, execute_of_undocumented hdecode, execute_of_undocumented (hbyte ▸ hdecode),
      hbyte]
    exact ⟨rfl,h.fetched,h.memory_eq,h.cycles_eq,rfl,rfl⟩
  | some opcode =>
    obtain ⟨hphp,hbrk⟩ := ho opcode hdecode
    obtain ⟨e,elapsed,he,helapsed,-,hexecute⟩ := exists_execute_of_decode hdecode
    obtain ⟨f,hf,hlike⟩ := Action.like_effect (Operation.blind hphp hbrk) h.fetched e he
    rw [h.memory_eq] at hf
    rw [next, next, hexecute, execute_of_effect (hbyte ▸ hdecode) hf, ← hlike.penalty_eq,
      ← helapsed]
    refine ⟨rfl,hlike.registers,?_,?_,?_,?_⟩
    · simp only [apply, memory_fetched, h.memory_eq, hlike.writes_eq]
    · simp only [apply, Cpu.fetched, h.cycles_eq]
    · simp only [apply, Cpu.fetched, hlike.memoryCycles_eq]
    · simp only [apply, Cpu.fetched, hlike.extraCycles_eq]

end Like

/-- The inert flags have no influence on a run in which no status is pushed. Two states that
differ in these flags only have the same outcomes, and never come to differ in anything else. -/
theorem inert_flags_irrelevant (h : c.Like d) {n : ℕ}
    (ho : ∀ k < n, ∀ opcode, decode (next^[k] c).opcodeByte = some opcode →
      opcode.operation ≠ .php ∧ opcode.operation ≠ .brk) :
    ∀ k < n, (next^[k] c).execute.2 = (next^[k] d).execute.2 ∧
      (next^[k + 1] c).Like (next^[k + 1] d) :=
  runs_related (P := fun s => ∀ opcode, decode s.opcodeByte = some opcode →
    opcode.operation ≠ .php ∧ opcode.operation ≠ .brk) (fun _ _ => Like.execute) h ho

theorem exists_sum_beside_decimal : ∃ c d : Cpu, c.Like d ∧ c.status.decimal = false ∧
    d.status.decimal = true ∧ decode c.opcodeByte = some ⟨.adc,.immediate,2⟩ ∧
    decode c.next.opcodeByte = some ⟨.sei,.implicit,2⟩ ∧ c.next.a = 0x1A := by
  let m : Memory := ((Memory.zero.write 0x600 0x69).write 0x601 0x01).write 0x602 0x78
  let c : Cpu := ⟨⟨0x19,0,0,0x600,stackTop,.powerUp⟩,m,0,0,0⟩
  have hstatus : c.status.Like (c.setFlag .decimal true).status := by
    apply Status.like_pack
    intro flag hflag
    cases flag with
    | decimal => cases hflag
    | _ => rfl
  have hadc : decode c.opcodeByte = some ⟨.adc,.immediate,2⟩ := by
    have hbyte : c.opcodeByte = 0x69 := by simp [opcodeByte, c, m, Memory.read_write]
    rw [hbyte]
    rfl
  have hsum : Operation.adc.action.effect c.fetched.toRegisters c.memory .immediate =
      .ok ⟨(c.fetched.skip 1).add 0x01,[],0,0⟩ := by
    have hoperand : c.memory.read c.fetched.pc = 0x01 := by simp [c, m, Memory.read_write]
    simp only [Operation.action, Action.effect, operandByte, hoperand]
    rfl
  have hnext : c.next = c.fetched.apply ⟨(c.fetched.skip 1).add 0x01,[],0,0⟩ 2 :=
    next_of_effect hadc hsum
  have hsei : decode c.next.opcodeByte = some ⟨.sei,.implicit,2⟩ := by
    have hbyte : c.next.opcodeByte = 0x78 := by
      rw [hnext]
      change m.read 0x602 = 0x78
      simp [m]
    rw [hbyte]
    rfl
  have ha : c.next.a = 0x1A := by
    rw [hnext]
    rfl
  exact ⟨c,c.setFlag .decimal true,⟨.with_status hstatus,rfl,rfl,rfl,rfl⟩,rfl,rfl,hadc,hsei,ha⟩

theorem inert_flags_irrelevant_decimal : ∃ c d : Cpu, c.Like d ∧
    c.status.decimal = false ∧ d.status.decimal = true ∧
    (∀ k < 2, ∀ opcode, decode (next^[k] c).opcodeByte = some opcode →
      opcode.operation ≠ .php ∧ opcode.operation ≠ .brk) ∧
    c.next.a = 0x1A ∧ d.next.a = 0x1A ∧ c.next.execute.2 = d.next.execute.2 ∧
    c.next.next.Like d.next.next := by
  obtain ⟨c,d,hlike,hc,hd,hadc,hsei,ha⟩ := exists_sum_beside_decimal
  have hoperations : ∀ k < 2, ∀ opcode, decode (next^[k] c).opcodeByte = some opcode →
      opcode.operation ≠ .php ∧ opcode.operation ≠ .brk := by
    intro k hk opcode hdecode
    rcases k with _ | _ | k
    · cases hadc.symm.trans hdecode
      exact ⟨by decide,by decide⟩
    · cases hsei.symm.trans hdecode
      exact ⟨by decide,by decide⟩
    · omega
  have hrun := inert_flags_irrelevant hlike hoperations
  have hfirst : c.next.Like d.next := (hrun 0 (by decide)).2
  obtain ⟨hsame,hsecond⟩ := hrun 1 (by decide)
  have hb : d.next.a = 0x1A := hfirst.registers.a_eq.symm.trans ha
  exact ⟨c,d,hlike,hc,hd,hoperations,ha,hb,hsame,hsecond⟩

end Cpu
end Nmos6502
