import Nmos6502.Proofs.BranchTargets
import Nmos6502.Proofs.ReachableStates

/-! # Counting cycles

An instruction takes the cycles of its opcode, and up to two more: one where an index leads
out of the page that it starts in, one for a branch that is taken, and another one if that
branch leads out of the page behind it. What an instruction takes is what the total grows by,
and one that fails adds nothing, so that the total is always the sum of all counts since the
last reset.
-/
namespace Nmos6502

/-- The cycle for the way from one address to another, which is free inside a page. -/
def pageCycle (source target : ℕ) : ℕ := if source / 256 = target / 256 then 0 else 1

def Action.indexes : Action → Bool
  | .read _ | .store _ | .modify _ | .count _ | .jump | .call => true
  | _ => false

theorem crossingCycle_eq (base address : UInt16) :
    crossingCycle base address = pageCycle base.toNat address.toNat := by
  have hpage : highByte base = highByte address ↔ base.toNat / 256 = address.toNat / 256 := by
    rw [← UInt8.toNat_inj, toNat_highByte, toNat_highByte]
  unfold crossingCycle crossesPage pageCycle
  by_cases h : highByte base = highByte address
  · rw [if_pos (hpage.mp h), if_neg (by simpa using h)]
  · rw [if_neg (mt hpage.mpr h), if_pos (by simpa using h)]

section
variable {r : Registers} {m : Memory} {mode : AddressingMode} {effect : Effect}

theorem Action.penalty_of_indexes {action : Action} (hi : action.indexes = true)
    (h : action.effect r m mode = .ok effect) : effect.penalty = indexingCycles r m mode := by
  cases action with
  | read | store | jump | call =>
    obtain ⟨_,-,h⟩ := bind_eq_ok_iff.mp h
    cases h
    rfl
  | modify change =>
    obtain ⟨_,-,h⟩ := bind_eq_ok_iff.mp h
    split at h
    · rename_i hmode
      cases h
      rw [hmode]
      rfl
    · obtain ⟨_,-,h⟩ := bind_eq_ok_iff.mp h
      cases h
      rfl
  | count change =>
    obtain ⟨_,-,h⟩ := bind_eq_ok_iff.mp h
    obtain ⟨_,-,h⟩ := bind_eq_ok_iff.mp h
    cases h
    rfl
  | _ => cases hi

theorem Action.penalty_of_branch {flag : Flag} {value : Bool}
    (h : (Action.branch flag value).effect r m mode = .ok effect) :
    effect.penalty = if r.status.get flag = value then
      1 + crossingCycle (r.pc + 1) (branchTarget (r.pc + 1) (m.read r.pc)) else 0 := by
  simp only [Action.effect] at h
  split at h
  · rename_i htaken
    cases h
    rw [if_pos htaken, Effect.penalty, Nat.zero_add]
    rfl
  · rename_i hpassed
    cases h
    rw [if_neg hpassed]
    rfl

theorem Action.penalty_eq_zero {action : Action} (hi : action.indexes = false)
    (hb : ∀ flag value, action ≠ .branch flag value) (h : action.effect r m mode = .ok effect) :
    effect.penalty = 0 := by
  cases action with
  | read | store | modify | count | jump | call => cases hi
  | branch flag value => exact absurd rfl (hb flag value)
  | _ =>
    cases h
    rfl

end

theorem Operation.exists_branch_iff {operation : Operation} :
    (∃ flag value, operation.action = .branch flag value) ↔ operation.isBranch = true := by
  cases operation <;> simp [Operation.action, Operation.isBranch]

theorem Opcode.indexes_of_mem_documented :
    ∀ row ∈ documented, row.2.mode = .absoluteX ∨ row.2.mode = .absoluteY →
      row.2.operation.action.indexes = true := by
  decide +kernel

namespace Cpu
variable {c d : Cpu}

/-- The address in the two bytes behind the opcode. -/
def operandWord (c : Cpu) : ℕ :=
  (c.memory.read (c.pc + 1)).toNat + 256 * (c.memory.read (c.pc + 2)).toNat

/-- What the next instruction takes beside the cycles of its opcode. -/
structure Penalty (c : Cpu) (opcode : Opcode) (penalty : ℕ) : Prop where
  indexedX : opcode.mode = .absoluteX →
    penalty = pageCycle c.operandWord ((c.operandWord + c.x.toNat) % 65536)
  indexedY : opcode.mode = .absoluteY →
    penalty = pageCycle c.operandWord ((c.operandWord + c.y.toNat) % 65536)
  taken : opcode.operation.isBranch = true → opcode.operation.Takes c.status →
    penalty = 1 + pageCycle (c.pc + 2).toNat
      (branchTarget (c.pc + 2) (c.memory.read (c.pc + 1))).toNat
  passed : opcode.operation.isBranch = true → ¬ opcode.operation.Takes c.status → penalty = 0
  plain : opcode.mode ≠ .absoluteX → opcode.mode ≠ .absoluteY →
    opcode.operation.isBranch = false → penalty = 0

theorem pc_fetched_add_one (c : Cpu) : c.fetched.pc + 1 = c.pc + 2 := by
  rw [pc_fetched, UInt16.add_assoc]
  rfl

theorem toNat_readWord_fetched (c : Cpu) :
    (c.memory.readWord c.fetched.pc).toNat = c.operandWord := by
  rw [Memory.readWord, toNat_word, pc_fetched_add_one]
  rfl

theorem crossingCycle_indexed (c : Cpu) (index : UInt8) :
    crossingCycle (c.memory.readWord c.fetched.pc)
        (c.memory.readWord c.fetched.pc + index.toUInt16) =
      pageCycle c.operandWord ((c.operandWord + index.toNat) % 65536) := by
  rw [crossingCycle_eq, UInt16.toNat_add, UInt8.toNat_toUInt16, toNat_readWord_fetched]

theorem penalty_of_branch {operation : Operation} {mode : AddressingMode} {effect : Effect}
    (hb : operation.isBranch = true)
    (h : operation.action.effect c.fetched.toRegisters c.memory mode = .ok effect) :
    (operation.Takes c.status → effect.penalty = 1 + pageCycle (c.pc + 2).toNat
      (branchTarget (c.pc + 2) (c.memory.read (c.pc + 1))).toNat) ∧
    (¬ operation.Takes c.status → effect.penalty = 0) := by
  obtain ⟨flag,value,haction⟩ := Operation.exists_branch_iff.mpr hb
  rw [haction] at h
  have hpenalty := Action.penalty_of_branch h
  rw [c.pc_fetched_add_one, crossingCycle_eq] at hpenalty
  rw [Operation.takes_iff_get haction]
  exact ⟨fun htaken => hpenalty.trans (if_pos htaken),
    fun hpassed => hpenalty.trans (if_neg hpassed)⟩

theorem penalty_of_effect {opcode : Opcode} {effect : Effect}
    (hd : (c.memory.read c.pc, opcode) ∈ Opcode.documented)
    (h : opcode.operation.action.effect c.fetched.toRegisters c.memory opcode.mode = .ok effect) :
    c.Penalty opcode effect.penalty := by
  have hindexes := Opcode.indexes_of_mem_documented _ hd
  constructor
  · intro hmode
    rw [Action.penalty_of_indexes (hindexes (.inl hmode)) h, hmode]
    exact c.crossingCycle_indexed c.x
  · intro hmode
    rw [Action.penalty_of_indexes (hindexes (.inr hmode)) h, hmode]
    exact c.crossingCycle_indexed c.y
  · exact fun hb => (penalty_of_branch hb h).1
  · exact fun hb => (penalty_of_branch hb h).2
  · intro hx hy hb
    cases hi : opcode.operation.action.indexes with
    | true =>
      rw [Action.penalty_of_indexes hi h]
      cases hmode : opcode.mode with
      | absoluteX => exact absurd hmode hx
      | absoluteY => exact absurd hmode hy
      | _ => rfl
    | false =>
      refine Action.penalty_eq_zero hi (fun flag value haction => ?_) h
      rw [Operation.exists_branch_iff.mp ⟨flag,value,haction⟩] at hb
      cases hb

theorem cycles_of_execute {elapsed : ℕ} (h : c.execute = (d, .ok elapsed)) :
    d.cycles = c.cycles + elapsed := by
  rcases c.execute_cases with ⟨-,hexecute⟩ | ⟨opcode,effect,n,-,-,-,hexecute⟩
  · cases hexecute.symm.trans h
  · cases hexecute.symm.trans h
    rfl

/-- What an instruction has counted on its way is cleared before the next one counts. -/
theorem execute_with_counts (c : Cpu) (memoryCycles extraCycles : ℕ) :
    { c with memoryCycles, extraCycles }.execute = c.execute := by
  simp only [execute, Machine.instruction, EStateM.run_bind, run_fetchOpcode]
  rfl

theorem counts_of_fault {fault : Fault} (h : c.execute = (d, .error fault)) :
    d.memoryCycles = 0 ∧ d.extraCycles = 0 := by
  rcases c.execute_cases with ⟨-,hexecute⟩ | ⟨opcode,effect,n,-,-,-,hexecute⟩
  · cases hexecute.symm.trans h
    exact ⟨rfl,rfl⟩
  · cases hexecute.symm.trans h

theorem cycles_of_fault {fault : Fault} (h : c.execute = (d, .error fault)) :
    d.cycles = c.cycles := by
  rcases c.execute_cases with ⟨-,hexecute⟩ | ⟨opcode,effect,n,-,-,-,hexecute⟩
  · cases hexecute.symm.trans h
    rfl
  · cases hexecute.symm.trans h

theorem cycles_of_spend {budget limit spent total : ℕ}
    (h : c.spend budget limit spent = (d, .ok total)) : d.cycles + spent = c.cycles + total := by
  induction limit generalizing c spent with
  | zero =>
    cases h
    rfl
  | succ limit ih =>
    rw [spend] at h
    split at h
    · cases h
      rfl
    · split at h
      · cases h
      · rename_i next elapsed hexecute
        have hfirst := cycles_of_execute hexecute
        have hrest := ih h
        omega

/-- The calls that run no instruction and forget none. -/
def Call.isQuiet : Call → Bool
  | .execute | .runForCycles _ | .reset => false
  | _ => true

theorem cycles_perform {call : Call} (h : call.isQuiet = true) :
    (c.perform call).cycles = c.cycles := by
  cases call with
  | execute | runForCycles | reset => cases h
  | load origin image =>
    rw [perform, load]
    split <;> rfl
  | _ => rfl

/-- What has been done since a state, with the cycle counts that were returned on the way. -/
inductive History (start : Cpu) : List ℕ → Cpu → Prop
  | start : History start [] start
  | executed {counts : List ℕ} {c d : Cpu} {elapsed : ℕ} (before : History start counts c)
      (h : c.execute = (d, .ok elapsed)) : History start (counts ++ [elapsed]) d
  | failed {counts : List ℕ} {c d : Cpu} {fault : Fault} (before : History start counts c)
      (h : c.execute = (d, .error fault)) : History start counts d
  /-- A run that fails is one of single instructions, the last of which fails. -/
  | ran {counts : List ℕ} {c d : Cpu} {budget spent : ℕ} (before : History start counts c)
      (h : c.runForCycles budget = (d, .ok spent)) : History start (counts ++ [spent]) d
  | called {counts : List ℕ} {c : Cpu} {call : Call} (before : History start counts c)
      (h : call.isQuiet = true) : History start counts (c.perform call)

theorem History.cycles_eq {start : Cpu} {counts : List ℕ} (h : History start counts c) :
    c.cycles = start.cycles + counts.sum := by
  induction h with
  | start => rfl
  | executed before h ih =>
    rw [cycles_of_execute h, ih, List.sum_append, List.sum_singleton, Nat.add_assoc]
  | failed before h ih => rw [cycles_of_fault h, ih]
  | ran before h ih =>
    have htotal := cycles_of_spend h
    rw [List.sum_append, List.sum_singleton]
    omega
  | called before h ih => rw [cycles_perform h, ih]

/-- A documented opcode takes the cycles in the table and its penalty, whatever was done before,
and the total grows by that; an instruction that fails leaves the total alone. The penalty is what
the two counts of an instruction come to. They start at zero in each, also in one that fails, and
what they hold before it has no influence on it. In every history since a reset the total is the
sum of the counts returned. -/
theorem cycle_counts_exact (hc : c.cycles < 2 ^ 64 - 8) :
    (∀ opcode, (c.memory.read c.pc, opcode) ∈ Opcode.documented →
      ∃ penalty, c.Penalty opcode penalty ∧ c.execute.2 = .ok (opcode.cycles + penalty) ∧
        c.execute.1.memoryCycles + c.execute.1.extraCycles = penalty ∧
        c.execute.1.cycles = c.cycles + (opcode.cycles + penalty) ∧
        c.execute.1.cycles < 2 ^ 64) ∧
    (∀ fault, c.execute.2 = .error fault → c.execute.1.cycles = c.cycles ∧
      c.execute.1.memoryCycles = 0 ∧ c.execute.1.extraCycles = 0) ∧
    (∀ memoryCycles extraCycles : ℕ, { c with memoryCycles, extraCycles }.execute = c.execute) ∧
    ∀ (start : Cpu) (counts : List ℕ), History start.reset counts c → c.cycles = counts.sum := by
  refine ⟨fun opcode hopcode => ?_,fun fault hfault => ?_,c.execute_with_counts,
    fun start counts hhistory => ?_⟩
  · have hdecode : decode c.opcodeByte = some opcode := Opcode.lookup_of_mem_documented _ hopcode
    obtain ⟨effect,elapsed,heffect,rfl,hle,hexecute⟩ := exists_execute_of_decode hdecode
    have htotal := cycles_of_execute hexecute
    have hbound : c.cycles + (opcode.cycles + effect.penalty) < 2 ^ 64 := by omega
    have hcounts : 0 + effect.memoryCycles + (0 + effect.extraCycles) = effect.penalty := by
      rw [Nat.zero_add, Nat.zero_add, Effect.penalty]
    rw [hexecute]
    exact ⟨effect.penalty,penalty_of_effect hopcode heffect,rfl,hcounts,htotal,htotal ▸ hbound⟩
  · have hfailed : c.execute = (c.execute.1,.error fault) := Prod.ext rfl hfault
    exact ⟨cycles_of_fault hfailed,counts_of_fault hfailed⟩
  · exact hhistory.cycles_eq.trans (Nat.zero_add _)

/-- An instruction that succeeds, one that fails, and one at the end of memory whose index leads
from the last page to the first. -/
theorem cycle_counts_exact_wrapped : ∃ start c : Cpu, History start.reset [2] c ∧
    c.pc = 0xFFFE ∧ c.cycles = 2 ∧ c.execute.2 = .ok 5 ∧ c.execute.1.cycles = 7 := by
  let m := ((((Memory.zero.write 0xFFFC 0xEA).write 0xFFFD 0x02).write 0xFFFE 0xBD).write
    0xFFFF 0xFF).write 0x0000 0xFF
  have hread : m.read 0xFFFC = 0xEA ∧ m.read 0xFFFD = 0x02 ∧ m.read 0xFFFE = 0xBD ∧
      m.read 0xFFFF = 0xFF ∧ m.read 0x0000 = 0xFF := by
    simp [m, Memory.read_write]
  obtain ⟨hnop,hfail,hload,hlow,hhigh⟩ := hread
  let start := new Memory.zero
  let first := ((start.reset.perform (.replaceMemory m)).perform (.setPc 0xFFFC)).perform (.setX 1)
  have hfirst : History start.reset [] first := by
    refine .called ?_ rfl
    refine .called ?_ rfl
    exact .called .start rfl
  have hdecode : decode first.opcodeByte = some ⟨.nop,.implicit,2⟩ := by
    rw [show first.opcodeByte = 0xEA from hnop]
    rfl
  have hsecond : first.execute = (first.fetched.apply ⟨first.fetched.toRegisters,[],0,0⟩ 2,.ok 2) :=
    execute_of_effect hdecode rfl
  let second := first.fetched.apply ⟨first.fetched.toRegisters,[],0,0⟩ 2
  have hthird : second.execute = (second.fetched,.error (.invalidOpcode second.opcodeByte)) :=
    execute_of_undocumented (by rw [show second.opcodeByte = 0x02 from hfail]; rfl)
  let c := second.fetched
  have hhistory : History start.reset [2] c := .failed (.executed hfirst hsecond) hthird
  have hopcode : (c.memory.read c.pc, ⟨.lda,.absoluteX,4⟩) ∈ Opcode.documented := by
    rw [show c.memory.read c.pc = 0xBD from hload]
    exact mem_documented_of_decode rfl
  have hword : c.operandWord = 0xFFFF := by
    have hpc : c.pc = 0xFFFE := rfl
    have hlow' : c.memory.read (0xFFFE + 1) = 0xFF := hlow
    have hhigh' : c.memory.read (0xFFFE + 2) = 0xFF := hhigh
    rw [operandWord, hpc, hlow', hhigh']
    decide
  obtain ⟨hexact,-,-,htotal⟩ := cycle_counts_exact (c := c) (by decide)
  have hcycles : c.cycles = 2 := htotal start [2] hhistory
  obtain ⟨penalty,hpenalty,hresult,-,hgrown,-⟩ := hexact _ hopcode
  have hone : penalty = 1 := by
    have hx : c.x = 1 := rfl
    rw [hpenalty.indexedX rfl, hword, hx]
    decide
  subst hone
  rw [hcycles] at hgrown
  exact ⟨start,c,hhistory,rfl,hcycles,hresult,hgrown⟩

end Cpu
end Nmos6502
