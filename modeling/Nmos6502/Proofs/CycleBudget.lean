import Mathlib.Algebra.BigOperators.Group.Finset.Basic
import Mathlib.Order.Bounds.Basic
import Nmos6502.Proofs.CycleCount

/-! # Runs for a number of cycles

A run for cycles carries out the fewest instructions that use up its budget, unless one of them
fails before. Every instruction takes two cycles at least and eight at most: half the budget
bounds the instructions of a run, and seven cycles what it takes too much. A run can be cut
where another one ends, since what the first one takes and what is left make up the whole.
-/
namespace Nmos6502.Cpu
open Finset

variable {c : Cpu} {budget m n : ℕ}

/-- The cycles that the next instruction takes, none if it fails. -/
def elapsed (c : Cpu) : ℕ :=
  match c.execute.2 with
  | .ok cycles => cycles
  | .error _ => 0

/-- The cycles of the next `n` instructions together. -/
def elapsedIn (c : Cpu) (n : ℕ) : ℕ := ∑ k ∈ range n, (next^[k] c).elapsed

/-- The next `n` instructions do not fail. -/
def Succeeds (c : Cpu) (n : ℕ) : Prop := ∀ k < n, ∃ cycles, (next^[k] c).execute.2 = .ok cycles

/-- The next `n` instructions do not fail and are the fewest that use up the budget. -/
structure Spends (c : Cpu) (budget n : ℕ) : Prop where
  succeeds : c.Succeeds n
  least : IsLeast {m | budget ≤ c.elapsedIn m} n

/-- An instruction fails behind `n` others that do not, while some of the budget is left. -/
structure Breaks (c : Cpu) (budget n : ℕ) (fault : Fault) : Prop where
  succeeds : c.Succeeds n
  short : c.elapsedIn n < budget
  fails : (next^[n] c).execute.2 = .error fault

theorem elapsed_of_ok {cycles : ℕ} (h : c.execute.2 = .ok cycles) : c.elapsed = cycles := by
  simp only [elapsed, h]

theorem elapsed_of_error {fault : Fault} (h : c.execute.2 = .error fault) : c.elapsed = 0 := by
  simp only [elapsed, h]

theorem cycles_next (c : Cpu) : c.next.cycles = c.cycles + c.elapsed := by
  cases h : c.execute.2 with
  | ok cycles =>
    rw [elapsed_of_ok h]
    exact cycles_of_execute (Prod.ext rfl h)
  | error fault =>
    rw [elapsed_of_error h]
    exact cycles_of_fault (Prod.ext rfl h)

theorem elapsed_le (c : Cpu) : c.elapsed ≤ 8 := by
  rcases c.execute_cases with ⟨-,hexecute⟩ | ⟨opcode,effect,cycles,-,-,hle,hexecute⟩
  · simp only [elapsed, hexecute]
    omega
  · rwa [elapsed_of_ok (by rw [hexecute])]

theorem two_le_elapsed {cycles : ℕ} (h : c.execute.2 = .ok cycles) : 2 ≤ c.elapsed := by
  rcases c.execute_cases with ⟨-,hexecute⟩ | ⟨opcode,-,-,hdecode,-,-,-⟩
  · rw [hexecute] at h
    cases h
  · obtain ⟨effect,cycles',-,hcycles,-,hexecute⟩ := exists_execute_of_decode hdecode
    have hbase := two_le_cycles_of_decode hdecode
    rw [elapsed_of_ok (by rw [hexecute])]
    omega

@[simp] theorem elapsedIn_zero (c : Cpu) : c.elapsedIn 0 = 0 := rfl

theorem elapsedIn_add (c : Cpu) (m n : ℕ) :
    c.elapsedIn (m + n) = c.elapsedIn m + (next^[m] c).elapsedIn n := by
  rw [elapsedIn, sum_range_add]
  refine congrArg _ (sum_congr rfl fun k _ => ?_)
  rw [Nat.add_comm m, Function.iterate_add_apply]

theorem elapsedIn_one (c : Cpu) : c.elapsedIn 1 = c.elapsed := by
  rw [elapsedIn, sum_range_one, Function.iterate_zero_apply]

theorem elapsedIn_succ' (c : Cpu) (n : ℕ) :
    c.elapsedIn (n + 1) = c.elapsed + c.next.elapsedIn n := by
  rw [Nat.add_comm n, elapsedIn_add, elapsedIn_one, Function.iterate_one]

theorem elapsedIn_succ (c : Cpu) (n : ℕ) :
    c.elapsedIn (n + 1) = c.elapsedIn n + (next^[n] c).elapsed := by
  rw [elapsedIn_add, elapsedIn_one]

theorem elapsedIn_mono (c : Cpu) (h : m ≤ n) : c.elapsedIn m ≤ c.elapsedIn n := by
  obtain ⟨k,rfl⟩ := Nat.exists_eq_add_of_le h
  rw [elapsedIn_add]
  exact Nat.le_add_right ..

theorem cycles_iterate (c : Cpu) (n : ℕ) : (next^[n] c).cycles = c.cycles + c.elapsedIn n := by
  induction n with
  | zero => rfl
  | succ n ih => rw [Function.iterate_succ_apply', cycles_next, ih, elapsedIn_succ, Nat.add_assoc]

theorem succeeds_zero (c : Cpu) : c.Succeeds 0 := fun k hk => absurd hk (Nat.not_lt_zero k)

theorem Succeeds.mono (h : c.Succeeds n) (hle : m ≤ n) : c.Succeeds m :=
  fun k hk => h k (hk.trans_le hle)

theorem Succeeds.add (h : c.Succeeds m) (h' : (next^[m] c).Succeeds n) : c.Succeeds (m + n) := by
  intro k hk
  rcases Nat.lt_or_ge k m with hlt | hge
  · exact h k hlt
  · obtain ⟨j,rfl⟩ := Nat.exists_eq_add_of_le hge
    rw [Nat.add_comm m, Function.iterate_add_apply]
    exact h' j (by omega)

theorem Succeeds.tail (h : c.Succeeds (m + n)) : (next^[m] c).Succeeds n := by
  intro k hk
  rw [← Function.iterate_add_apply, Nat.add_comm]
  exact h (m + k) (by omega)

theorem Succeeds.two_mul_le (h : c.Succeeds n) : 2 * n ≤ c.elapsedIn n := by
  induction n with
  | zero => exact Nat.zero_le _
  | succ n ih =>
    obtain ⟨cycles,hcycles⟩ := h n (Nat.lt_succ_self n)
    have hlast := two_le_elapsed hcycles
    have hfirst := ih (h.mono (Nat.le_succ n))
    rw [elapsedIn_succ]
    omega

theorem Succeeds.elapsedIn_lt (h : c.Succeeds n) (hlt : m < n) : c.elapsedIn m < c.elapsedIn n := by
  obtain ⟨k,rfl⟩ := Nat.exists_eq_add_of_le hlt.le
  have hrest := h.tail.two_mul_le
  rw [elapsedIn_add]
  omega

theorem spends_zero (c : Cpu) : c.Spends 0 0 :=
  ⟨c.succeeds_zero,Nat.zero_le _,fun _ _ => Nat.zero_le _⟩

section
variable {cycles : ℕ} (hok : c.execute.2 = .ok cycles)
include hok

theorem succeeds_succ (h : c.next.Succeeds n) : c.Succeeds (n + 1) := by
  have hone : c.Succeeds 1 := by
    intro k hk
    obtain rfl := Nat.lt_one_iff.mp hk
    exact ⟨cycles,hok⟩
  rw [Nat.add_comm]
  exact hone.add h

theorem elapsedIn_of_ok (n : ℕ) : c.elapsedIn (n + 1) = cycles + c.next.elapsedIn n := by
  rw [elapsedIn_succ', elapsed_of_ok hok]

theorem Spends.cons (hpos : 0 < budget) (h : c.next.Spends (budget - cycles) n) :
    c.Spends budget (n + 1) := by
  refine ⟨succeeds_succ hok h.succeeds,?_,fun k hk => ?_⟩
  · have hrest : budget - cycles ≤ c.next.elapsedIn n := h.least.1
    have hsum := elapsedIn_of_ok hok n
    change budget ≤ c.elapsedIn (n + 1)
    omega
  · have hspent : budget ≤ c.elapsedIn k := hk
    cases k with
    | zero => exact absurd hspent (Nat.not_le_of_lt hpos)
    | succ k =>
      rw [elapsedIn_of_ok hok] at hspent
      exact Nat.succ_le_succ (h.least.2 (Nat.sub_le_of_le_add (Nat.add_comm cycles _ ▸ hspent)))

theorem Breaks.cons {fault : Fault} (h : c.next.Breaks (budget - cycles) n fault) :
    c.Breaks budget (n + 1) fault := by
  refine ⟨succeeds_succ hok h.succeeds,?_,?_⟩
  · have hshort := h.short
    rw [elapsedIn_of_ok hok]
    omega
  · rw [Function.iterate_succ_apply]
    exact h.fails

end

theorem Spends.add (h : c.Spends budget m) {more : ℕ} (h' : (next^[m] c).Spends more n) :
    c.Spends (c.elapsedIn m + more) (m + n) := by
  refine ⟨h.succeeds.add h'.succeeds,?_,fun k hk => ?_⟩
  · change c.elapsedIn m + more ≤ c.elapsedIn (m + n)
    rw [elapsedIn_add]
    exact Nat.add_le_add_left h'.least.1 _
  · have hspent : c.elapsedIn m + more ≤ c.elapsedIn k := hk
    rcases Nat.lt_or_ge k m with hlt | hge
    · have hless := h.succeeds.elapsedIn_lt hlt
      omega
    · obtain ⟨j,rfl⟩ := Nat.exists_eq_add_of_le hge
      rw [elapsedIn_add] at hspent
      exact Nat.add_le_add_left (h'.least.2 (Nat.le_of_add_le_add_left hspent)) m

theorem Breaks.add {fault : Fault} (h : c.Succeeds m) {more : ℕ}
    (h' : (next^[m] c).Breaks more n fault) : c.Breaks (c.elapsedIn m + more) (m + n) fault := by
  refine ⟨h.add h'.succeeds,?_,?_⟩
  · rw [elapsedIn_add]
    exact Nat.add_lt_add_left h'.short _
  · rw [Nat.add_comm m, Function.iterate_add_apply]
    exact h'.fails

theorem Spends.short (h : c.Spends budget (n + 1)) : c.elapsedIn n < budget :=
  Nat.lt_of_not_le fun hle => absurd (h.least.2 hle) (Nat.not_succ_le_self n)

theorem Spends.le (h : c.Spends budget n) : n ≤ (budget + 1) / 2 := by
  cases n with
  | zero => exact Nat.zero_le _
  | succ n =>
    have hshort := h.short
    have htwo := (h.succeeds.mono (Nat.le_succ n)).two_mul_le
    omega

theorem Breaks.lt {fault : Fault} (h : c.Breaks budget n fault) : n < (budget + 1) / 2 := by
  have htwo := h.succeeds.two_mul_le
  have hshort := h.short
  omega

theorem Spends.elapsedIn_bounds (h : c.Spends budget n) :
    (budget = 0 → c.elapsedIn n = 0) ∧
      (0 < budget → budget ≤ c.elapsedIn n ∧ c.elapsedIn n ≤ budget + 7) := by
  cases n with
  | zero =>
    have hspent : budget ≤ 0 := h.least.1
    exact ⟨fun _ => rfl,fun hpos => absurd hspent (Nat.not_le_of_lt hpos)⟩
  | succ n =>
    have hshort := h.short
    have hlast := (next^[n] c).elapsed_le
    have hspent : budget ≤ c.elapsedIn (n + 1) := h.least.1
    have hsum := c.elapsedIn_succ n
    omega

theorem Breaks.not_spends {fault : Fault} (h : c.Breaks budget m fault) : ¬ c.Spends budget n := by
  intro h'
  rcases Nat.lt_or_ge m n with hlt | hge
  · obtain ⟨cycles,hcycles⟩ := h'.succeeds m hlt
    cases h.fails.symm.trans hcycles
  · have hspent : budget ≤ c.elapsedIn n := h'.least.1
    exact absurd (hspent.trans (c.elapsedIn_mono hge)) (Nat.not_le_of_lt h.short)

theorem Breaks.unique {fault fault' : Fault} (h : c.Breaks budget m fault)
    (h' : c.Breaks budget n fault') : m = n ∧ fault = fault' := by
  have hle : ∀ {k j f f'}, c.Breaks budget k f → c.Breaks budget j f' → j ≤ k := by
    intro k j f f' hk hj
    by_contra hlt
    obtain ⟨cycles,hcycles⟩ := hj.succeeds k (Nat.lt_of_not_le hlt)
    cases hk.fails.symm.trans hcycles
  obtain rfl := Nat.le_antisymm (hle h' h) (hle h h')
  cases h.fails.symm.trans h'.fails
  exact ⟨rfl,rfl⟩

theorem spend_cases {limit spent : ℕ} (h : budget ≤ spent + 2 * limit) :
    (∃ n, c.Spends (budget - spent) n ∧
      c.spend budget limit spent = (next^[n] c, .ok (spent + c.elapsedIn n))) ∨
    ∃ n fault, c.Breaks (budget - spent) n fault ∧
      c.spend budget limit spent = (next^[n + 1] c, .error fault) := by
  induction limit generalizing c spent with
  | zero =>
    have hspent : budget ≤ spent := h
    rw [Nat.sub_eq_zero_of_le hspent]
    exact .inl ⟨0,c.spends_zero,rfl⟩
  | succ limit ih =>
    rw [spend]
    by_cases hspent : budget ≤ spent
    · rw [if_pos hspent, Nat.sub_eq_zero_of_le hspent]
      exact .inl ⟨0,c.spends_zero,rfl⟩
    · have hpos : 0 < budget - spent := Nat.sub_pos_of_lt (Nat.lt_of_not_le hspent)
      rw [if_neg hspent]
      cases hresult : c.execute.2 with
      | error fault =>
        have hexecute : c.execute = (c.next, .error fault) := Prod.ext rfl hresult
        rw [hexecute]
        exact .inr ⟨0,fault,⟨c.succeeds_zero,hpos,hresult⟩,rfl⟩
      | ok cycles =>
        have hexecute : c.execute = (c.next, .ok cycles) := Prod.ext rfl hresult
        have htwo := two_le_elapsed hresult
        rw [elapsed_of_ok hresult] at htwo
        rw [hexecute]
        rcases ih (c := c.next) (show budget ≤ spent + cycles + 2 * limit by omega) with
          ⟨n,hn,hrun⟩ | ⟨n,fault,hn,hrun⟩
        · rw [← Nat.sub_sub] at hn
          refine .inl ⟨n + 1,hn.cons hresult hpos,hrun.trans ?_⟩
          rw [Function.iterate_succ_apply, elapsedIn_of_ok hresult, Nat.add_assoc]
        · rw [← Nat.sub_sub] at hn
          exact .inr ⟨n + 1,fault,hn.cons hresult,hrun⟩

section
variable {limit : ℕ} (hlimit : (budget + 1) / 2 ≤ limit)
include hlimit

theorem Spends.spend_eq (h : c.Spends budget n) :
    c.spend budget limit 0 = (next^[n] c, .ok (c.elapsedIn n)) := by
  rcases spend_cases (c := c) (show budget ≤ 0 + 2 * limit by omega) with
    ⟨k,hk,hrun⟩ | ⟨k,fault,hk,-⟩
  · rw [hrun, hk.least.unique h.least, Nat.zero_add]
  · exact absurd h hk.not_spends

theorem Breaks.spend_eq {fault : Fault} (h : c.Breaks budget n fault) :
    c.spend budget limit 0 = (next^[n + 1] c, .error fault) := by
  rcases spend_cases (c := c) (show budget ≤ 0 + 2 * limit by omega) with
    ⟨k,hk,-⟩ | ⟨k,fault',hk,hrun⟩
  · exact absurd hk h.not_spends
  · obtain ⟨rfl,rfl⟩ := h.unique hk
    exact hrun

end

theorem spends_or_breaks (c : Cpu) (budget : ℕ) :
    (∃ n, c.Spends budget n) ∨ ∃ n fault, c.Breaks budget n fault := by
  rcases spend_cases (c := c) (show budget ≤ 0 + 2 * budget by omega) with
    ⟨n,hn,-⟩ | ⟨n,fault,hn,-⟩
  · exact .inl ⟨n,hn⟩
  · exact .inr ⟨n,fault,hn⟩

theorem runForCycles_eq_ok_iff {after : Cpu} {spent : ℕ} :
    c.runForCycles budget = (after, .ok spent) ↔
      ∃ n, c.Spends budget n ∧ after = next^[n] c ∧ spent = c.elapsedIn n := by
  constructor
  · intro h
    rcases c.spends_or_breaks budget with ⟨n,hn⟩ | ⟨n,fault,hn⟩
    · cases (hn.spend_eq le_rfl).symm.trans h
      exact ⟨n,hn,rfl,rfl⟩
    · cases (hn.spend_eq le_rfl).symm.trans h
  · rintro ⟨n,hn,rfl,rfl⟩
    exact hn.spend_eq le_rfl

theorem runForCycles_eq_error_iff {after : Cpu} {fault : Fault} :
    c.runForCycles budget = (after, .error fault) ↔
      ∃ n, c.Breaks budget n fault ∧ after = next^[n + 1] c := by
  constructor
  · intro h
    rcases c.spends_or_breaks budget with ⟨n,hn⟩ | ⟨n,fault,hn⟩
    · cases (hn.spend_eq le_rfl).symm.trans h
    · cases (hn.spend_eq le_rfl).symm.trans h
      exact ⟨n,hn,rfl⟩
  · rintro ⟨n,hn,rfl⟩
    exact hn.spend_eq le_rfl

/-- More instructions than half the budget are never needed. -/
theorem spend_eq_runForCycles {limit : ℕ} (hlimit : (budget + 1) / 2 ≤ limit) :
    c.spend budget limit 0 = c.runForCycles budget := by
  rcases c.spends_or_breaks budget with ⟨n,hn⟩ | ⟨n,fault,hn⟩
  · exact (hn.spend_eq hlimit).trans (hn.spend_eq le_rfl).symm
  · exact (hn.spend_eq hlimit).trans (hn.spend_eq le_rfl).symm

theorem runForCycles_add {after : Cpu} {spent : ℕ} (h : c.runForCycles budget = (after, .ok spent))
    (more : ℕ) : c.runForCycles (spent + more) =
      ((after.runForCycles more).1, (after.runForCycles more).2.map (spent + ·)) := by
  obtain ⟨m,hm,rfl,rfl⟩ := runForCycles_eq_ok_iff.mp h
  rcases (next^[m] c).spends_or_breaks more with ⟨n,hn⟩ | ⟨n,fault,hn⟩
  · have hrest : (next^[m] c).runForCycles more = _ := hn.spend_eq le_rfl
    have hwhole : c.runForCycles (c.elapsedIn m + more) = _ := (hm.add hn).spend_eq le_rfl
    rw [hrest, hwhole, elapsedIn_add, Nat.add_comm m, Function.iterate_add_apply]
    rfl
  · have hrest : (next^[m] c).runForCycles more = _ := hn.spend_eq le_rfl
    have hwhole : c.runForCycles (c.elapsedIn m + more) = _ :=
      (Breaks.add hm.succeeds hn).spend_eq le_rfl
    rw [hrest, hwhole, Nat.add_assoc, Nat.add_comm m, Function.iterate_add_apply]
    rfl

/-- What a run for a number of cycles does. No more instructions are run than half the budget, and
allowing more of them changes nothing. The run succeeds exactly if the fewest instructions that
use up the budget do, and is these instructions; otherwise it ends with the first that fails, as
that one leaves the processor. It takes seven cycles too many at most, and where it ends another
run goes on as a single one would have done. -/
theorem runForCycles_exact (h : c.cycles + budget + 8 < 2 ^ 64) :
    (∀ limit, (budget + 1) / 2 ≤ limit → c.spend budget limit 0 = c.runForCycles budget) ∧
    (∀ after spent, c.runForCycles budget = (after, .ok spent) ↔
      ∃ n ≤ (budget + 1) / 2, c.Succeeds n ∧ IsLeast {m | budget ≤ c.elapsedIn m} n ∧
        after = next^[n] c ∧ spent = c.elapsedIn n) ∧
    (∀ after fault, c.runForCycles budget = (after, .error fault) ↔
      ∃ n < (budget + 1) / 2, c.Succeeds n ∧ c.elapsedIn n < budget ∧
        (next^[n] c).execute = (after, .error fault)) ∧
    (c.runForCycles budget).1.cycles < 2 ^ 64 ∧
    ∀ after spent, c.runForCycles budget = (after, .ok spent) →
      (budget = 0 → spent = 0) ∧ (0 < budget → budget ≤ spent ∧ spent ≤ budget + 7) ∧
      after.cycles = c.cycles + spent ∧
      ∀ more, c.runForCycles (spent + more) =
        ((after.runForCycles more).1, (after.runForCycles more).2.map (spent + ·)) := by
  refine ⟨fun limit => spend_eq_runForCycles,fun after spent => ?_,fun after fault => ?_,?_,
    fun after spent hrun => ?_⟩
  · rw [runForCycles_eq_ok_iff]
    constructor
    · rintro ⟨n,hn,hafter,hspent⟩
      exact ⟨n,hn.le,hn.succeeds,hn.least,hafter,hspent⟩
    · rintro ⟨n,-,hsucceeds,hleast,hafter,hspent⟩
      exact ⟨n,⟨hsucceeds,hleast⟩,hafter,hspent⟩
  · rw [runForCycles_eq_error_iff]
    constructor
    · rintro ⟨n,hn,rfl⟩
      rw [Function.iterate_succ_apply']
      exact ⟨n,hn.lt,hn.succeeds,hn.short,Prod.ext rfl hn.fails⟩
    · rintro ⟨n,-,hsucceeds,hshort,hexecute⟩
      refine ⟨n,⟨hsucceeds,hshort,by rw [hexecute]⟩,?_⟩
      rw [Function.iterate_succ_apply', next, hexecute]
  · rcases c.spends_or_breaks budget with ⟨n,hn⟩ | ⟨n,fault,hn⟩
    · have hrun : c.runForCycles budget = _ := hn.spend_eq le_rfl
      have hbounds := hn.elapsedIn_bounds
      rw [hrun, cycles_iterate]
      omega
    · have hrun : c.runForCycles budget = _ := hn.spend_eq le_rfl
      have hshort := hn.short
      rw [hrun, cycles_iterate, elapsedIn_succ, elapsed_of_error hn.fails]
      omega
  · obtain ⟨n,hn,rfl,rfl⟩ := runForCycles_eq_ok_iff.mp hrun
    exact ⟨hn.elapsedIn_bounds.1,hn.elapsedIn_bounds.2,c.cycles_iterate n,runForCycles_add hrun⟩

theorem exists_two_then_undocumented : ∃ c after : Cpu, c.cycles = 2 ^ 64 - 14 ∧
    c.Succeeds 2 ∧ c.elapsedIn 1 = 2 ∧ c.elapsedIn 2 = 4 ∧ after = next^[2] c ∧
    after.pc = 0x602 ∧ after.execute = (after.fetched, .error (.invalidOpcode 0x02)) := by
  obtain ⟨m,hfirst,hsecond,hbad⟩ : ∃ m : Memory,
      m.read 0x600 = 0xEA ∧ m.read 0x601 = 0xEA ∧ m.read 0x602 = 0x02 :=
    ⟨((Memory.zero.write 0x600 0xEA).write 0x601 0xEA).write 0x602 0x02,by
      simp [Memory.read_write]⟩
  have hnop : ∀ s : Cpu, s.opcodeByte = 0xEA →
      s.execute = (s.fetched.apply ⟨s.fetched.toRegisters,[],0,0⟩ 2, .ok 2) := by
    intro s hs
    have hdecode : decode s.opcodeByte = some ⟨.nop,.implicit,2⟩ := by
      rw [hs]
      rfl
    exact execute_of_effect hdecode rfl
  let c : Cpu := ⟨⟨0,0,0,0x600,stackTop,.powerUp⟩,m,2 ^ 64 - 14,0,0⟩
  let second := c.fetched.apply ⟨c.fetched.toRegisters,[],0,0⟩ 2
  let after := second.fetched.apply ⟨second.fetched.toRegisters,[],0,0⟩ 2
  have hone : c.execute = (second, .ok 2) := hnop c hfirst
  have htwo : second.execute = (after, .ok 2) := hnop second hsecond
  have hbyte : after.opcodeByte = 0x02 := hbad
  have hthree : after.execute = (after.fetched, .error (.invalidOpcode 0x02)) :=
    hbyte ▸ execute_of_undocumented (by rw [hbyte]; rfl)
  have hnext : c.next = second ∧ second.next = after := by
    rw [next, next, hone, htwo]
    exact ⟨rfl,rfl⟩
  have hshort := elapsedIn_of_ok (c := c) (by rw [hone]) 0
  have hboth := elapsedIn_of_ok (c := c) (by rw [hone]) 1
  have hlast := elapsedIn_of_ok (c := second) (by rw [htwo]) 0
  rw [hnext.1] at hshort hboth
  have hsucceeds : c.Succeeds 2 := by
    refine succeeds_succ (by rw [hone]) ?_
    rw [hnext.1]
    exact succeeds_succ (by rw [htwo]) (succeeds_zero _)
  have hafter : after = next^[2] c := by
    rw [Function.iterate_succ_apply, Function.iterate_one, hnext.1, hnext.2]
  exact ⟨c,after,rfl,hsucceeds,hshort,hboth.trans (by rw [hlast, elapsedIn_zero]),hafter,rfl,hthree⟩

/-- Two instructions use up a budget of three cycles with four. The byte behind them is no
instruction: a run for one cycle fails there, and so does a single run for five. -/
theorem runForCycles_exact_then_fails : ∃ c after stopped : Cpu, c.cycles = 2 ^ 64 - 14 ∧
    c.runForCycles 3 = (after, .ok 4) ∧ after.pc = 0x602 ∧
    after.runForCycles 1 = (stopped, .error (.invalidOpcode 0x02)) ∧ stopped.pc = 0x603 ∧
    c.runForCycles 5 = (stopped, .error (.invalidOpcode 0x02)) := by
  obtain ⟨c,after,hcycles,hsucceeds,hone,htwo,hafter,hpc,hfails⟩ := exists_two_then_undocumented
  have hleast : IsLeast {k | 3 ≤ c.elapsedIn k} 2 := by
    refine ⟨show 3 ≤ c.elapsedIn 2 by omega,fun k hk => ?_⟩
    have hspent : 3 ≤ c.elapsedIn k := hk
    by_contra hlt
    have := c.elapsedIn_mono (show k ≤ 1 by omega)
    omega
  obtain ⟨-,hok,-,-,hmore⟩ := runForCycles_exact (c := c) (show c.cycles + 3 + 8 < 2 ^ 64 by omega)
  have hrun := (hok after 4).mpr ⟨2,by decide,hsucceeds,hleast,hafter,htwo.symm⟩
  obtain ⟨-,-,htotal,hon⟩ := hmore _ _ hrun
  have hshort : after.cycles + 1 + 8 < 2 ^ 64 := by omega
  have hend := ((runForCycles_exact hshort).2.2.1 after.fetched _).mpr
    ⟨0,by decide,after.succeeds_zero,Nat.one_pos,hfails⟩
  refine ⟨c,after,after.fetched,hcycles,hrun,hpc,hend,?_,?_⟩
  · rw [pc_fetched, hpc]
    decide
  · rw [show 5 = 4 + 1 from rfl, hon, hend]
    rfl

end Nmos6502.Cpu
