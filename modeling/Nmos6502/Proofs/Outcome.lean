import Mathlib.Data.List.Basic

/-! # Computations that may fail

A computation in steps succeeds exactly if every step does, and otherwise fails as the
first of its steps that does not. For a run over the first numbers, what one successful
step preserves holds of the whole run.
-/
namespace Nmos6502
variable {ε ε' α β σ : Type}

theorem bind_eq_ok_iff {x : Except ε α} {f : α → Except ε β} {b : β} :
    x >>= f = .ok b ↔ ∃ a, x = .ok a ∧ f a = .ok b := by
  cases x with
  | error e => simp [bind, Except.bind]
  | ok a => simp [bind, Except.bind]

theorem map_eq_ok_iff {x : Except ε α} {f : α → β} {b : β} :
    x.map f = .ok b ↔ ∃ a, x = .ok a ∧ f a = b := by
  cases x <;> simp [Except.map]

theorem mapError_eq_ok_iff {x : Except ε α} {f : ε → ε'} {a : α} :
    x.mapError f = .ok a ↔ x = .ok a := by
  cases x <;> simp [Except.mapError]

theorem bind_eq_error_iff {x : Except ε α} {f : α → Except ε β} {e : ε} :
    x >>= f = .error e ↔ x = .error e ∨ ∃ a, x = .ok a ∧ f a = .error e := by
  cases x with
  | error e' => simp [bind, Except.bind]
  | ok a => simp [bind, Except.bind]

theorem map_eq_error_iff {x : Except ε α} {f : α → β} {e : ε} :
    x.map f = .error e ↔ x = .error e := by
  cases x <;> simp [Except.map]

theorem mapError_eq_error_iff {x : Except ε α} {f : ε → ε'} {e : ε'} :
    x.mapError f = .error e ↔ ∃ cause, x = .error cause ∧ f cause = e := by
  cases x <;> simp [Except.mapError]

theorem foldlM_error {f : σ → α → Except ε σ} {P : ε → Prop}
    (hf : ∀ s a e, f s a = .error e → P e) {as : List α} {s : σ} {e : ε}
    (h : as.foldlM f s = .error e) : P e := by
  induction as generalizing s with
  | nil => cases h
  | cons a as ih =>
    rw [List.foldlM_cons] at h
    rcases bind_eq_error_iff.mp h with h | ⟨t,-,h⟩
    · exact hf s a e h
    · exact ih h

theorem foldlM_range_succ {f : σ → ℕ → Except ε σ} (n : ℕ) (s : σ) :
    (List.range (n + 1)).foldlM f s = (List.range n).foldlM f s >>= (f · n) := by
  rw [List.range_succ, List.foldlM_append]
  simp

/-- A property that every successful step carries on holds at the end of a successful run. -/
theorem foldlM_range_induction {f : σ → ℕ → Except ε σ} {P : ℕ → σ → Prop} {n : ℕ} {s t : σ}
    (hs : P 0 s) (hf : ∀ i < n, ∀ a b, P i a → f a i = .ok b → P (i + 1) b)
    (h : (List.range n).foldlM f s = .ok t) : P n t := by
  induction n generalizing t with
  | zero =>
    cases h
    exact hs
  | succ n ih =>
    rw [foldlM_range_succ] at h
    obtain ⟨a, ha, hb⟩ := bind_eq_ok_iff.mp h
    exact hf n (Nat.lt_succ_self n) a t (ih (fun i hi => hf i (by omega)) ha) hb

theorem foldlM_range_ok {f : σ → ℕ → Except ε σ} {P : ℕ → σ → Prop} {n : ℕ} {s : σ}
    (hs : P 0 s) (hf : ∀ i < n, ∀ a, P i a → ∃ b, f a i = .ok b ∧ P (i + 1) b) :
    ∃ t, (List.range n).foldlM f s = .ok t ∧ P n t := by
  induction n with
  | zero => exact ⟨s, rfl, hs⟩
  | succ n ih =>
    obtain ⟨a, ha, hp⟩ := ih fun i hi => hf i (by omega)
    obtain ⟨b, hb, hp'⟩ := hf n (Nat.lt_succ_self n) a hp
    exact ⟨b, by rw [foldlM_range_succ, ha]; exact hb, hp'⟩

theorem foldlM_range_error {f : σ → ℕ → Except ε σ} {n i : ℕ} (hi : i < n) {s t : σ} {e : ε}
    (hrun : (List.range i).foldlM f s = .ok t) (he : f t i = .error e) :
    (List.range n).foldlM f s = .error e := by
  induction n with
  | zero => exact absurd hi (Nat.not_lt_zero i)
  | succ n ih =>
    rw [foldlM_range_succ]
    rcases Nat.lt_succ_iff_lt_or_eq.mp hi with hi | rfl
    · rw [ih hi]
      rfl
    · rw [hrun]
      exact he

end Nmos6502
