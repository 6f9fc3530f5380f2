import Mathlib.Tactic

set_option autoImplicit false

/-! # Loops that cut pieces off their input

A scanner takes a piece off its input as long as there is one. If every piece makes the input smaller,
the number of rounds that the loop is given does not matter once it is the size of the input. -/

namespace Scan

variable {σ α : Type*} (cut : σ → Option (α × σ))

/-- The pieces of the input, at most `k`. -/
def pieces : Nat → σ → List α
  | 0, _ => []
  | k + 1, s =>
    match cut s with
    | none => []
    | some (a, rest) => a :: pieces k rest

/-- All pieces of the input, for a scanner that makes `size` smaller. -/
def all (size : σ → Nat) (s : σ) : List α := pieces cut (size s) s

variable {cut} {size : σ → Nat}

/-- The loop has ended: further rounds find nothing. -/
theorem pieces_rounds (hcut : ∀ s a rest, cut s = some (a, rest) → size rest < size s) {s : σ}
    {n m : Nat} (hn : size s ≤ n) (hm : size s ≤ m) : pieces cut n s = pieces cut m s := by
  induction n generalizing s m with
  | zero =>
    have hnone : cut s = none := by
      cases h : cut s with
      | none => rfl
      | some r => exact absurd (hcut s r.1 r.2 h) (by omega)
    cases m with
    | zero => rfl
    | succ m => rw [pieces, pieces, hnone]
  | succ n ih =>
    cases h : cut s with
    | none =>
      cases m with
      | zero => rw [pieces, pieces, h]
      | succ m => rw [pieces, pieces, h]
    | some r =>
      obtain ⟨a, rest⟩ := r
      have hlt := hcut s a rest h
      obtain ⟨m, rfl⟩ : ∃ k, m = k + 1 := ⟨m - 1, by omega⟩
      rw [pieces, pieces, h]
      dsimp only
      rw [ih (m := m) (by omega) (by omega)]

/-- The first piece, and then those of the rest. -/
theorem all_eq (hcut : ∀ s a rest, cut s = some (a, rest) → size rest < size s) (s : σ) :
    all cut size s = match cut s with
      | none => []
      | some (a, rest) => a :: all cut size rest := by
  rw [all, pieces_rounds hcut le_rfl (Nat.le_succ _), pieces]
  cases h : cut s with
  | none => rfl
  | some r =>
    obtain ⟨a, rest⟩ := r
    dsimp only
    rw [all, pieces_rounds hcut le_rfl (hcut s a rest h).le]

/-- What each round keeps true of the input holds of the pieces. -/
theorem forall_mem_all {I : σ → Prop} {Q : α → Prop}
    (hstep : ∀ s a rest, I s → cut s = some (a, rest) → Q a ∧ I rest) {s : σ} (h : I s) :
    ∀ a ∈ all cut size s, Q a := by
  rw [all]
  generalize size s = k
  induction k generalizing s with
  | zero => exact fun a ha => absurd ha List.not_mem_nil
  | succ k ih =>
    rw [pieces]
    cases hcut : cut s with
    | none => exact fun a ha => absurd ha List.not_mem_nil
    | some r =>
      obtain ⟨a, rest⟩ := r
      obtain ⟨hQ, hI⟩ := hstep s a rest h hcut
      exact List.forall_mem_cons.2 ⟨hQ, ih hI⟩

end Scan
