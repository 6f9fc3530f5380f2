import Mathlib.Tactic

set_option autoImplicit false

/-! # Runs of a deterministic system

A run is a list of actions folded through a step function. `Along` says that every step of the run
meets a condition on the action and the state it is taken in, and `along_invariant` is the one
induction behind every safety statement about runs. -/

namespace Run

variable {σ ι : Type*} (step : σ → ι → σ)

/-- Every step of the run from `s` meets `C`, evaluated in the state before that step. -/
def Along (C : σ → ι → Prop) : σ → List ι → Prop
  | _, [] => True
  | s, a :: as => C s a ∧ Along C (step s a) as

instance Along.decidable (C : σ → ι → Prop) [∀ s a, Decidable (C s a)] :
    ∀ (s : σ) (as : List ι), Decidable (Along step C s as)
  | _, [] => .isTrue trivial
  | s, a :: as =>
    have := Along.decidable C (step s a) as
    inferInstanceAs (Decidable (C s a ∧ Along step C (step s a) as))

variable {step} {C : σ → ι → Prop} {I : σ → Prop}

theorem along_invariant (hstep : ∀ s a, I s → C s a → I (step s a)) :
    ∀ (as : List ι) (s : σ), I s → Along step C s as → I (as.foldl step s) := by
  intro as
  induction as with
  | nil => intro s hs _; exact hs
  | cons a as ih =>
    intro s hs hC
    exact ih (step s a) (hstep s a hs hC.1) hC.2

/-- The run up to its last step, and the last step. -/
theorem along_snoc {as : List ι} {a : ι} {s : σ} (h : Along step C s (as ++ [a])) :
    Along step C s as ∧ C (as.foldl step s) a := by
  induction as generalizing s with
  | nil => exact ⟨trivial, h.1⟩
  | cons b as ih => exact ⟨⟨h.1, (ih h.2).1⟩, (ih h.2).2⟩

/-! ## Steps that may be undefined -/

variable (pstep : σ → ι → Option σ)

/-- The state a run reaches, `none` as soon as a step is undefined. -/
def exec : σ → List ι → Option σ
  | s, [] => some s
  | s, a :: as =>
    match pstep s a with
    | none => none
    | some s' => exec s' as

/-- Every step of the run meets `C`, as far as the run is defined. -/
def AlongExec (C : σ → ι → Prop) : σ → List ι → Prop
  | _, [] => True
  | s, a :: as => C s a ∧ ∀ s' ∈ pstep s a, AlongExec C s' as

instance AlongExec.decidable (C : σ → ι → Prop) [∀ s a, Decidable (C s a)] :
    ∀ (s : σ) (as : List ι), Decidable (AlongExec pstep C s as)
  | _, [] => .isTrue trivial
  | s, a :: as =>
    have := fun s' => AlongExec.decidable C s' as
    inferInstanceAs (Decidable (C s a ∧ ∀ s' ∈ pstep s a, AlongExec pstep C s' as))

variable {pstep}

/-- An invariant that every step keeps holds in the state reached, and every step is defined. -/
theorem exec_invariant (hstep : ∀ s a, I s → C s a → ∃ s', pstep s a = some s' ∧ I s') :
    ∀ (as : List ι) (s : σ), I s → AlongExec pstep C s as →
      ∃ s', exec pstep s as = some s' ∧ I s' := by
  intro as
  induction as with
  | nil => intro s hs _; exact ⟨s, rfl, hs⟩
  | cons a as ih =>
    intro s hs hC
    obtain ⟨s', hs', hI⟩ := hstep s a hs hC.1
    obtain ⟨t, ht, hIt⟩ := ih s' hI (hC.2 s' hs')
    exact ⟨t, by rw [exec, hs']; exact ht, hIt⟩

/-- A run whose steps meet `C` leads from one state to the other. -/
def Reaches (pstep : σ → ι → Option σ) (C : σ → ι → Prop) (s s' : σ) : Prop :=
  ∃ as, AlongExec pstep C s as ∧ exec pstep s as = some s'

theorem Reaches.refl (s : σ) : Reaches pstep C s s := ⟨[], trivial, rfl⟩

/-- A run goes on with one more step. -/
theorem Reaches.tail {s s' s'' : σ} {a : ι} (h : Reaches pstep C s s') (hC : C s' a)
    (hstep : pstep s' a = some s'') :
    Reaches pstep C s s'' := by
  obtain ⟨as, halong, hexec⟩ := h
  refine ⟨as ++ [a], ?_⟩
  induction as generalizing s with
  | nil =>
    obtain rfl := Option.some.inj hexec
    refine ⟨⟨hC, fun _ _ => trivial⟩, ?_⟩
    rw [List.nil_append, exec, hstep]
    rfl
  | cons b as ih =>
    rw [exec] at hexec
    cases hb : pstep s b with
    | none =>
      rw [hb] at hexec
      cases hexec
    | some s₁ =>
      rw [hb] at hexec
      obtain ⟨halong', hexec'⟩ := ih (halong.2 s₁ hb) hexec
      refine ⟨⟨halong.1, fun s₂ hs₂ => ?_⟩, ?_⟩
      · obtain rfl : s₁ = s₂ := Option.some.inj (hb.symm.trans hs₂)
        exact halong'
      · rw [List.cons_append, exec, hb]
        exact hexec'

end Run
