import Mathlib.Tactic

set_option autoImplicit false

/-! # Sorted ranges in an array

The first `n` elements of an array are ranges of addresses, none of them empty, in order and without
overlap (`Ordered`). What they say together is the set of addresses that they cover (`Covers`).
Replacing, removing and inserting a range keep the order when the new range fits between its
neighbours, and change the covered set by that range. -/

namespace Ranges

/-- The addresses from `base` on, `size` of them. -/
structure Range where
  base : Nat
  size : Nat
  deriving DecidableEq

def Range.stop (r : Range) : Nat := r.base + r.size

/-- The address is in the range. -/
def Range.Has (r : Range) (x : Nat) : Prop := r.base ≤ x ∧ x < r.stop
  deriving Decidable

/-- The ranges are not empty, in order, and do not overlap. -/
structure Ordered (n : Nat) (f : Nat → Range) : Prop where
  pos : ∀ i < n, 0 < (f i).size
  lt : ∀ i j, i < j → j < n → (f i).stop ≤ (f j).base

/-- One of the ranges has the address. -/
def Covers (n : Nat) (f : Nat → Range) (x : Nat) : Prop := ∃ i < n, (f i).Has x

/-- A statement about the indices of a loop, with the first one apart. -/
theorem forall_from_succ {P : Nat → Prop} {i k : Nat} :
    (∀ j, i ≤ j → j < i + (k + 1) → P j) ↔ P i ∧ ∀ j, i + 1 ≤ j → j < i + 1 + k → P j := by
  grind

section

variable {n i p : Nat} {f g : Nat → Range} {r : Range} {x : Nat}

theorem Ordered.congr (h : Ordered n f) (hfg : ∀ i < n, g i = f i) : Ordered n g := by
  constructor
  · intro i hi
    rw [hfg i hi]
    exact h.pos i hi
  · intro i j hij hj
    rw [hfg i (by omega), hfg j hj]
    exact h.lt i j hij hj

theorem covers_congr (hfg : ∀ i < n, g i = f i) : Covers n g x ↔ Covers n f x := by
  constructor
  · rintro ⟨i, hi, hx⟩
    exact ⟨i, hi, hfg i hi ▸ hx⟩
  · rintro ⟨i, hi, hx⟩
    exact ⟨i, hi, (hfg i hi).symm ▸ hx⟩

/-- The index of a range with an address is unique. -/
theorem Ordered.index_unique (h : Ordered n f) {j : Nat} (hi : i < n) (hj : j < n) (hxi : (f i).Has x)
    (hxj : (f j).Has x) : i = j := by
  unfold Range.Has at hxi hxj
  rcases Nat.lt_trichotomy i j with hlt | heq | hgt
  · have := h.lt i j hlt hj
    omega
  · exact heq
  · have := h.lt j i hgt hi
    omega

/-- Ranges that have no address in common lie apart. -/
theorem Range.apart {s : Range} (h : ∀ x, r.Has x → ¬ s.Has x) (hr : 0 < r.size) (hs : 0 < s.size) :
    r.stop ≤ s.base ∨ s.stop ≤ r.base := by
  have hlow := h r.base
  have hhigh := h s.base
  unfold Range.Has Range.stop at *
  omega

/-! ## Replacing -/

/-- Ranges with the same elements are the same. -/
theorem Range.ext_of_has {s : Range} (hr : 0 < r.size) (hs : 0 < s.size)
    (h : ∀ x < max r.stop s.stop, r.Has x ↔ s.Has x) : r = s := by
  have hfirst := h r.base (lt_of_lt_of_le (Nat.lt_add_of_pos_right hr) (le_max_left _ _))
  have hfirst' := h s.base (lt_of_lt_of_le (Nat.lt_add_of_pos_right hs) (le_max_right _ _))
  have hlast := h (r.stop - 1) (by unfold Range.stop; omega)
  have hlast' := h (s.stop - 1) (by unfold Range.stop; omega)
  cases r
  cases s
  unfold Range.Has Range.stop at *
  simp only [Range.mk.injEq] at *
  omega

theorem Ordered.set (h : Ordered n f) (hpos : 0 < r.size) (hlow : ∀ j < i, j < n → (f j).stop ≤ r.base)
    (hhigh : ∀ j, i < j → j < n → r.stop ≤ (f j).base) : Ordered n (Function.update f i r) := by
  constructor
  · intro j hj
    rw [Function.update_apply]
    split
    · exact hpos
    · exact h.pos j hj
  · intro j k hjk hk
    rw [Function.update_apply, Function.update_apply]
    split <;> split
    · omega
    · next hj _ => exact hhigh k (by omega) hk
    · next _ hk' => exact hlow j (by omega) (by omega)
    · exact h.lt j k hjk hk

theorem covers_set (hi : i < n) :
    Covers n (Function.update f i r) x ↔ r.Has x ∨ ∃ j < n, j ≠ i ∧ (f j).Has x := by
  constructor
  · rintro ⟨j, hj, hx⟩
    rw [Function.update_apply] at hx
    split at hx
    · exact .inl hx
    · next hne => exact .inr ⟨j, hj, hne, hx⟩
  · rintro (hx | ⟨j, hj, hne, hx⟩)
    · exact ⟨i, hi, by rwa [Function.update_self]⟩
    · exact ⟨j, hj, by rwa [Function.update_of_ne hne]⟩

/-- The set that the array covers, with the range `i` apart. -/
theorem covers_split (hi : i < n) : Covers n f x ↔ (f i).Has x ∨ ∃ j < n, j ≠ i ∧ (f j).Has x := by
  rw [← covers_set (r := f i) hi, Function.update_eq_self]

/-- The ranges other than `i` cover what the array covers outside of it. -/
theorem Ordered.others_iff (h : Ordered n f) (hi : i < n) :
    (∃ j < n, j ≠ i ∧ (f j).Has x) ↔ Covers n f x ∧ ¬ (f i).Has x := by
  constructor
  · rintro ⟨j, hj, hji, hx⟩
    exact ⟨⟨j, hj, hx⟩, fun hxi => hji (h.index_unique hj hi hx hxi)⟩
  · rintro ⟨⟨j, hj, hx⟩, hxi⟩
    exact ⟨j, hj, fun hji => hxi (hji ▸ hx), hx⟩

/-! ## Removing -/

/-- The array without element `i`. -/
def without (f : Nat → Range) (i : Nat) : Nat → Range := fun j => if j < i then f j else f (j + 1)

theorem Ordered.without (h : Ordered n f) : Ordered (n - 1) (without f i) := by
  constructor
  · intro j hj
    unfold Ranges.without
    split
    · exact h.pos j (by omega)
    · exact h.pos (j + 1) (by omega)
  · intro j k hjk hk
    unfold Ranges.without
    split <;> split
    · exact h.lt j k hjk (by omega)
    · exact h.lt j (k + 1) (by omega) (by omega)
    · omega
    · exact h.lt (j + 1) (k + 1) (by omega) (by omega)

theorem covers_without (hi : i < n) :
    Covers (n - 1) (without f i) x ↔ ∃ j < n, j ≠ i ∧ (f j).Has x := by
  constructor
  · rintro ⟨j, hj, hx⟩
    unfold without at hx
    split at hx
    · exact ⟨j, by omega, by omega, hx⟩
    · exact ⟨j + 1, by omega, by omega, hx⟩
  · rintro ⟨j, hj, hne, hx⟩
    by_cases hlt : j < i
    · refine ⟨j, by omega, ?_⟩
      unfold without
      rwa [if_pos hlt]
    · refine ⟨j - 1, by omega, ?_⟩
      unfold without
      rwa [if_neg (by omega), Nat.sub_add_cancel (by omega)]

/-- Element `i` replaced and the one behind it removed. -/
theorem without_update :
    without (Function.update f i r) (i + 1) = Function.update (without f (i + 1)) i r := by
  funext j
  simp only [without, Function.update_apply]
  split_ifs <;> first | rfl | omega

/-- Two ranges without a gap become one. -/
def joined (f : Nat → Range) (i : Nat) : Range := ⟨(f i).base, (f i).size + (f (i + 1)).size⟩

theorem Ordered.join (h : Ordered n f) (hi : i + 1 < n) (hgap : (f i).stop = (f (i + 1)).base) :
    Ordered (n - 1) (Ranges.without (Function.update f i (joined f i)) (i + 1)) := by
  have hpos := h.pos i (by omega)
  have hstop : (joined f i).stop = (f (i + 1)).stop := by
    unfold Range.stop at hgap ⊢
    show (f i).base + ((f i).size + (f (i + 1)).size) = _
    omega
  rw [without_update]
  refine h.without.set ?_ ?_ ?_
  · show 0 < (f i).size + (f (i + 1)).size
    omega
  · intro j hj _
    simp only [Ranges.without, if_pos (show j < i + 1 by omega)]
    exact h.lt j i hj (by omega)
  intro j hj hjn
  simp only [Ranges.without, if_neg (show ¬ j < i + 1 by omega)]
  rw [hstop]
  exact h.lt (i + 1) (j + 1) (by omega) (by omega)

theorem covers_join (hi : i + 1 < n) (hgap : (f i).stop = (f (i + 1)).base) :
    Covers (n - 1) (without (Function.update f i (joined f i)) (i + 1)) x ↔ Covers n f x := by
  have hboth : (joined f i).Has x ↔ (f i).Has x ∨ (f (i + 1)).Has x := by
    unfold joined Range.Has Range.stop at *
    dsimp only
    omega
  rw [covers_without hi, covers_split (i := i + 1) hi]
  constructor
  · rintro ⟨j, hj, hne, hx⟩
    rw [Function.update_apply] at hx
    split at hx
    · rcases hboth.mp hx with hx | hx
      · exact .inr ⟨i, by omega, by omega, hx⟩
      · exact .inl hx
    · exact .inr ⟨j, hj, hne, hx⟩
  · rintro (hx | ⟨j, hj, hne, hx⟩)
    · exact ⟨i, by omega, by omega, by rw [Function.update_self]; exact hboth.mpr (.inr hx)⟩
    by_cases hji : j = i
    · subst hji
      exact ⟨j, hj, hne, by rw [Function.update_self]; exact hboth.mpr (.inl hx)⟩
    · exact ⟨j, hj, hne, by rwa [Function.update_of_ne hji]⟩

/-! ## Inserting -/

/-- The array with `r` put in at index `p`. -/
def insertAt (f : Nat → Range) (p : Nat) (r : Range) : Nat → Range := fun j =>
  if j < p then f j else if j = p then r else f (j - 1)

theorem Ordered.insertAt (h : Ordered n f) (hp : p ≤ n) (hpos : 0 < r.size)
    (hlow : ∀ j < p, (f j).stop ≤ r.base) (hhigh : ∀ j, p ≤ j → j < n → r.stop ≤ (f j).base) :
    Ordered (n + 1) (insertAt f p r) := by
  constructor
  · intro j hj
    unfold Ranges.insertAt
    split_ifs
    · exact h.pos j (by omega)
    · exact hpos
    · exact h.pos (j - 1) (by omega)
  · intro j k hjk hk
    -- The cases are where `j` and `k` stand: before `p`, at `p` or behind it.
    rcases Nat.lt_trichotomy k p with hkp | rfl | hkp
    · simp only [Ranges.insertAt, if_pos hkp, if_pos (show j < p by omega)]
      exact h.lt j k hjk (by omega)
    · simp only [Ranges.insertAt, if_pos hjk, Nat.lt_irrefl, if_false, if_true]
      exact hlow j hjk
    simp only [Ranges.insertAt, if_neg (show ¬ k < p by omega), if_neg (show k ≠ p by omega)]
    rcases Nat.lt_trichotomy j p with hjp | rfl | hjp
    · rw [if_pos hjp]
      exact h.lt j (k - 1) (by omega) (by omega)
    · rw [if_neg (Nat.lt_irrefl j), if_pos rfl]
      exact hhigh (k - 1) (by omega) (by omega)
    · rw [if_neg (by omega), if_neg (by omega)]
      exact h.lt (j - 1) (k - 1) (by omega) (by omega)

theorem covers_insertAt (hp : p ≤ n) : Covers (n + 1) (insertAt f p r) x ↔ r.Has x ∨ Covers n f x := by
  constructor
  · rintro ⟨j, hj, hx⟩
    unfold insertAt at hx
    split_ifs at hx
    · exact .inr ⟨j, by omega, hx⟩
    · exact .inl hx
    · exact .inr ⟨j - 1, by omega, hx⟩
  · rintro (hx | ⟨j, hj, hx⟩)
    · refine ⟨p, by omega, ?_⟩
      unfold insertAt
      rwa [if_neg (by omega), if_pos rfl]
    by_cases hlt : j < p
    · refine ⟨j, by omega, ?_⟩
      unfold insertAt
      rwa [if_pos hlt]
    · refine ⟨j + 1, by omega, ?_⟩
      unfold insertAt
      rwa [if_neg (by omega), if_neg (by omega), Nat.add_sub_cancel]

end

end Ranges
