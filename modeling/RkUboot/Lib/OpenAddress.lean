import Mathlib.Data.Nat.Prime.Basic
import Mathlib.Data.Nat.ModEq
import Mathlib.Order.Interval.Finset.Nat
import Mathlib.Tactic

set_option autoImplicit false

/-! # Open addressing

A table of slots `1 .. n` in which a key is looked for along its own path of slots. A slot is free
until it is first used, and a deleted entry leaves a mark, so a lookup may stop at a free slot. The
table is consistent (`Ok`) if every key is in at most one slot, and the slots before it on its path
are not free. Replacing a value, deleting a key and entering a new one keep that.

The path of double hashing steps back by a fixed number of slots on a circle; for a prime number of
slots it meets every slot once before it returns. -/

namespace OpenAddress

/-! ## Stepping back on a circle -/

/-- One step back by `d` on the circle of the slots `1 .. p`. -/
def back (p d i : Nat) : Nat := if i ≤ d then p + i - d else i - d

/-- The slots that are met from `h` on. -/
def walk (p d h : Nat) : Nat → Nat
  | 0 => h
  | j + 1 => back p d (walk p d h j)

section Walk

variable {p d h : Nat}

theorem walk_range (hd : d < p) (hh : 1 ≤ h ∧ h ≤ p) (j : Nat) :
    1 ≤ walk p d h j ∧ walk p d h j ≤ p := by
  induction j with
  | zero => exact hh
  | succ j ih =>
    rw [walk, back]
    split <;> omega

theorem walk_modEq (hd : d < p) (h j : Nat) : walk p d h j + j * d ≡ h [MOD p] := by
  induction j with
  | zero => rw [Nat.zero_mul]; exact Nat.ModEq.refl h
  | succ j ih =>
    rw [walk, back, Nat.succ_mul]
    split
    · next hle =>
        rw [show p + walk p d h j - d + (j * d + d) = walk p d h j + j * d + p by omega]
        exact (Nat.add_modEq_right).trans ih
    · next hgt =>
        rw [show walk p d h j - d + (j * d + d) = walk p d h j + j * d by omega]
        exact ih

/-- Representatives of one class among `1 .. p` are equal. -/
theorem eq_of_modEq {x y : Nat} (hx : 1 ≤ x ∧ x ≤ p) (hy : 1 ≤ y ∧ y ≤ p) (hxy : x ≡ y [MOD p]) :
    x = y := by
  have hshift : x - 1 ≡ y - 1 [MOD p] := by
    apply Nat.ModEq.add_right_cancel' 1
    rwa [Nat.sub_add_cancel hx.1, Nat.sub_add_cancel hy.1]
  have := Nat.ModEq.eq_of_lt_of_lt hshift (by omega) (by omega)
  omega

/-- After `p` steps the walk is back. -/
theorem walk_period (hd : d < p) (hh : 1 ≤ h ∧ h ≤ p) : walk p d h p = h := by
  apply eq_of_modEq (walk_range hd hh p) hh
  have hmod := walk_modEq hd h p
  rwa [Nat.mul_comm, Nat.add_mul_modulus_modEq_iff] at hmod

variable (hp : p.Prime) (hpos : 0 < d)
include hp hpos

/-- Before that it meets no slot twice. -/
theorem walk_inj (hd : d < p) {i j : Nat} (hij : i < j) (hj : j < p) :
    walk p d h i ≠ walk p d h j := by
  intro heq
  have hmod : i * d ≡ j * d [MOD p] := by
    have hsame := (walk_modEq hd h i).trans (walk_modEq hd h j).symm
    rw [heq] at hsame
    exact Nat.ModEq.add_left_cancel' _ hsame
  rw [Nat.modEq_iff_dvd' (Nat.mul_le_mul_right d hij.le), ← Nat.sub_mul, hp.dvd_mul] at hmod
  rcases hmod with hdvd | hdvd
  · exact absurd (Nat.le_of_dvd (by omega) hdvd) (by omega)
  · exact absurd (Nat.le_of_dvd hpos hdvd) (by omega)

/-- So it meets every slot. -/
theorem walk_surj (hd : d < p) (hh : 1 ≤ h ∧ h ≤ p) {x : Nat} (hx : 1 ≤ x ∧ x ≤ p) :
    ∃ j < p, walk p d h j = x := by
  have hmaps : ∀ j ∈ Finset.range p, walk p d h j ∈ Finset.Icc 1 p := fun j _ =>
    Finset.mem_Icc.mpr (walk_range hd hh j)
  have hinj : Set.InjOn (walk p d h) (Finset.range p) := by
    intro i hi j hj heq
    rw [Finset.coe_range, Set.mem_Iio] at hi hj
    rcases Nat.lt_trichotomy i j with hlt | heq' | hgt
    · exact absurd heq (walk_inj hp hpos hd hlt hj)
    · exact heq'
    · exact absurd heq.symm (walk_inj hp hpos hd hgt hi)
  obtain ⟨j, hj, rfl⟩ := Finset.surj_on_of_inj_on_of_card_le (fun j _ => walk p d h j) hmaps
    (fun i j hi hj heq => hinj hi hj heq) (by rw [Nat.card_Icc, Finset.card_range]; omega) x
    (Finset.mem_Icc.mpr hx)
  exact ⟨j, Finset.mem_range.mp hj, rfl⟩

end Walk

/-! ## Tables -/

/-- A slot that was never used, a mark, or an entry. -/
inductive Slot (K V : Type*) where
  | free
  | deleted
  | live (key : K) (val : V)

variable {K V : Type*}

def Slot.isFree : Slot K V → Bool
  | .free => true
  | _ => false

def Slot.isLive : Slot K V → Bool
  | .live _ _ => true
  | _ => false

/-- The key is in at most one slot, which is on its path behind slots that are not free. -/
structure Ok (path : K → Nat → Nat) (n : Nat) (T : Nat → Slot K V) : Prop where
  reach : ∀ i k v, T i = .live k v →
    ∃ j < n, path k j = i ∧ ∀ l < j, (T (path k l)).isFree = false
  unique : ∀ i j k v w, T i = .live k v → T j = .live k w → i = j

/-- The table maps `k` to `v`. -/
def Holds (T : Nat → Slot K V) (k : K) (v : V) : Prop := ∃ i, T i = .live k v

section Ok

variable {path : K → Nat → Nat} {n i : Nat} {T : Nat → Slot K V} {k : K} {v : V}

theorem Ok.holds_inj (h : Ok path n T) {w : V} (hv : Holds T k v) (hw : Holds T k w) : v = w := by
  obtain ⟨i, hi⟩ := hv
  obtain ⟨j, hj⟩ := hw
  obtain rfl := h.unique i j k v w hi hj
  rw [hi] at hj
  exact (Slot.live.inj hj).2

/-- A key that is not met before a free slot, or on the whole path, is not in the table. -/
theorem Ok.absent (h : Ok path n T) {t : Nat} (hmiss : ∀ l < t, ∀ w, T (path k l) ≠ .live k w)
    (hstop : n ≤ t ∨ (T (path k t)).isFree = true) : ¬ Holds T k v := by
  rintro ⟨i, hi⟩
  obtain ⟨j, hj, rfl, hbefore⟩ := h.reach i k v hi
  have hmet : t ≤ j := by
    by_contra hlt
    exact hmiss j (by omega) v hi
  rcases hstop with hn | hfree
  · omega
  rcases Nat.lt_or_eq_of_le hmet with hlt | rfl
  · rw [hbefore t hlt] at hfree
    cases hfree
  · rw [hi] at hfree
    exact absurd hfree (by simp [Slot.isFree])

theorem isFree_update {s : Slot K V} (hs : s.isFree = false) {x : Nat} (hx : (T x).isFree = false) :
    (Function.update T i s x).isFree = false := by
  rw [Function.update_apply]
  split
  · exact hs
  · exact hx

/-- A slot is filled: an entry must be on the path of its key, and the only one for it. -/
theorem Ok.set (h : Ok path n T) {s : Slot K V} (hs : s.isFree = false)
    (hlive : ∀ k v, s = .live k v → (∀ j w, T j = .live k w → j = i) ∧
      ∃ t < n, path k t = i ∧ ∀ l < t, (T (path k l)).isFree = false) :
    Ok path n (Function.update T i s) := by
  constructor
  · intro i' k' v' hi'
    rw [Function.update_apply] at hi'
    obtain ⟨j, hj, hpj, hbj⟩ : ∃ t < n, path k' t = i' ∧ ∀ l < t, (T (path k' l)).isFree = false := by
      split at hi'
      · next heq => exact heq ▸ (hlive k' v' hi').2
      · exact h.reach i' k' v' hi'
    exact ⟨j, hj, hpj, fun l hl => isFree_update hs (hbj l hl)⟩
  · intro i' j' k' v' w' hi' hj'
    rw [Function.update_apply] at hi' hj'
    split at hi' <;> split at hj'
    · omega
    · next hi hj => exact absurd ((hlive k' v' hi').1 j' w' hj') hj
    · next hi hj => exact absurd ((hlive k' w' hj').1 i' v' hi') hi
    · exact h.unique i' j' k' v' w' hi' hj'

/-- A slot that is not taken by another key gets an entry for `k`, on the path of `k`. -/
theorem Ok.put (h : Ok path n T) (hother : ∀ j w, T j = .live k w → j = i) {t : Nat} (ht : t < n)
    (hpath : path k t = i) (hbefore : ∀ l < t, (T (path k l)).isFree = false) :
    Ok path n (Function.update T i (.live k v)) := by
  refine h.set rfl (fun k' v' heq => ?_)
  obtain ⟨rfl, -⟩ := Slot.live.inj heq
  exact ⟨hother, t, ht, hpath, hbefore⟩

theorem Ok.delete (h : Ok path n T) : Ok path n (Function.update T i .deleted) :=
  h.set rfl nofun

/-- The new entry is the only change. -/
theorem holds_put [DecidableEq K] (hother : ∀ j w, T j = .live k w → j = i)
    (hfree : ∀ k' w, T i = .live k' w → k' = k)
    (k' : K) (w : V) :
    Holds (Function.update T i (.live k v)) k' w ↔ if k' = k then w = v else Holds T k' w := by
  constructor
  · rintro ⟨j, hj⟩
    rw [Function.update_apply] at hj
    split at hj
    · obtain ⟨rfl, rfl⟩ := Slot.live.inj hj
      rw [if_pos rfl]
    next hne =>
    split
    · next heq =>
        subst heq
        exact absurd (hother j w hj) hne
    · exact ⟨j, hj⟩
  · intro hw
    split at hw
    · next heq =>
        subst heq hw
        exact ⟨i, Function.update_self ..⟩
    next hne =>
    obtain ⟨j, hj⟩ := hw
    refine ⟨j, ?_⟩
    rw [Function.update_of_ne]
    · exact hj
    · rintro rfl
      exact hne (hfree k' w hj)

theorem Ok.holds_delete (h : Ok path n T) (hi : T i = .live k v) (k' : K) (w : V) :
    Holds (Function.update T i .deleted) k' w ↔ k' ≠ k ∧ Holds T k' w := by
  constructor
  · rintro ⟨j, hj⟩
    rw [Function.update_apply] at hj
    split at hj
    · cases hj
    next hne =>
    refine ⟨?_, j, hj⟩
    rintro rfl
    exact hne (h.unique j i k' w v hj hi)
  · rintro ⟨hne, j, hj⟩
    refine ⟨j, ?_⟩
    rw [Function.update_of_ne]
    · exact hj
    · rintro rfl
      rw [hi] at hj
      exact hne (Slot.live.inj hj).1.symm

end Ok

/-! ## The number of entries -/

/-- The live slots of `1 .. n`. -/
def count (n : Nat) (T : Nat → Slot K V) : Nat := ((Finset.Icc 1 n).filter fun i => (T i).isLive).card

section Count

variable {n i : Nat} {T : Nat → Slot K V} {s : Slot K V}

/-- The count without the slot `i`. -/
theorem count_eq (hi : 1 ≤ i ∧ i ≤ n) :
    count n T = (((Finset.Icc 1 n).erase i).filter fun j => (T j).isLive).card +
      (if (T i).isLive then 1 else 0) := by
  unfold count
  rw [← Finset.insert_erase (Finset.mem_Icc.mpr hi), Finset.filter_insert,
    Finset.erase_insert_eq_erase,
    Finset.erase_idem]
  split
  · simp
  · rfl

theorem count_update (hi : 1 ≤ i ∧ i ≤ n) :
    count n (Function.update T i s) + (if (T i).isLive then 1 else 0)
      = count n T + (if s.isLive then 1 else 0) := by
  have hrest : (((Finset.Icc 1 n).erase i).filter fun j => (Function.update T i s j).isLive)
      = ((Finset.Icc 1 n).erase i).filter fun j => (T j).isLive := by
    apply Finset.filter_congr
    intro j hj
    rw [Function.update_of_ne (Finset.ne_of_mem_erase hj)]
  rw [count_eq hi, count_eq (T := T) hi, hrest, Function.update_self]
  omega

/-- The table is full exactly if every slot is live. -/
theorem count_eq_iff : count n T = n ↔ ∀ i, 1 ≤ i → i ≤ n → (T i).isLive = true := by
  have hcard : (Finset.Icc 1 n).card = n := by rw [Nat.card_Icc]; omega
  unfold count
  constructor
  · intro h i h1 hn
    exact Finset.card_filter_eq_iff.mp (h.trans hcard.symm) i (Finset.mem_Icc.mpr ⟨h1, hn⟩)
  intro h
  rw [Finset.filter_true_of_mem, hcard]
  intro i hi
  rw [Finset.mem_Icc] at hi
  exact h i hi.1 hi.2

end Count

end OpenAddress
