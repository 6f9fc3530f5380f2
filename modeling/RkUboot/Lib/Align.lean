import Mathlib.Tactic

set_option autoImplicit false

/-! # Alignment with masks

`x & ~(a - 1)` in words of `w` bits. For a power of two it is the highest multiple of `a` that is not
above `x`. -/

namespace Align

variable {w : Nat}

/-- `x & ~(a - 1)` -/
def down (x a : BitVec w) : BitVec w := x &&& ~~~(a - 1#w)

/-- The part that a mask keeps and the part that it clears make up the word. -/
theorem toNat_and_add (x y : BitVec w) : (x &&& y).toNat + (x &&& ~~~y).toNat = x.toNat := by
  have hdisjoint : (x &&& y) &&& (x &&& ~~~y) = 0#w := by
    ext i hi
    simp only [BitVec.getElem_and, BitVec.getElem_not, BitVec.getElem_zero]
    cases x[i] <;> cases y[i] <;> rfl
  have hjoin : (x &&& y) ||| (x &&& ~~~y) = x := by
    ext i hi
    simp only [BitVec.getElem_or, BitVec.getElem_and, BitVec.getElem_not]
    cases x[i] <;> cases y[i] <;> rfl
  rw [← BitVec.toNat_add_of_and_eq_zero hdisjoint, BitVec.add_eq_or_of_and_eq_zero _ _ hdisjoint,
    hjoin]

theorem toNat_mask {k : Nat} (hk : k < w) : (BitVec.ofNat w (2 ^ k) - 1#w).toNat = 2 ^ k - 1 := by
  have hpow : 2 ^ k < 2 ^ w := Nat.pow_lt_pow_right (by decide) hk
  have hpos : 0 < 2 ^ k := Nat.two_pow_pos k
  have hone : (1#w).toNat = 1 := by
    rw [BitVec.toNat_ofNat]
    exact Nat.mod_eq_of_lt (by omega)
  have htwo : (BitVec.ofNat w (2 ^ k)).toNat = 2 ^ k := by
    rw [BitVec.toNat_ofNat]
    exact Nat.mod_eq_of_lt hpow
  rw [BitVec.toNat_sub_of_le, htwo, hone]
  rw [BitVec.le_def, htwo, hone]
  exact hpos

theorem toNat_down (x : BitVec w) {k : Nat} (hk : k < w) :
    (down x (BitVec.ofNat w (2 ^ k))).toNat = x.toNat / 2 ^ k * 2 ^ k := by
  have hlow : (x &&& (BitVec.ofNat w (2 ^ k) - 1#w)).toNat = x.toNat % 2 ^ k := by
    rw [BitVec.toNat_and, toNat_mask hk, Nat.and_two_pow_sub_one_eq_mod]
  have hsum := toNat_and_add x (BitVec.ofNat w (2 ^ k) - 1#w)
  have hdiv := Nat.div_add_mod x.toNat (2 ^ k)
  rw [Nat.mul_comm] at hdiv
  unfold down
  omega

end Align
