import RkUboot.Lib.Mem

set_option autoImplicit false

/-! # Packed arrays of 4-bit counters

Two counters a byte, the even one in the high nibble, as C code packs them with masks and shifts.
The masks are turned into division by 16 once; everything else is arithmetic. -/

namespace Mem

/-- Counter `i` of the array at `base`. -/
def nib (m : Mem) (base i : Nat) : Nat :=
  if i % 2 = 1 then (m (base + i / 2) &&& 0x0F).toNat
  else ((m (base + i / 2) &&& 0xF0) >>> 4).toNat

/-- Store `v` in counter `i` of the array at `base`. -/
def setNib (m : Mem) (base i v : Nat) : Mem :=
  m.set8 (base + i / 2)
    (if i % 2 = 1 then m (base + i / 2) &&& 0xF0 ||| UInt8.ofNat v &&& 0x0F
      else m (base + i / 2) &&& 0x0F ||| UInt8.ofNat v <<< (4 : UInt8))

/-! ## Masks and shifts as arithmetic -/

theorem lowNibble_toNat (b : UInt8) : (b &&& 0x0F).toNat = b.toNat % 16 := by
  rw [UInt8.toNat_and]
  exact Nat.and_two_pow_sub_one_eq_mod b.toNat 4

/-- The masks and shifts on one byte, checked value by value. -/
theorem highNibble_table (b : UInt8) :
    ((b &&& 0xF0) >>> 4).toNat = b.toNat / 16 ∧ (b &&& 0xF0).toNat = 2 ^ 4 * (b.toNat / 16) ∧
      (b <<< 4).toNat = 2 ^ 4 * (b.toNat % 16) := by
  have h : ∀ i : Fin 256, ((UInt8.ofNat i &&& 0xF0) >>> 4).toNat = (UInt8.ofNat i).toNat / 16 ∧
      (UInt8.ofNat i &&& 0xF0).toNat = 2 ^ 4 * ((UInt8.ofNat i).toNat / 16) ∧
      (UInt8.ofNat i <<< 4).toNat = 2 ^ 4 * ((UInt8.ofNat i).toNat % 16) := by
    decide +kernel
  have hb := h ⟨b.toNat, b.toNat_lt⟩
  rwa [UInt8.ofNat_toNat] at hb

theorem nib_eq (m : Mem) (base i : Nat) :
    m.nib base i
      = if i % 2 = 1 then (m (base + i / 2)).toNat % 16 else (m (base + i / 2)).toNat / 16 := by
  simp only [nib, lowNibble_toNat, (highNibble_table _).1]

/-- The byte `setNib` stores: the other nibble is kept, this one becomes `v` modulo 16. -/
theorem setNib_byte (m : Mem) (base i v : Nat) :
    (m.setNib base i v (base + i / 2)).toNat
      = if i % 2 = 1 then 16 * ((m (base + i / 2)).toNat / 16) + v % 16
        else (m (base + i / 2)).toNat % 16 + 16 * (v % 16) := by
  have hv : (UInt8.ofNat v).toNat % 16 = v % 16 := by
    rw [UInt8.toNat_ofNat']
    omega
  unfold setNib
  rw [set8_apply, if_pos rfl]
  split
  · rw [UInt8.toNat_or, (highNibble_table _).2.1, lowNibble_toNat, hv]
    exact (Nat.two_pow_add_eq_or_of_lt (by omega) _).symm
  · rw [UInt8.toNat_or, lowNibble_toNat, (highNibble_table _).2.2, hv, Nat.or_comm,
      ← Nat.two_pow_add_eq_or_of_lt (by omega)]
    omega

/-- A byte is its two counters. -/
theorem toNat_eq_nibs (m : Mem) (base x : Nat) :
    (m (base + x)).toNat = 16 * m.nib base (2 * x) + m.nib base (2 * x + 1) := by
  have h0 : 2 * x / 2 = x := by omega
  have h1 : (2 * x + 1) / 2 = x := by omega
  rw [nib_eq, nib_eq, if_neg (by omega), if_pos (by omega), h0, h1]
  omega

/-! ## Reading back -/

theorem nib_lt (m : Mem) (base i : Nat) : m.nib base i < 16 := by
  have h := (m (base + i / 2)).toNat_lt
  rw [nib_eq]
  split <;> omega

theorem nib_setNib_same (m : Mem) (base i v : Nat) (h : v < 16) :
    (m.setNib base i v).nib base i = v := by
  rw [nib_eq, setNib_byte]
  split <;> omega

theorem setNib_apply_ne (m : Mem) (base i v x : Nat) (h : x ≠ base + i / 2) :
    m.setNib base i v x = m x := by
  rw [setNib, set8_apply, if_neg h]

theorem nib_setNib_ne (m : Mem) (base i v j : Nat) (h : j ≠ i) :
    (m.setNib base i v).nib base j = m.nib base j := by
  by_cases hb : j / 2 = i / 2
  · -- the two counters share a byte, so they have different parities
    have hbyte := (m (base + i / 2)).toNat_lt
    rw [nib_eq, nib_eq, hb, setNib_byte]
    split <;> split <;> omega
  · rw [nib_eq, nib_eq, setNib_apply_ne _ _ _ _ _ (by omega)]

theorem AgreeOn.nib {m m' : Mem} {base n i : Nat} (h : m.AgreeOn m' base (base + n))
    (hi : i < 2 * n) : m.nib base i = m'.nib base i := by
  rw [nib_eq, nib_eq, h (base + i / 2) (by omega) (by omega)]

end Mem
