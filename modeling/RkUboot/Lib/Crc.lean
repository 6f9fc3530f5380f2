import Mathlib.Data.List.Basic

set_option autoImplicit false

/-! # Cyclic checksums, highest bit first

The register has `w` bits. A bit of the message is added to its highest bit; the register then moves
up by one place, and the polynomial is added if a 1 was moved out (`bitStep`). No inversion and no
reflection.

A step is linear in the register and the bit together (`bitStep_xor`). So the effect of `k` bits is
that of the top `k` bits of the register, with the message added to them, on the register 0, plus the
register moved up by `k` places (`run_eq`). With `k = 8` and a table for the first part, this is how a
checksum is computed one byte at a time (`byte_eq_entry`). -/

namespace Crc

variable {w : Nat} (poly : BitVec w)

/-! ## One bit at a time -/

/-- The register after one bit of the message. -/
def bitStep (c : BitVec w) (b : Bool) : BitVec w :=
  if c.msb ^^ b then (c <<< 1) ^^^ poly else c <<< 1

/-- The register after the bits `bs`. -/
def run (c : BitVec w) (bs : List Bool) : BitVec w := bs.foldl (bitStep poly) c

/-- The top `k` bits of a word, the highest first. -/
def topBits {n : Nat} (k : Nat) (x : BitVec n) : List Bool := (List.range k).map x.getMsbD

/-- The register after one byte of the message. -/
def byte (c : BitVec w) (x : BitVec 8) : BitVec w := run poly c (topBits 8 x)

/-- The checksum of `s`, from the register `c`. -/
def crc (c : BitVec w) (s : List (BitVec 8)) : BitVec w := s.foldl (byte poly) c

/-! ## Linearity -/

/-- What is added to the register when `b` is moved out of it. -/
def feedback (b : Bool) : BitVec w := if b then poly else 0#w

theorem bitStep_eq (c : BitVec w) (b : Bool) :
    bitStep poly c b = feedback poly (c.msb ^^ b) ^^^ c <<< 1 := by
  unfold bitStep feedback
  split
  · exact BitVec.xor_comm _ _
  · exact BitVec.zero_xor.symm

theorem feedback_xor (a b : Bool) :
    feedback poly (a ^^ b) = feedback poly a ^^^ feedback poly b := by
  cases a <;> cases b <;> simp [feedback]

theorem bitStep_zero (b : Bool) : bitStep poly 0#w b = feedback poly b := by
  rw [bitStep_eq]
  simp

theorem bitStep_xor (c d : BitVec w) (a b : Bool) :
    bitStep poly (c ^^^ d) (a ^^ b) = bitStep poly c a ^^^ bitStep poly d b := by
  simp only [bitStep_eq, BitVec.msb_xor, feedback_xor, BitVec.shiftLeft_xor_distrib]
  ac_rfl

theorem run_xor (c d : BitVec w) (bs : List Bool) :
    run poly (c ^^^ d) bs = run poly c (bs.map fun _ => false) ^^^ run poly d bs := by
  induction bs generalizing c d with
  | nil => rfl
  | cons b bs ih =>
    have hb := bitStep_xor poly c d false b
    rw [Bool.false_xor] at hb
    simp only [run, List.foldl_cons, List.map_cons] at ih ⊢
    rw [hb]
    exact ih _ _

/-! ## Several bits at a time -/

theorem length_topBits {n : Nat} (k : Nat) (x : BitVec n) : (topBits k x).length = k := by
  simp [topBits]

theorem topBits_succ {n : Nat} (k : Nat) (x : BitVec n) :
    topBits (k + 1) x = x.msb :: topBits k (x <<< 1) := by
  unfold topBits
  rw [List.range_succ_eq_map, List.map_cons, List.map_map, BitVec.msb_eq_getMsbD_zero]
  congr 1
  apply List.map_congr_left
  intro i _
  exact (BitVec.getMsbD_shiftLeft x 1).symm

/-- `bs` acts on the register as the top bits of it, with `bs` added, act on the register 0. -/
theorem run_eq (c : BitVec w) (bs : List Bool) :
    run poly c bs =
      run poly 0#w (List.zipWith Bool.xor (topBits bs.length c) bs) ^^^ c <<< bs.length := by
  induction bs generalizing c with
  | nil => simp [run, topBits]
  | cons b bs ih =>
    have hcons : ∀ (d : BitVec w) (a : Bool) (as : List Bool),
        run poly d (a :: as) = run poly (bitStep poly d a) as := fun _ _ _ => rfl
    -- what the first bit moves out goes through the other bits on both sides
    have hout := run_xor poly (feedback poly (c.msb ^^ b)) 0#w
      (List.zipWith Bool.xor (topBits bs.length (c <<< 1)) bs)
    have hzeros : (List.zipWith Bool.xor (topBits bs.length (c <<< 1)) bs).map (fun _ => false) =
        bs.map fun _ => false := by
      rw [List.map_const', List.map_const', List.length_zipWith, length_topBits, Nat.min_self]
    rw [BitVec.xor_zero, hzeros] at hout
    rw [hcons, bitStep_eq, run_xor, ih (c <<< 1), List.length_cons, topBits_succ,
      List.zipWith_cons_cons, hcons, bitStep_zero, hout, Nat.add_comm, BitVec.shiftLeft_add,
      BitVec.xor_assoc]

/-! ## One byte at a time -/

/-- An entry of the table: what the byte `i` leaves in the register 0. -/
def entry (i : BitVec 8) : BitVec w := byte poly 0#w i

theorem topBits_xor {n : Nat} (k : Nat) (x y : BitVec n) :
    List.zipWith Bool.xor (topBits k x) (topBits k y) = topBits k (x ^^^ y) := by
  unfold topBits
  rw [List.zipWith_map, List.zipWith_self]
  exact List.map_congr_left fun i _ => BitVec.getMsbD_xor.symm

theorem topBits_extract (hw : 8 ≤ w) (c : BitVec w) :
    topBits 8 c = topBits 8 (c.extractLsb' (w - 8) 8) := by
  apply List.map_congr_left
  intro i hi
  rw [List.mem_range] at hi
  rw [BitVec.getMsbD_extractLsb']
  simp only [hi, decide_true, Bool.true_and]
  rw [show w - (w - 8 + 8 - i) = i by omega]
  simp only [show w - 8 + 8 - i ≤ w by omega, decide_true, Bool.true_and]

/-- **A byte from the table**: the entry for the top byte of the register with the byte of the
    message added, and the register moved up by eight places. -/
theorem byte_eq_entry (hw : 8 ≤ w) (c : BitVec w) (x : BitVec 8) :
    byte poly c x = entry poly (c.extractLsb' (w - 8) 8 ^^^ x) ^^^ c <<< 8 := by
  unfold entry byte
  rw [run_eq, length_topBits, topBits_extract hw, topBits_xor]

/-! ## Errors

With a polynomial whose lowest bit is set, a difference of the registers is never lost, and one of at
most `w` bits in a row of the message is not either. -/

section Errors

variable {poly}

/-- A bit in which the registers differ is moved up, or the polynomial makes the lowest one differ. -/
theorem run_ne_run (hpoly : poly.getLsbD 0 = true) {c d : BitVec w} {i : Nat}
    (hi : (c ^^^ d).getLsbD i = true) {as bs : List Bool} (hlen : as.length = bs.length)
    (hw : i + as.length < w) : run poly c as ≠ run poly d bs := by
  induction as generalizing c d i bs with
  | nil =>
    obtain rfl := List.eq_nil_of_length_eq_zero hlen.symm
    rintro (h : c = d)
    simp [h] at hi
  | cons a as ih =>
    obtain ⟨b, bs, rfl⟩ := List.exists_cons_of_length_eq_add_one hlen.symm
    rw [List.length_cons] at hw
    show run poly (bitStep poly c a) as ≠ run poly (bitStep poly d b) bs
    by_cases hout : ((c ^^^ d).msb ^^ (a ^^ b)) = true
    · refine ih (i := 0) ?_ (Nat.succ.inj hlen) (by omega)
      rw [← bitStep_xor, bitStep, if_pos hout]
      simp [hpoly]
    · refine ih (i := i + 1) ?_ (Nat.succ.inj hlen) (by omega)
      rw [← bitStep_xor, bitStep, if_neg hout, BitVec.getLsbD_shiftLeft, Nat.add_sub_cancel, hi]
      simp
      omega

theorem bits_eq_of_run_eq (hpoly : poly.getLsbD 0 = true) (c : BitVec w) {as bs : List Bool}
    (hlen : as.length = bs.length) (hw : as.length ≤ w) (h : run poly c as = run poly c bs) :
    as = bs := by
  induction as generalizing c bs with
  | nil => exact (List.eq_nil_of_length_eq_zero hlen.symm).symm
  | cons a as ih =>
    obtain ⟨b, bs, rfl⟩ := List.exists_cons_of_length_eq_add_one hlen.symm
    by_cases hab : a = b
    · subst hab
      rw [ih _ (Nat.succ.inj hlen) (Nat.le_of_succ_le hw) h]
    · -- after the first difference the registers differ by the polynomial
      have hbit : (bitStep poly c a ^^^ bitStep poly c b).getLsbD 0 = true := by
        rw [← bitStep_xor, BitVec.xor_self, bitStep_zero]
        simp [feedback, hab, hpoly]
      exact absurd h (run_ne_run hpoly hbit (Nat.succ.inj hlen) (by rwa [Nat.zero_add]))

theorem register_eq_of_run_eq (hpoly : poly.getLsbD 0 = true) {c d : BitVec w} (bs : List Bool)
    (h : run poly c bs = run poly d bs) : c = d := by
  induction bs generalizing c d with
  | nil => exact h
  | cons b bs ih =>
    have hstep := BitVec.xor_eq_zero_iff.mpr (ih h)
    rw [← bitStep_xor, Bool.xor_self] at hstep
    refine BitVec.xor_eq_zero_iff.mp (BitVec.eq_of_getLsbD_eq fun i hiw => ?_)
    rw [BitVec.getLsbD_zero]
    by_contra hi
    rw [Bool.not_eq_false] at hi
    by_cases hlast : i + 1 < w
    · exact run_ne_run hpoly hi (show [b].length = [b].length from rfl) hlast (ih h)
    · rw [bitStep, BitVec.msb_eq_getLsbD_last, show w - 1 = i by omega, hi] at hstep
      simpa [hpoly] using congrArg (BitVec.getLsbD · 0) hstep

theorem crc_eq_run (c : BitVec w) (s : List (BitVec 8)) :
    crc poly c s = run poly c (s.flatMap (topBits 8)) := by
  rw [run, List.foldl_flatMap]
  rfl

/-- **A burst is seen.** Bytes of at most `w` bits in all that are changed change the checksum. -/
theorem crc_burst (hpoly : poly.getLsbD 0 = true) (c : BitVec w) {pre post x y : List (BitVec 8)}
    (hlen : x.length = y.length) (hw : 8 * x.length ≤ w)
    (h : crc poly c (pre ++ x ++ post) = crc poly c (pre ++ y ++ post)) : x = y := by
  simp only [crc_eq_run, List.flatMap_append, run, List.foldl_append] at h
  have hsame := bits_eq_of_run_eq hpoly _ (by simp [List.length_flatMap, length_topBits, hlen])
    (by simpa [List.length_flatMap, length_topBits, Nat.mul_comm] using hw)
    (register_eq_of_run_eq hpoly _ h)
  have hblocks : x.map (topBits 8) = y.map (topBits 8) := by
    refine List.eq_iff_flatten_eq.mpr ⟨hsame, ?_⟩
    simp [Function.comp_def, length_topBits, hlen]
  refine List.map_injective_iff.mpr (fun a b hab => BitVec.eq_of_getMsbD_eq fun i hi => ?_) hblocks
  exact List.map_inj_left.mp hab i (List.mem_range.mpr hi)

end Errors

end Crc
