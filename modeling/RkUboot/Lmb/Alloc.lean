import RkUboot.Lib.Align
import RkUboot.Lmb.Reserved

set_option autoImplicit false

/-! # Allocation in `lib/lmb.c`

`__lmb_alloc_base` goes over the memory regions from the last one down. In a region it starts as high
as the size, the limit and the alignment allow, and goes on below each reserved region that it meets.
So it ends at the highest aligned address of the region at which nothing is in the way (`PlaceIn`).

The start is `limit - size`, in unsigned arithmetic. A limit that is smaller than the size makes it an
address near 2^64, outside of all memory, and there it is mostly free. What is in the way is found out
with sums of 64 bits, so a reserved region that reaches the end of the address space is not seen. -/

namespace Lmb

open Ranges

/-- `struct lmb` -/
structure LmbTables where
  memory : LmbRegion
  reserved : LmbRegion

/-! ## The model -/

/-- `lmb_addrs_overlap` -/
def lmbAddrsOverlap (base1 size1 base2 size2 : Nat) : Prop :=
  base1 < (base2 + size2) % 2 ^ 64 ∧ base2 < (base1 + size1) % 2 ^ 64
  deriving Decidable

/-- The loop of `lmb_overlaps_region`, `k` rounds from `i`. -/
def overlapLoop (rgn : LmbRegion) (base size : Nat) : Nat → Nat → Option Nat
  | 0, _ => none
  | k + 1, i =>
    if lmbAddrsOverlap base size (rgn.region i).base (rgn.region i).size then some i
    else overlapLoop rgn base size k (i + 1)

/-- `lmb_overlaps_region`; no region is -1. -/
def lmbOverlapsRegion (rgn : LmbRegion) (base size : Nat) : Option Nat :=
  overlapLoop rgn base size rgn.cnt 0

/-- `lmb_align_down` -/
def lmbAlignDown (addr size : Nat) : Nat :=
  (Align.down (BitVec.ofNat 64 addr) (BitVec.ofNat 64 size)).toNat

/-- `lmb_align_up` -/
def lmbAlignUp (addr size : Nat) : Nat :=
  (Align.down (BitVec.ofNat 64 addr + (BitVec.ofNat 64 size - 1)) (BitVec.ofNat 64 size)).toNat

/-- Where the search in a memory region starts; the region may be passed over. -/
def startBase (rgn : LmbProperty) (size align maxAddr : Nat) : Option Nat :=
  if rgn.size < size then none
  else if maxAddr = 0 then
    some (lmbAlignDown ((rgn.base + rgn.size + 2 ^ 64 - size) % 2 ^ 64) align)
  else if rgn.base < maxAddr then
    let base := (rgn.base + rgn.size) % 2 ^ 64
    let base := if base < rgn.base then 2 ^ 64 - 1 else base
    let base := min base maxAddr
    some (lmbAlignDown ((base + 2 ^ 64 - size) % 2 ^ 64) align)
  else none

/-- The `while` loop, `k` rounds at most: the address that is taken. -/
def placeLoop (reserved : LmbRegion) (lmbbase size align : Nat) : Nat → Nat → Option Nat
  | 0, _ => none
  | k + 1, base =>
    if base ≠ 0 ∧ lmbbase ≤ base then
      match lmbOverlapsRegion reserved base size with
      | none => some base
      | some j =>
        if (reserved.region j).base < size then none
        else placeLoop reserved lmbbase size align k (lmbAlignDown ((reserved.region j).base - size) align)
    else none

/-- The search in one region. The address gets smaller with every round. -/
def placeIn (reserved : LmbRegion) (rgn : LmbProperty) (size align maxAddr : Nat) : Option Nat :=
  match startBase rgn size align maxAddr with
  | none => none
  | some base => placeLoop reserved rgn.base size align (base + 1) base

/-- The `for` loop over the memory regions, with `i` of them left. -/
def allocLoop (lmb : LmbTables) (size align maxAddr : Nat) : Nat → Option Nat
  | 0 => none
  | i + 1 =>
    match placeIn lmb.reserved (lmb.memory.region i) size align maxAddr with
    | some base => some base
    | none => allocLoop lmb size align maxAddr i

/-- Model of `lmb_alloc_base`: the address (0 is a failure) and the reserved regions. -/
def lmbAllocBase (lmb : LmbTables) (size align maxAddr : Nat) : Option (Nat × LmbRegion) :=
  match allocLoop lmb size align maxAddr lmb.memory.cnt with
  | none => some (0, lmb.reserved)
  | some base =>
    (lmbAddRegion lmb.reserved base (lmbAlignUp size align)).map fun p =>
      if p.1 < 0 then (0, p.2) else (base, p.2)

/-- `lmb_alloc` -/
def lmbAlloc (lmb : LmbTables) (size align : Nat) : Option (Nat × LmbRegion) := lmbAllocBase lmb size align 0

/-! ## The highest free place -/

/-- Nothing is in the way at `a`, as far as the code can see. -/
def FreeAt (reserved : LmbRegion) (size a : Nat) : Prop :=
  ∀ j < reserved.cnt, ¬ lmbAddrsOverlap a size (reserved.region j).base (reserved.region j).size

/-- The highest aligned address from `start` down at which nothing is in the way. From a start at
    which the range does not fit below 2^64 the search does not go on. -/
structure PlaceIn (reserved : LmbRegion) (lmbbase size align start a : Nat) : Prop where
  aligned : align ∣ a
  pos : 0 < a
  base_le : lmbbase ≤ a
  le_start : a ≤ start
  free : FreeAt reserved size a
  highest : ∀ a', align ∣ a' → a < a' → a' ≤ start → ¬ FreeAt reserved size a'
  fits : a = start ∨ start + size < 2 ^ 64

variable {a addr j maxAddr : Nat}

section Align

variable {k : Nat} (hk : k < 64)

include hk in
theorem lmbAlignDown_eq (haddr : addr < 2 ^ 64) :
    lmbAlignDown addr (2 ^ k) = addr / 2 ^ k * 2 ^ k := by
  rw [lmbAlignDown, Align.toNat_down _ hk, BitVec.toNat_ofNat, Nat.mod_eq_of_lt haddr]

include hk in
/-- The highest multiple that is not above the address. -/
theorem lmbAlignDown_spec (haddr : addr < 2 ^ 64) :
    2 ^ k ∣ lmbAlignDown addr (2 ^ k) ∧ lmbAlignDown addr (2 ^ k) ≤ addr ∧
      ∀ a, 2 ^ k ∣ a → a ≤ addr → a ≤ lmbAlignDown addr (2 ^ k) := by
  rw [lmbAlignDown_eq hk haddr]
  refine ⟨Nat.dvd_mul_left _ _, Nat.div_mul_le_self _ _, ?_⟩
  rintro a ⟨c, rfl⟩ hle
  rw [Nat.mul_comm]
  exact Nat.mul_le_mul_right _ ((Nat.le_div_iff_mul_le (Nat.two_pow_pos k)).mpr (by rwa [Nat.mul_comm]))

end Align

variable {rgn : LmbProperty}

section Search

variable {reserved : LmbRegion} {lmbbase size start k : Nat}

theorem overlapLoop_none (base : Nat) (n i : Nat) :
    overlapLoop reserved base size n i = none ↔
      ∀ j, i ≤ j → j < i + n →
        ¬ lmbAddrsOverlap base size (reserved.region j).base (reserved.region j).size := by
  induction n generalizing i with
  | zero => exact iff_of_true rfl fun j h1 h2 => by omega
  | succ n ih =>
    rw [forall_from_succ, ← ih, overlapLoop]
    split <;> grind

theorem overlapLoop_some {base n i : Nat} (h : overlapLoop reserved base size n i = some j) :
    i ≤ j ∧ j < i + n ∧ lmbAddrsOverlap base size (reserved.region j).base (reserved.region j).size := by
  induction n generalizing i with
  | zero => exact absurd h (by simp [overlapLoop])
  | succ n ih =>
    rw [overlapLoop] at h
    split at h
    · next hit =>
      obtain rfl := Option.some.inj h
      exact ⟨le_refl _, by omega, hit⟩
    · obtain ⟨h1, h2, hover⟩ := ih h
      exact ⟨by omega, by omega, hover⟩

theorem lmbOverlapsRegion_none (base : Nat) :
    lmbOverlapsRegion reserved base size = none ↔ FreeAt reserved size base := by
  rw [lmbOverlapsRegion, overlapLoop_none]
  exact ⟨fun h j hj => h j (Nat.zero_le j) (by omega), fun h j _ hj => h j (by omega)⟩

/-- The loop finds the highest place. The invariant: what is above `base` is not free, and the range
    at `start` fits below 2^64 as soon as the loop has left `start`. -/
theorem placeLoop_eq (hk : k < 64) (hsize : size < 2 ^ 64) (n base : Nat) (hn : base < n)
    (hbase : base ≤ start) (haligned : 2 ^ k ∣ base)
    (habove : ∀ a', 2 ^ k ∣ a' → base < a' → a' ≤ start → ¬ FreeAt reserved size a')
    (hfits : base = start ∨ start + size < 2 ^ 64) (a : Nat) :
    placeLoop reserved lmbbase size (2 ^ k) n base = some a ↔
      PlaceIn reserved lmbbase size (2 ^ k) start a := by
  induction n generalizing base with
  | zero => omega
  | succ n ih =>
    -- a place is not above `base`
    have hle : PlaceIn reserved lmbbase size (2 ^ k) start a → a ≤ base := by
      intro hp
      by_contra hgt
      exact habove a hp.aligned (by omega) hp.le_start hp.free
    rw [placeLoop]
    by_cases hgo : base ≠ 0 ∧ lmbbase ≤ base
    · rw [if_pos hgo]
      cases hover : lmbOverlapsRegion reserved base size with
      | none =>
        rw [lmbOverlapsRegion_none] at hover
        rw [Option.some.injEq]
        constructor
        · rintro rfl
          exact ⟨haligned, by omega, hgo.2, hbase, hover, habove, hfits⟩
        intro hp
        by_contra hne
        have := hle hp
        exact hp.highest base haligned (by omega) hbase hover
      | some j =>
        obtain ⟨-, hj, hlow, hhigh⟩ := overlapLoop_some hover
        rw [Nat.zero_add] at hj
        dsimp only
        -- the region is in the way at every address from `base` down to its own base
        have hway : base + size < 2 ^ 64 → ∀ a', (reserved.region j).base < a' + size → a' ≤ base →
            ¬ FreeAt reserved size a' := by
          intro hwrap a' h1 h2 hfree
          refine hfree j hj ⟨by omega, ?_⟩
          rw [Nat.mod_eq_of_lt (by omega)]
          exact h1
        by_cases hsmall : (reserved.region j).base < size
        · rw [if_pos hsmall]
          refine iff_of_false (by simp) fun hp => ?_
          have hab := hle hp
          by_cases hwrap : base + size < 2 ^ 64
          · exact hway hwrap a (by omega) hab hp.free
          have hstay : base = start := by omega
          have : a = base := by
            rcases hp.fits with heq | hlt
            · rw [heq, hstay]
            · omega
          subst this
          exact hp.free j hj ⟨hlow, hhigh⟩
        · rw [if_neg hsmall]
          have hwrap : base + size < 2 ^ 64 := by
            omega
          rw [Nat.mod_eq_of_lt hwrap] at hhigh
          obtain ⟨hdvd, hnext, hmax⟩ :=
            lmbAlignDown_spec hk (show (reserved.region j).base - size < 2 ^ 64 by omega)
          refine ih _ (by omega) (by omega) hdvd ?_ ?_
          · intro a' ha' h1 h2
            rcases Nat.lt_or_ge base a' with habove' | hbelow
            · exact habove a' ha' habove' h2
            refine hway hwrap a' ?_ hbelow
            by_contra hle'
            have := hmax a' ha' (by omega)
            omega
          · omega
    · rw [if_neg hgo]
      refine iff_of_false (by simp) fun hp => ?_
      have := hle hp
      have := hp.pos
      have := hp.base_le
      omega

/-- The start is aligned. -/
theorem startBase_dvd (hk : k < 64)
    (h : startBase rgn size (2 ^ k) maxAddr = some start) : 2 ^ k ∣ start := by
  unfold startBase at h
  split_ifs at h
  · obtain rfl := Option.some.inj h
    exact (lmbAlignDown_spec hk (Nat.mod_lt _ (by decide))).1
  · obtain rfl := Option.some.inj h
    exact (lmbAlignDown_spec hk (Nat.mod_lt _ (by decide))).1

theorem placeIn_eq (hk : k < 64) (hsize : size < 2 ^ 64) (a : Nat) :
    placeIn reserved rgn size (2 ^ k) maxAddr = some a ↔
      ∃ start, startBase rgn size (2 ^ k) maxAddr = some start ∧
        PlaceIn reserved rgn.base size (2 ^ k) start a := by
  unfold placeIn
  cases hstart : startBase rgn size (2 ^ k) maxAddr with
  | none => exact iff_of_false (by simp) (by simp)
  | some start =>
    rw [placeLoop_eq hk hsize (start + 1) start (Nat.lt_succ_self _)
      le_rfl (startBase_dvd hk hstart) (fun a' _ h1 h2 => by omega) (.inl rfl) a]
    simp only [Option.some.injEq, exists_eq_left']

end Search

/-! ## What is returned -/

/-- Memory region `i` has a place at `a`. -/
def HasPlace (lmb : LmbTables) (size align maxAddr i a : Nat) : Prop :=
  ∃ start, startBase (lmb.memory.region i) size align maxAddr = some start ∧
    PlaceIn lmb.reserved (lmb.memory.region i).base size align start a

/-- The search ends at `a`: it is a place in a memory region, and the regions behind it have none. -/
def Placed (lmb : LmbTables) (size align maxAddr a : Nat) : Prop :=
  ∃ i < lmb.memory.cnt, HasPlace lmb size align maxAddr i a ∧
    ∀ i', i < i' → i' < lmb.memory.cnt → ∀ a', ¬ HasPlace lmb size align maxAddr i' a'

/-- `lmb_add_region` enters the range for `a`. -/
def Takes (lmb : LmbTables) (size align a : Nat) : Prop :=
  ∃ ret rgn, lmbAddRegion lmb.reserved a (lmbAlignUp size align) = some (ret, rgn) ∧ 0 ≤ ret

/-- What an allocated range has to be. -/
structure SoundAt (lmb : LmbTables) (size align maxAddr a : Nat) : Prop where
  aligned : align ∣ a
  inside : ∃ i < lmb.memory.cnt, (lmb.memory.region i).base ≤ a ∧ a + size ≤ (lmb.memory.region i).stop
  below : maxAddr ≠ 0 → a + size ≤ maxAddr
  disjoint : ∀ j < lmb.reserved.cnt, ∀ x, a ≤ x → x < a + size → ¬ (lmb.reserved.region j).Has x

section Result

variable {lmb : LmbTables} {size k maxAddr : Nat}

theorem allocLoop_eq (hk : k < 64) (hsize : size < 2 ^ 64) (n a : Nat) :
    allocLoop lmb size (2 ^ k) maxAddr n = some a ↔
      ∃ i < n, HasPlace lmb size (2 ^ k) maxAddr i a ∧
        ∀ i', i < i' → i' < n → ∀ a', ¬ HasPlace lmb size (2 ^ k) maxAddr i' a' := by
  induction n with
  | zero => exact iff_of_false (by simp [allocLoop]) (by rintro ⟨i, hi, -⟩; omega)
  | succ n ih =>
    have hhere : ∀ a', placeIn lmb.reserved (lmb.memory.region n) size (2 ^ k) maxAddr = some a' ↔
        HasPlace lmb size (2 ^ k) maxAddr n a' := fun a' => placeIn_eq hk hsize a'
    rw [allocLoop]
    cases hplace : placeIn lmb.reserved (lmb.memory.region n) size (2 ^ k) maxAddr with
    | some b =>
      have hb := (hhere b).mp hplace
      constructor
      · rintro ⟨⟩
        exact ⟨n, Nat.lt_succ_self n, hb, fun i' h1 h2 => by omega⟩
      rintro ⟨i, hi, ha, hnone⟩
      rcases Nat.lt_or_eq_of_le (Nat.le_of_lt_succ hi) with hlt | rfl
      · exact absurd hb (hnone n hlt (Nat.lt_succ_self n) b)
      · exact hplace.symm.trans ((hhere a).mpr ha)
    | none =>
      rw [ih]
      grind

/-- **What `lmb_alloc_base` returns**: the place at which the search ends, if the table takes it. -/
theorem lmbAllocBase_returns (hk : k < 64) (hsize : size < 2 ^ 64) (ha : a ≠ 0) :
    (∃ rgn, lmbAllocBase lmb size (2 ^ k) maxAddr = some (a, rgn)) ↔
      Placed lmb size (2 ^ k) maxAddr a ∧ Takes lmb size (2 ^ k) a := by
  have hloop := fun b => @allocLoop_eq lmb size k maxAddr hk hsize lmb.memory.cnt b
  unfold lmbAllocBase
  cases hfound : allocLoop lmb size (2 ^ k) maxAddr lmb.memory.cnt with
  | none =>
    refine iff_of_false ?_ ?_
    · rintro ⟨rgn, h⟩
      exact ha (Prod.mk.inj (Option.some.inj h)).1.symm
    rintro ⟨hplaced, -⟩
    have := (hloop a).mpr hplaced
    rw [hfound] at this
    exact absurd this (by simp)
  | some b =>
    have hb := (hloop b).mp hfound
    dsimp only
    constructor
    · rintro ⟨rgn, h⟩
      obtain ⟨⟨ret, rgn'⟩, hadd, hp⟩ := Option.map_eq_some_iff.mp h
      split at hp
      · exact absurd (Prod.mk.inj hp).1.symm ha
      · next hret =>
        obtain ⟨rfl, rfl⟩ := Prod.mk.inj hp
        exact ⟨hb, ret, rgn', hadd, by omega⟩
    · rintro ⟨hplaced, ret, rgn, hadd, hret⟩
      have hab := (hloop a).mpr hplaced
      rw [hfound] at hab
      obtain rfl := Option.some.inj hab
      refine ⟨rgn, ?_⟩
      rw [hadd, Option.map_some, if_neg (by dsimp only; omega)]

/-- Where the search starts when the limit is not smaller than the size. -/
theorem startBase_le {start : Nat} (hk : k < 64) (hstop : rgn.stop < 2 ^ 64)
    (hlimit : maxAddr = 0 ∨ size ≤ maxAddr) (h : startBase rgn size (2 ^ k) maxAddr = some start) :
    start + size ≤ rgn.stop ∧ (maxAddr ≠ 0 → start + size ≤ maxAddr) := by
  have hdown := fun {x : Nat} (hx : x < 2 ^ 64) => (lmbAlignDown_spec hk hx).2.1
  unfold Range.stop at *
  unfold startBase at h
  split_ifs at h with hsmall hany hbelow
  · obtain rfl := Option.some.inj h
    have := hdown (Nat.mod_lt (rgn.base + rgn.size + 2 ^ 64 - size) (by decide))
    exact ⟨by omega, fun hne => absurd hany hne⟩
  obtain rfl := Option.some.inj h
  rw [Nat.mod_eq_of_lt hstop, if_neg (by omega)]
  have hle := min_le_left (rgn.base + rgn.size) maxAddr
  have hle' := min_le_right (rgn.base + rgn.size) maxAddr
  have hge : size ≤ min (rgn.base + rgn.size) maxAddr := le_min (by omega) (by omega)
  have := hdown (Nat.mod_lt (min (rgn.base + rgn.size) maxAddr + 2 ^ 64 - size) (by decide))
  generalize min (rgn.base + rgn.size) maxAddr = top at *
  omega

/-- A place is free of a region that ends below 2^64. -/
theorem free_of_placeIn (hfree : FreeAt lmb.reserved size a) (hj : j < lmb.reserved.cnt)
    (hwrap : a + size < 2 ^ 64) (hstop : (lmb.reserved.region j).stop < 2 ^ 64) (x : Nat) (h1 : a ≤ x)
    (h2 : x < a + size) : ¬ (lmb.reserved.region j).Has x := by
  rintro ⟨h3, h4⟩
  refine hfree j hj ⟨?_, ?_⟩
  · unfold Range.stop at hstop h4
    rw [Nat.mod_eq_of_lt hstop]
    omega
  · omega

/-- A place is sound if the limit is not smaller than the size, and the reserved regions that reach
    2^64 start behind it. -/
theorem Placed.sound (hk : k < 64)
    (hmem : ∀ i < lmb.memory.cnt, (lmb.memory.region i).stop < 2 ^ 64)
    (hlimit : maxAddr = 0 ∨ size ≤ maxAddr)
    (hreach : ∀ j < lmb.reserved.cnt, 2 ^ 64 ≤ (lmb.reserved.region j).stop →
      a + size ≤ (lmb.reserved.region j).base)
    (h : Placed lmb size (2 ^ k) maxAddr a) : SoundAt lmb size (2 ^ k) maxAddr a := by
  obtain ⟨i, hi, ⟨start, hstart, hp⟩, -⟩ := h
  have hstop := hmem i hi
  obtain ⟨htop, hmax⟩ := startBase_le hk hstop hlimit hstart
  have hle := hp.le_start
  refine ⟨hp.aligned, ⟨i, hi, hp.base_le, by omega⟩, fun hne => ?_, fun j hj x h1 h2 => ?_⟩
  · omega
  by_cases hend : (lmb.reserved.region j).stop < 2 ^ 64
  · exact free_of_placeIn hp.free hj (by omega) hend x h1 h2
  · have := hreach j hj (by omega)
    exact fun hx => absurd hx.1 (by omega)

/-- **An allocation is sound**: aligned, within one memory region and below the limit, and apart from
    what was reserved, if and only if this holds of the place at which the search ends, should the
    table take it: the limit is 0 or not smaller than the size, and the reserved regions that reach
    2^64 start behind the place. So it is sound if the limit is 0 or not smaller than the size and the
    reserved regions end below 2^64. -/
theorem lmbAllocBase_sound_iff (hk : k < 64) (hsize : 1 ≤ size) (hsize64 : size < 2 ^ 64)
    (hmem : ∀ i < lmb.memory.cnt, (lmb.memory.region i).stop ≤ 2 ^ 63) :
    ((∀ a rgn, lmbAllocBase lmb size (2 ^ k) maxAddr = some (a, rgn) → a ≠ 0 →
        SoundAt lmb size (2 ^ k) maxAddr a) ↔
      ∀ a, Placed lmb size (2 ^ k) maxAddr a → Takes lmb size (2 ^ k) a →
        (maxAddr = 0 ∨ size ≤ maxAddr) ∧ ∀ j < lmb.reserved.cnt,
          2 ^ 64 ≤ (lmb.reserved.region j).stop → a + size ≤ (lmb.reserved.region j).base) ∧
    ((maxAddr = 0 ∨ size ≤ maxAddr) → (∀ j < lmb.reserved.cnt, (lmb.reserved.region j).stop < 2 ^ 64) →
      ∀ a rgn, lmbAllocBase lmb size (2 ^ k) maxAddr = some (a, rgn) → a ≠ 0 →
        SoundAt lmb size (2 ^ k) maxAddr a) := by
  have hmem64 : ∀ i < lmb.memory.cnt, (lmb.memory.region i).stop < 2 ^ 64 := fun i hi =>
    lt_of_le_of_lt (hmem i hi) (by decide)
  refine ⟨⟨?_, ?_⟩, ?_⟩
  · intro hsound a hplaced htakes
    have hpos : a ≠ 0 := by
      obtain ⟨i, -, ⟨start, -, hp⟩, -⟩ := hplaced
      exact Nat.pos_iff_ne_zero.mp hp.pos
    obtain ⟨rgn, hret⟩ := (lmbAllocBase_returns hk hsize64 hpos).mpr ⟨hplaced, htakes⟩
    have hs := hsound a rgn hret hpos
    obtain ⟨i, hi, -, hend⟩ := hs.inside
    have hlow := hmem i hi
    refine ⟨?_, fun j hj hreach => ?_⟩
    · by_contra hno
      rw [not_or] at hno
      have := hs.below hno.1
      omega
    · -- otherwise the first common address is in both
      by_contra hover
      refine hs.disjoint j hj (max a (lmb.reserved.region j).base) (le_max_left _ _)
        (max_lt (by omega) (by omega)) ⟨le_max_right _ _, max_lt (by omega) ?_⟩
      omega
  · intro hcond a rgn hret ha
    obtain ⟨hplaced, htakes⟩ := (lmbAllocBase_returns hk hsize64 ha).mp ⟨rgn, hret⟩
    obtain ⟨hlimit, hreach⟩ := hcond a hplaced htakes
    exact hplaced.sound hk hmem64 hlimit hreach
  · intro hlimit hends a rgn hret ha
    obtain ⟨hplaced, -⟩ := (lmbAllocBase_returns hk hsize64 ha).mp ⟨rgn, hret⟩
    refine hplaced.sound hk hmem64 hlimit fun j hj hreach => ?_
    have := hends j hj
    omega

/-- Memory from 0 to 0x4000, with one reserved region. -/
def smallMemory (r : Range) : LmbTables :=
  ⟨⟨1, fun _ => ⟨0, 0x4000⟩⟩, ⟨1, Function.update zeros 0 r⟩⟩

/-- An allocation below a reserved region. -/
theorem lmbAllocBase_sound_below :
    (lmbAllocBase (smallMemory ⟨0x3800, 0x800⟩) 0x1000 (2 ^ 12) 0x4000).map Prod.fst = some 0x2000 ∧
      SoundAt (smallMemory ⟨0x3800, 0x800⟩) 0x1000 (2 ^ 12) 0x4000 0x2000 := by
  have hret : (lmbAllocBase (smallMemory ⟨0x3800, 0x800⟩) 0x1000 (2 ^ 12) 0x4000).map Prod.fst
      = some 0x2000 := by decide +kernel
  obtain ⟨⟨a, rgn⟩, hcall, rfl⟩ := Option.map_eq_some_iff.mp hret
  exact ⟨hret, (lmbAllocBase_sound_iff (by decide) (by decide) (by decide) (by decide +kernel)).2
    (.inr (by decide)) (by decide +kernel) _ _ hcall (by decide)⟩

/-- With a limit of 0x1000, 0x2000 bytes are given an address near 2^64. A reserved region that ends at
    2^64 is not seen. -/
theorem lmbAllocBase_unsound :
    (lmbAllocBase (smallMemory ⟨0x3800, 0x800⟩) 0x2000 (2 ^ 12) 0x1000).map Prod.fst
        = some (2 ^ 64 - 0x1000) ∧
      ¬ SoundAt (smallMemory ⟨0x3800, 0x800⟩) 0x2000 (2 ^ 12) 0x1000 (2 ^ 64 - 0x1000) ∧
    (lmbAllocBase (smallMemory ⟨0x1000, 2 ^ 64 - 0x1000⟩) 0x1000 (2 ^ 12) 0).map Prod.fst
        = some 0x3000 ∧
      ¬ SoundAt (smallMemory ⟨0x1000, 2 ^ 64 - 0x1000⟩) 0x1000 (2 ^ 12) 0 0x3000 := by
  refine ⟨by decide +kernel, fun h => ?_, by decide +kernel, fun h => ?_⟩
  · exact absurd (h.below (by decide)) (by decide)
  · exact h.disjoint 0 (by decide) 0x3000 le_rfl (by decide) ⟨by decide, by decide⟩

end Result

end Lmb
