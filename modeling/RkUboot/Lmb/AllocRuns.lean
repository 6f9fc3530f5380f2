import RkUboot.Lmb.Alloc

set_option autoImplicit false

/-! # Runs of allocations

`__lmb_alloc_base` looks for a place for `size` bytes and then reserves `lmb_align_up(size, align)`
bytes there. What it adds behind the place may be reserved already, and then the table has two regions
that overlap. `Request.Fits` excludes this, in terms of the place at which the search ends. -/

namespace Lmb

open Ranges

inductive Request where
  | alloc (size align : Nat)
  | reserve (r : Range)

/-- The reserved regions after a call, also after one that fails. -/
def call (memory reserved : LmbRegion) : Request → Option LmbRegion
  | .alloc size align => (lmbAlloc ⟨memory, reserved⟩ size align).map Prod.snd
  | .reserve r => (lmbReserve reserved r.base r.size).map Prod.snd

/-- A table with regions in order, or as `lmb_init` leaves it. -/
def Usable (rgn : LmbRegion) : Prop := Good rgn ∧ 0 < rgn.cnt ∨ rgn.cnt = 1 ∧ (rgn.region 0).size = 0

/-- Where the search ends, no reserved region starts between the end of the place and the end of what
    is entered; the memory ends so far below 2^64 that the latter is an address. A range that is to be
    reserved is not empty and free. -/
def Request.Fits (memory reserved : LmbRegion) : Request → Prop
  | .alloc size align => 0 < size ∧ size < 2 ^ 64 ∧ (∃ k < 64, align = 2 ^ k) ∧
      (∀ i < memory.cnt, (memory.region i).stop + align ≤ 2 ^ 64) ∧
      ∀ a, Placed ⟨memory, reserved⟩ size align 0 a → ∀ j < reserved.cnt,
        a + size ≤ (reserved.region j).base → a + lmbAlignUp size align ≤ (reserved.region j).base
  | .reserve r => Valid r ∧ ∀ x, r.Has x → ¬ reserved.Reserves x

section Steps

variable {memory reserved : LmbRegion}

theorem Usable.sorted {rgn : LmbRegion} (h : Usable rgn) : rgn.cnt ≤ maxLmbRegions ∧ Sorted rgn := by
  rcases h with ⟨hgood, -⟩ | ⟨hcnt, -⟩
  · exact ⟨hgood.cnt_le, hgood.ordered.lt⟩
  · exact ⟨hcnt ▸ by decide, fun i j hij hj => by omega⟩

/-- A range that is apart from the regions is added, or the table stays as it is. -/
theorem Usable.addRegion {rgn : LmbRegion} {r : Range} (h : Usable rgn) (hr : Valid r)
    (hapart : Good rgn → Apart rgn r) :
    ∃ ret rgn', lmbAddRegion rgn r.base r.size = some (ret, rgn') ∧ Usable rgn' := by
  rcases h with ⟨hgood, hpos⟩ | ⟨hcnt, hempty⟩
  · obtain ⟨ret, rgn', hadd, hfailed, hok⟩ := lmbAddRegion_good hgood hpos hr.1 hr.2 (hapart hgood)
    refine ⟨ret, rgn', hadd, .inl ?_⟩
    by_cases hret : 0 ≤ ret
    · exact ⟨(hok hret).1, (hok hret).2.1⟩
    · rw [hfailed (not_le.mp hret)]
      exact ⟨hgood, hpos⟩
  · -- the region replaces the empty one
    have hfirst : Function.update rgn.region 0 r 0 = r := Function.update_self ..
    have hgood := (good_single (Function.update rgn.region 0 r) (by rwa [hfirst])).1
    refine ⟨0, ⟨1, Function.update rgn.region 0 r⟩, ?_, .inl ⟨hgood, Nat.one_pos⟩⟩
    rw [lmbAddRegion, if_pos ⟨hcnt, hempty⟩, hcnt]

theorem lmbAlignUp_bounds {k size : Nat} (hk : k < 64) (hsize : size + 2 ^ k ≤ 2 ^ 64) :
    2 ^ k ∣ lmbAlignUp size (2 ^ k) ∧ size ≤ lmbAlignUp size (2 ^ k) ∧
      lmbAlignUp size (2 ^ k) < size + 2 ^ k := by
  have hpos := Nat.two_pow_pos k
  have hmask : (BitVec.ofNat 64 (2 ^ k) - 1).toNat = 2 ^ k - 1 := Align.toNat_mask hk
  have hsum : BitVec.ofNat 64 size + (BitVec.ofNat 64 (2 ^ k) - 1)
      = BitVec.ofNat 64 (size + 2 ^ k - 1) := by
    apply BitVec.eq_of_toNat_eq
    rw [BitVec.toNat_add, hmask, BitVec.toNat_ofNat, BitVec.toNat_ofNat, Nat.mod_add_mod,
      Nat.add_sub_assoc hpos]
  have heq : lmbAlignUp size (2 ^ k) = lmbAlignDown (size + 2 ^ k - 1) (2 ^ k) := by
    rw [lmbAlignUp, hsum, lmbAlignDown]
  have hlast := Nat.lt_div_mul_add hpos (a := size + 2 ^ k - 1)
  rw [heq, lmbAlignDown_eq hk (by omega)]
  have hle := Nat.div_mul_le_self (size + 2 ^ k - 1) (2 ^ k)
  exact ⟨Nat.dvd_mul_left _ _, by omega, by omega⟩

/-- For a size that is a multiple of the alignment nothing is added, so the allocation fits whatever
    is reserved. -/
theorem Request.fits_of_dvd {k size : Nat} (hk : k < 64) (hpos : 0 < size) (hsize : size < 2 ^ 64)
    (hdvd : 2 ^ k ∣ size) (hmem : ∀ i < memory.cnt, (memory.region i).stop + 2 ^ k ≤ 2 ^ 64) :
    (Request.alloc size (2 ^ k)).Fits memory reserved := by
  have hroom : 2 ^ k ≤ 2 ^ 64 - size :=
    Nat.le_of_dvd (by omega) (Nat.dvd_sub (Nat.pow_dvd_pow 2 hk.le) hdvd)
  obtain ⟨hup, hlow, hhigh⟩ := lmbAlignUp_bounds hk (show size + 2 ^ k ≤ 2 ^ 64 by omega)
  have hzero := Nat.eq_zero_of_dvd_of_lt (Nat.dvd_sub hup hdvd) (by omega)
  have heq : lmbAlignUp size (2 ^ k) = size := by omega
  exact ⟨hpos, hsize, ⟨k, hk, rfl⟩, hmem, fun a _ j _ hle => heq.symm ▸ hle⟩

/-- What is entered for a place is apart from the regions. -/
theorem Placed.entered {size k a : Nat} (hk : k < 64)
    (hmem : ∀ i < memory.cnt, (memory.region i).stop + 2 ^ k ≤ 2 ^ 64) (hsize : 0 < size)
    (hgap : ∀ j < reserved.cnt, a + size ≤ (reserved.region j).base →
      a + lmbAlignUp size (2 ^ k) ≤ (reserved.region j).base)
    (h : Placed ⟨memory, reserved⟩ size (2 ^ k) 0 a) :
    Valid ⟨a, lmbAlignUp size (2 ^ k)⟩ ∧
      (Good reserved → Apart reserved ⟨a, lmbAlignUp size (2 ^ k)⟩) := by
  have hpow := Nat.two_pow_pos k
  obtain ⟨i, hi, ⟨start, hstart, hp⟩, -⟩ := h
  have hstop := hmem i hi
  have htop := (startBase_le hk (show (memory.region i).stop < 2 ^ 64 by omega) (.inl rfl) hstart).1
  have hle := hp.le_start
  have hfits : a + size + 2 ^ k ≤ 2 ^ 64 := by
    omega
  obtain ⟨-, hlow, hhigh⟩ := lmbAlignUp_bounds hk (show size + 2 ^ k ≤ 2 ^ 64 by omega)
  refine ⟨⟨by dsimp only; omega, by unfold Range.stop; dsimp only; omega⟩, fun hgood j hj => ?_⟩
  -- the place itself is free, so the region lies behind it or before it
  rcases Nat.lt_or_ge a (reserved.region j).stop with hbefore | hbehind
  · refine .inl (hgap j hj (Nat.le_of_not_lt fun hover => hp.free j hj ⟨?_, ?_⟩))
    · rwa [hgood.stop_mod hj]
    · rwa [Nat.mod_eq_of_lt (by omega)]
  · exact .inr hbehind

/-- One call. -/
theorem call_usable (request : Request) (h : Usable reserved) (hfits : request.Fits memory reserved) :
    ∃ reserved', call memory reserved request = some reserved' ∧ Usable reserved' := by
  cases request with
  | alloc size align =>
    obtain ⟨hpos, hsize, ⟨k, hk, rfl⟩, hmem, hgap⟩ := hfits
    rw [call, lmbAlloc, lmbAllocBase]
    cases hfound : allocLoop ⟨memory, reserved⟩ size (2 ^ k) 0 memory.cnt with
    | none => exact ⟨reserved, rfl, h⟩
    | some a =>
      have hplaced : Placed ⟨memory, reserved⟩ size (2 ^ k) 0 a :=
        (allocLoop_eq hk hsize memory.cnt a).mp hfound
      obtain ⟨hvalid, hapart⟩ := hplaced.entered hk hmem hpos (hgap a hplaced)
      obtain ⟨ret, rgn', hadd, husable⟩ := h.addRegion hvalid hapart
      refine ⟨rgn', ?_, husable⟩
      simp only [hadd, Option.map_some, apply_ite Prod.snd, ite_self]
  | reserve r =>
    obtain ⟨hr, hfree⟩ := hfits
    have hapart : Good reserved → Apart reserved r := fun hgood j hj =>
      Range.apart (fun x hx hxj => hfree x hx ⟨j, hj, hxj⟩) hr.1 (hgood.ordered.pos j hj)
    obtain ⟨ret, rgn', hadd, husable⟩ := h.addRegion hr hapart
    exact ⟨rgn', by rw [call, lmbReserve, hadd]; rfl, husable⟩

end Steps

/-- **The reserved regions stay sorted and disjoint** in every run of `lmb_alloc` and `lmb_reserve`
    whose calls fit. -/
theorem allocs_keep_sorted (memory reserved : LmbRegion) (requests : List Request)
    (hstart : Usable reserved)
    (hrun : Run.AlongExec (call memory) (fun rgn request => request.Fits memory rgn) reserved requests) :
    ∃ reserved', Run.exec (call memory) reserved requests = some reserved' ∧
      reserved'.cnt ≤ maxLmbRegions ∧ Sorted reserved' := by
  obtain ⟨reserved', hexec, husable⟩ := Run.exec_invariant (I := Usable)
    (fun rgn request hrgn hfits => call_usable request hrgn hfits) requests reserved hstart hrun
  exact ⟨reserved', hexec, husable.sorted⟩

/-- The first 0x900 bytes of a page are allocated below a region that starts at its end. -/
theorem allocs_keep_sorted_page :
    (Run.exec (call ⟨1, fun _ => ⟨0, 0x4000⟩⟩) ⟨1, Function.update zeros 0 ⟨0x3000, 0x1000⟩⟩
        [.alloc 0x900 0x1000]).map (fun rgn => (rgn.cnt, rgn.region 0)) = some (1, ⟨0x2000, 0x2000⟩) ∧
      ∃ reserved', Run.exec (call ⟨1, fun _ => ⟨0, 0x4000⟩⟩)
        ⟨1, Function.update zeros 0 ⟨0x3000, 0x1000⟩⟩ [.alloc 0x900 0x1000] = some reserved' ∧
        reserved'.cnt ≤ maxLmbRegions ∧ Sorted reserved' := by
  refine ⟨by decide +kernel, allocs_keep_sorted _ _ _ ?_ ⟨?_, fun _ _ => trivial⟩⟩
  · exact .inl ⟨(good_single _ ⟨by decide, by decide⟩).1, by decide⟩
  · refine ⟨by decide, by decide, ⟨12, by decide, rfl⟩, by decide, fun a ha j hj hle => ?_⟩
    obtain ⟨i, -, ⟨start, -, hp⟩, -⟩ := ha
    obtain ⟨c, rfl⟩ := hp.aligned
    obtain rfl : j = 0 := Nat.lt_one_iff.mp hj
    have hup : lmbAlignUp 0x900 0x1000 = 0x1000 := by decide
    have hbase : (Function.update zeros 0 (⟨0x3000, 0x1000⟩ : Range) 0).base = 0x3000 := rfl
    dsimp only at hle ⊢
    rw [hbase] at hle ⊢
    rw [hup]
    omega

/-- The first half of a page is allocated, and the whole page entered, whose second half begins with
    a region. -/
theorem alloc_enters_reserved :
    (lmbAlloc ⟨⟨1, fun _ => ⟨0, 0x1900⟩⟩, ⟨1, Function.update zeros 0 ⟨0x1800, 0x100⟩⟩⟩ 0x800 0x1000).map
        (fun p => (p.1, p.2.cnt, p.2.region 0, p.2.region 1))
      = some (0x1000, 2, ⟨0x1000, 0x1000⟩, ⟨0x1800, 0x100⟩) ∧
    ∃ rgn, call ⟨1, fun _ => ⟨0, 0x1900⟩⟩ ⟨1, Function.update zeros 0 ⟨0x1800, 0x100⟩⟩
      (.alloc 0x800 0x1000) = some rgn ∧ ¬ Sorted rgn := by
  refine ⟨by decide +kernel, _, rfl, fun h => ?_⟩
  exact absurd (h 0 1 (by decide) (by decide +kernel)) (by decide +kernel)

end Lmb
