import RkUboot.Lib.Mem

set_option autoImplicit false

/-! # Where the parts of a boot image lie

An Android boot image is a page that holds the header, then kernel, ramdisk and second, each padded
to whole pages. Its layout is computed four times: `SecureModeVerifyBootImage` finds the parts to be
hashed in the downloaded image, in bytes; `rk_load_image_from_storage` finds the parts to be booted
in the partition, in blocks; and `rkimage_load_fdt` and `get_base_offset` find the block of the
second part once more. `LbaRead.Delivers` relates the first two: a read delivers, in order, the bytes
of the image from a given offset on. -/

namespace SecureBoot

/-! ## Arithmetic -/

/-- The macro `ALIGN(x, a)` on `uint32_t`. It rounds up to a multiple of `a` only if `a` is a power of
two. -/
def align (x a : UInt32) : UInt32 := (x + (a - 1)) &&& ~~~(a - 1)

/-- The macro `DIV_ROUND_UP(n, d)`. -/
def divRoundUp (n d : Nat) : Nat := (n + d - 1) / d

/-- The conversion to `int`. -/
def toInt (n : Int) : Int := n.bmod (2 ^ 32)

section Align

variable {a : UInt32}

theorem toNat_pred (ha : a ≠ 0) : (a - 1).toNat = a.toNat - 1 := by
  have hpos : a.toNat ≠ 0 := fun h => ha (UInt32.toNat_inj.1 h)
  have hle : (1 : UInt32) ≤ a := UInt32.le_iff_toNat_le.2 (Nat.one_le_iff_ne_zero.2 hpos)
  rw [UInt32.toNat_sub_of_le _ _ hle]
  rfl

/-- The mask of a multiple of 512 clears the low nine bits. -/
theorem dvd_align (ha : a ≠ 0) (h : 512 ∣ a.toNat) (x : UInt32) : 512 ∣ (align x a).toNat := by
  have hpos : a.toNat ≠ 0 := fun h => ha (UInt32.toNat_inj.1 h)
  have hmask : (~~~(a - 1)).toNat % 2 ^ 9 = 0 := by
    have hsize : UInt32.size = 2 ^ 32 := rfl
    rw [UInt32.toNat_not, toNat_pred ha]
    omega
  have hand : ((x + (a - 1)).toNat &&& (~~~(a - 1)).toNat) % 2 ^ 9 = 0 := by
    rw [Nat.and_mod_two_pow, hmask, Nat.and_zero]
  rw [align, UInt32.toNat_and]
  exact Nat.dvd_of_mod_eq_zero hand

/-- An aligned size, measured in whole pages. -/
theorem align_le_two_pages (ha : a ≠ 0) (x : UInt32) :
    (align x a).toNat ≤ 2 * (divRoundUp x.toNat a.toNat * a.toNat) := by
  have hpos : 0 < a.toNat := Nat.pos_of_ne_zero (fun h => ha (UInt32.toNat_inj.1 h))
  by_cases hx : x = 0
  · subst hx
    have hzero : align 0 a = 0 := by
      rw [align, UInt32.zero_add, UInt32.and_not_self]
    rw [hzero]
    exact Nat.zero_le _
  · have hxpos : 0 < x.toNat := Nat.pos_of_ne_zero (fun h => hx (UInt32.toNat_inj.1 h))
    have hle : (align x a).toNat ≤ x.toNat + (a.toNat - 1) := by
      rw [align, UInt32.toNat_and]
      refine Nat.and_le_left.trans ?_
      rw [UInt32.toNat_add, toNat_pred ha]
      exact Nat.mod_le _ _
    have hround : x.toNat ≤ divRoundUp x.toNat a.toNat * a.toNat := by
      have hdiv := Nat.lt_div_mul_add (a := x.toNat + a.toNat - 1) hpos
      rw [divRoundUp]
      omega
    have hpage : a.toNat ≤ divRoundUp x.toNat a.toNat * a.toNat := by
      apply Nat.le_mul_of_pos_left
      exact Nat.div_pos (by omega) hpos
    omega

end Align

/-! ## The header and the four computations -/

/-- The fields of `rk_boot_img_hdr` that the layout depends on; `magic` says that the image starts
with `BOOT_MAGIC`. -/
structure BootImgHdr where
  magic : Bool
  kernelSize : UInt32
  ramdiskSize : UInt32
  secondSize : UInt32
  secondAddr : UInt32
  pageSize : UInt32

/-- The parts of an image. -/
inductive Part where
  | kernel
  | ramdisk
  | second
  deriving DecidableEq, Repr

namespace BootImgHdr

def size (hdr : BootImgHdr) : Part → UInt32
  | .kernel => hdr.kernelSize
  | .ramdisk => hdr.ramdiskSize
  | .second => hdr.secondSize

/-- The bytes that a part takes in whole pages. -/
def paged (hdr : BootImgHdr) (part : Part) : Nat :=
  divRoundUp (hdr.size part).toNat hdr.pageSize.toNat * hdr.pageSize.toNat

/-- The size of the image in whole pages: the header's page and the three parts. -/
def pagedTotal (hdr : BootImgHdr) : Nat :=
  hdr.pageSize.toNat + hdr.paged .kernel + hdr.paged .ramdisk + hdr.paged .second

end BootImgHdr

/-- The addresses that `SecureModeVerifyBootImage` hashes the parts at, for an image at address
`boothdr`. An absent second part keeps the address that the header came with. -/
def verifyAddr (boothdr : UInt32) (hdr : BootImgHdr) : Part → UInt32
  | .kernel => boothdr + hdr.pageSize
  | .ramdisk => boothdr + hdr.pageSize + align hdr.kernelSize hdr.pageSize
  | .second =>
    if hdr.secondSize ≠ 0 then
      boothdr + hdr.pageSize + align hdr.kernelSize hdr.pageSize
        + align hdr.ramdiskSize hdr.pageSize
    else hdr.secondAddr

/-- The offset in the image of the first byte that is hashed of a part. -/
def hashedOffset (boothdr : UInt32) (hdr : BootImgHdr) (part : Part) : Nat :=
  (verifyAddr boothdr hdr part - boothdr).toNat

/-- The arguments of a `StorageReadLba`. -/
structure LbaRead where
  sector : Nat
  blocks : Nat
  deriving DecidableEq, Repr

/-- The reads of `rk_load_image_from_storage` from a partition that begins at block `start`, built with
`CONFIG_SECUREBOOT_CRYPTO` (without it the second part is not read); `sector` is an `unsigned`. -/
def rkLoadImageFromStorage (start : Nat) (hdr : BootImgHdr) : Part → Option LbaRead :=
  let kernelSector := (start + hdr.pageSize.toNat / 512) % 2 ^ 32
  let ramdiskSector :=
    (kernelSector + (align hdr.kernelSize hdr.pageSize).toNat / 512) % 2 ^ 32
  let secondSector :=
    (ramdiskSector + (align hdr.ramdiskSize hdr.pageSize).toNat / 512) % 2 ^ 32
  fun
  | .kernel => some ⟨kernelSector, divRoundUp hdr.kernelSize.toNat 512⟩
  | .ramdisk => some ⟨ramdiskSector, divRoundUp hdr.ramdiskSize.toNat 512⟩
  | .second =>
    if hdr.secondSize ≠ 0 then some ⟨secondSector, divRoundUp hdr.secondSize.toNat 512⟩ else none

/-- The `int offset` of the second part, as `rkimage_load_fdt` and `get_base_offset` both compute
    it. -/
def secondOffset (start : Nat) (hdr : BootImgHdr) : Int :=
  let offset := toInt ((start + hdr.pageSize.toNat / 512 : Nat) : Int)
  let offset := toInt (offset + ((align hdr.kernelSize hdr.pageSize).toNat / 512 : Nat))
  toInt (offset + ((align hdr.ramdiskSize hdr.pageSize).toNat / 512 : Nat))

/-- The sector at which `rkimage_load_fdt` looks for the resource image, if it does: in the second
part of a boot or recovery partition (whose header it reads), and at the start of any other. -/
def rkimageLoadFdt (ptn : Option (Bool × Nat)) (hdr : Option BootImgHdr) : Option Int :=
  match ptn with
  | none => none
  | some (false, start) => some (toInt start)
  | some (true, start) =>
    match hdr with
    | none => none
    | some hdr =>
      if hdr.magic ∧ hdr.secondSize ≠ 0 then some (secondOffset start hdr) else none

/-- `get_base_offset`, from the starts of the resource and the boot partition and the header read
from the latter. -/
def getBaseOffset (resource boot : Option Nat) (hdr : Option BootImgHdr) : Int :=
  match resource with
  | some start => toInt start
  | none =>
    match boot, hdr with
    | some start, some hdr =>
      if hdr.magic ∧ hdr.secondSize ≠ 0 then secondOffset start hdr else 0
    | _, _ => 0

/-! ## Offsets in the image -/

/-- The layout itself: where a part begins, counted from the start of the image. -/
def partOffset (hdr : BootImgHdr) : Part → Nat
  | .kernel => hdr.pageSize.toNat
  | .ramdisk => hdr.pageSize.toNat + (align hdr.kernelSize hdr.pageSize).toNat
  | .second =>
    hdr.pageSize.toNat + (align hdr.kernelSize hdr.pageSize).toNat
      + (align hdr.ramdiskSize hdr.pageSize).toNat

section Layout

variable {hdr : BootImgHdr} (hpage : hdr.pageSize ≠ 0) (hblock : 512 ∣ hdr.pageSize.toNat)

include hpage in
/-- No part begins beyond 4 GiB. -/
theorem partOffset_lt (htotal : hdr.pagedTotal < 2 ^ 31) (part : Part) :
    partOffset hdr part < 2 ^ 32 := by
  have hk := align_le_two_pages hpage hdr.kernelSize
  have hr := align_le_two_pages hpage hdr.ramdiskSize
  simp only [BootImgHdr.pagedTotal, BootImgHdr.paged, BootImgHdr.size] at htotal
  cases part with
  | kernel => simp only [partOffset]; omega
  | ramdisk => simp only [partOffset]; omega
  | second => simp only [partOffset]; omega

include hpage hblock in
theorem dvd_partOffset (part : Part) : 512 ∣ partOffset hdr part := by
  have hk := dvd_align hpage hblock hdr.kernelSize
  have hr := dvd_align hpage hblock hdr.ramdiskSize
  cases part with
  | kernel => exact hblock
  | ramdisk => exact Nat.dvd_add hblock hk
  | second => exact Nat.dvd_add (Nat.dvd_add hblock hk) hr

include hpage in
/-- What is hashed of a part begins where the layout puts it. -/
theorem hashedOffset_eq (htotal : hdr.pagedTotal < 2 ^ 31) (boothdr : UInt32) {part : Part}
    (hpart : part = .second → hdr.secondSize ≠ 0) :
    hashedOffset boothdr hdr part = partOffset hdr part := by
  have hlt := partOffset_lt hpage htotal part
  have hcancel : ∀ x : UInt32, boothdr + x - boothdr = x := fun x => by
    rw [UInt32.add_comm, UInt32.add_sub_cancel]
  cases part with
  | kernel => rw [hashedOffset, verifyAddr, hcancel, partOffset]
  | ramdisk =>
    rw [hashedOffset, verifyAddr, UInt32.add_assoc, hcancel, UInt32.toNat_add]
    exact Nat.mod_eq_of_lt hlt
  | second =>
    rw [hashedOffset, verifyAddr, if_pos (hpart rfl), UInt32.add_assoc, UInt32.add_assoc, hcancel,
      ← UInt32.add_assoc, UInt32.toNat_add, UInt32.toNat_add, Nat.mod_add_mod]
    exact Nat.mod_eq_of_lt hlt

end Layout

/-! ## What is read is what was hashed -/

/-- The medium holds the first `len` bytes of the image from block `start` on; blocks are counted in
32 bits. -/
def Written (disk : Mem) (start : Nat) (image : Mem) (len : Nat) : Prop :=
  ∀ x < len, disk (512 * ((start + x / 512) % 2 ^ 32) + x % 512) = image x

/-- Byte `i` of what the read delivers. -/
def LbaRead.byte (r : LbaRead) (disk : Mem) (i : Nat) : UInt8 :=
  disk (512 * ((r.sector + i / 512) % 2 ^ 32) + i % 512)

/-- From any medium that holds an image at `start`, the read delivers the bytes of the image from
offset `off` on, in order. -/
def LbaRead.Delivers (r : LbaRead) (start off : Nat) : Prop :=
  ∀ (disk image : Mem) (len : Nat), Written disk start image len →
    ∀ i < 512 * r.blocks, off + i < len → r.byte disk i = image (off + i)

theorem LbaRead.delivers_of_sector {r : LbaRead} {start off : Nat} (hoff : 512 ∣ off)
    (hsector : r.sector = (start + off / 512) % 2 ^ 32) : r.Delivers start off := by
  intro disk image len hwritten i _ hi
  have hblock : (off + i) / 512 = off / 512 + i / 512 := Nat.add_div_of_dvd_right hoff
  have hin : (off + i) % 512 = i % 512 := by omega
  have hbyte := hwritten (off + i) hi
  rw [hblock, hin, ← Nat.add_assoc] at hbyte
  rw [LbaRead.byte, hsector, Nat.mod_add_mod]
  exact hbyte

section Layout

variable {hdr : BootImgHdr} (hpage : hdr.pageSize ≠ 0) (hblock : 512 ∣ hdr.pageSize.toNat)

include hpage hblock in
/-- The loader reads a part from the block that the layout puts it at, rounded up to whole blocks. -/
theorem rkLoadImageFromStorage_some {start : Nat} {part : Part} {r : LbaRead}
    (h : rkLoadImageFromStorage start hdr part = some r) :
    r.sector = (start + partOffset hdr part / 512) % 2 ^ 32 ∧
      r.blocks = divRoundUp (hdr.size part).toNat 512 ∧
      (part = .second → hdr.secondSize ≠ 0) := by
  have hk := dvd_align hpage hblock hdr.kernelSize
  cases part with
  | kernel =>
    cases h
    exact ⟨rfl, rfl, nofun⟩
  | ramdisk =>
    cases h
    refine ⟨?_, rfl, nofun⟩
    rw [partOffset, Nat.add_div_of_dvd_right hblock, ← Nat.add_assoc]
    exact Nat.mod_add_mod ..
  | second =>
    simp only [rkLoadImageFromStorage] at h
    split at h
    · next hsecond =>
      cases h
      refine ⟨?_, rfl, fun _ => hsecond⟩
      rw [partOffset, Nat.add_div_of_dvd_right (Nat.dvd_add hblock hk),
        Nat.add_div_of_dvd_right hblock, ← Nat.add_assoc, ← Nat.add_assoc]
      simp only [Nat.mod_add_mod]
    · cases h

include hpage hblock in
/-- The sector of the second part, read as an `unsigned`. -/
theorem secondOffset_emod (start : Nat) :
    secondOffset start hdr % 2 ^ 32 = ((start + partOffset hdr .second / 512) % 2 ^ 32 : Nat) := by
  have hk := dvd_align hpage hblock hdr.kernelSize
  have hsum : secondOffset start hdr = toInt ((start + partOffset hdr .second / 512 : Nat) : Int) := by
    simp only [secondOffset, toInt, Int.bmod_add_bmod]
    rw [partOffset, Nat.add_div_of_dvd_right (Nat.dvd_add hblock hk),
      Nat.add_div_of_dvd_right hblock]
    push_cast
    simp only [Int.add_assoc]
  rw [hsum, Int.natCast_emod]
  exact Int.bmod_emod

end Layout

/-- **What is hashed of an image is what is booted.** The loader reads each part from the block that
its first hashed byte was written to, and goes on to the end of a block; it reads every part that is
not empty. The two other computations of the second part's sector agree with the loader's. -/
theorem loads_what_is_hashed (boothdr : UInt32) (start : Nat) (hdr : BootImgHdr)
    (hpage : hdr.pageSize ≠ 0) (hblock : 512 ∣ hdr.pageSize.toNat)
    (htotal : hdr.pagedTotal < 2 ^ 31) :
    (∀ part r, rkLoadImageFromStorage start hdr part = some r →
      r.blocks = divRoundUp (hdr.size part).toNat 512 ∧
        r.Delivers start (hashedOffset boothdr hdr part)) ∧
    (∀ part, rkLoadImageFromStorage start hdr part = none → hdr.size part = 0) ∧
    (hdr.magic = true → ∀ r, rkLoadImageFromStorage start hdr .second = some r →
      rkimageLoadFdt (some (true, start)) (some hdr)
          = some (getBaseOffset none (some start) (some hdr)) ∧
        getBaseOffset none (some start) (some hdr) % 2 ^ 32 = r.sector) := by
  refine ⟨fun part r hr => ?_, fun part hnone => ?_, fun hmagic r hr => ?_⟩
  · obtain ⟨hsector, hblocks, hsecond⟩ := rkLoadImageFromStorage_some hpage hblock hr
    refine ⟨hblocks, ?_⟩
    rw [hashedOffset_eq hpage htotal boothdr hsecond]
    exact LbaRead.delivers_of_sector (dvd_partOffset hpage hblock part) hsector
  · cases part with
    | kernel => cases hnone
    | ramdisk => cases hnone
    | second =>
      simp only [rkLoadImageFromStorage] at hnone
      split at hnone
      · cases hnone
      · next hzero => exact not_not.1 hzero
  · obtain ⟨hsector, -, hsecond⟩ := rkLoadImageFromStorage_some hpage hblock hr
    have hboot : hdr.magic = true ∧ hdr.secondSize ≠ 0 := ⟨hmagic, hsecond rfl⟩
    simp only [rkimageLoadFdt, getBaseOffset, if_pos hboot, true_and]
    rw [secondOffset_emod hpage hblock, hsector]

/-- A kernel of one byte in pages of 2048, and a second part of a page. -/
def tinyHdr : BootImgHdr :=
  { magic := true, kernelSize := 1, ramdiskSize := 0, secondSize := 2048, secondAddr := 0,
    pageSize := 2048 }

theorem loads_what_is_hashed_tiny :
    (⟨132, 1⟩ : LbaRead).Delivers 128 (hashedOffset 0x6000000 tinyHdr .kernel) ∧
      getBaseOffset none (some 128) (some tinyHdr) % 2 ^ 32 = 136 := by
  have h := loads_what_is_hashed 0x6000000 128 tinyHdr (by decide) (by decide) (by decide)
  exact ⟨(h.1 .kernel ⟨132, 1⟩ (by decide)).2, (h.2.2 rfl ⟨136, 4⟩ (by decide)).2⟩

/-- The loader reads more than what is hashed: a block of 512 bytes for a kernel of one. -/
theorem loads_whole_blocks :
    tinyHdr.pageSize ≠ 0 ∧ 512 ∣ tinyHdr.pageSize.toNat ∧ tinyHdr.pagedTotal < 2 ^ 31 ∧
      ∃ r, rkLoadImageFromStorage 128 tinyHdr .kernel = some r ∧
        (tinyHdr.size .kernel).toNat < 512 * r.blocks :=
  ⟨by decide, by decide, by decide, ⟨132, 1⟩, by decide, by decide⟩

end SecureBoot
