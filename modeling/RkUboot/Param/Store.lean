import RkUboot.Fastboot.Session
import RkUboot.Platform.Crc32Rk

set_option autoImplicit false

/-! # Parameter file: flash and load

The fastboot gadget stores the parameter file with `rkimage_store_image`, and `GetParam`
(`rkloader/parameter.c`) loads it when the board starts. On the storage a parameter file is

```
tag 0, length 4, text 8, checksum 8 + length
```

`rkimg_buildParameter` returns `length + 8`, without the checksum, and the number of sectors to write
is computed from that. So the checksum of a text that ends close to the end of a sector is cut off,
and the loader finds there what the flash held before. -/

open Platform

namespace Param

/-! ## The loader -/

/-- `PARM_TAG`. -/
def parmTag : Nat := 0x4D524150

/-- `MAX_LOADER_PARAM`, in bytes. -/
def maxLoaderParam : Nat := 128 * 512

/-- Model of `CheckParam`. -/
def checkParam (param : Mem) : Int :=
  if param.u32 0 ≠ parmTag then -2
  else if maxLoaderParam - 12 < param.u32 4 then -3
  else if crc32CheckBuffer param 8 (param.u32 4 + 4) = 0 then -4
  else 0

/-- Model of `GetParam`. All branches of its loop over the copies return, so only the first copy is
    ever looked at. -/
def getParam (paramAddr : Nat) (buf : Mem) (dev : BlockDev) : Int × Mem × BlockDev :=
  let r := dev.read paramAddr (maxLoaderParam / 512) buf 0
  (if r.1 then (if checkParam r.2.1 = 0 then 0 else -1) else -2, r.2)

/-! ## The flash command -/

section Store

open Fastboot

/-- Number of sectors that the flash command writes for a text of `len` bytes. -/
def sectors (len : Nat) : Nat := (len + 8 + 511) / 512

/-- What `rkimg_buildParameter` leaves in the transfer buffer. -/
theorem rkimgBuildParameter_apply (board : Board) (m : Mem) (len : Nat) :
    let built := (rkimgBuildParameter board m len).1
    built.u32 0 = parmTag ∧ built.u32 4 = len % 2 ^ 32 ∧ (∀ i < len, built (8 + i) = m i) ∧
      ∀ i < 4, built (8 + len + i) = UInt8.ofNat (board.crc32Rk (m.bytes 0 len) / 256 ^ i) := by
  simp only [rkimgBuildParameter]
  refine ⟨?_, Mem.u32_set32_same .., fun i hi => ?_, fun i hi => ?_⟩
  · rw [Mem.u32_set32_ne _ _ _ _ (by omega), Mem.u32_set32_same]
    rfl
  · rw [Mem.set32_apply_ne (by omega), Mem.set32_apply_ne (by omega),
      Mem.copy_apply_in (by omega) (by omega), Mem.set32_apply_ne (by omega)]
    congr 1
    omega
  · rw [Mem.set32_apply_ne (by omega), Mem.set32_apply_ne (by omega),
      Mem.copy_apply_in (by omega) (by omega),
      show 0 + (8 + len + i - 8) = len + i by omega]
    exact Mem.set32_apply _ _ _ _ hi

/-- Without write errors the copies from the `i`-th on leave the storage before them alone. -/
theorem writeParameter_below (image : Mem) (n k i : Nat) (io : Io) (hi : i + k ≤ 8)
    (hscript : io.dev.script = []) :
    (writeParameter image n k i true io).1 = true ∧
      (writeParameter image n k i true io).2.dev.script = [] ∧
      ∀ x < 512 * (1024 * i), (writeParameter image n k i true io).2.dev.disk x = io.dev.disk x := by
  induction k generalizing i io with
  | zero => exact ⟨rfl, hscript, fun _ _ => rfl⟩
  | succ k ih =>
    rw [writeParameter]
    simp only [storageWriteLba_of_nil hscript, Bool.or_true]
    generalize hio : Io.mk _ _ = io'
    obtain ⟨hok, hscript', hbelow⟩ := ih (i + 1) io' (by omega) (by rw [← hio])
    refine ⟨hok, hscript', fun x hx => ?_⟩
    rw [hbelow x (by omega), ← hio]
    exact Mem.copy_apply_out (by omega)

/-- All copies: the first one is at the start of the storage. -/
theorem writeParameter_first (image : Mem) (n : Nat) (io : Io) (hn : n ≤ 128)
    (hscript : io.dev.script = []) :
    (writeParameter image n 8 0 false io).1 = true ∧
      (writeParameter image n 8 0 false io).2.dev.script = [] ∧
      ∀ x < 512 * 1024, (writeParameter image n 8 0 false io).2.dev.disk x
        = if x < 512 * n then image x else io.dev.disk x := by
  rw [writeParameter]
  simp only [storageWriteLba_of_nil hscript, Bool.or_true]
  generalize hio : Io.mk _ _ = io'
  obtain ⟨hok, hscript', hbelow⟩ := writeParameter_below image n 7 1 io' (by omega) (by rw [← hio])
  refine ⟨hok, hscript', fun x hx => ?_⟩
  rw [hbelow x (by omega), ← hio]
  simp only
  split
  · rw [Mem.copy_apply_in (by omega) (by omega)]
    congr 1
    omega
  · exact Mem.copy_apply_out (by omega)

end Store

/-! ## Round trip -/

/-- The bytes of the checksum that the flash command does not write are on the storage already. -/
def ChecksumThere (disk : Mem) (text : List UInt8) : Prop :=
  ∀ i < 4, 8 + text.length + i < 512 * sectors text.length ∨
    disk (8 + text.length + i) = UInt8.ofNat (crc32Rk text / 256 ^ i)

instance (disk : Mem) (text : List UInt8) : Decidable (ChecksumThere disk text) :=
  inferInstanceAs (Decidable (∀ i < 4, _ ∨ _))

section RoundTrip

open Fastboot

variable (board : Board) (ptn : Option DiskPartition) {s : State}

/-- The storage behind the flash command, as far as the loader reads it. -/
theorem rkimageStoreImage_parameter (hlen : s.priv.dBytes ≤ maxLoaderParam - 12)
    (hscript : s.world.dev.script = []) :
    let built := (rkimgBuildParameter board s.world.ram s.priv.dBytes).1
    let r := rkimageStoreImage board parameterName ptn s
    r.1 = .ok ∧ r.2.world.dev.script = [] ∧
      ∀ x < maxLoaderParam, r.2.world.dev.disk x
        = if x < 512 * sectors s.priv.dBytes then built x else s.world.dev.disk x := by
  have hn : sectors s.priv.dBytes ≤ 128 := by
    simp only [maxLoaderParam] at hlen
    unfold sectors
    omega
  simp only [rkimageStoreImage, if_true]
  generalize hbuilt : rkimgBuildParameter board s.world.ram s.priv.dBytes = built
  have hcount : (built.2 + 511) / 512 = sectors s.priv.dBytes := by
    rw [← hbuilt]
    rfl
  rw [hcount]
  obtain ⟨hok, hscript', hdisk⟩ := writeParameter_first built.1 _
    (State.io { s with world := { s.world with ram := built.1 } }) hn hscript
  refine ⟨?_, hscript', fun x hx => hdisk x ?_⟩
  · rw [hok]
    rfl
  · simp only [maxLoaderParam] at hx
    omega

/-- What the loader has in its buffer once the file is flashed. -/
theorem getParam_read (hcrc : board.crc32Rk = crc32Rk) (hlen : s.priv.dBytes ≤ maxLoaderParam - 12)
    (hscript : s.world.dev.script = []) (buf : Mem) :
    let text := s.world.ram.bytes 0 s.priv.dBytes
    let r := getParam 0 buf (rkimageStoreImage board parameterName ptn s).2.world.dev
    r.1 = (if checkParam r.2.1 = 0 then 0 else -1) ∧ r.2.1.u32 0 = parmTag ∧
      r.2.1.u32 4 = s.priv.dBytes ∧ r.2.1.bytes 8 s.priv.dBytes = text ∧
      (r.2.1.u32 (8 + s.priv.dBytes) = crc32Rk text ↔ ChecksumThere s.world.dev.disk text) := by
  intro text r
  obtain ⟨-, hscript', hdisk⟩ := rkimageStoreImage_parameter board ptn hlen hscript
  obtain ⟨htag, hlength, htext, hsum⟩ := rkimgBuildParameter_apply board s.world.ram s.priv.dBytes
  generalize (rkimgBuildParameter board s.world.ram s.priv.dBytes).1 = built
    at hdisk htag hlength htext hsum
  have hread : r = (if checkParam r.2.1 = 0 then 0 else -1, r.2) := by
    simp only [r, getParam, BlockDev.read_of_nil _ _ _ _ hscript', if_true]
  have hbuf : ∀ x < maxLoaderParam, r.2.1 x
      = if x < 512 * sectors s.priv.dBytes then built x else s.world.dev.disk x := by
    intro x hx
    rw [← hdisk x hx]
    simp only [r, getParam, BlockDev.read_of_nil _ _ _ _ hscript']
    rw [Mem.copy_apply_in (by omega) (by simp only [maxLoaderParam] at hx ⊢; omega)]
    congr 1
    omega
  simp only [maxLoaderParam] at hlen hbuf
  have hhead : 8 + s.priv.dBytes ≤ 512 * sectors s.priv.dBytes := by
    unfold sectors
    omega
  have hagree : r.2.1.AgreeOn built 0 (8 + s.priv.dBytes) := by
    intro x _ hx
    rw [hbuf x (by omega), if_pos (by omega)]
  refine ⟨congrArg Prod.fst hread, ?_, ?_, ?_, ?_⟩
  · rw [← htag]
    exact (hagree.mono (by omega) (by omega)).u32
  · rw [(hagree.mono (by omega) (by omega)).u32, hlength]
    omega
  · refine Mem.bytes_congr _ _ _ _ _ (fun i hi => ?_)
    rw [hagree _ (by omega) (by omega), htext i hi, Nat.zero_add]
  · rw [Mem.u32_eq_iff _ _ _ (crc32Rk_lt _), ChecksumThere, Mem.length_bytes]
    refine forall₂_congr (fun i hi => ?_)
    rw [hbuf _ (by omega)]
    split
    · next hin =>
      rw [hsum i hi, hcrc]
      exact iff_of_true rfl (.inl hin)
    · next hout =>
      exact (or_iff_right hout).symm

/-- **Flash, then load.** A parameter file comes back exactly if its checksum is not 0 and the part of
    the checksum that is cut off is on the storage from before. -/
theorem getParam_store_iff (hcrc : board.crc32Rk = crc32Rk) (hpos : 1 ≤ s.priv.dBytes)
    (hlen : s.priv.dBytes ≤ maxLoaderParam - 12) (hscript : s.world.dev.script = []) (buf : Mem) :
    let text := s.world.ram.bytes 0 s.priv.dBytes
    let r := getParam 0 buf (rkimageStoreImage board parameterName ptn s).2.world.dev
    (r.1 = 0 ∧ r.2.1.u32 4 = s.priv.dBytes ∧ r.2.1.bytes 8 s.priv.dBytes = text) ↔
      crc32Rk text ≠ 0 ∧ ChecksumThere s.world.dev.disk text := by
  intro text r
  obtain ⟨hstatus, htag, hlength, htext, hsum⟩ :=
    getParam_read board ptn hcrc hlen hscript buf
  have hcheck : checkParam r.2.1 = 0 ↔ crc32CheckBuffer r.2.1 8 (s.priv.dBytes + 4) ≠ 0 := by
    unfold checkParam
    rw [if_neg (not_not.2 htag), hlength, if_neg (by omega)]
    split
    · omega
    · omega
  have hzero : r.1 = 0 ↔ checkParam r.2.1 = 0 := by
    rw [hstatus]
    split
    · next h => exact iff_of_true rfl h
    · next h => exact iff_of_false (by decide) h
  rw [hzero, hcheck, crc32CheckBuffer_ne_zero_iff _ _ _ hpos, htext, hsum]
  exact ⟨And.left, fun h => ⟨h, hlength, rfl⟩⟩

/-- A board with the real checksum. -/
def crcBoard : Board := { sampleBoard 0 with crc32Rk := crc32Rk }

/-- The state once `text` is downloaded, with empty storage. -/
def downloaded (text : List UInt8) : State :=
  let s := start true sampleWorld
  { s with
    priv := { s.priv with dBytes := text.length }
    world := { s.world with ram := Mem.zero.store 0 text } }

/-- A file of one letter comes back. -/
theorem getParam_store_letter :
    let r := getParam 0 Mem.zero (rkimageStoreImage crcBoard parameterName none
      (downloaded [65])).2.world.dev
    r.1 = 0 ∧ r.2.1.u32 4 = 1 ∧ r.2.1.bytes 8 1 = (downloaded [65]).world.ram.bytes 0 1 :=
  (getParam_store_iff crcBoard none rfl (by decide) (by decide) rfl Mem.zero).2 (by decide +kernel)

/-- A file of 504 bytes fills its sector without the checksum, and is lost on empty storage; a file of
    one zero byte has the checksum 0, and is lost as well. -/
theorem getParam_store_lost :
    let cut := downloaded (List.replicate 503 0 ++ [1])
    let zero := downloaded [0]
    (getParam 0 Mem.zero (rkimageStoreImage crcBoard parameterName none cut).2.world.dev).1 = -1 ∧
      (getParam 0 Mem.zero (rkimageStoreImage crcBoard parameterName none zero).2.world.dev).1 = -1 := by
  decide +kernel

end RoundTrip

end Param
