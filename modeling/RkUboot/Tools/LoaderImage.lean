import RkUboot.SecureBoot.Uboot
import RkUboot.Lib.Bytes
import RkUboot.Platform.Crc32Rk

set_option autoImplicit false

/-! # The second-stage image (`tools/loaderimage.c`)

`loaderimage --pack` puts a `second_loader_hdr` in front of u-boot or of the trusted OS and writes
the result several times, each copy in an area of `max_size` bytes. The digest in the header covers
the payload and three fields of the header; `SecureNSModeUbootImageShaCheck` computes it again from
the copy that it is given. -/

open Platform SecureBoot

namespace LoaderImage

/-! ## Configuration -/

inductive Image where
  | uboot
  | trust
  deriving DecidableEq, Repr

/-- The configuration that the tool is built with. -/
structure Build where
  /-- `CONFIG_RK_NVME_BOOT_EN` -/
  nvmeBoot : Bool
  /-- `CONFIG_SYS_TEXT_BASE` -/
  sysTextBase : Nat
  /-- `CONFIG_RAM_PHY_START` -/
  ramPhyStart : Nat

def Build.magic : Image → List UInt8
  | .uboot => [0x4c, 0x4f, 0x41, 0x44, 0x45, 0x52, 0x20, 0x20]
  | .trust => [0x54, 0x4f, 0x53, 0x20, 0x20, 0x20, 0x20, 0x20]

def Build.maxSize (build : Build) : Image → Nat
  | .uboot => if build.nvmeBoot then 512 * 1024 else 1024 * 1024
  | .trust => 1024 * 1024

def Build.maxNum (build : Build) : Image → Nat
  | .uboot => if build.nvmeBoot then 2 else 4
  | .trust => 4

/-- The default of `loader_addr`. -/
def Build.runningAddr (build : Build) : Image → Nat
  | .uboot => build.sysTextBase
  | .trust => build.ramPhyStart + 0x08000000 + 0x00400000

/-- One round of the loop of `str2hex`, if it goes on. -/
def hexStep (value : Nat) (c : UInt8) : Option Nat :=
  if 48 ≤ c ∧ c ≤ 57 then some ((value * 16 + c.toNat - 48) % 2 ^ 32)
  else if 97 ≤ c ∧ c ≤ 102 then some ((value * 16 + c.toNat - 97 + 10) % 2 ^ 32)
  else if 65 ≤ c ∧ c ≤ 70 then some ((value * 16 + c.toNat - 65 + 10) % 2 ^ 32)
  else none

def hexLoop : List UInt8 → Nat → Nat
  | [], value => value
  | c :: str, value =>
    match hexStep value c with
    | some value => hexLoop str value
    | none => value

/-- Model of `str2hex`. -/
def str2hex (str : List UInt8) : Nat :=
  let str := match str with
    | 48 :: 120 :: rest => rest
    | 48 :: 88 :: rest => rest
    | _ => str
  let str := match str with
    | 120 :: rest => rest
    | 88 :: rest => rest
    | _ => str
  hexLoop str 0

/-- `loader_addr`, with the argument for it if there is one. -/
def loaderAddr (build : Build) (image : Image) (arg : Option (List UInt8)) : Nat :=
  match arg with
  | some str => str2hex str
  | none => build.runningAddr image

/-- The digest that the tool is built with: its size in the header, and the function. -/
structure Digest where
  len : Nat
  sum : List UInt8 → Mem

/-- Without `CONFIG_SECUREBOOT_SHA256`. -/
def Digest.sha1 (sum : List UInt8 → Mem) : Digest := ⟨shaDigestSize, sum⟩

/-! ## Packing and unpacking -/

/-- `size` in units of 4 bytes. -/
def alignSize (size : Nat) : Nat := (size + 3) / 4 * 4

/-- The header before the digest. -/
def header (digest : Digest) (magic : List UInt8) (addr size crc : Nat) : Mem :=
  ((((Mem.zero.strcpy 0 magic).set32 16 addr).set32 20 size).set32 24 crc).set32 28 digest.len

/-- The buffer with the header and the payload. -/
def packBuf (digest : Digest) (magic : List UInt8) (addr : Nat) (file : List UInt8) : Mem :=
  let buf := Mem.zero.store sizeofSecondLoaderHdr file
  let size := alignSize file.length
  let hdr := header digest magic addr size (crc32Rk (buf.bytes sizeofSecondLoaderHdr size))
  let sum := digest.sum (buf.bytes sizeofSecondLoaderHdr size ++ hdr.bytes 16 4 ++ hdr.bytes 20 4 ++
    hdr.bytes 28 4)
  buf.copy 0 (hdr.copy hash sum 0 digest.len) 0 sizeofSecondLoaderHdr

/-- Model of `loaderimage --pack`: the output file. -/
def pack (digest : Digest) (build : Build) (image : Image) (arg : Option (List UInt8))
    (file : List UInt8) : Option (List UInt8) :=
  -- an `int`; a negative one is too large in the comparison, which is unsigned
  let size := file.length % 2 ^ 32
  if build.maxSize image - sizeofSecondLoaderHdr < size then none
  -- `fread` of one element of size 0 does not return 1
  else if size = 0 then none
  else
    let buf := packBuf digest (Build.magic image) (loaderAddr build image arg) (file.take size)
    some (List.replicate (build.maxNum image) (buf.bytes 0 (build.maxSize image))).flatten

/-- Model of `loaderimage --unpack`: the output file. The buffer has `max_size * max_num` bytes. -/
def unpack (build : Build) (image : Image) (file : List UInt8) : Option (List UInt8) :=
  let size := loaderLoadSize (Mem.ofList file)
  if file.length < sizeofSecondLoaderHdr then none
  else if size = 0 ∨ file.length < sizeofSecondLoaderHdr + size then none
  else if build.maxSize image * build.maxNum image < size then none
  else some ((file.drop sizeofSecondLoaderHdr).take size)

/-! ## A copy of the image -/

section Copy

variable {digest : Digest} {magic file : List UInt8} {addr : Nat}

/-- A file with the zeros up to a multiple of 4 bytes. -/
def padded (file : List UInt8) : List UInt8 := Mem.padTo 4 file

theorem alignSize_eq (size : Nat) : alignSize size = Mem.alignUp 4 size := rfl

theorem le_alignSize (size : Nat) : size ≤ alignSize size := by
  rw [alignSize_eq]
  exact Mem.le_alignUp (by decide) size

theorem length_padded (file : List UInt8) : (padded file).length = alignSize file.length := by
  rw [alignSize_eq]
  exact Mem.length_padTo (by decide) file

/-- The payload is read with its padding. -/
theorem bytes_payload (file : List UInt8) :
    (Mem.zero.store sizeofSecondLoaderHdr file).bytes sizeofSecondLoaderHdr (alignSize file.length)
      = padded file := by
  rw [← length_padded]
  refine Mem.has_append.2 ⟨?_, ?_⟩
  · rw [Mem.has_iff]
    intro i hi
    exact Mem.store_apply_in _ _ _ _ hi
  · rw [Mem.has_replicate]
    intro i _
    exact Mem.store_apply_out (by omega)

/-- What a copy of the image has in it. -/
structure Copy (digest : Digest) (file : List UInt8) (hdr : Mem) : Prop where
  size : loaderLoadSize hdr = alignSize file.length
  len : hashLen hdr = digest.len
  payload : hdr.bytes sizeofSecondLoaderHdr (alignSize file.length) = padded file
  sum : ∀ i < digest.len, hdr (hash + i) = digest.sum (hashedStream hdr) i

/-- The buffer has the digest of its own stream, for any header with the right size. -/
theorem copy_of_header {hdr : Mem} {size : Nat} (hsize : size = alignSize file.length)
    (hload : hdr.u32 20 = size) (hlen : hdr.u32 28 = digest.len) (hmax : digest.len ≤ 32) :
    let buf := Mem.zero.store sizeofSecondLoaderHdr file
    let sum := digest.sum (buf.bytes sizeofSecondLoaderHdr size ++ hdr.bytes 16 4 ++ hdr.bytes 20 4 ++
      hdr.bytes 28 4)
    Copy digest file (buf.copy 0 (hdr.copy hash sum 0 digest.len) 0 sizeofSecondLoaderHdr) := by
  intro buf sum
  have hhash : SecureBoot.hash = 32 := rfl
  have hsizeof : sizeofSecondLoaderHdr = 2048 := rfl
  generalize hm : buf.copy 0 (hdr.copy hash sum 0 digest.len) 0 sizeofSecondLoaderHdr = m
  have hfields : ∀ x < 32, m x = hdr x := by
    intro x hx
    rw [← hm, Mem.copy_apply_in (by omega) (by omega),
      Mem.copy_apply_out (by omega), Nat.sub_zero, Nat.zero_add]
  have hpayload : m.bytes sizeofSecondLoaderHdr size = buf.bytes sizeofSecondLoaderHdr size := by
    refine Mem.bytes_congr _ _ _ _ _ (fun i _ => ?_)
    rw [← hm]
    exact Mem.copy_apply_out (by omega)
  have hbytes : ∀ a n, a + n ≤ 32 → m.bytes a n = hdr.bytes a n := fun a n ha =>
    Mem.bytes_congr _ _ _ _ _ (fun i hi => hfields _ (by omega))
  have hu32 : ∀ a, a + 4 ≤ 32 → m.u32 a = hdr.u32 a := fun a ha =>
    Mem.AgreeOn.u32 (fun x _ hx => hfields x (by omega))
  have hstream : hashedStream m = buf.bytes sizeofSecondLoaderHdr size ++ hdr.bytes 16 4 ++
      hdr.bytes 20 4 ++ hdr.bytes 28 4 := by
    unfold hashedStream loaderLoadSize
    rw [hu32 20 (by decide), hload, hpayload, hbytes 16 4 (by decide), hbytes 20 4 (by decide),
      hbytes 28 4 (by decide)]
  refine ⟨?_, ?_, ?_, fun i hi => ?_⟩
  · rw [loaderLoadSize, hu32 20 (by decide), hload, hsize]
  · rw [hashLen, hu32 28 (by decide), hlen]
  · rw [← hsize, hpayload, hsize]
    exact bytes_payload file
  · rw [hstream, ← hm, Mem.copy_apply_in (by omega) (by omega),
      Mem.copy_apply_in (by omega) (by omega)]
    congr 1
    omega

theorem packBuf_copy (hmax : digest.len ≤ 32) (hsize : alignSize file.length < 2 ^ 32) :
    Copy digest file (packBuf digest magic addr file) := by
  refine copy_of_header rfl ?_ ?_ hmax
  · simp (disch := omega) only [header, Mem.u32_set32_ne, Mem.u32_set32_same, Nat.mod_eq_of_lt]
  · simp (disch := omega) only [header, Mem.u32_set32_same, Nat.mod_eq_of_lt]

/-- The facts about a copy are about its first `max_size` bytes only. -/
theorem Copy.congr {hdr hdr' : Mem} (h : Copy digest file hdr) (hmax : digest.len ≤ 32)
    (hagree : hdr.AgreeOn hdr' 0 (sizeofSecondLoaderHdr + alignSize file.length)) :
    Copy digest file hdr' := by
  have hhash : SecureBoot.hash = 32 := rfl
  have hsizeof : sizeofSecondLoaderHdr = 2048 := rfl
  have hbytes : ∀ a n, a + n ≤ sizeofSecondLoaderHdr + alignSize file.length →
      hdr.bytes a n = hdr'.bytes a n := fun a n ha =>
    Mem.AgreeOn.bytes _ (hagree.mono (Nat.zero_le a) ha)
  have hsize : loaderLoadSize hdr = loaderLoadSize hdr' :=
    Mem.AgreeOn.u32 (hagree.mono (Nat.zero_le _) (by omega))
  have hlen : hashLen hdr = hashLen hdr' :=
    Mem.AgreeOn.u32 (hagree.mono (Nat.zero_le _) (by omega))
  have hstream : hashedStream hdr = hashedStream hdr' := by
    unfold hashedStream
    rw [← hsize, h.size, hbytes _ _ le_rfl, hbytes 16 4 (by omega), hbytes 20 4 (by omega),
      hbytes 28 4 (by omega)]
  refine ⟨hsize ▸ h.size, hlen ▸ h.len, ?_, fun i hi => ?_⟩
  · rw [← hbytes _ _ le_rfl]
    exact h.payload
  · rw [← hagree _ (Nat.zero_le _) (by omega), ← hstream]
    exact h.sum i hi

/-- The engine announced the right size, and the stream is the same. -/
theorem Copy.shaCheck {c : Crypto} {sum : List UInt8 → Mem} {hdr : Mem}
    (hsha : ∀ s, s.length < 2 ^ 32 → c.sha s.length 160 s = sum s)
    (h : Copy (Digest.sha1 sum) file hdr) (hsize : alignSize file.length + 12 < 2 ^ 32) :
    secureNSModeUbootImageShaCheck c hdr = true := by
  have hlength : (hashedStream hdr).length = alignSize file.length + 12 := by
    simp only [hashedStream, List.length_append, Mem.length_bytes, h.size]
  have hdigest : nsDigest c hdr = sum (hashedStream hdr) := by
    rw [← hsha _ (by omega), hlength, nsDigest, hashedSize, h.size, Nat.mod_eq_of_lt (by omega)]
  have hlen : hashLen hdr = shaDigestSize := h.len
  simp only [secureNSModeUbootImageShaCheck, hlen, if_neg (Nat.lt_irrefl _)]
  rw [Mem.memcmpEq_iff, hdigest]
  intro i hi
  rw [Nat.zero_add]
  exact h.sum i hi

end Copy

/-! ## The output file -/

section Output

variable {digest : Digest} {build : Build} {image : Image} {arg : Option (List UInt8)}
  {file : List UInt8}

theorem area_cases (build : Build) (image : Image) :
    build.maxSize image = 524288 ∧ build.maxNum image = 2 ∨
      build.maxSize image = 1048576 ∧ build.maxNum image = 4 := by
  cases image with
  | uboot =>
    cases hnvme : build.nvmeBoot with
    | true => simp [Build.maxSize, Build.maxNum, hnvme]
    | false => simp [Build.maxSize, Build.maxNum, hnvme]
  | trust => exact .inr ⟨rfl, rfl⟩

/-- The buffer of the tool has room for one area of any kind. -/
theorem maxSize_le_buffer (build : Build) (image image' : Image) :
    build.maxSize image ≤ build.maxSize image' * build.maxNum image' := by
  have hmax := area_cases build image
  rcases area_cases build image' with ⟨hsize, hnum⟩ | ⟨hsize, hnum⟩
  · rw [hsize, hnum]
    omega
  · rw [hsize, hnum]
    omega

/-- The padding does not lead out of the area. -/
theorem alignSize_le (h : file.length ≤ build.maxSize image - sizeofSecondLoaderHdr) :
    sizeofSecondLoaderHdr + alignSize file.length ≤ build.maxSize image := by
  have hsizeof : sizeofSecondLoaderHdr = 2048 := rfl
  have hmax := area_cases build image
  unfold alignSize
  omega

theorem pack_eq (hpos : 0 < file.length)
    (hfits : file.length ≤ build.maxSize image - sizeofSecondLoaderHdr) :
    pack digest build image arg file = some (List.replicate (build.maxNum image)
      ((packBuf digest (Build.magic image) (loaderAddr build image arg) file).bytes 0
        (build.maxSize image))).flatten := by
  have hmax := area_cases build image
  have hsize : file.length % 2 ^ 32 = file.length := by omega
  simp only [pack, hsize, List.take_length]
  rw [if_neg (by omega), if_neg (by omega)]

/-- Copy `k` of the output. -/
def copyAt (build : Build) (image : Image) (out : List UInt8) (k : Nat) : List UInt8 :=
  (out.drop (build.maxSize image * k)).take (build.maxSize image)

/-- All copies are the same. -/
theorem copyAt_replicate {area : List UInt8} (harea : area.length = build.maxSize image) {k : Nat}
    (hk : k < build.maxNum image) :
    copyAt build image (List.replicate (build.maxNum image) area).flatten k = area := by
  obtain ⟨n, hn⟩ := Nat.exists_eq_add_of_lt hk
  have hsplit : List.replicate (build.maxNum image) area
      = List.replicate k area ++ area :: List.replicate n area := by
    rw [hn, ← List.replicate_succ, List.replicate_append_replicate, Nat.add_assoc]
  have hlen : (List.replicate k area).flatten.length = build.maxSize image * k := by
    rw [List.length_flatten, List.map_replicate, List.sum_replicate, harea, Nat.nsmul_eq_mul,
      Nat.mul_comm]
  rw [copyAt, hsplit, List.flatten_append, List.flatten_cons, List.drop_left' hlen,
    List.take_left' harea]

theorem has_first {area : List UInt8} {n : Nat} (hn : 0 < n) :
    (Mem.ofList (List.replicate n area).flatten).Has 0 area := by
  obtain ⟨n, rfl⟩ := Nat.exists_eq_succ_of_ne_zero (Nat.ne_of_gt hn)
  rw [List.replicate_succ, List.flatten_cons]
  exact (Mem.has_append.1 (Mem.has_ofList _)).1

/-- A memory that holds an area is a copy of the image. -/
theorem copy_of_has {magic : List UInt8} {addr : Nat} (hmax : digest.len ≤ 32)
    (hfits : file.length ≤ build.maxSize image - sizeofSecondLoaderHdr) {hdr : Mem}
    (h : hdr.Has 0 ((packBuf digest magic addr file).bytes 0 (build.maxSize image))) :
    Copy digest file hdr := by
  have harea := alignSize_le hfits
  have hcases := area_cases build image
  have hcopy : Copy digest file (packBuf digest magic addr file) := packBuf_copy hmax (by omega)
  refine hcopy.congr hmax (fun x _ hx => ?_)
  have hbyte := Mem.has_iff.1 h x (by rw [Mem.length_bytes]; omega)
  simpa [Mem.bytes] using hbyte.symm

/-- A file that starts with a copy is unpacked. -/
theorem unpack_of_copy {image' : Image} {out : List UInt8} (h : Copy digest file (Mem.ofList out))
    (hpos : 0 < file.length)
    (hfits : file.length ≤ build.maxSize image - sizeofSecondLoaderHdr)
    (hlen : build.maxSize image ≤ out.length) : unpack build image' out = some (padded file) := by
  have harea := alignSize_le hfits
  have hle := le_alignSize file.length
  have hbuffer := maxSize_le_buffer build image image'
  have hslice := (Mem.has_ofList out).slice (j := sizeofSecondLoaderHdr)
    (n := alignSize file.length) (by omega)
  rw [Nat.zero_add, h.payload] at hslice
  simp only [unpack, h.size, ← hslice]
  rw [if_neg (by omega), if_neg (by omega), if_neg (by omega)]

/-- **Packer and verifier agree.** Every copy passes the check, and unpacking gives the padded input.
    The digest of the verifier is that of the tool if it is announced the length of the stream. -/
theorem pack_accepted {c : Crypto} {sum : List UInt8 → Mem} {image' : Image}
    (hsha : ∀ s, s.length < 2 ^ 32 → c.sha s.length 160 s = sum s) (hpos : 0 < file.length)
    (hfits : file.length ≤ build.maxSize image - sizeofSecondLoaderHdr) :
    ∃ out, pack (Digest.sha1 sum) build image arg file = some out ∧
      out.length = build.maxNum image * build.maxSize image ∧
      (∀ k < build.maxNum image, ∀ hdr : Mem, hdr.Has 0 (copyAt build image out k) →
        secureNSModeUbootImageShaCheck c hdr = true) ∧
      unpack build image' out = some (padded file) := by
  have harea := alignSize_le hfits
  have hcases := area_cases build image
  have hmax : (Digest.sha1 sum).len ≤ 32 := Nat.le_of_ble_eq_true rfl
  refine ⟨_, pack_eq hpos hfits, ?_⟩
  have hcopy : ∀ hdr : Mem, hdr.Has 0 ((packBuf (Digest.sha1 sum) (Build.magic image)
      (loaderAddr build image arg) file).bytes 0 (build.maxSize image)) →
      Copy (Digest.sha1 sum) file hdr := fun hdr => copy_of_has hmax hfits
  have hbytes : ((packBuf (Digest.sha1 sum) (Build.magic image) (loaderAddr build image arg) file).bytes
      0 (build.maxSize image)).length = build.maxSize image := Mem.length_bytes _
  generalize (packBuf (Digest.sha1 sum) (Build.magic image) (loaderAddr build image arg) file).bytes 0
    (build.maxSize image) = area at hcopy hbytes
  have hlength : (List.replicate (build.maxNum image) area).flatten.length
      = build.maxNum image * build.maxSize image := by
    rw [List.length_flatten, List.map_replicate, List.sum_replicate, hbytes, Nat.nsmul_eq_mul]
  refine ⟨hlength, fun k hk hdr hhas => ?_, ?_⟩
  · rw [copyAt_replicate hbytes hk] at hhas
    exact (hcopy hdr hhas).shaCheck hsha (by omega)
  · refine unpack_of_copy (hcopy _ (has_first (by omega))) hpos hfits ?_
    rw [hlength]
    exact Nat.le_mul_of_pos_left _ (by omega)

/-- Two bytes of input, with a digest that counts the bytes of the stream. -/
theorem pack_accepted_twoBytes :
    ∃ out, pack (Digest.sha1 (fun s => Mem.zero.set32 0 s.length)) ⟨false, 0, 0⟩ .uboot none [1, 2]
        = some out ∧ out.length = 4 * 1048576 ∧
      (∀ k < 4, ∀ hdr : Mem, hdr.Has 0 (copyAt ⟨false, 0, 0⟩ .uboot out k) →
        secureNSModeUbootImageShaCheck ⟨fun n _ _ => Mem.zero.set32 0 n, fun _ => Mem.zero,
          fun _ _ => (1, Mem.zero)⟩ hdr = true) ∧
      unpack ⟨false, 0, 0⟩ .trust out = some (padded [1, 2]) :=
  pack_accepted (fun _ _ => rfl) (by decide) (by decide)

end Output

end LoaderImage
