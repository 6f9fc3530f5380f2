import RkUboot.Lib.Bytes

set_option autoImplicit false

/-! # What is hashed of a boot image (`SecureBoot/SecureVerify.c`)

Both `SecureNSModeBootImageShaCheck` and `SecureRKModeVerifyBootImage` hash the kernel, the ramdisk and
the second part, each followed by its size, and then the header's fields that have a fixed size. The
sizes come behind the data. So the input can be read from its end: the fields first, and then three
times a size and as many bytes. No two images have the same input. -/

namespace SecureBoot

/-! ## The input -/

/-- The fields of `rk_boot_img_hdr` that the hash covers, and the addresses of the parts. -/
structure RkBootImgHdr where
  kernelSize : UInt32
  kernelAddr : UInt32
  ramdiskSize : UInt32
  ramdiskAddr : UInt32
  secondSize : UInt32
  secondAddr : UInt32
  tagsAddr : UInt32
  pageSize : UInt32
  unused : UInt32 × UInt32
  name : List UInt8
  cmdline : List UInt8
  name_length : name.length = 16
  cmdline_length : cmdline.length = 512

namespace RkBootImgHdr

variable (m : Mem) (hdr : RkBootImgHdr)

def kernel : List UInt8 := m.bytes hdr.kernelAddr.toNat hdr.kernelSize.toNat

def ramdisk : List UInt8 := m.bytes hdr.ramdiskAddr.toNat hdr.ramdiskSize.toNat

def second : List UInt8 := m.bytes hdr.secondAddr.toNat hdr.secondSize.toNat

end RkBootImgHdr

/-- A `uint32_t` of the header in memory. -/
def field (v : UInt32) : List UInt8 := Mem.le32 v.toNat

section Input

variable {m m' : Mem} {hdr hdr' : RkBootImgHdr}

/-- The fields at the end of the input. -/
def RkBootImgHdr.tail (hdr : RkBootImgHdr) : List UInt8 :=
  field hdr.tagsAddr ++ field hdr.pageSize ++ (field hdr.unused.1 ++ field hdr.unused.2) ++ hdr.name ++
    hdr.cmdline

theorem length_field (v : UInt32) : (field v).length = 4 := rfl

theorem RkBootImgHdr.length_tail (hdr : RkBootImgHdr) : hdr.tail.length = 544 := by
  simp only [RkBootImgHdr.tail, List.length_append, length_field, hdr.name_length, hdr.cmdline_length]

end Input

end SecureBoot
