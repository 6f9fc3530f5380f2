import RkUboot.Lib.Cipher
import RkUboot.Lib.Bytes

set_option autoImplicit false

/-! # The cipher of the loader images (`platform/rc4_enc.c`, `tools/boot_merger.c`)

`P_RC4` is RC4 with a fixed key, in place, and starts again at every call. The boot loader and the host
tool have the same code; only the type of the length differs (16 bits on the device). -/

namespace Platform

/-- The key of `P_RC4`. -/
def rc4Key : List UInt8 := [124, 78, 3, 4, 85, 5, 9, 7, 45, 44, 123, 56, 23, 13, 23, 17]

/-- Model of `P_RC4` on a whole buffer. -/
def pRc4 (buf : List UInt8) : List UInt8 := Cipher.rc4 rc4Key buf

@[simp] theorem length_pRc4 (buf : List UInt8) : (pRc4 buf).length = buf.length :=
  Cipher.length_rc4 _ _

theorem pRc4_pRc4 (buf : List UInt8) : pRc4 (pRc4 buf) = buf := Cipher.rc4_rc4 _ _

end Platform
