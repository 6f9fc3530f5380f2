import RkUboot.Lib.Mem

set_option autoImplicit false

/-! # Verification of the u-boot image

`SecureModeVerifyUbootImage` decides whether a second-stage loader may be flashed. The image is a
`second_loader_hdr` of 2048 bytes followed by the payload. In RK mode the hash and the signature go
through the crypto engine; in NS mode the header's `hash` is compared first with the digest and
then with the decoded signature. Both engines are arbitrary here: nothing is assumed of a digest
or of a decoded signature.

Each mode lets the header say how many bytes of the digest count. `RkSigned` and `NsSigned` say what
an accepted image should satisfy, and the two main theorems say which headers that is lost for. -/

namespace SecureBoot

/-! ## `second_loader_hdr` -/

/-- `RK_UBOOT_MAGIC`, with its terminator. -/
def rkUbootMagic : List UInt8 := [0x4c, 0x4f, 0x41, 0x44, 0x45, 0x52, 0x20, 0x20, 0]

def rkUbootSignTag : Nat := 0x4E474953

/-- `SHA_DIGEST_SIZE` -/
def shaDigestSize : Nat := 20

/-- `sizeof(second_loader_hdr)` -/
def sizeofSecondLoaderHdr : Nat := 2048

def loaderLoadSize (hdr : Mem) : Nat := hdr.u32 20

def hashLen (hdr : Mem) : Nat := hdr.u32 28

/-- The offset of the field `hash`. -/
def hash : Nat := 32

def signTag (hdr : Mem) : Nat := hdr.u32 1024

def signlen (hdr : Mem) : Nat := hdr.u32 1028

def rsaHash (hdr : Mem) : List UInt8 := hdr.bytes 1032 256

/-- The test of the magic, `sizeof(RK_UBOOT_MAGIC)` bytes. -/
def hasMagic (hdr : Mem) : Bool := hdr.memcmpEq 0 (Mem.zero.store 0 rkUbootMagic) 0 9

/-- What is hashed: the payload, then `loader_load_addr`, `loader_load_size` and `hash_len`. -/
def hashedStream (hdr : Mem) : List UInt8 :=
  hdr.bytes sizeofSecondLoaderHdr (loaderLoadSize hdr)
    ++ hdr.bytes 16 4 ++ hdr.bytes 20 4 ++ hdr.bytes 28 4

/-- The size announced to the engine, a `uint32`. -/
def hashedSize (hdr : Mem) : Nat := (loaderLoadSize hdr + 4 + 4 + 4) % 2 ^ 32

/-! ## The checks -/

/-- The hash and signature functions, as the arrays they leave their results in. -/
structure Crypto where
  /-- `CryptoSHAInit(size, bits)`, `CryptoSHAStart` for each part of the stream, `CryptoSHAEnd`. -/
  sha : Nat → Nat → List UInt8 → Mem
  /-- `CryptoRSAInit` and `CryptoRSAEnd`. -/
  rsa : List UInt8 → Mem
  /-- `rsaDecodeHash` of a signature of the given length: the status and the decoded hash. -/
  rsaDecodeHash : List UInt8 → Nat → Nat × Mem

/-- The digest that RK mode takes. -/
def rkDigest (c : Crypto) (hdr : Mem) : Mem :=
  if hashLen hdr = 20 then c.sha (hashedSize hdr) 160 (hashedStream hdr)
  else c.sha (hashedSize hdr) 256 (hashedStream hdr)

/-- The loop over the bytes of the hash, from byte `i` on with `left` bytes to go. -/
def checkSign (rsahash dataHash : Mem) (len : Nat) : Nat → Nat → Bool
  | _, 0 => true
  | i, left + 1 =>
    if rsahash (len - 1 - i) ≠ dataHash i then false
    else checkSign rsahash dataHash len (i + 1) left

/-- `SecureRKModeVerifyUbootImage` -/
def secureRKModeVerifyUbootImage (c : Crypto) (hdr : Mem) : Bool :=
  if ¬ hasMagic hdr then false
  else if signTag hdr ≠ rkUbootSignTag ∧ hashLen hdr ≠ 20 ∧ hashLen hdr ≠ 32 then false
  else
    let rsahash := c.rsa (rsaHash hdr)
    let dataHash := rkDigest c hdr
    if ¬ hdr.memcmpEq hash dataHash 0 (hashLen hdr) then false
    else checkSign rsahash dataHash (hashLen hdr) 0 (hashLen hdr)

/-- The SHA-1 digest that NS mode takes. -/
def nsDigest (c : Crypto) (hdr : Mem) : Mem := c.sha (hashedSize hdr) 160 (hashedStream hdr)

/-- `SecureNSModeUbootImageShaCheck` -/
def secureNSModeUbootImageShaCheck (c : Crypto) (hdr : Mem) : Bool :=
  let size := if hashLen hdr < shaDigestSize then hashLen hdr else shaDigestSize
  hdr.memcmpEq hash (nsDigest c hdr) 0 size

/-- `SecureNSModeSignCheck(hdr->rsaHash, hdr->hash, hdr->signlen)`; the length is a `uint8`. -/
def secureNSModeSignCheck (c : Crypto) (hdr : Mem) : Bool :=
  let (status, decodedHash) := c.rsaDecodeHash (rsaHash hdr) (signlen hdr % 2 ^ 8)
  if status = 0 then hdr.memcmpEq hash decodedHash 0 20 else false

/-- `SecureNSModeVerifyUbootImageSign` -/
def secureNSModeVerifyUbootImageSign (c : Crypto) (secureBootEn : Bool) (publicKeyLen : Nat)
    (hdr : Mem) : Bool :=
  if ¬ hasMagic hdr then false
  else if ¬ secureNSModeUbootImageShaCheck c hdr then false
  else if secureBootEn then
    if publicKeyLen = 0 then false
    else if signTag hdr ≠ rkUbootSignTag then false
    else secureNSModeSignCheck c hdr
  else true

/-! ## RK mode -/

theorem checkSign_iff (rsahash dataHash : Mem) (len i left : Nat) :
    checkSign rsahash dataHash len i left = true ↔
      ∀ j, i ≤ j → j < i + left → rsahash (len - 1 - j) = dataHash j := by
  induction left generalizing i with
  | zero => exact iff_of_true rfl (fun j hij hj => absurd hj (Nat.not_lt.2 hij))
  | succ left ih =>
    rw [checkSign]
    split
    · next hne => exact iff_of_false nofun (fun h => hne (h i le_rfl (by omega)))
    next heq =>
    rw [ih]
    constructor
    · intro h j hij hj
      rcases Nat.eq_or_lt_of_le hij with rfl | hlt
      · exact not_not.1 heq
      · exact h j hlt (by omega)
    · intro h j hij hj
      exact h j (by omega) (by omega)

/-- What RK mode accepts, spelled out. -/
theorem secureRKModeVerifyUbootImage_iff (c : Crypto) (hdr : Mem) :
    secureRKModeVerifyUbootImage c hdr = true ↔
      hasMagic hdr ∧
      (signTag hdr = rkUbootSignTag ∨ hashLen hdr = 20 ∨ hashLen hdr = 32) ∧
      (∀ i < hashLen hdr, hdr (hash + i) = rkDigest c hdr i) ∧
      ∀ i < hashLen hdr, c.rsa (rsaHash hdr) (hashLen hdr - 1 - i) = rkDigest c hdr i := by
  have hcmp := Mem.memcmpEq_iff hdr (rkDigest c hdr) hash 0 (hashLen hdr)
  have hloop := checkSign_iff (c.rsa (rsaHash hdr)) (rkDigest c hdr) (hashLen hdr) 0 (hashLen hdr)
  simp only [Nat.zero_add, Nat.zero_le, true_implies] at hcmp hloop
  unfold secureRKModeVerifyUbootImage
  split
  · next hmagic => simp [hmagic]
  split
  · next hlen => simp [hlen.1, hlen.2.1, hlen.2.2]
  next hmagic hlen =>
  simp only [not_not] at hmagic
  have hlen' : signTag hdr = rkUbootSignTag ∨ hashLen hdr = 20 ∨ hashLen hdr = 32 := by
    omega
  by_cases heq : hdr.memcmpEq hash (rkDigest c hdr) 0 (hashLen hdr) = true
  · simp only [heq, not_true_eq_false, if_false, hloop]
    exact ⟨fun h => ⟨hmagic, hlen', hcmp.1 heq, h⟩, fun h => h.2.2.2⟩
  · rw [if_pos heq]
    exact iff_of_false nofun (fun h => heq (hcmp.2 h.2.2.1))

/-- The image carries a digest of a supported length, and its signature is over that digest. -/
def RkSigned (c : Crypto) (hdr : Mem) : Prop :=
  (hashLen hdr = 20 ∨ hashLen hdr = 32) ∧
    ∀ i < hashLen hdr, c.rsa (rsaHash hdr) (hashLen hdr - 1 - i) = rkDigest c hdr i

/-- Engines made up for a header, so that both comparisons of RK mode come out equal. -/
def echoCrypto (hdr : Mem) : Crypto where
  sha := fun _ _ _ i => hdr (hash + i)
  rsa := fun _ i => hdr (hash + (hashLen hdr - 1 - i))
  rsaDecodeHash := fun _ _ => (0, fun i => hdr (hash + i))

theorem rkDigest_echoCrypto (hdr : Mem) (i : Nat) :
    rkDigest (echoCrypto hdr) hdr i = hdr (hash + i) := by
  unfold rkDigest
  split <;> rfl

/-- **RK mode is sound exactly for the headers whose `hash_len` is 20 or 32, and for those that it
refuses for their magic or tag.** The test of `hash_len` is skipped when the tag is right. -/
theorem rkMode_sound_iff (hdr : Mem) :
    (∀ c : Crypto, secureRKModeVerifyUbootImage c hdr = true → RkSigned c hdr) ↔
      hashLen hdr = 20 ∨ hashLen hdr = 32 ∨ ¬ hasMagic hdr ∨ signTag hdr ≠ rkUbootSignTag := by
  constructor
  · intro hsound
    by_contra hno
    simp only [not_or, not_not] at hno
    obtain ⟨h20, h32, hmagic, htag⟩ := hno
    have haccept : secureRKModeVerifyUbootImage (echoCrypto hdr) hdr = true := by
      refine (secureRKModeVerifyUbootImage_iff _ _).2 ⟨hmagic, .inl htag, ?_, ?_⟩
      · exact fun i _ => (rkDigest_echoCrypto hdr i).symm
      intro i hi
      have hback : hashLen hdr - 1 - (hashLen hdr - 1 - i) = i := by omega
      rw [rkDigest_echoCrypto]
      exact congrArg (fun j => hdr (hash + j)) hback
    exact (hsound _ haccept).1.elim h20 h32
  · intro hguard c haccept
    obtain ⟨hmagic, hlen, -, hsign⟩ := (secureRKModeVerifyUbootImage_iff c hdr).1 haccept
    refine ⟨?_, hsign⟩
    rcases hguard with h20 | h32 | hbad | hbad
    · exact .inl h20
    · exact .inr h32
    · exact absurd hmagic hbad
    · omega

/-- A header of nothing but the magic and the tag. -/
def bareHdr : Mem := (Mem.zero.store 0 rkUbootMagic).set32 1024 rkUbootSignTag

/-- With `hash_len` 0 nothing is compared: any engine accepts. -/
theorem secureRKModeVerifyUbootImage_bareHdr (c : Crypto) :
    secureRKModeVerifyUbootImage c bareHdr = true := by
  have hlen : hashLen bareHdr = 0 := by decide
  refine (secureRKModeVerifyUbootImage_iff c bareHdr).2 ⟨by decide, .inl (by decide), ?_, ?_⟩
  · omega
  · omega

/-- The bare header is accepted, though it is no signed image. -/
theorem rkMode_accepts_unhashed :
    secureRKModeVerifyUbootImage (echoCrypto bareHdr) bareHdr = true ∧
      ¬ RkSigned (echoCrypto bareHdr) bareHdr := by
  have hlen : hashLen bareHdr = 0 := by decide
  refine ⟨secureRKModeVerifyUbootImage_bareHdr _, ?_⟩
  rintro ⟨h | h, -⟩
  · omega
  · omega

/-! ## NS mode -/

/-- The decoded signature of the image. -/
def decodedHash (c : Crypto) (hdr : Mem) : Mem :=
  (c.rsaDecodeHash (rsaHash hdr) (signlen hdr % 2 ^ 8)).2

/-- The 20 bytes of the digest are the ones that the signature decodes to. -/
def NsSigned (c : Crypto) (hdr : Mem) : Prop :=
  ∀ i < 20, nsDigest c hdr i = decodedHash c hdr i

/-- What NS mode accepts under secure boot, spelled out. -/
theorem secureNSModeVerifyUbootImageSign_iff (c : Crypto) (publicKeyLen : Nat) (hdr : Mem) :
    secureNSModeVerifyUbootImageSign c true publicKeyLen hdr = true ↔
      hasMagic hdr ∧
      (∀ i, i < hashLen hdr → i < 20 → hdr (hash + i) = nsDigest c hdr i) ∧
      publicKeyLen ≠ 0 ∧
      signTag hdr = rkUbootSignTag ∧
      (c.rsaDecodeHash (rsaHash hdr) (signlen hdr % 2 ^ 8)).1 = 0 ∧
      ∀ i < 20, hdr (hash + i) = decodedHash c hdr i := by
  have hsha : secureNSModeUbootImageShaCheck c hdr = true ↔
      ∀ i, i < hashLen hdr → i < 20 → hdr (hash + i) = nsDigest c hdr i := by
    unfold secureNSModeUbootImageShaCheck
    rw [Mem.memcmpEq_iff]
    simp only [Nat.zero_add]
    split
    · next hlt => exact ⟨fun h i hi _ => h i hi, fun h i hi => h i hi (hi.trans hlt)⟩
    · next hge => exact ⟨fun h i _ hi => h i hi, fun h i hi => h i (by omega) hi⟩
  have hsign : secureNSModeSignCheck c hdr = true ↔
      (c.rsaDecodeHash (rsaHash hdr) (signlen hdr % 2 ^ 8)).1 = 0 ∧
        ∀ i < 20, hdr (hash + i) = decodedHash c hdr i := by
    simp only [secureNSModeSignCheck, decodedHash]
    split
    · next hok => rw [Mem.memcmpEq_iff]; simp only [Nat.zero_add, hok, true_and]
    · next hbad => exact iff_of_false nofun (fun h => hbad h.1)
  unfold secureNSModeVerifyUbootImageSign
  split
  · next hmagic => simp [hmagic]
  split
  · next hbad => exact iff_of_false nofun (fun h => hbad (hsha.2 h.2.1))
  rw [if_pos rfl]
  split
  · next hkey => simp [hkey]
  split
  · next htag => simp [htag]
  next hmagic hok hkey htag =>
  simp only [not_not] at hmagic hok htag
  rw [hsign]
  exact ⟨fun h => ⟨hmagic, hsha.1 hok, hkey, htag, h⟩, fun h => h.2.2.2.2⟩

/-- Engines made up for a header: the signature decodes to the header's hash, and the digest agrees
with it only as far as `hash_len` says. -/
def shortCrypto (hdr : Mem) : Crypto where
  sha := fun _ _ _ i => if i < hashLen hdr then hdr (hash + i) else hdr (hash + i) + 1
  rsa := fun _ => Mem.zero
  rsaDecodeHash := fun _ _ => (0, fun i => hdr (hash + i))

/-- **NS mode is sound exactly for the headers whose `hash_len` is at least 20, and for those that it
refuses for their magic or tag or for want of a key.** The digest is compared with the header's hash
on `hash_len` bytes, and the signature with the header's hash on 20. -/
theorem nsMode_sound_iff (publicKeyLen : Nat) (hdr : Mem) :
    (∀ c : Crypto, secureNSModeVerifyUbootImageSign c true publicKeyLen hdr = true →
      NsSigned c hdr) ↔
      20 ≤ hashLen hdr ∨ ¬ hasMagic hdr ∨ publicKeyLen = 0 ∨ signTag hdr ≠ rkUbootSignTag := by
  constructor
  · intro hsound
    by_contra hno
    simp only [not_or, not_not, not_le] at hno
    obtain ⟨hlen, hmagic, hkey, htag⟩ := hno
    have haccept : secureNSModeVerifyUbootImageSign (shortCrypto hdr) true publicKeyLen hdr = true := by
      refine (secureNSModeVerifyUbootImageSign_iff ..).2 ⟨hmagic, ?_, hkey, htag, rfl, ?_⟩
      · intro i hi _
        exact (if_pos hi).symm
      · exact fun i _ => rfl
    -- the first byte that is left out differs
    have hbyte := hsound _ haccept (hashLen hdr) hlen
    have hdigest : nsDigest (shortCrypto hdr) hdr (hashLen hdr) = hdr (hash + hashLen hdr) + 1 :=
      if_neg (Nat.lt_irrefl _)
    rw [hdigest] at hbyte
    cases UInt8.add_eq_left.1 hbyte
  · intro hguard c haccept i hi
    obtain ⟨hmagic, hsha, hkey, htag, -, hsign⟩ :=
      (secureNSModeVerifyUbootImageSign_iff c publicKeyLen hdr).1 haccept
    have hlen : 20 ≤ hashLen hdr := by
      rcases hguard with hlen | hbad | hbad | hbad
      · exact hlen
      · exact absurd hmagic hbad
      · exact absurd hbad hkey
      · exact absurd htag hbad
    rw [← hsha i (by omega) hi, hsign i hi]

/-- With `hash_len` 0 the digest is not looked at: whatever it is, the signature of the header's hash
is enough. -/
theorem nsMode_accepts_unhashed :
    secureNSModeVerifyUbootImageSign (shortCrypto bareHdr) true 256 bareHdr = true ∧
      ¬ NsSigned (shortCrypto bareHdr) bareHdr := by
  refine ⟨by decide, fun h => ?_⟩
  cases h 0 (by decide)

end SecureBoot
