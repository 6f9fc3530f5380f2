import RkUboot.Lib.Crc
import RkUboot.Lib.Bytes
import RkUboot.Platform.Crc32Rk

set_option autoImplicit false

/-! # One checksum in three places

The loader image is checked with `crc32_rk` (`lib/crc32_rk.c`); `boot_merger` makes it with its own
table and loop (`CRC_32` in `tools/boot_merger.c`). Both are the checksum with the polynomial
0x04C10DB7, highest bit first, from the value 0 and without an inversion at the end.

`crc32_rk` takes the value to go on from, so a text may be given to it in pieces. Its loop is a `do`
with the test `--len`: the length 0 means 2^32 bytes. -/

namespace Platform

/-! ## The loops of the source -/

/-- The rounds of `crc32_rk`: `*s++`, then `--len` and the test. -/
def crc32RkLoop (m : Mem) : Nat → UInt32 → Nat → UInt32 → UInt32
  | 0, crc, _, _ => crc
  | rounds + 1, crc, s, len =>
    let crc := doCrc crc (m s)
    let len := len - 1
    if len ≠ 0 then crc32RkLoop m rounds crc (s + 1) len else crc

/-- `crc32_rk(crc, s, len)`. After at most 2^32 rounds `len` is 0. -/
def crc32RkOf (m : Mem) (crc : UInt32) (s : Nat) (len : UInt32) : UInt32 :=
  crc32RkLoop m (2 ^ 32) crc s len

/-- `gTable_Crc32` of `boot_merger`. -/
def gTableCrc32 : List UInt32 :=
  [0x00000000, 0x04c10db7, 0x09821b6e, 0x0d4316d9, 0x130436dc, 0x17c53b6b, 0x1a862db2, 0x1e472005,
   0x26086db8, 0x22c9600f, 0x2f8a76d6, 0x2b4b7b61, 0x350c5b64, 0x31cd56d3, 0x3c8e400a, 0x384f4dbd,
   0x4c10db70, 0x48d1d6c7, 0x4592c01e, 0x4153cda9, 0x5f14edac, 0x5bd5e01b, 0x5696f6c2, 0x5257fb75,
   0x6a18b6c8, 0x6ed9bb7f, 0x639aada6, 0x675ba011, 0x791c8014, 0x7ddd8da3, 0x709e9b7a, 0x745f96cd,
   0x9821b6e0, 0x9ce0bb57, 0x91a3ad8e, 0x9562a039, 0x8b25803c, 0x8fe48d8b, 0x82a79b52, 0x866696e5,
   0xbe29db58, 0xbae8d6ef, 0xb7abc036, 0xb36acd81, 0xad2ded84, 0xa9ece033, 0xa4aff6ea, 0xa06efb5d,
   0xd4316d90, 0xd0f06027, 0xddb376fe, 0xd9727b49, 0xc7355b4c, 0xc3f456fb, 0xceb74022, 0xca764d95,
   0xf2390028, 0xf6f80d9f, 0xfbbb1b46, 0xff7a16f1, 0xe13d36f4, 0xe5fc3b43, 0xe8bf2d9a, 0xec7e202d,
   0x34826077, 0x30436dc0, 0x3d007b19, 0x39c176ae, 0x278656ab, 0x23475b1c, 0x2e044dc5, 0x2ac54072,
   0x128a0dcf, 0x164b0078, 0x1b0816a1, 0x1fc91b16, 0x018e3b13, 0x054f36a4, 0x080c207d, 0x0ccd2dca,
   0x7892bb07, 0x7c53b6b0, 0x7110a069, 0x75d1adde, 0x6b968ddb, 0x6f57806c, 0x621496b5, 0x66d59b02,
   0x5e9ad6bf, 0x5a5bdb08, 0x5718cdd1, 0x53d9c066, 0x4d9ee063, 0x495fedd4, 0x441cfb0d, 0x40ddf6ba,
   0xaca3d697, 0xa862db20, 0xa521cdf9, 0xa1e0c04e, 0xbfa7e04b, 0xbb66edfc, 0xb625fb25, 0xb2e4f692,
   0x8aabbb2f, 0x8e6ab698, 0x8329a041, 0x87e8adf6, 0x99af8df3, 0x9d6e8044, 0x902d969d, 0x94ec9b2a,
   0xe0b30de7, 0xe4720050, 0xe9311689, 0xedf01b3e, 0xf3b73b3b, 0xf776368c, 0xfa352055, 0xfef42de2,
   0xc6bb605f, 0xc27a6de8, 0xcf397b31, 0xcbf87686, 0xd5bf5683, 0xd17e5b34, 0xdc3d4ded, 0xd8fc405a,
   0x6904c0ee, 0x6dc5cd59, 0x6086db80, 0x6447d637, 0x7a00f632, 0x7ec1fb85, 0x7382ed5c, 0x7743e0eb,
   0x4f0cad56, 0x4bcda0e1, 0x468eb638, 0x424fbb8f, 0x5c089b8a, 0x58c9963d, 0x558a80e4, 0x514b8d53,
   0x25141b9e, 0x21d51629, 0x2c9600f0, 0x28570d47, 0x36102d42, 0x32d120f5, 0x3f92362c, 0x3b533b9b,
   0x031c7626, 0x07dd7b91, 0x0a9e6d48, 0x0e5f60ff, 0x101840fa, 0x14d94d4d, 0x199a5b94, 0x1d5b5623,
   0xf125760e, 0xf5e47bb9, 0xf8a76d60, 0xfc6660d7, 0xe22140d2, 0xe6e04d65, 0xeba35bbc, 0xef62560b,
   0xd72d1bb6, 0xd3ec1601, 0xdeaf00d8, 0xda6e0d6f, 0xc4292d6a, 0xc0e820dd, 0xcdab3604, 0xc96a3bb3,
   0xbd35ad7e, 0xb9f4a0c9, 0xb4b7b610, 0xb076bba7, 0xae319ba2, 0xaaf09615, 0xa7b380cc, 0xa3728d7b,
   0x9b3dc0c6, 0x9ffccd71, 0x92bfdba8, 0x967ed61f, 0x8839f61a, 0x8cf8fbad, 0x81bbed74, 0x857ae0c3,
   0x5d86a099, 0x5947ad2e, 0x5404bbf7, 0x50c5b640, 0x4e829645, 0x4a439bf2, 0x47008d2b, 0x43c1809c,
   0x7b8ecd21, 0x7f4fc096, 0x720cd64f, 0x76cddbf8, 0x688afbfd, 0x6c4bf64a, 0x6108e093, 0x65c9ed24,
   0x11967be9, 0x1557765e, 0x18146087, 0x1cd56d30, 0x02924d35, 0x06534082, 0x0b10565b, 0x0fd15bec,
   0x379e1651, 0x335f1be6, 0x3e1c0d3f, 0x3add0088, 0x249a208d, 0x205b2d3a, 0x2d183be3, 0x29d93654,
   0xc5a71679, 0xc1661bce, 0xcc250d17, 0xc8e400a0, 0xd6a320a5, 0xd2622d12, 0xdf213bcb, 0xdbe0367c,
   0xe3af7bc1, 0xe76e7676, 0xea2d60af, 0xeeec6d18, 0xf0ab4d1d, 0xf46a40aa, 0xf9295673, 0xfde85bc4,
   0x89b7cd09, 0x8d76c0be, 0x8035d667, 0x84f4dbd0, 0x9ab3fbd5, 0x9e72f662, 0x9331e0bb, 0x97f0ed0c,
   0xafbfa0b1, 0xab7ead06, 0xa63dbbdf, 0xa2fcb668, 0xbcbb966d, 0xb87a9bda, 0xb5398d03, 0xb1f880b4]

/-- The body of the loop of `CRC_32`. -/
def crcAccum (nAccum : UInt32) (x : UInt8) : UInt32 :=
  (nAccum <<< 8) ^^^ gTableCrc32.getD ((nAccum >>> 24) ^^^ x.toUInt32).toNat 0

/-- The rounds of `CRC_32` that are left, `n` of them. -/
def crc32Loop (m : Mem) : Nat → UInt32 → Nat → UInt32
  | 0, nAccum, _ => nAccum
  | n + 1, nAccum, pData => crc32Loop m n (crcAccum nAccum (m pData)) (pData + 1)

/-- `CRC_32(pData, ulSize)`. -/
def crc32 (m : Mem) (pData : Nat) (ulSize : UInt32) : UInt32 := crc32Loop m ulSize.toNat 0 pData

/-- The polynomial 0x04C10DB7. -/
def crcPoly : BitVec 32 := 0x04C10DB7#32

/-- The checksum of `s` bit by bit, from the value `crc`. -/
def crcBitwise (crc : UInt32) (s : List UInt8) : UInt32 :=
  ⟨Crc.crc crcPoly crc.toBitVec (s.map UInt8.toBitVec)⟩

/-! ## The tables -/

theorem crcTable_eq_entry :
    ∀ i : BitVec 8, (crcTable.getD i.toNat 0).toBitVec = Crc.entry crcPoly i := by
  decide +kernel

theorem gTableCrc32_eq : gTableCrc32 = crcTable := by
  decide +kernel

/-! ## One byte -/

/-- The index of both loops is the top byte of the register with the byte of the text added. -/
theorem index_eq (crc : UInt32) (x : UInt8) :
    ((crc >>> 24) ^^^ x.toUInt32).toNat =
      (crc.toBitVec.extractLsb' 24 8 ^^^ x.toBitVec).toNat := by
  have htop : crc.toNat >>> 24 < 2 ^ 8 := by
    rw [Nat.shiftRight_eq_div_pow]
    have := crc.toNat_lt
    omega
  rw [UInt32.toNat_xor, UInt32.toNat_shiftRight, UInt8.toNat_toUInt32, BitVec.toNat_xor,
    BitVec.extractLsb'_toNat, UInt32.toNat_toBitVec, UInt8.toNat_toBitVec, Nat.mod_eq_of_lt htop]
  rfl

/-- The mask of `DO_CRC` changes nothing. -/
theorem index_and (crc : UInt32) (x : UInt8) :
    (((crc >>> 24) ^^^ x.toUInt32) &&& 255).toNat = ((crc >>> 24) ^^^ x.toUInt32).toNat := by
  rw [UInt32.toNat_and]
  have hlt : ((crc >>> 24) ^^^ x.toUInt32).toNat < 2 ^ 8 := by
    rw [index_eq]
    exact BitVec.isLt _
  exact (Nat.and_two_pow_sub_one_eq_mod _ 8).trans (Nat.mod_eq_of_lt hlt)

/-- `DO_CRC` is one byte of the checksum. -/
theorem toBitVec_doCrc (crc : UInt32) (x : UInt8) :
    (doCrc crc x).toBitVec = Crc.byte crcPoly crc.toBitVec x.toBitVec := by
  unfold doCrc
  rw [index_and, index_eq, UInt32.toBitVec_xor, crcTable_eq_entry,
    Crc.byte_eq_entry crcPoly (by decide)]
  rfl

theorem crcAccum_eq (nAccum : UInt32) (x : UInt8) : crcAccum nAccum x = doCrc nAccum x := by
  unfold crcAccum doCrc
  rw [gTableCrc32_eq, index_and]
  exact UInt32.xor_comm _ _

/-! ## Whole texts -/

theorem crcBitwise_eq (crc : UInt32) (s : List UInt8) : crcBitwise crc s = s.foldl doCrc crc := by
  induction s generalizing crc with
  | nil => rfl
  | cons x s ih =>
    rw [List.foldl_cons, ← ih]
    unfold crcBitwise Crc.crc
    rw [List.map_cons, List.foldl_cons, toBitVec_doCrc]

theorem crc32RkLoop_eq (m : Mem) (rounds : Nat) (crc : UInt32) (s : Nat) (len : UInt32)
    (hlen : len ≠ 0) (hrounds : len.toNat ≤ rounds) :
    crc32RkLoop m rounds crc s len = (m.bytes s len.toNat).foldl doCrc crc := by
  induction rounds generalizing crc s len with
  | zero => exact absurd (UInt32.toNat_inj.mp (Nat.le_zero.mp hrounds)) hlen
  | succ rounds ih =>
    have hpos : 0 < len.toNat := by
      rcases Nat.eq_zero_or_pos len.toNat with h0 | hpos
      · exact absurd (UInt32.toNat_inj.mp h0) hlen
      · exact hpos
    have hsub : (len - 1).toNat = len.toNat - 1 := by
      rw [UInt32.toNat_sub_of_le]
      · rfl
      · exact UInt32.le_iff_toNat_le.mpr hpos
    have hbytes : m.bytes s len.toNat = m s :: m.bytes (s + 1) (len - 1).toNat := by
      rw [hsub, ← Mem.bytes_succ, Nat.sub_add_cancel hpos]
    rw [hbytes, List.foldl_cons]
    simp only [crc32RkLoop]
    split
    · next hne => exact ih _ _ _ hne (by omega)
    · next h0 =>
      rw [ne_eq, not_not] at h0
      rw [h0]
      rfl

/-- `crc32_rk` on a text that is not empty. -/
theorem crc32RkOf_eq (m : Mem) (crc : UInt32) (s : Nat) (len : UInt32) (hlen : len ≠ 0) :
    crc32RkOf m crc s len = (m.bytes s len.toNat).foldl doCrc crc :=
  crc32RkLoop_eq m _ crc s len hlen (Nat.le_of_lt len.toNat_lt)

theorem crc32Loop_eq (m : Mem) (n : Nat) (nAccum : UInt32) (pData : Nat) :
    crc32Loop m n nAccum pData = (m.bytes pData n).foldl doCrc nAccum := by
  induction n generalizing nAccum pData with
  | zero => rfl
  | succ n ih => rw [crc32Loop, ih, Mem.bytes_succ, List.foldl_cons, crcAccum_eq]

/-- The value that the rest of the model takes for `crc32_rk` from 0. -/
theorem crc32Rk_eq (m : Mem) (s : Nat) (len : UInt32) (hlen : len ≠ 0) :
    (crc32RkOf m 0 s len).toNat = crc32Rk (m.bytes s len.toNat) := by
  rw [crc32RkOf_eq m 0 s len hlen]
  rfl

/-- **One checksum**: for a text that is not empty, `crc32_rk` from 0, `CRC_32` and the checksum bit
    by bit agree; and `crc32_rk` goes on from its own value: for a text given in two pieces, neither
    of them empty, the second call ends with the value for the whole text, from any start. -/
theorem crc32Rk_agrees :
    (∀ (m : Mem) (s : Nat) (len : UInt32), len ≠ 0 →
      crc32RkOf m 0 s len = crcBitwise 0 (m.bytes s len.toNat) ∧
        crc32 m s len = crcBitwise 0 (m.bytes s len.toNat)) ∧
    ∀ (m : Mem) (c : UInt32) (s t st : Nat) (slen tlen : UInt32),
      slen ≠ 0 → tlen ≠ 0 → slen.toNat + tlen.toNat < 2 ^ 32 →
      m.bytes st (slen.toNat + tlen.toNat) = m.bytes s slen.toNat ++ m.bytes t tlen.toNat →
        crc32RkOf m (crc32RkOf m c s slen) t tlen = crc32RkOf m c st (slen + tlen) := by
  refine ⟨?_, ?_⟩
  · intro m s len hlen
    refine ⟨?_, ?_⟩
    · rw [crc32RkOf_eq m 0 s len hlen, crcBitwise_eq]
    · rw [crcBitwise_eq]
      exact crc32Loop_eq m len.toNat 0 s
  · intro m c s t st slen tlen hs ht hfit htext
    have hsum : (slen + tlen).toNat = slen.toNat + tlen.toNat := by
      rw [UInt32.toNat_add]
      exact Nat.mod_eq_of_lt hfit
    have hne : slen + tlen ≠ 0 := by
      intro h0
      rw [h0] at hsum
      have : slen.toNat = 0 := by
        have h00 : (0 : UInt32).toNat = 0 := rfl
        omega
      exact hs (UInt32.toNat_inj.mp this)
    rw [crc32RkOf_eq m c s slen hs, crc32RkOf_eq m _ t tlen ht, crc32RkOf_eq m c st _ hne, hsum,
      htext, List.foldl_append]

/-- A text of three bytes, whole and in two pieces. -/
theorem crc32Rk_agrees_three :
    (crc32RkOf (Mem.ofList [1, 2, 3]) 0 0 3 = crcBitwise 0 [1, 2, 3] ∧
      crc32 (Mem.ofList [1, 2, 3]) 0 3 = crcBitwise 0 [1, 2, 3]) ∧
    crc32RkOf (Mem.ofList [1, 2, 3]) (crc32RkOf (Mem.ofList [1, 2, 3]) 7 0 1) 1 2 =
      crc32RkOf (Mem.ofList [1, 2, 3]) 7 0 (1 + 2) := by
  refine ⟨crc32Rk_agrees.1 (Mem.ofList [1, 2, 3]) 0 3 (by decide), ?_⟩
  exact crc32Rk_agrees.2 (Mem.ofList [1, 2, 3]) 7 0 1 0 1 2 (by decide) (by decide) (by decide)
    (by decide)

/-! ## Damage -/

/-- Texts that differ in four bytes in a row at most have different checksums. -/
theorem crc32Rk_burst {pre post x y : List UInt8} (hlen : x.length = y.length) (hx : x.length ≤ 4)
    (h : crc32Rk (pre ++ x ++ post) = crc32Rk (pre ++ y ++ post)) : x = y := by
  have hcrc := UInt32.toNat_inj.mp h
  rw [← crcBitwise_eq, ← crcBitwise_eq] at hcrc
  have hbits := congrArg UInt32.toBitVec hcrc
  simp only [crcBitwise, List.map_append] at hbits
  refine List.map_injective_iff.mpr (fun _ _ => UInt8.toBitVec_inj.mp)
    (Crc.crc_burst (show crcPoly.getLsbD 0 = true by decide) _ ?_ ?_ hbits)
  · rw [List.length_map, List.length_map, hlen]
  · rw [List.length_map]
    omega

/-- **A burst is found.** If a buffer passes `CRC_32CheckBuffer` and up to four bytes in a row of the
    text are replaced by others, it does not pass any more. -/
theorem crc32CheckBuffer_burst {m : Mem} {a j k : Nat} {x : List UInt8} (hx : x.length ≤ 4)
    (hdiff : m.bytes (a + j) x.length ≠ x) (hok : crc32CheckBuffer m a (j + x.length + k + 4) ≠ 0) :
    crc32CheckBuffer (m.store (a + j) x) a (j + x.length + k + 4) = 0 := by
  have hn : 0 < j + x.length + k := by
    by_contra h0
    rw [Nat.eq_zero_of_not_pos h0] at hok
    exact hok rfl
  by_contra (hpass : _ ≠ 0)
  rw [crc32CheckBuffer_ne_zero_iff _ _ _ hn] at hok hpass
  -- the checksum behind the text is as before
  have hword : (m.store (a + j) x).u32 (a + (j + x.length + k)) = m.u32 (a + (j + x.length + k)) :=
    Mem.AgreeOn.u32 fun i hi _ => Mem.store_apply_out (by omega)
  have hcrc := hpass.2.symm.trans (hword.trans hok.2)
  have hkept : ∀ c n, c + n ≤ a + j ∨ a + j + x.length ≤ c →
      (m.store (a + j) x).bytes c n = m.bytes c n := fun c n hc =>
    Mem.bytes_congr _ _ _ _ _ fun i hi => Mem.store_apply_out (by omega)
  have hnew : (m.store (a + j) x).Has (a + j) x :=
    Mem.has_iff.mpr fun i hi => Mem.store_apply_in _ _ _ _ hi
  simp only [Mem.bytes_add] at hcrc
  rw [hkept a j (by omega), hkept _ k (by omega), hnew.bytes_eq rfl] at hcrc
  exact hdiff (crc32Rk_burst (by simp [Mem.bytes]) hx hcrc).symm

/-- The text 1, 2, 3 with its checksum behind it, and the 2 lost. -/
theorem crc32CheckBuffer_burst_three :
    crc32CheckBuffer ((Mem.ofList ([1, 2, 3] ++ Mem.le32 (crc32Rk [1, 2, 3]))).store 1 [0]) 0 7 = 0 :=
  crc32CheckBuffer_burst (a := 0) (j := 1) (k := 1) (by decide) (by decide) (by decide +kernel)

end Platform
