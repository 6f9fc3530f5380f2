import RkUboot.Lib.Bytes
import RkUboot.Fastboot.SparseLayout

set_option autoImplicit false

/-! # Where `unsparse` writes

`unsparse` checks a running total of bytes, `outlen`, against the size of the partition, and passes
the ranges from a separate cursor, `sector`. Both have 64 bits. A DONT_CARE chunk can declare almost
`2 ^ 64` bytes, which takes the total back to a small number while the cursor moves on, far behind
the end of the partition. A RAW chunk fits in its header only if the block size is at most `2 ^ 32 -
13`; with that, the total can pass `2 ^ 64` on a partition of 60 GiB, and on no smaller one. -/

namespace Fastboot

/-! ## The ranges -/

/-- A call of `rkloader_CopyMemory2Flash`: where the data is, the first sector and the count. -/
structure Pass where
  source : Nat
  sector : Nat
  blkcnt : Nat
  deriving DecidableEq, Repr

/-- The calls of the chunk loop of `unsparse`, as long as none of them fails, and its result then. -/
def chunkPasses (image : Mem) (blkSz sectionSize : Nat) : Nat → Nat → Nat → Nat → List Pass × Bool
  | 0, _, _, _ => ([], true)
  | k + 1, source, sector, outlen =>
    let clen := chunkLen image blkSz source
    let total := (outlen + clen) % 2 ^ 64
    let next := (sector + clen / 512) % 2 ^ 64
    if IsRaw image blkSz source ∧ total ≤ sectionSize then
      let r := chunkPasses image blkSz sectionSize k (source + 12 + clen) next total
      (⟨source + 12, sector, clen / 512⟩ :: r.1, r.2)
    else if IsSkip image source ∧ total ≤ sectionSize then
      chunkPasses image blkSz sectionSize k (source + 12) next total
    else ([], false)

/-- The calls of `unsparse`, as long as none of them fails, and its result then. -/
def unsparsePasses (image : Mem) (sector sizeKb : Nat) : List Pass × Bool :=
  if HeaderTaken image sizeKb then
    chunkPasses image (sparseBlkSz image) (sectionBytes sizeKb) (sparseTotalChunks image) 28 sector 0
  else ([], false)

/-- Make the calls in order; the first that fails is the last. -/
def makePasses (target : Target) (image : Mem) : List Pass → Bool → Io → Bool × Io
  | [], ok, io => (ok, io)
  | p :: ps, ok, io =>
    let r := rkloaderCopyMemory2Flash target image p.source p.sector (p.blkcnt : Nat) io
    if r.1 then makePasses target image ps ok r.2 else (false, r.2)

variable {i sector sizeKb source w : Nat}

theorem unsparseChunks_eq_makePasses (target : Target) (image : Mem) (blkSz sectionSize : Nat)
    {k outlen : Nat} {io : Io} :
    unsparseChunks target image blkSz sectionSize k source sector outlen io
      = makePasses target image (chunkPasses image blkSz sectionSize k source sector outlen).1
          (chunkPasses image blkSz sectionSize k source sector outlen).2 io := by
  induction k generalizing source sector outlen io with
  | zero => rfl
  | succ k ih =>
    rw [unsparseChunks_round, chunkPasses]
    simp only
    split
    · simp only [makePasses, ih]
    · split
      · exact ih
      · rfl

/-- **The calls are those of `unsparse`**, on every storage; where a call fails, `unsparse` ends. -/
theorem unsparse_eq_makePasses (target : Target) (image : Mem) (sector sizeKb : Nat) (io : Io) :
    unsparse target image sector sizeKb io
      = makePasses target image (unsparsePasses image sector sizeKb).1
          (unsparsePasses image sector sizeKb).2 io := by
  rw [unsparse_eq, unsparsePasses]
  split
  · exact unsparseChunks_eq_makePasses target image _ _
  · rfl

/-! ## What the headers declare -/

/-- The offset of chunk `i`. -/
def chunkStart (image : Mem) : Nat → Nat
  | 0 => 28
  | i + 1 =>
    let source := chunkStart image i
    if IsRaw image (sparseBlkSz image) source then
      source + 12 + chunkLen image (sparseBlkSz image) source
    else source + 12

/-- The bytes that chunk `i` declares. -/
def chunkBytes (image : Mem) (i : Nat) : Nat := chunkLen image (sparseBlkSz image) (chunkStart image i)

/-- The bytes that the first `i` chunks declare. -/
def declaredBytes (image : Mem) : Nat → Nat
  | 0 => 0
  | i + 1 => declaredBytes image i + chunkBytes image i

/-- The whole sectors that the first `i` chunks declare. -/
def declaredSectors (image : Mem) : Nat → Nat
  | 0 => 0
  | i + 1 => declaredSectors image i + chunkBytes image i / 512

/-- The loop takes chunk `i`: the header is good, and the 64-bit total is in the partition. -/
def ChunkTaken (image : Mem) (sectionSize i : Nat) : Prop :=
  (IsRaw image (sparseBlkSz image) (chunkStart image i) ∨ IsSkip image (chunkStart image i))
    ∧ declaredBytes image (i + 1) % 2 ^ 64 ≤ sectionSize

/-- Chunk `i` is a RAW chunk, and the loop takes it and all before it. -/
structure RawTaken (image : Mem) (sizeKb i : Nat) : Prop where
  header : HeaderTaken image sizeKb
  lt : i < sparseTotalChunks image
  taken : ∀ j ≤ i, ChunkTaken image (sectionBytes sizeKb) j
  raw : IsRaw image (sparseBlkSz image) (chunkStart image i)

/-- The call for chunk `i`. -/
def passAt (image : Mem) (sector i : Nat) : Pass :=
  ⟨chunkStart image i + 12, (sector + declaredSectors image i) % 2 ^ 64, chunkBytes image i / 512⟩

/-- The call is the one for a RAW chunk among the `k` chunks from chunk `i` on, and from there on all
    chunks up to it are taken. -/
def PassFrom (image : Mem) (sectionSize sector i k : Nat) (p : Pass) : Prop :=
  ∃ j, i ≤ j ∧ j < i + k ∧ (∀ l, i ≤ l → l ≤ j → ChunkTaken image sectionSize l)
    ∧ IsRaw image (sparseBlkSz image) (chunkStart image j) ∧ p = passAt image sector j

section Passes

variable (image : Mem) (sectionSize sector : Nat) (p : Pass)

theorem not_passFrom_zero (i : Nat) : ¬ PassFrom image sectionSize sector i 0 p := by
  rintro ⟨j, hij, hj, -⟩
  omega

/-- It is the call for chunk `i`, or one behind it. -/
theorem passFrom_succ (i k : Nat) :
    PassFrom image sectionSize sector i (k + 1) p
      ↔ ChunkTaken image sectionSize i
        ∧ (IsRaw image (sparseBlkSz image) (chunkStart image i) ∧ p = passAt image sector i
          ∨ PassFrom image sectionSize sector (i + 1) k p) := by
  constructor
  · rintro ⟨j, hij, hj, hall, hraw, hp⟩
    refine ⟨hall i le_rfl hij, ?_⟩
    rcases Nat.eq_or_lt_of_le hij with rfl | hlt
    · exact .inl ⟨hraw, hp⟩
    · exact .inr ⟨j, hlt, by omega, fun l hl => hall l (by omega), hraw, hp⟩
  · rintro ⟨htaken, ⟨hraw, hp⟩ | ⟨j, hij, hj, hall, hraw, hp⟩⟩
    · refine ⟨i, Nat.le_refl _, by omega, fun l hil hli => ?_, hraw, hp⟩
      obtain rfl : l = i := Nat.le_antisymm hli hil
      exact htaken
    refine ⟨j, by omega, by omega, fun l hil hlj => ?_, hraw, hp⟩
    rcases Nat.eq_or_lt_of_le hil with rfl | hlt
    · exact htaken
    · exact hall l hlt hlj

/-- The loop at chunk `i`: the cursor and the total are what the chunks before it declare, with 64
    bits. -/
theorem mem_chunkPasses (k i : Nat) :
    p ∈ (chunkPasses image (sparseBlkSz image) sectionSize k (chunkStart image i)
        ((sector + declaredSectors image i) % 2 ^ 64) (declaredBytes image i % 2 ^ 64)).1
      ↔ PassFrom image sectionSize sector i k p := by
  induction k generalizing i with
  | zero => exact iff_of_false List.not_mem_nil (not_passFrom_zero image sectionSize sector p i)
  | succ k ih =>
    have hbytes : (declaredBytes image i % 2 ^ 64 + chunkBytes image i) % 2 ^ 64
        = declaredBytes image (i + 1) % 2 ^ 64 := Nat.mod_add_mod ..
    have hsector : ((sector + declaredSectors image i) % 2 ^ 64 + chunkBytes image i / 512) % 2 ^ 64
        = (sector + declaredSectors image (i + 1)) % 2 ^ 64 := by
      rw [Nat.mod_add_mod, Nat.add_assoc, declaredSectors]
    rw [passFrom_succ, chunkPasses]
    rw [show chunkLen image (sparseBlkSz image) (chunkStart image i) = chunkBytes image i from rfl,
      hbytes, hsector]
    by_cases htaken : ChunkTaken image sectionSize i
    · obtain ⟨hgood, hsize⟩ := htaken
      rw [and_iff_right (show ChunkTaken image sectionSize i from ⟨hgood, hsize⟩)]
      by_cases hraw : IsRaw image (sparseBlkSz image) (chunkStart image i)
      · have hstart : chunkStart image i + 12 + chunkBytes image i = chunkStart image (i + 1) := by
          rw [chunkStart, if_pos hraw]
          rfl
        rw [if_pos ⟨hraw, hsize⟩, hstart, List.mem_cons, ih, and_iff_right hraw]
        rfl
      · have hstart : chunkStart image i + 12 = chunkStart image (i + 1) := by
          rw [chunkStart, if_neg hraw]
        rw [if_neg (fun h => hraw h.1), if_pos ⟨hgood.resolve_left hraw, hsize⟩, hstart, ih]
        exact (or_iff_right (fun h => hraw h.1)).symm
    · rw [if_neg (fun h => htaken ⟨.inl h.1, h.2⟩), if_neg (fun h => htaken ⟨.inr h.1, h.2⟩)]
      exact iff_of_false List.not_mem_nil (fun h => htaken h.1)

/-- The calls of `unsparse` are those for the RAW chunks that it takes. -/
theorem mem_unsparsePasses (sizeKb : Nat) (hs : sector < 2 ^ 64) :
    p ∈ (unsparsePasses image sector sizeKb).1
      ↔ ∃ i, RawTaken image sizeKb i ∧ p = passAt image sector i := by
  unfold unsparsePasses
  by_cases hheader : HeaderTaken image sizeKb
  · have hloop := mem_chunkPasses image (sectionBytes sizeKb) sector p (sparseTotalChunks image) 0
    rw [show (sector + declaredSectors image 0) % 2 ^ 64 = sector from Nat.mod_eq_of_lt hs] at hloop
    rw [if_pos hheader]
    refine hloop.trans ?_
    constructor
    · rintro ⟨i, -, hi, hall, hraw, hp⟩
      exact ⟨i, ⟨hheader, by omega, fun j hj => hall j (Nat.zero_le _) hj, hraw⟩, hp⟩
    · rintro ⟨i, hi, hp⟩
      exact ⟨i, Nat.zero_le _, by have := hi.lt; omega, fun j _ hj => hi.taken j hj, hi.raw, hp⟩
  · rw [if_neg hheader]
    refine iff_of_false (List.not_mem_nil) ?_
    rintro ⟨i, hi, -⟩
    exact hheader hi.header

end Passes

/-! ## Ranges inside of the partition

The cursor is passed as `dest_offset`, which has 32 bits. `w` is the modulus of the sector numbers
that are looked at: `2 ^ 64` for the cursor, `2 ^ 32` for the parameter. -/

/-- The sectors of the call, their numbers taken modulo `w`, lie in the partition. -/
def Pass.Inside (w : Nat) (p : Pass) (sector sizeKb : Nat) : Prop :=
  ∀ x, p.sector % w ≤ x → x < p.sector % w + p.blkcnt → sector ≤ x ∧ x < sector + 2 * sizeKb

/-- Every range that `unsparse` passes lies in the partition. -/
def PassesInside (w : Nat) (image : Mem) (sector sizeKb : Nat) : Prop :=
  ∀ p ∈ (unsparsePasses image sector sizeKb).1, p.Inside w sector sizeKb

/-- A range of at least one sector lies in the partition if its distance from the start, modulo `w`,
    leaves room for it, and the start does not wrap. -/
theorem inside_iff {d n a : Nat} (hw : 0 < w) (hn : 0 < n)
    (ha : a = (sector + d) % w) :
    (∀ x, a ≤ x → x < a + n → sector ≤ x ∧ x < sector + 2 * sizeKb)
      ↔ d % w + n ≤ 2 * sizeKb ∧ sector + d % w < w := by
  have hd : d % w < w := Nat.mod_lt _ hw
  rw [← Nat.add_mod_mod] at ha
  generalize d % w = e at ha hd
  constructor
  · intro h
    have hfirst := h a le_rfl (by omega)
    have hlast := h (a + (n - 1)) (by omega) (by omega)
    have hfit : sector + e < w := by
      refine Nat.lt_of_not_le fun hwrap => ?_
      -- behind a wrap the range starts below the partition
      have hlt : a < w := ha ▸ Nat.mod_lt _ hw
      rw [Nat.mod_eq_sub_mod hwrap, Nat.mod_eq_of_lt (by omega)] at ha
      omega
    rw [Nat.mod_eq_of_lt hfit] at ha
    exact ⟨by omega, hfit⟩
  · rintro ⟨hroom, hfit⟩ x hx hx'
    rw [Nat.mod_eq_of_lt hfit] at ha
    omega

/-- By the declared sizes: which images stay in the partition. -/
theorem passesInside_iff (hw : w = 2 ^ 64 ∨ w = 2 ^ 32) (image : Mem)
    (sizeKb : Nat) (hs : sector < 2 ^ 64) :
    PassesInside w image sector sizeKb
      ↔ ∀ i, RawTaken image sizeKb i → 512 ≤ chunkBytes image i →
          declaredSectors image i % w + chunkBytes image i / 512 ≤ 2 * sizeKb
            ∧ sector + declaredSectors image i % w < w := by
  have hpos : 0 < w := by omega
  have hstart : ∀ i, (passAt image sector i).sector % w = (sector + declaredSectors image i) % w := by
    intro i
    refine Nat.mod_mod_of_dvd _ ?_
    rcases hw with rfl | rfl
    · exact Nat.dvd_refl _
    · omega
  constructor
  · intro h i hi hlen
    have hinside := h (passAt image sector i)
      ((mem_unsparsePasses image sector _ sizeKb hs).2 ⟨i, hi, rfl⟩)
    exact (inside_iff hpos (Nat.div_pos hlen (by decide)) (hstart i)).1 hinside
  · intro h p hp
    obtain ⟨i, hi, rfl⟩ := (mem_unsparsePasses image sector p sizeKb hs).1 hp
    by_cases hlen : 512 ≤ chunkBytes image i
    · exact (inside_iff hpos (Nat.div_pos hlen (by decide)) (hstart i)).2 (h i hi hlen)
    · intro x hx hx'
      have hempty : (passAt image sector i).blkcnt = 0 := Nat.div_eq_of_lt (by omega)
      omega

/-! ## Partitions on which no total passes `2 ^ 64` -/

section Totals

variable (image : Mem)

theorem blkSz_dvd_declaredBytes (i : Nat) : sparseBlkSz image ∣ declaredBytes image i := by
  induction i with
  | zero => exact Nat.dvd_zero _
  | succ i ih => exact Nat.dvd_add ih (Nat.dvd_mul_left _ _)

theorem declaredSectors_le (i : Nat) : 512 * declaredSectors image i ≤ declaredBytes image i := by
  induction i with
  | zero => exact le_rfl
  | succ i ih =>
    rw [declaredSectors, declaredBytes]
    omega

/-- Below 60 GiB no chunk takes a total over `2 ^ 64`, if the blocks fit in a RAW chunk. -/
theorem total_lt {total b c : Nat} (hb : b ≤ 2 ^ 32 - 13) (hc : c < 2 ^ 32) (hdvd : b ∣ total)
    (htotal : total ≤ 15 * 2 ^ 32 - 1024) : total + c * b < 2 ^ 64 := by
  rcases Nat.eq_or_lt_of_le hb with rfl | hlt
  · omega
  · have hmul : c * b ≤ (2 ^ 32 - 1) * (2 ^ 32 - 14) := Nat.mul_le_mul (by omega) (by omega)
    omega

variable {image}

/-- The block size of an image with a RAW chunk that is not empty. -/
theorem RawTaken.blkSz_le (h : RawTaken image sizeKb i)
    (hlen : 512 ≤ chunkBytes image i) : sparseBlkSz image ≤ 2 ^ 32 - 13 := by
  have htotal := h.raw.2
  have hlt : chunkTotalSz image (chunkStart image i) < 2 ^ 32 := Mem.u32_lt _ _
  have hle : sparseBlkSz image ≤ chunkBytes image i := by
    refine Nat.le_mul_of_pos_left _ (Nat.pos_of_ne_zero fun hzero => ?_)
    rw [chunkBytes, chunkLen, hzero, Nat.zero_mul] at hlen
    omega
  rw [show chunkLen image (sparseBlkSz image) (chunkStart image i) = chunkBytes image i from rfl]
    at htotal
  omega

/-- On a partition below 60 GiB the total is exact up to a RAW chunk that is taken. -/
theorem RawTaken.declaredBytes_le (h : RawTaken image sizeKb i)
    (hlen : 512 ≤ chunkBytes image i) (hsize : sizeKb < 15 * 2 ^ 22) :
    declaredBytes image (i + 1) ≤ 1024 * sizeKb := by
  have hsection : sectionBytes sizeKb = 1024 * sizeKb := by
    unfold sectionBytes
    omega
  have hall : ∀ j ≤ i + 1, declaredBytes image j ≤ 1024 * sizeKb := by
    intro j hj
    induction j with
    | zero => exact Nat.zero_le _
    | succ j ih =>
      have htaken := (h.taken j (by omega)).2
      have hlt : declaredBytes image j + chunkBytes image j < 2 ^ 64 :=
        total_lt (h.blkSz_le hlen) (Mem.u32_lt _ _) (blkSz_dvd_declaredBytes image _) (by omega)
      rw [declaredBytes, Nat.mod_eq_of_lt hlt, hsection] at htaken
      exact htaken
  exact hall (i + 1) le_rfl

/-- Every image stays in a partition below 60 GiB whose sectors have numbers below `w`. -/
theorem passesInside_of_size (hw : w = 2 ^ 64 ∨ w = 2 ^ 32) (image : Mem)
    (hsize : sizeKb < 15 * 2 ^ 22) (hend : sector + 2 * sizeKb ≤ w) (hs : sector < 2 ^ 64) :
    PassesInside w image sector sizeKb := by
  rw [passesInside_iff hw image sizeKb hs]
  intro i hi hlen
  have hbytes := hi.declaredBytes_le hlen hsize
  have hsectors := declaredSectors_le image (i + 1)
  rw [declaredSectors] at hsectors
  rw [Nat.mod_eq_of_lt (by omega)]
  omega

/-- An empty partition takes no RAW chunk of a sector. -/
theorem passesInside_zero (hw : w = 2 ^ 64 ∨ w = 2 ^ 32) (image : Mem)
    (hs : sector < 2 ^ 64) : PassesInside w image sector 0 := by
  rw [passesInside_iff hw image 0 hs]
  intro i hi hlen
  have hbytes := hi.declaredBytes_le hlen (by decide)
  rw [declaredBytes] at hbytes
  omega

end Totals

/-! ## Images that leave the partition -/

/-- The bytes of a chunk header: type, size and total size. -/
def chunkHeaderBytes (h : Nat × Nat × Nat) : List UInt8 :=
  Mem.le16 h.1 ++ (Mem.le16 0 ++ (Mem.le32 h.2.1 ++ Mem.le32 h.2.2))

/-- The bytes of the header of an image that declares no blocks. -/
def sparseHeaderBytes (blkSz totalChunks : Nat) : List UInt8 :=
  Mem.le32 sparseHeaderMagic ++ (Mem.le16 1 ++ (Mem.le16 0 ++ (Mem.le16 28 ++ (Mem.le16 12 ++
    (Mem.le32 blkSz ++ (Mem.le32 0 ++ (Mem.le32 totalChunks ++ Mem.le32 0)))))))

/-- An image of headers only; all data is 0. -/
def headersImage (blkSz : Nat) (headers : List (Nat × Nat × Nat)) : Mem :=
  Mem.ofList (sparseHeaderBytes blkSz headers.length ++ headers.flatMap chunkHeaderBytes)

section HeadersImage

variable (blkSz : Nat) (headers : List (Nat × Nat × Nat))

theorem headersImage_has : (headersImage blkSz headers).Has 0 (sparseHeaderBytes blkSz headers.length)
    ∧ (headersImage blkSz headers).Has 28 (headers.flatMap chunkHeaderBytes) :=
  Mem.has_append.1 (Mem.has_ofList _)

/-- The fields of the header. -/
theorem headersImage_header (hblk : blkSz < 2 ^ 32) (hlen : headers.length < 2 ^ 32) :
    IsSparse (headersImage blkSz headers) ∧ sparseBlkSz (headersImage blkSz headers) = blkSz
      ∧ sparseTotalBlks (headersImage blkSz headers) = 0
      ∧ sparseTotalChunks (headersImage blkSz headers) = headers.length := by
  have hhas := (headersImage_has blkSz headers).1
  simp only [sparseHeaderBytes, Mem.has_append, Mem.length_le16, Mem.length_le32, Nat.zero_add,
    Nat.reduceAdd] at hhas
  obtain ⟨hmagic, hmajor, -, hfile, hchunk, hblk', hblks, hchunks, -⟩ := hhas
  exact ⟨⟨hmagic.u32, hmajor.u16, hfile.u16, hchunk.u16⟩, hblk'.u32_of_lt hblk, hblks.u32,
    hchunks.u32_of_lt hlen⟩

/-- The fields of chunk header `i`. -/
theorem headersImage_chunk (i : Nat) (hi : i < headers.length) :
    chunkType (headersImage blkSz headers) (28 + 12 * i) = headers[i].1 % 65536
      ∧ chunkSz (headersImage blkSz headers) (28 + 12 * i) = headers[i].2.1 % 4294967296
      ∧ chunkTotalSz (headersImage blkSz headers) (28 + 12 * i) = headers[i].2.2 % 4294967296 := by
  have hwidth : ∀ h ∈ headers, (chunkHeaderBytes h).length = 12 := fun _ _ => rfl
  have hrow := (Mem.has_flatMap hwidth).1 (headersImage_has blkSz headers).2 i hi
  simp only [chunkHeaderBytes, Mem.has_append, Mem.length_le16, Mem.length_le32] at hrow
  obtain ⟨htype, -, hsz, htotal⟩ := hrow
  exact ⟨htype.u16, hsz.u32, htotal.u32⟩

end HeadersImage

/-- Blocks of the largest size that a RAW chunk can have. The second chunk takes the total from
    `15 * (2 ^ 32 - 13)` over `2 ^ 64`. -/
def overflowImage : Mem :=
  headersImage (2 ^ 32 - 13)
    [(chunkTypeDontCare, 15, 12), (chunkTypeDontCare, 2 ^ 32 - 1, 12), (chunkTypeRaw, 1, 2 ^ 32 - 1)]

theorem overflowImage_rawTaken (hsize : 15 * 2 ^ 22 ≤ sizeKb) (hlt : sizeKb < 2 ^ 54) :
    RawTaken overflowImage sizeKb 2 := by
  have hsection : sectionBytes sizeKb = 1024 * sizeKb := by
    unfold sectionBytes
    omega
  have hblks : sparseTotalBlks overflowImage = 0 := by decide +kernel
  refine ⟨⟨by decide +kernel, ?_⟩, by decide +kernel, ?_, by decide +kernel⟩
  · rw [hblks, Nat.zero_mul]
    exact Nat.zero_le _
  have hfirst : declaredBytes overflowImage 1 % 2 ^ 64 = 15 * (2 ^ 32 - 13) := by decide +kernel
  have hsecond : declaredBytes overflowImage 2 % 2 ^ 64 = 2 ^ 32 - 182 := by decide +kernel
  have hthird : declaredBytes overflowImage 3 % 2 ^ 64 = 2 ^ 33 - 195 := by decide +kernel
  intro j hj
  have hcases : j = 0 ∨ j = 1 ∨ j = 2 := by omega
  rcases hcases with rfl | rfl | rfl
  · exact ⟨.inr (by decide +kernel), show declaredBytes overflowImage 1 % 2 ^ 64 ≤ _ by omega⟩
  · exact ⟨.inr (by decide +kernel), show declaredBytes overflowImage 2 % 2 ^ 64 ≤ _ by omega⟩
  · exact ⟨.inl (by decide +kernel), show declaredBytes overflowImage 3 % 2 ^ 64 ≤ _ by omega⟩

/-- From 60 GiB on the total passes `2 ^ 64`, and the next range starts behind the partition. -/
theorem overflowImage_leaves (hsize : 15 * 2 ^ 22 ≤ sizeKb)
    (hlt : sizeKb < 2 ^ 54) (hs : sector < 2 ^ 64) : ¬ PassesInside (2 ^ 64) overflowImage sector sizeKb := by
  rw [passesInside_iff (.inl rfl) overflowImage sizeKb hs]
  intro h
  have hroom := (h 2 (overflowImage_rawTaken hsize hlt) (by decide +kernel)).1
  have hsectors : declaredSectors overflowImage 2 % 2 ^ 64 = 2 ^ 55 + 2 ^ 23 - 1 := by decide +kernel
  omega

/-- Blocks of a sector: all of the partition but its last sector is skipped, and the last is
    written. -/
def lastSectorHeaders (sizeKb : Nat) : List (Nat × Nat × Nat) :=
  [(chunkTypeDontCare, 2 * sizeKb - 1, 12), (chunkTypeRaw, 1, 524)]

section LastSector

variable {sizeKb : Nat}

/-- The chunks of the image. -/
theorem lastSector_chunks (hlt : 2 * sizeKb - 1 < 2 ^ 32) :
    IsSkip (headersImage 512 (lastSectorHeaders sizeKb)) 28
      ∧ chunkSz (headersImage 512 (lastSectorHeaders sizeKb)) 28 = 2 * sizeKb - 1
      ∧ IsRaw (headersImage 512 (lastSectorHeaders sizeKb)) 512 40
      ∧ chunkSz (headersImage 512 (lastSectorHeaders sizeKb)) 40 = 1 := by
  obtain ⟨htype₀, hsz₀, htotal₀⟩ :=
    headersImage_chunk 512 (lastSectorHeaders sizeKb) 0 (Nat.zero_lt_succ 1)
  obtain ⟨htype₁, hsz₁, htotal₁⟩ :=
    headersImage_chunk 512 (lastSectorHeaders sizeKb) 1 (Nat.lt_succ_self 1)
  refine ⟨⟨htype₀, htotal₀⟩, hsz₀.trans (Nat.mod_eq_of_lt hlt), ⟨htype₁, ?_⟩, hsz₁⟩
  rw [chunkLen, show chunkSz (headersImage 512 (lastSectorHeaders sizeKb)) 40 = 1 from hsz₁]
  exact htotal₁

/-- The last sector is written, and everything before it is skipped. -/
theorem lastSector_rawTaken (hpos : 0 < sizeKb) (hlt : 2 * sizeKb - 1 < 2 ^ 32) :
    RawTaken (headersImage 512 (lastSectorHeaders sizeKb)) sizeKb 1
      ∧ declaredSectors (headersImage 512 (lastSectorHeaders sizeKb)) 1 = 2 * sizeKb - 1
      ∧ chunkBytes (headersImage 512 (lastSectorHeaders sizeKb)) 1 = 512 := by
  obtain ⟨hskip, hsz₀, hraw, hsz₁⟩ := lastSector_chunks hlt
  obtain ⟨hsparse, hblk, hblks, hchunks⟩ :=
    headersImage_header 512 (lastSectorHeaders sizeKb) (by decide) (show 2 < 2 ^ 32 by decide)
  generalize headersImage 512 (lastSectorHeaders sizeKb) = image at *
  have hsection : sectionBytes sizeKb = 1024 * sizeKb := by
    unfold sectionBytes
    omega
  have hstart : chunkStart image 1 = 40 := by
    rw [chunkStart, chunkStart, if_neg (fun h => h.not_isSkip hskip)]
  have hbytes₀ : chunkBytes image 0 = (2 * sizeKb - 1) * 512 := by
    rw [chunkBytes, chunkStart, chunkLen, hblk, hsz₀]
  have hbytes₁ : chunkBytes image 1 = 512 := by
    rw [chunkBytes, hstart, chunkLen, hblk, hsz₁]
  have htotal₁ : declaredBytes image 1 = (2 * sizeKb - 1) * 512 := by
    rw [declaredBytes, declaredBytes, hbytes₀, Nat.zero_add]
  have htotal₂ : declaredBytes image 2 = (2 * sizeKb - 1) * 512 + 512 := by
    rw [declaredBytes, htotal₁, hbytes₁]
  refine ⟨⟨⟨hsparse, ?_⟩, ?_, ?_, ?_⟩, ?_, hbytes₁⟩
  · rw [hblks, Nat.zero_mul]
    exact Nat.zero_le _
  · rw [hchunks]
    exact Nat.lt_succ_self 1
  · intro j hj
    have hcases : j = 0 ∨ j = 1 := by omega
    rcases hcases with rfl | rfl
    · exact ⟨.inr hskip, show declaredBytes image 1 % 2 ^ 64 ≤ _ by omega⟩
    · refine ⟨.inl ?_, show declaredBytes image 2 % 2 ^ 64 ≤ _ by omega⟩
      rw [hstart, hblk]
      exact hraw
  · rw [hstart, hblk]
    exact hraw
  · rw [declaredSectors, declaredSectors, hbytes₀, Nat.zero_add, Nat.mul_div_cancel _ (by decide)]

/-- If the partition ends behind the last sector number below `w`, its last sector is not in reach. A
    partition that starts behind it has a last sector only if it is not empty. -/
theorem lastSector_leaves (hw : w = 2 ^ 64 ∨ w = 2 ^ 32) (hpos : 0 < sizeKb)
    (hlt : 2 * sizeKb - 1 < 2 ^ 32) (hend : w < sector + 2 * sizeKb) (hs : sector < 2 ^ 64) :
    ¬ PassesInside w (headersImage 512 (lastSectorHeaders sizeKb)) sector sizeKb := by
  obtain ⟨htaken, hsectors, hbytes⟩ := lastSector_rawTaken hpos hlt
  rw [passesInside_iff hw _ sizeKb hs]
  intro h
  have hfit := (h 1 htaken (by omega)).2
  rw [hsectors, Nat.mod_eq_of_lt (by omega)] at hfit
  omega

end LastSector

/-! ## Exact conditions -/

/-- **The ranges of `unsparse`**, as the cursor has them (`w` is `2 ^ 64`) or the parameter (`2 ^
    32`): for an image they lie in the partition exactly when, at each RAW chunk of at least one
    sector that is taken, the sectors declared before it, modulo `w`, leave room for it and do not
    wrap the start. For partitions of less than `2 ^ 64` bytes, every image stays inside exactly
    when the partition is empty, or has less than 60 GiB and only sector numbers below `w`. -/
theorem unsparse_in_range_iff (sector sizeKb w : Nat) (hs : sector < 2 ^ 64)
    (hw : w = 2 ^ 64 ∨ w = 2 ^ 32) :
    (∀ image, PassesInside w image sector sizeKb
      ↔ ∀ i, RawTaken image sizeKb i → 512 ≤ chunkBytes image i →
          declaredSectors image i % w + chunkBytes image i / 512 ≤ 2 * sizeKb
            ∧ sector + declaredSectors image i % w < w)
    ∧ (sizeKb < 2 ^ 54 →
      ((∀ image, PassesInside (2 ^ 64) image sector sizeKb ∧ PassesInside w image sector sizeKb)
        ↔ sizeKb = 0 ∨ sizeKb < 15 * 2 ^ 22 ∧ sector + 2 * sizeKb ≤ w)) := by
  refine ⟨fun image => passesInside_iff hw image sizeKb hs, fun hlt => ⟨fun h => ?_, ?_⟩⟩
  · rcases Nat.eq_zero_or_pos sizeKb with hzero | hpos
    · exact .inl hzero
    have hsize : sizeKb < 15 * 2 ^ 22 :=
      Nat.lt_of_not_le fun hge => overflowImage_leaves hge hlt hs (h _).1
    refine .inr ⟨hsize, Nat.le_of_not_lt fun hend => ?_⟩
    exact lastSector_leaves hw hpos (by omega) hend hs (h _).2
  · rintro (rfl | ⟨hsize, hend⟩) image
    · exact ⟨passesInside_zero (.inl rfl) image hs, passesInside_zero hw image hs⟩
    · exact ⟨passesInside_of_size (.inl rfl) image hsize (by omega) hs,
        passesInside_of_size hw image hsize hend hs⟩

/-- A partition of 4 KiB at sector 64. -/
theorem unsparse_in_range_iff_small :
    (4 < 15 * 2 ^ 22 ∧ 64 + 2 * 4 ≤ 2 ^ 32) ∧ ∀ image, PassesInside (2 ^ 64) image 64 4
      ∧ PassesInside (2 ^ 32) image 64 4 :=
  ⟨by decide, ((unsparse_in_range_iff 64 4 (2 ^ 32) (by decide) (.inr rfl)).2 (by decide)).2
    (.inr (by decide))⟩

/-- On a partition of 60 GiB: `unsparse` takes the image, and its RAW chunk is to be written 16 EiB
    behind the start of the partition. With the 32 bits of the parameter that is a sector before the
    partition. -/
theorem overflow_leaves_partition :
    unsparsePasses overflowImage (2 ^ 32 + 8192) (15 * 2 ^ 22)
        = ([⟨64, 2 ^ 32 + 8192 + (2 ^ 55 + 2 ^ 23 - 1), 2 ^ 23 - 1⟩], true)
      ∧ ¬ PassesInside (2 ^ 64) overflowImage (2 ^ 32 + 8192) (15 * 2 ^ 22)
      ∧ ¬ PassesInside (2 ^ 32) overflowImage (2 ^ 32 + 8192) (15 * 2 ^ 22) := by
  have hpasses : unsparsePasses overflowImage (2 ^ 32 + 8192) (15 * 2 ^ 22)
      = ([⟨64, 2 ^ 32 + 8192 + (2 ^ 55 + 2 ^ 23 - 1), 2 ^ 23 - 1⟩], true) := by decide +kernel
  refine ⟨hpasses, overflowImage_leaves (by decide) (by decide) (by decide), fun h => ?_⟩
  rw [PassesInside, hpasses] at h
  have hinside := h _ (.head _) (8192 + (2 ^ 23 - 1)) (by decide) (by decide)
  exact absurd hinside.1 (by decide)

end Fastboot
