import RkUboot.Fastboot.SparseLayout

set_option autoImplicit false

/-! # The generic sparse writer (`common/aboot.c`)

Besides `unsparse` of `rkimage.c` the tree has `write_sparse_image`, the writer of the generic
fastboot code. Both walk over the same chunks. `write_sparse_image` also knows FILL and CRC32 chunks,
computes lengths in 32 bits and checks every write against the end of the partition; but behind a
DONT_CARE chunk it goes on at the block where it was, and `unsparse` does not.

What a writer did is compared block by block: `writtenBlocks` lists the number and the contents of
every block that was written, in order. -/

namespace Fastboot

/-! ## The writer -/

/-- `CHUNK_TYPE_FILL`. -/
def chunkTypeFill : Nat := 0xCAC2

/-- `CHUNK_TYPE_CRC32`. -/
def chunkTypeCrc32 : Nat := 0xCAC4

/-- An answer to the host: `fastboot_fail` and `fastboot_okay`. -/
inductive Reply where
  | fail (text : List UInt8)
  | okay (text : List UInt8)
  deriving DecidableEq, Repr

/-- `dev_desc->block_write`, which returns the number of blocks that it wrote. -/
def blockWrite (info : DiskPartition) (blk blkcnt : Nat) (image : Mem) (off : Nat) (io : Io) :
    Nat × Io :=
  let blks := io.dev.landed blkcnt
  (blks, ⟨(io.dev.write blk blkcnt image off).2,
    .write (.partition info) blk blkcnt image off (decide (blks = blkcnt)) :: io.events⟩)

/-- The loop over the blocks of a FILL chunk, `k` to go: the next block, if no write failed. -/
def fillBlocks (info : DiskPartition) (fillBuf : Mem) : Nat → Nat → Io → Option Nat × Io
  | 0, blk, io => (some blk, io)
  | k + 1, blk, io =>
    let r := blockWrite info blk 1 fillBuf 0 io
    if r.1 ≠ 1 then (none, r.2) else fillBlocks info fillBuf k ((blk + 1) % 2 ^ 64) r.2

/-- The chunk loop of `write_sparse_image` and what follows it, `k` chunks to go; `data` is the
    offset of the next chunk. -/
def writeSparseChunks (info : DiskPartition) (image : Mem) :
    Nat → Nat → Nat → Nat → Io → List Reply × Io
  | 0, _, _, totalBlocks, io =>
    -- a wrong count is reported, and then success as well
    (if totalBlocks ≠ sparseTotalBlks image then
      [.fail (ascii "sparse image write failure"), .okay []] else [.okay []], io)
  | k + 1, data, blk, totalBlocks, io =>
    let hdrSz := sparseChunkHdrSz image
    -- a chunk header that is longer than expected is skipped
    let next := data + 12 + (hdrSz - 12)
    let chunkDataSz := sparseBlkSz image * chunkSz image data % 2 ^ 32
    let blkcnt := chunkDataSz / info.blksz
    let total := (totalBlocks + chunkSz image data) % 2 ^ 32
    let exceeds := (info.start + info.size) % 2 ^ 64 < (blk + blkcnt) % 2 ^ 64
    if chunkType image data = chunkTypeRaw then
      if chunkTotalSz image data ≠ (hdrSz + chunkDataSz) % 2 ^ 32 then
        ([.fail (ascii "Bogus chunk size for chunk type Raw")], io)
      else if exceeds then ([.fail (ascii "Request would exceed partition size!")], io)
      else
        let r := blockWrite info blk blkcnt image next io
        if r.1 ≠ blkcnt then ([.fail (ascii "flash write failure")], r.2)
        else
          writeSparseChunks info image k (next + chunkDataSz) ((blk + blkcnt) % 2 ^ 64) total r.2
    else if chunkType image data = chunkTypeFill then
      if chunkTotalSz image data ≠ hdrSz + 4 then
        ([.fail (ascii "Bogus chunk size for chunk type FILL")], io)
      else if exceeds then ([.fail (ascii "Request would exceed partition size!")], io)
      else
        let fillBuf : Mem := fun i => image (next + i % 4)
        let total := (totalBlocks + chunkDataSz / sparseBlkSz image) % 2 ^ 32
        match fillBlocks info fillBuf blkcnt blk io with
        | (some blk, io) => writeSparseChunks info image k (next + 4) blk total io
        | (none, io) => ([.fail (ascii "flash write failure")], io)
    else if chunkType image data = chunkTypeDontCare then
      writeSparseChunks info image k next blk total io
    else if chunkType image data = chunkTypeCrc32 then
      if chunkTotalSz image data ≠ hdrSz then
        ([.fail (ascii "Bogus chunk size for chunk type Dont Care")], io)
      else writeSparseChunks info image k (next + chunkDataSz) blk total io
    else ([.fail (ascii "Unknown chunk type")], io)

/-- Model of `write_sparse_image`; `memalign` does not fail. -/
def writeSparseImage (info : DiskPartition) (image : Mem) (io : Io) : List Reply × Io :=
  let hdrSz := sparseFileHdrSz image
  -- `x != (x & ~m)` is `(x & m) != 0`
  if sparseBlkSz image &&& (info.blksz + (2 ^ 64 - 1)) % 2 ^ 64 ≠ 0 then
    ([.fail (ascii "sparse image block size issue")], io)
  else
    writeSparseChunks info image (sparseTotalChunks image) (hdrSz + (hdrSz - 28)) info.start 0 io

/-! ## The blocks that were written -/

/-- `n` blocks from offset `src` of `image`, for the block numbers from `lba` on. -/
def imageBlocks (image : Mem) (src lba n : Nat) : List (Nat × List UInt8) :=
  (List.range n).map (fun i => (lba + i, image.bytes (src + 512 * i) 512))

def Event.blocks : Event → List (Nat × List UInt8)
  | .write _ lba n image off _ => imageBlocks image off lba n
  | _ => []

/-- Number and contents of every block written, in order. -/
def writtenBlocks (events : List Event) : List (Nat × List UInt8) :=
  events.reverse.flatMap Event.blocks

theorem writtenBlocks_cons (e : Event) (events : List Event) :
    writtenBlocks (e :: events) = writtenBlocks events ++ e.blocks := by
  simp [writtenBlocks]

theorem imageBlocks_zero (image : Mem) (src lba : Nat) : imageBlocks image src lba 0 = [] := rfl

theorem imageBlocks_add (image : Mem) (src lba n m : Nat) :
    imageBlocks image src lba (n + m)
      = imageBlocks image src lba n ++ imageBlocks image (src + 512 * n) (lba + n) m := by
  unfold imageBlocks
  rw [List.range_add, List.map_append, List.map_map]
  congr 1
  refine List.map_congr_left (fun i _ => ?_)
  simp only [Function.comp, Nat.mul_add, Nat.add_assoc]

theorem imageBlocks_succ (image : Mem) (src lba n : Nat) :
    imageBlocks image src lba (n + 1)
      = (lba, image.bytes src 512) :: imageBlocks image (src + 512) (lba + 1) n := by
  rw [Nat.add_comm, imageBlocks_add]
  rfl

/-- The blocks of the `k` chunks from offset `source`, for a writer that counts the blocks of a
    DONT_CARE chunk (`skips`) or does not. -/
def chunkBlocks (image : Mem) (blkSz : Nat) (skips : Bool) :
    Nat → Nat → Nat → List (Nat × List UInt8)
  | 0, _, _ => []
  | k + 1, source, sector =>
    let n := chunkLen image blkSz source / 512
    if IsRaw image blkSz source then
      imageBlocks image (source + 12) sector n ++
        chunkBlocks image blkSz skips k (source + 12 + chunkLen image blkSz source) (sector + n)
    else chunkBlocks image blkSz skips k (source + 12) (if skips then sector + n else sector)

/-! ## Images made of RAW and DONT_CARE chunks -/

/-- Each of the `k` chunks from offset `source` is a RAW or a DONT_CARE chunk. -/
def ChunksPlain (image : Mem) (blkSz : Nat) : Nat → Nat → Prop
  | 0, _ => True
  | k + 1, source =>
    if IsRaw image blkSz source then
      ChunksPlain image blkSz k (source + 12 + chunkLen image blkSz source)
    else IsSkip image source ∧ ChunksPlain image blkSz k (source + 12)

instance ChunksPlain.decidable (image : Mem) (blkSz : Nat) :
    ∀ k source, Decidable (ChunksPlain image blkSz k source)
  | 0, _ => .isTrue trivial
  | k + 1, source =>
    have := ChunksPlain.decidable image blkSz k
    inferInstanceAs (Decidable (if IsRaw image blkSz source then ChunksPlain image blkSz k _
      else _ ∧ ChunksPlain image blkSz k _))

/-- The sum of the `chunk_sz` of `k` chunks. -/
def chunksTotal (image : Mem) (blkSz : Nat) : Nat → Nat → Nat
  | 0, _ => 0
  | k + 1, source =>
    chunkSz image source +
      if IsRaw image blkSz source then
        chunksTotal image blkSz k (source + 12 + chunkLen image blkSz source)
      else chunksTotal image blkSz k (source + 12)

/-- No RAW chunk has any data. -/
def RawEmpty (image : Mem) (blkSz : Nat) : Nat → Nat → Prop
  | 0, _ => True
  | k + 1, source =>
    if IsRaw image blkSz source then
      chunkLen image blkSz source = 0 ∧
        RawEmpty image blkSz k (source + 12 + chunkLen image blkSz source)
    else RawEmpty image blkSz k (source + 12)

instance RawEmpty.decidable (image : Mem) (blkSz : Nat) :
    ∀ k source, Decidable (RawEmpty image blkSz k source)
  | 0, _ => .isTrue trivial
  | k + 1, source =>
    have := RawEmpty.decidable image blkSz k
    inferInstanceAs (Decidable (if IsRaw image blkSz source then _ ∧ RawEmpty image blkSz k _
      else RawEmpty image blkSz k _))

/-- Behind a DONT_CARE chunk that is not empty no RAW chunk has any data. -/
def SkipsLast (image : Mem) (blkSz : Nat) : Nat → Nat → Prop
  | 0, _ => True
  | k + 1, source =>
    if IsRaw image blkSz source then
      SkipsLast image blkSz k (source + 12 + chunkLen image blkSz source)
    else
      (chunkLen image blkSz source = 0 ∨ RawEmpty image blkSz k (source + 12)) ∧
        SkipsLast image blkSz k (source + 12)

instance SkipsLast.decidable (image : Mem) (blkSz : Nat) :
    ∀ k source, Decidable (SkipsLast image blkSz k source)
  | 0, _ => .isTrue trivial
  | k + 1, source =>
    have := SkipsLast.decidable image blkSz k
    inferInstanceAs (Decidable (if IsRaw image blkSz source then SkipsLast image blkSz k _
      else (_ ∨ RawEmpty image blkSz k _) ∧ SkipsLast image blkSz k _))

/-- `section_size` of `unsparse` when `rkimg_store_image` calls it: the partition in whole KiB. -/
def sectionSize (info : DiskPartition) : Nat := info.size * info.blksz % 2 ^ 64 / 1024 * 1024

/-- A well-formed image of RAW and DONT_CARE chunks that fits the partition. The last two fields say
    that the partition has an end, and that the image ends on a medium with 32-bit block numbers. -/
structure Flashable (info : DiskPartition) (image : Mem) : Prop where
  sparse : IsSparse image
  blocks : 512 ∣ sparseBlkSz image
  plain : ChunksPlain image (sparseBlkSz image) (sparseTotalChunks image) 28
  total : chunksTotal image (sparseBlkSz image) (sparseTotalChunks image) 28 = sparseTotalBlks image
  blksz : info.blksz = 512
  fits : sparseTotalBlks image * sparseBlkSz image ≤ info.size * info.blksz
  bounded : info.start + info.size < 2 ^ 64
  medium : info.start + sparseTotalBlks image * sparseBlkSz image / 512 ≤ 2 ^ 32

section Layout

variable {image : Mem} {blkSz : Nat}

/-- Only an image without data writes nothing. -/
theorem chunkBlocks_eq_nil_iff {skips : Bool} (hblk : 512 ∣ blkSz) (k : Nat) {source sector : Nat} :
    chunkBlocks image blkSz skips k source sector = [] ↔ RawEmpty image blkSz k source := by
  induction k generalizing source sector with
  | zero => exact iff_of_true rfl trivial
  | succ k ih =>
    have hdvd : 512 ∣ chunkLen image blkSz source := Dvd.dvd.mul_left hblk _
    rw [chunkBlocks, RawEmpty]
    by_cases hraw : IsRaw image blkSz source
    · rw [if_pos hraw, if_pos hraw, List.append_eq_nil_iff, ih]
      refine and_congr_left (fun _ => ?_)
      rw [imageBlocks, List.map_eq_nil_iff, List.range_eq_nil]
      omega
    · rw [if_neg hraw, if_neg hraw, ih]

/-- Once the writer that skips is ahead, the two agree only if there is nothing more to write. -/
theorem chunkBlocks_ahead_iff (hblk : 512 ∣ blkSz) (k : Nat) {source sector sector' : Nat}
    (hlt : sector' < sector) :
    chunkBlocks image blkSz true k source sector = chunkBlocks image blkSz false k source sector' ↔
      RawEmpty image blkSz k source := by
  induction k generalizing source sector sector' with
  | zero => exact iff_of_true rfl trivial
  | succ k ih =>
    have hdvd : 512 ∣ chunkLen image blkSz source := Dvd.dvd.mul_left hblk _
    rw [chunkBlocks, chunkBlocks, RawEmpty]
    by_cases hraw : IsRaw image blkSz source
    · rw [if_pos hraw, if_pos hraw, if_pos hraw]
      by_cases hlen : chunkLen image blkSz source = 0
      · simp only [hlen, Nat.zero_div, imageBlocks_zero, List.nil_append, Nat.add_zero, true_and]
        exact ih hlt
      · -- the first block already has another number
        obtain ⟨n, hn⟩ : ∃ n, chunkLen image blkSz source / 512 = n + 1 :=
          Nat.exists_eq_succ_of_ne_zero (by omega)
        rw [hn, imageBlocks_succ, imageBlocks_succ]
        refine iff_of_false (fun h => ?_) (fun h => hlen h.1)
        have hsector : sector = sector' := by
          have := List.head_eq_of_cons_eq h
          simpa using this
        omega
    · rw [if_neg hraw, if_neg hraw, if_neg hraw]
      exact ih (by simp only [if_true, Bool.false_eq_true, if_false]; omega)

/-- Both ways of counting list the same blocks exactly if no data is behind a gap. -/
theorem chunkBlocks_skips_iff (hblk : 512 ∣ blkSz) (k source sector : Nat) :
    chunkBlocks image blkSz true k source sector = chunkBlocks image blkSz false k source sector ↔
      SkipsLast image blkSz k source := by
  induction k generalizing source sector with
  | zero => exact iff_of_true rfl trivial
  | succ k ih =>
    have hdvd : 512 ∣ chunkLen image blkSz source := Dvd.dvd.mul_left hblk _
    rw [chunkBlocks, chunkBlocks, SkipsLast]
    by_cases hraw : IsRaw image blkSz source
    · rw [if_pos hraw, if_pos hraw, if_pos hraw, List.append_cancel_left_eq, ih]
    · rw [if_neg hraw, if_neg hraw, if_neg hraw]
      simp only [if_true, Bool.false_eq_true, if_false]
      by_cases hlen : chunkLen image blkSz source = 0
      · simp only [hlen, Nat.zero_div, Nat.add_zero, true_or, true_and]
        exact ih _ _
      · rw [chunkBlocks_ahead_iff hblk k (by omega)]
        refine ⟨fun h => ⟨.inr h, ?_⟩, fun h => h.1.resolve_left hlen⟩
        apply (ih (source + 12) sector).1
        rw [(chunkBlocks_eq_nil_iff hblk k).2 h, (chunkBlocks_eq_nil_iff hblk k).2 h]

theorem RawEmpty.skipsLast (hblk : 512 ∣ blkSz) {k source : Nat}
    (h : RawEmpty image blkSz k source) : SkipsLast image blkSz k source := by
  apply (chunkBlocks_skips_iff hblk k source 0).1
  rw [(chunkBlocks_eq_nil_iff hblk k).2 h, (chunkBlocks_eq_nil_iff hblk k).2 h]

end Layout

/-! ## The two loops -/

/-- No error occurred from `io` to `io'`, and `blocks` were written. -/
def Wrote (io io' : Io) (blocks : List (Nat × List UInt8)) : Prop :=
  io'.dev.script = [] ∧ writtenBlocks io'.events = writtenBlocks io.events ++ blocks

section Loops

variable {image : Mem} {io io' io'' : Io}

theorem Wrote.none (hscript : io.dev.script = []) : Wrote io io [] :=
  ⟨hscript, (List.append_nil _).symm⟩

theorem Wrote.trans {blocks blocks' : List (Nat × List UInt8)} (h : Wrote io io' blocks)
    (h' : Wrote io' io'' blocks') : Wrote io io'' (blocks ++ blocks') :=
  ⟨h'.1, by rw [h'.2, h.2, List.append_assoc]⟩

theorem storageWriteLba_wrote (target : Target) (image : Mem) (src : Nat) {lba n : Nat}
    (hend : lba + n ≤ 2 ^ 32) (hn : n < 2 ^ 32) (hscript : io.dev.script = []) :
    (storageWriteLba target lba n image src io).1 = true ∧
      Wrote io (storageWriteLba target lba n image src io).2 (imageBlocks image src lba n) := by
  unfold storageWriteLba
  rw [BlockDev.write_of_nil _ _ _ _ hscript]
  refine ⟨rfl, hscript, ?_⟩
  rw [writtenBlocks_cons, Event.blocks, Nat.mod_eq_of_lt hn]
  cases n with
  | zero => rfl
  | succ n => rw [Nat.mod_eq_of_lt (by omega)]

/-- 32 blocks a round write all blocks. -/
theorem copyRounds_wrote {target : Target} (k : Nat) {src dest remain : Nat} (hk : remain ≤ 32 * k)
    (hend : dest + remain ≤ 2 ^ 32) (hscript : io.dev.script = []) :
    (copyRounds target image k src dest remain io).1 = true ∧
      Wrote io (copyRounds target image k src dest remain io).2
        (imageBlocks image src dest remain) := by
  induction k generalizing src dest remain io with
  | zero =>
    obtain rfl : remain = 0 := by omega
    exact ⟨rfl, Wrote.none hscript⟩
  | succ k ih =>
    rw [copyRounds]
    obtain ⟨hok, hfirst⟩ := storageWriteLba_wrote target image src
      (by omega : dest + min remain 32 ≤ 2 ^ 32) (by omega) hscript
    simp only [hok, if_true]
    obtain ⟨hok', hrest⟩ := ih (by omega)
      (by omega : dest + min remain 32 + (remain - min remain 32) ≤ 2 ^ 32) hfirst.1
    refine ⟨hok', ?_⟩
    have hsplit := hfirst.trans hrest
    rw [← imageBlocks_add] at hsplit
    rwa [show min remain 32 + (remain - min remain 32) = remain by omega] at hsplit

theorem rkloaderCopyMemory2Flash_wrote (target : Target) (image : Mem) (src : Nat) {dest n : Nat}
    (hn : n < 2 ^ 32) (hend : dest + n ≤ 2 ^ 32) (hscript : io.dev.script = []) :
    (rkloaderCopyMemory2Flash target image src dest n io).1 = true ∧
      Wrote io (rkloaderCopyMemory2Flash target image src dest n io).2
        (imageBlocks image src dest n) := by
  unfold rkloaderCopyMemory2Flash
  rw [toU32_natCast hn]
  exact copyRounds_wrote _ (by omega) hend hscript

theorem blockWrite_wrote (info : DiskPartition) (image : Mem) (blk n src : Nat)
    (hscript : io.dev.script = []) :
    (blockWrite info blk n image src io).1 = n ∧
      Wrote io (blockWrite info blk n image src io).2 (imageBlocks image src blk n) := by
  unfold blockWrite
  rw [BlockDev.write_of_nil _ _ _ _ hscript]
  exact ⟨BlockDev.landed_of_nil n hscript, hscript, writtenBlocks_cons _ _⟩

/-- A RAW chunk is shorter than `2 ^ 32` bytes, for its `total_sz` says so. -/
theorem IsRaw.chunkLen_lt {blkSz source : Nat} (h : IsRaw image blkSz source) :
    chunkLen image blkSz source + 12 < 2 ^ 32 :=
  h.2 ▸ Mem.u32_lt _ _

variable {blkSz : Nat}

/-- **`unsparse` counts the blocks of DONT_CARE chunks.** -/
theorem unsparseChunks_wrote {target : Target} {limit : Nat} (hlimit : limit < 2 ^ 64) (k : Nat)
    {source sector outlen : Nat} (hplain : ChunksPlain image blkSz k source)
    (hout : outlen + chunksTotal image blkSz k source * blkSz ≤ limit)
    (hend : sector + chunksTotal image blkSz k source * blkSz / 512 ≤ 2 ^ 32)
    (hscript : io.dev.script = []) :
    Wrote io (unsparseChunks target image blkSz limit k source sector outlen io).2
      (chunkBlocks image blkSz true k source sector) := by
  induction k generalizing source sector outlen io with
  | zero => exact Wrote.none hscript
  | succ k ih =>
    rw [ChunksPlain] at hplain
    rw [chunksTotal, Nat.add_mul, ← chunkLen] at hout hend
    rw [unsparseChunks_round, chunkBlocks]
    dsimp only
    rw [Nat.mod_eq_of_lt (by omega), Nat.mod_eq_of_lt (by omega)]
    by_cases hraw : IsRaw image blkSz source
    · rw [if_pos hraw] at hplain hout hend
      have hlt := hraw.chunkLen_lt
      obtain ⟨hok, hfirst⟩ := rkloaderCopyMemory2Flash_wrote target image (source + 12)
        (by omega)
        (by omega : sector + chunkLen image blkSz source / 512 ≤ 2 ^ 32) hscript
      rw [if_pos ⟨hraw, by omega⟩, if_pos hok, if_pos hraw]
      exact hfirst.trans (ih hplain (by omega) (by omega) hfirst.1)
    · rw [if_neg hraw] at hplain hout hend
      obtain ⟨hskip, hplain⟩ := hplain
      rw [if_neg (fun h => hraw h.1), if_pos ⟨hskip, by omega⟩, if_neg hraw]
      exact ih hplain (by omega) (by omega) hscript

/-- **`write_sparse_image` does not count them.** -/
theorem writeSparseChunks_wrote {info : DiskPartition} (hsize : info.blksz = 512)
    (hbounded : info.start + info.size < 2 ^ 64) (hhdr : sparseChunkHdrSz image = 12)
    (k : Nat) {source blk total : Nat}
    (hplain : ChunksPlain image (sparseBlkSz image) k source)
    (hfits : blk + chunksTotal image (sparseBlkSz image) k source * sparseBlkSz image / 512
      ≤ info.start + info.size)
    (hscript : io.dev.script = []) :
    Wrote io (writeSparseChunks info image k source blk total io).2
      (chunkBlocks image (sparseBlkSz image) false k source blk) := by
  induction k generalizing source blk total io with
  | zero => exact Wrote.none hscript
  | succ k ih =>
    rw [ChunksPlain] at hplain
    rw [chunksTotal, Nat.add_mul, ← chunkLen] at hfits
    rw [writeSparseChunks, chunkBlocks]
    simp only [hhdr, hsize, Nat.sub_self, Nat.add_zero]
    rw [Nat.mul_comm (sparseBlkSz image), ← chunkLen]
    by_cases hraw : IsRaw image (sparseBlkSz image) source
    · rw [if_pos hraw] at hplain hfits
      have hlt := hraw.chunkLen_lt
      rw [Nat.mod_eq_of_lt (by omega : chunkLen image (sparseBlkSz image) source < 2 ^ 32)]
      obtain ⟨hok, hfirst⟩ := blockWrite_wrote info image blk
        (chunkLen image (sparseBlkSz image) source / 512) (source + 12) hscript
      have htotal : chunkTotalSz image source
          = (12 + chunkLen image (sparseBlkSz image) source) % 2 ^ 32 := by
        rw [hraw.2]
        omega
      rw [if_pos hraw.1, if_neg (not_not.2 htotal), if_neg (by omega), if_neg (not_not.2 hok),
        if_pos hraw, Nat.mod_eq_of_lt (by omega)]
      exact hfirst.trans (ih hplain (by omega) hfirst.1)
    · rw [if_neg hraw] at hplain hfits
      obtain ⟨hskip, hplain⟩ := hplain
      have htype : chunkType image source ≠ chunkTypeRaw := by
        rw [hskip.1]
        decide
      have htype' : chunkType image source ≠ chunkTypeFill := by
        rw [hskip.1]
        decide
      rw [if_neg htype, if_neg htype', if_pos hskip.1, if_neg hraw]
      exact ih hplain (by omega) hscript

end Loops

/-! ## The comparison -/

section Compare

variable {info : DiskPartition} {image : Mem} {dev : BlockDev}

theorem Flashable.writeSparseImage_blocks (h : Flashable info image) (hscript : dev.script = []) :
    writtenBlocks (writeSparseImage info image ⟨dev, []⟩).2.events
      = chunkBlocks image (sparseBlkSz image) false (sparseTotalChunks image) 28 info.start := by
  have hmask : sparseBlkSz image &&& (info.blksz + (2 ^ 64 - 1)) % 2 ^ 64 = 0 := by
    rw [h.blksz]
    exact (Nat.and_two_pow_sub_one_eq_mod _ 9).trans (Nat.mod_eq_zero_of_dvd h.blocks)
  have hfits := h.fits
  rw [h.blksz] at hfits
  unfold writeSparseImage
  simp only [hmask, ne_eq, not_true_eq_false, if_false, h.sparse.2.2.1, Nat.sub_self, Nat.add_zero]
  refine (writeSparseChunks_wrote h.blksz h.bounded h.sparse.2.2.2 _ h.plain ?_ hscript).2
  rw [h.total]
  omega

theorem Flashable.unsparse_blocks (h : Flashable info image) (hscript : dev.script = []) :
    writtenBlocks (unsparse (.partition info) image info.start
        (info.size * info.blksz % 2 ^ 64 / 1024) ⟨dev, []⟩).2.events
      = if sparseTotalBlks image * sparseBlkSz image ≤ sectionSize info then
          chunkBlocks image (sparseBlkSz image) true (sparseTotalChunks image) 28 info.start
        else [] := by
  have hlimit : sectionSize info < 2 ^ 64 := by
    unfold sectionSize
    omega
  have hbytes : sectionBytes (info.size * info.blksz % 2 ^ 64 / 1024) = sectionSize info :=
    Nat.mod_eq_of_lt hlimit
  have htaken : HeaderTaken image (info.size * info.blksz % 2 ^ 64 / 1024) ↔ _ :=
    and_iff_right h.sparse
  rw [unsparse_eq, if_congr htaken rfl rfl, hbytes]
  split
  · next hsection =>
    have hmedium := h.medium
    rw [← h.total] at hsection hmedium
    exact (unsparseChunks_wrote hlimit _ h.plain (by omega) hmedium hscript).2
  · rfl

/-- **When the two sparse writers agree.** They write the same blocks exactly if there is no data at
    all, or if the image fits the partition in whole KiB and has no data behind a gap. -/
theorem writeSparseImage_eq_unsparse_iff (h : Flashable info image) (hscript : dev.script = []) :
    writtenBlocks (writeSparseImage info image ⟨dev, []⟩).2.events
        = writtenBlocks (unsparse (.partition info) image info.start
            (info.size * info.blksz % 2 ^ 64 / 1024) ⟨dev, []⟩).2.events ↔
      RawEmpty image (sparseBlkSz image) (sparseTotalChunks image) 28 ∨
        sparseTotalBlks image * sparseBlkSz image ≤ sectionSize info ∧
          SkipsLast image (sparseBlkSz image) (sparseTotalChunks image) 28 := by
  rw [h.writeSparseImage_blocks hscript, h.unsparse_blocks hscript]
  split
  · next hsection =>
    rw [eq_comm, chunkBlocks_skips_iff h.blocks]
    exact ⟨fun hskips => .inr ⟨hsection, hskips⟩,
      fun hcond => hcond.elim (RawEmpty.skipsLast h.blocks) And.right⟩
  · next hsection =>
    rw [chunkBlocks_eq_nil_iff h.blocks]
    exact ⟨.inl, fun hcond => hcond.elim id (fun hboth => absurd hboth.1 hsection)⟩

end Compare

/-- A RAW block, a gap of one block, and `last` blocks of another RAW chunk. -/
def gapImage (last : UInt8) : Mem :=
  Mem.zero.store 0
    ([0x3a, 0xff, 0x26, 0xed, 1, 0, 0, 0, 28, 0, 12, 0, 0, 2, 0, 0, 2 + last, 0, 0, 0, 3, 0, 0, 0,
      0, 0, 0, 0, 0xc1, 0xca, 0, 0, 1, 0, 0, 0, 12, 2, 0, 0] ++ List.replicate 512 170 ++
      [0xc3, 0xca, 0, 0, 1, 0, 0, 0, 12, 0, 0, 0, 0xc1, 0xca, 0, 0, last, 0, 0, 0, 12, 2 * last, 0, 0]
      ++ List.replicate 512 187)

def gapPartition : DiskPartition := ⟨64, 4, 512, ascii "system", ascii "ext4"⟩

theorem gapImage_flashable :
    Flashable gapPartition (gapImage 0) ∧ Flashable gapPartition (gapImage 1) := by
  refine ⟨⟨?_, ?_, ?_, ?_, ?_, ?_, ?_, ?_⟩, ⟨?_, ?_, ?_, ?_, ?_, ?_, ?_, ?_⟩⟩ <;> decide +kernel

/-- Both write the RAW block when the gap is the end of the data. -/
theorem writeSparseImage_agrees_before_gap :
    writtenBlocks (writeSparseImage gapPartition (gapImage 0) ⟨⟨Mem.zero, []⟩, []⟩).2.events
      = writtenBlocks (unsparse (.partition gapPartition) (gapImage 0) gapPartition.start
          (gapPartition.size * gapPartition.blksz % 2 ^ 64 / 1024) ⟨⟨Mem.zero, []⟩, []⟩).2.events :=
  (writeSparseImage_eq_unsparse_iff gapImage_flashable.1 rfl).2 (by decide +kernel)

/-- Behind the gap `write_sparse_image` puts the data one block too low. -/
theorem writeSparseImage_ignores_gap :
    Flashable gapPartition (gapImage 1) ∧
      (writtenBlocks (writeSparseImage gapPartition (gapImage 1) ⟨⟨Mem.zero, []⟩, []⟩).2.events).map
        Prod.fst = [64, 65] ∧
      (writtenBlocks (unsparse (.partition gapPartition) (gapImage 1) gapPartition.start
        (gapPartition.size * gapPartition.blksz % 2 ^ 64 / 1024) ⟨⟨Mem.zero, []⟩, []⟩).2.events).map
        Prod.fst = [64, 66] :=
  ⟨gapImage_flashable.2, by decide +kernel, by decide +kernel⟩

end Fastboot
