import RkUboot.Fastboot.Basic

set_option autoImplicit false

/-! # Storing images (`board/rockchip/common/rkloader/rkimage.c`)

There are two ways to the storage. A *legacy* download is collected in the transfer buffer and
stored by the flash command (`rkimage_store_image`); a *streamed* one is written packet by packet
(`rkimage_handleDownload`), and the flash command only reports its outcome. Both understand the
sparse image format. -/

namespace Fastboot

/-! ## Sparse images -/

/-- `SPARSE_HEADER_MAGIC`. -/
def sparseHeaderMagic : Nat := 0xed26ff3a

/-- `CHUNK_TYPE_RAW`. -/
def chunkTypeRaw : Nat := 0xCAC1

/-- `CHUNK_TYPE_DONT_CARE`. -/
def chunkTypeDontCare : Nat := 0xCAC3

/-! The fields of `sparse_header_t` (28 bytes) and `chunk_header_t` (12 bytes). -/

def sparseMagic (h : Mem) : Nat := h.u32 0
def sparseMajorVersion (h : Mem) : Nat := h.u16 4
def sparseFileHdrSz (h : Mem) : Nat := h.u16 8
def sparseChunkHdrSz (h : Mem) : Nat := h.u16 10
def sparseBlkSz (h : Mem) : Nat := h.u32 12
def sparseTotalBlks (h : Mem) : Nat := h.u32 16
def sparseTotalChunks (h : Mem) : Nat := h.u32 20

def chunkType (m : Mem) (a : Nat) : Nat := m.u16 a
def chunkSz (m : Mem) (a : Nat) : Nat := m.u32 (a + 4)
def chunkTotalSz (m : Mem) (a : Nat) : Nat := m.u32 (a + 8)

/-! ## Storing the transfer buffer -/

/-- The loop of `rkloader_CopyMemory2Flash`, `k` rounds to go. -/
def copyRounds (target : Target) (image : Mem) : Nat → Nat → Nat → Nat → Io → Bool × Io
  | 0, _, _, _, io => (true, io)
  | k + 1, src, dest, remain, io =>
    let sec := min remain 32
    let r := storageWriteLba target dest sec image src io
    if r.1 then copyRounds target image k (src + 512 * sec) (dest + sec) (remain - sec) r.2
    else (false, r.2)

/-- Model of `rkloader_CopyMemory2Flash`: 32 blocks a round, `sectors` is an `int`. -/
def rkloaderCopyMemory2Flash (target : Target) (image : Mem) (src dest : Nat) (sectors : Int)
    (io : Io) : Bool × Io :=
  copyRounds target image ((toU32 sectors + 31) / 32) src dest (toU32 sectors) io

/-- The chunk loop of `unsparse`, `k` chunks to go; `source` is the offset of the next chunk. -/
def unsparseChunks (target : Target) (image : Mem) (blkSz sectionSize : Nat) :
    Nat → Nat → Nat → Nat → Io → Bool × Io
  | 0, _, _, _, io => (true, io)
  | k + 1, source, sector, outlen, io =>
    let clen := chunkSz image source * blkSz
    let outlen := (outlen + clen) % 2 ^ 64
    let next := (sector + clen / 512) % 2 ^ 64
    if chunkType image source = chunkTypeRaw then
      if chunkTotalSz image source ≠ clen + 12 then (false, io)
      else if sectionSize < outlen then (false, io)
      else
        let r := rkloaderCopyMemory2Flash target image (source + 12) sector (clen / 512 : Nat) io
        if r.1 then unsparseChunks target image blkSz sectionSize k (source + 12 + clen) next outlen r.2
        else (false, r.2)
    else if chunkType image source = chunkTypeDontCare then
      if chunkTotalSz image source ≠ 12 then (false, io)
      else if sectionSize < outlen then (false, io)
      else unsparseChunks target image blkSz sectionSize k (source + 12) next outlen io
    else (false, io)

/-- Model of `unsparse`. -/
def unsparse (target : Target) (image : Mem) (sector sizeKb : Nat) (io : Io) : Bool × Io :=
  let sectionSize := sizeKb * 1024 % 2 ^ 64
  if sparseMagic image ≠ sparseHeaderMagic then (false, io)
  else if sectionSize < sparseTotalBlks image * sparseBlkSz image then (false, io)
  else if sparseMajorVersion image ≠ 1 ∨ sparseFileHdrSz image ≠ 28 ∨ sparseChunkHdrSz image ≠ 12 then
    (false, io)
  else
    unsparseChunks target image (sparseBlkSz image) sectionSize (sparseTotalChunks image) 28 sector 0 io

/-- Model of `rkimg_store_image`; the transfer buffer is never the null pointer. -/
def rkimgStoreImage (ptn : DiskPartition) (image : Mem) (dBytes : Nat) (io : Io) : Bool × Io :=
  if sparseMagic image = sparseHeaderMagic then
    unsparse (.partition ptn) image ptn.start (ptn.size * ptn.blksz % 2 ^ 64 / 1024) io
  else rkloaderCopyMemory2Flash (.partition ptn) image 0 ptn.start ((dBytes + 511) / 512 : Nat) io

/-- Model of `rkimage_partition_erase` and `StorageEraseBlock`: without an `Erase` function, or with
    secure boot locked, nothing happens and the result is `FTL_OK`. -/
def rkimagePartitionErase (board : Board) (ptn : DiskPartition) (io : Io) : Int × Io :=
  match board.erase with
  | none => (0, io)
  | some erase =>
    if board.secureBootLock then (0, io)
    else
      let lba := ptn.start % 2 ^ 32
      let n := ptn.size % 2 ^ 32
      let r := erase lba n io.dev
      (r.1, ⟨r.2, .erase lba n r.1 :: io.events⟩)

/-- Model of `rkimg_buildParameter`: the checksum goes behind the file, tag and length before it. -/
def rkimgBuildParameter (board : Board) (m : Mem) (len : Nat) : Mem × Nat :=
  let m := m.set32 len (board.crc32Rk (m.bytes 0 len))
  let m := m.copy 8 m 0 (len + 4)
  ((m.set32 0 0x4D524150).set32 4 len, len + 8)

/-- The loop that writes the copies of the parameter file, `k` to go; one that succeeds is enough. -/
def writeParameter (image : Mem) (n : Nat) : Nat → Nat → Bool → Io → Bool × Io
  | 0, _, done, io => (done, io)
  | k + 1, i, done, io =>
    let r := storageWriteLba .parameter (i * 1024) n image 0 io
    writeParameter image n k (i + 1) (done || r.1) r.2

/-- How `rkimage_store_image` ends. -/
inductive Outcome where
  | ok
  | fail
  /-- `pending_ptn` was dereferenced as the null pointer. -/
  | fault
  deriving DecidableEq, Repr

def Outcome.ofBool (b : Bool) : Outcome := if b then .ok else .fail

/-- The check a legacy image has to pass, by the name of the pending partition. -/
def checkImage (board : Board) (pending : DiskPartition) (s : State) : Bool × State :=
  if pending.name = recoveryName ∨ pending.name = bootName then
    let accepted := board.secureModeVerifyBootImage s.world.ram
    (accepted, s.log (.verifyBoot s.world.ram accepted))
  else if pending.name = ubootName then
    let accepted := board.secureModeVerifyUbootImage s.world.ram
    (accepted, s.log (.verifyUboot s.world.ram accepted))
  else (true, s)

/-- The last part of `rkimage_store_image`: "legacy case, let's flash it!" -/
def storeLegacy (ptn : Option DiskPartition) (s : State) : Outcome × State :=
  match ptn with
  | none => (.fail, s)
  | some ptn =>
    let r := rkimgStoreImage ptn s.world.ram s.priv.dBytes s.io
    (.ofBool r.1, s.setIo r.2)

/-- Model of `rkimage_store_image`; `ptn` is the partition called `name`. -/
def rkimageStoreImage (board : Board) (name : List UInt8) (ptn : Option DiskPartition) (s : State) :
    Outcome × State :=
  if name = parameterName then
    let p := rkimgBuildParameter board s.world.ram s.priv.dBytes
    let s := { s with world := { s.world with ram := p.1 } }
    let r := writeParameter p.1 ((p.2 + 511) / 512) 8 0 false s.io
    (.ofBool r.1, s.setIo r.2)
  else if name = loaderName then
    if board.makeLoaderData s.world.ram then
      let r := board.rkidbUpdateLoader s.world.dev
      (.ofBool r.1, s.setIo ⟨r.2, .updateLoader r.1 :: s.events⟩)
    else (.fail, s)
  else if s.priv.dLegacy = false then
    match s.pending with
    | none => (.fail, s)
    | some pending => (.ofBool (pending.name = name ∧ 0 < s.priv.dStatus), s)
  else
    match s.pending with
    | none => (.fault, s)
    | some pending =>
      let r := checkImage board pending s
      if r.1 then storeLegacy ptn r.2 else (.fail, r.2)

/-! ## Streamed downloads -/

/-- How much of `length` bytes at hand is written: the rest of the image, or whole blocks. -/
def directLen (priv : Interface) (length : Int) : Int :=
  if toInt priv.dDirectSize ≤ length then toInt priv.dDirectSize else length.tdiv 512 * 512

/-- Write `blocks` blocks to where the download has got to; nothing is written for 0 blocks. -/
def directWrite (ptn : DiskPartition) (image : Mem) (off : Nat) (blocks : Int) (priv : Interface)
    (io : Io) : Bool × Io :=
  if blocks = 0 then (true, io)
  else storageWriteLba (.stream ptn) (priv.dDirectOffset + ptn.start) (toU32 blocks) image off io

/-- Model of `rkimg_handleDirectDownload`: `length` bytes from offset `off` of `image` are at hand;
    the result is the number of bytes used, negative on an error. -/
def rkimgHandleDirectDownload (ptn : DiskPartition) (image : Mem) (off : Nat) (length : Int)
    (priv : Interface) (io : Io) : Int × Interface × Io :=
  let writeLen := directLen priv length
  let blocks := (writeLen + 511).tdiv 512
  let r := directWrite ptn image off blocks priv io
  if r.1 then
    (writeLen,
      { priv with
        dDirectOffset := toU64 (priv.dDirectOffset + blocks)
        dDirectSize := toU64 (priv.dDirectSize - writeLen) }, r.2)
  else (-1, priv, r.2)

/-- Model of `rkimg_noBuffer`: keep the rest for the next packet. -/
def rkimgNoBuffer (image : Mem) (off : Nat) (length : Int) (priv : Interface) : Interface :=
  if length = 0 then priv
  else { priv with dCache := priv.dCache.copy 0 image off length.toNat, dCachePos := length }

/-- Model of `rkimg_ImageDownload`. -/
def rkimgImageDownload (ptn : DiskPartition) (image : Mem) (off : Nat) (length : Int)
    (priv : Interface) (io : Io) : Interface × Io :=
  if priv.dDirectSize = 0 then (priv, io)
  else
    let r := rkimgHandleDirectDownload ptn image off length priv io
    if r.1 < 0 then ({ r.2.1 with dStatus := -1 }, r.2.2)
    else if r.2.1.dDirectSize ≠ 0 then
      (rkimgNoBuffer image (off + r.1.toNat) (length - r.1) r.2.1, r.2.2)
    else ({ r.2.1 with dStatus := 1 }, r.2.2)

/-- The chunk loop of `rkimg_handleSparseDownload`, `k` chunks to go. The comparison of `length` with
    the size of a chunk header is one of `size_t`. -/
def sparseChunks (ptn : DiskPartition) (image : Mem) :
    Nat → Nat → Int → Interface → Io → Interface × Io
  | 0, _, _, priv, io => ({ priv with dStatus := 1 }, io)
  | k + 1, off, length, priv, io =>
    if toU64 length < 12 then (rkimgNoBuffer image off length priv, io)
    else
      let priv := { priv with sparseCurChunk := toInt (priv.sparseCurChunk + 1) }
      let clen := chunkSz image off * sparseBlkSz priv.sparseHeader
      if chunkType image off = chunkTypeRaw then
        if chunkTotalSz image off ≠ clen + 12 then ({ priv with dStatus := -1 }, io)
        else
          let r := rkimgHandleDirectDownload ptn image (off + 12) (length - 12)
            { priv with dDirectSize := clen } io
          if r.1 < 0 then ({ r.2.1 with dStatus := -1 }, r.2.2)
          else if r.2.1.dDirectSize ≠ 0 then
            (rkimgNoBuffer image (off + 12 + r.1.toNat) (length - 12 - r.1) r.2.1, r.2.2)
          else sparseChunks ptn image k (off + 12 + r.1.toNat) (length - 12 - r.1) r.2.1 r.2.2
      else if chunkType image off = chunkTypeDontCare then
        if chunkTotalSz image off ≠ 12 then ({ priv with dStatus := -1 }, io)
        else
          sparseChunks ptn image k (off + 12) (length - 12)
            { priv with dDirectOffset := (priv.dDirectOffset + clen / 512) % 2 ^ 64 } io
      else ({ priv with dStatus := -1 }, io)

/-- The chunks that `sparse_cur_chunk` leaves, from offset `off` on. -/
def continueChunks (ptn : DiskPartition) (image : Mem) (off : Nat) (length : Int)
    (priv : Interface) (io : Io) : Interface × Io :=
  sparseChunks ptn image (sparseTotalChunks priv.sparseHeader - toU32 priv.sparseCurChunk)
    off length priv io

/-- Model of `rkimg_handleSparseDownload`: first the rest of a chunk begun before. -/
def rkimgHandleSparseDownload (ptn : DiskPartition) (image : Mem) (off : Nat) (length : Int)
    (priv : Interface) (io : Io) : Interface × Io :=
  if priv.dDirectSize = 0 then continueChunks ptn image off length priv io
  else
    let r := rkimgHandleDirectDownload ptn image off length priv io
    if r.1 < 0 then ({ r.2.1 with dStatus := -1 }, r.2.2)
    else if r.2.1.dDirectSize ≠ 0 then
      (rkimgNoBuffer image (off + r.1.toNat) (length - r.1) r.2.1, r.2.2)
    else continueChunks ptn image (off + r.1.toNat) (length - r.1) r.2.1 r.2.2

/-- Model of `rkimg_startDownload`. -/
def rkimgStartDownload (ptn : DiskPartition) (image : Mem) (off : Nat) (length : Int)
    (priv : Interface) (io : Io) : Interface × Io :=
  let header := priv.sparseHeader.copy 0 image off 28
  let priv := { priv with
    dStatus := 0, flagSparse := false, dDirectSize := 0, dDirectOffset := 0, sparseCurChunk := 0,
    dCachePos := 0, sparseHeader := header }
  if sparseMagic header = sparseHeaderMagic ∧ sparseMajorVersion header = 1 ∧
      sparseFileHdrSz header = 28 ∧ sparseChunkHdrSz header = 12 then
    rkimgHandleSparseDownload ptn image (off + 28) (length - 28) { priv with flagSparse := true } io
  else rkimgImageDownload ptn image off length { priv with dDirectSize := priv.dSize } io

/-- A packet of a download under way, with what was kept from the one before. -/
def continueDownload (ptn : DiskPartition) (image : Mem) (off : Nat) (length : Int)
    (priv : Interface) (io : Io) : Interface × Io :=
  if priv.flagSparse then rkimgHandleSparseDownload ptn image off length priv io
  else rkimgImageDownload ptn image off length priv io

/-- Model of `rkimage_handleDownload` for a packet of `length` bytes at offset `off` of `image`.
    Its result is not used by the caller. -/
def rkimageHandleDownload (parts : Nat → DiskPartition) (image : Mem) (off length : Nat)
    (priv : Interface) (io : Io) : Interface × Io :=
  match priv.pendingPtn.map parts with
  | none => ({ priv with dStatus := -1 }, io)
  | some ptn =>
    if ptn.start = 0 then ({ priv with dStatus := -1 }, io)
    else if (length + priv.dBytes) % 2 ^ 64 < priv.dSize ∧ length < priv.transferBufferSize then
      (priv, io)
    else if priv.dStatus ≠ 0 then (priv, io)
    else if priv.dBytes = 0 then rkimgStartDownload ptn image off length priv io
    else if usbMaxTransSize + 512 < toU64 (length + priv.dCachePos) then
      ({ priv with dStatus := -1 }, io)
    else if priv.dCachePos = 0 then continueDownload ptn image off length priv io
    else
      let cache := priv.dCache.copy priv.dCachePos.toNat image off length
      continueDownload ptn cache 0 (length + priv.dCachePos)
        { priv with dCache := cache, dCachePos := 0 } io

/-! ## Headers -/

/-- Length in bytes of the chunk whose header is at `off`. -/
def chunkLen (image : Mem) (blkSz off : Nat) : Nat := chunkSz image off * blkSz

/-- A header that the loop takes for that of a RAW chunk. -/
def IsRaw (image : Mem) (blkSz off : Nat) : Prop :=
  chunkType image off = chunkTypeRaw ∧ chunkTotalSz image off = chunkLen image blkSz off + 12
  deriving Decidable

/-- A header that the loop takes for that of a DONT_CARE chunk. -/
def IsSkip (image : Mem) (off : Nat) : Prop :=
  chunkType image off = chunkTypeDontCare ∧ chunkTotalSz image off = 12
  deriving Decidable

/-- The header is one of a sparse image that is understood. -/
def IsSparse (header : Mem) : Prop :=
  sparseMagic header = sparseHeaderMagic ∧ sparseMajorVersion header = 1 ∧
    sparseFileHdrSz header = 28 ∧ sparseChunkHdrSz header = 12
  deriving Decidable

/-- `section_size` -/
def sectionBytes (sizeKb : Nat) : Nat := sizeKb * 1024 % 2 ^ 64

/-- `unsparse` goes on to the chunks. -/
def HeaderTaken (image : Mem) (sizeKb : Nat) : Prop :=
  IsSparse image ∧ sparseTotalBlks image * sparseBlkSz image ≤ sectionBytes sizeKb
  deriving Decidable

section Headers

variable (target : Target) (image : Mem)

/-- One round of the chunk loop of `unsparse`, by the kind of the header. -/
theorem unsparseChunks_round (blkSz sectionSize k source sector outlen : Nat) (io : Io) :
    unsparseChunks target image blkSz sectionSize (k + 1) source sector outlen io
      = (let clen := chunkLen image blkSz source
         let total := (outlen + clen) % 2 ^ 64
         let next := (sector + clen / 512) % 2 ^ 64
         if IsRaw image blkSz source ∧ total ≤ sectionSize then
           let r := rkloaderCopyMemory2Flash target image (source + 12) sector (clen / 512 : Nat) io
           if r.1 then
             unsparseChunks target image blkSz sectionSize k (source + 12 + clen) next total r.2
           else (false, r.2)
         else if IsSkip image source ∧ total ≤ sectionSize then
           unsparseChunks target image blkSz sectionSize k (source + 12) next total io
         else (false, io)) := by
  have hne : chunkTypeRaw ≠ chunkTypeDontCare := by decide
  rw [unsparseChunks, show chunkSz image source * blkSz = chunkLen image blkSz source from rfl]
  simp only [IsRaw, IsSkip]
  generalize (outlen + chunkLen image blkSz source) % 2 ^ 64 = total
  by_cases hraw : chunkType image source = chunkTypeRaw
  · by_cases htotal : chunkTotalSz image source = chunkLen image blkSz source + 12
    · by_cases hsize : total ≤ sectionSize
      · simp [hraw, htotal, hsize, Nat.not_lt.2 hsize]
      · simp [hraw, htotal, hsize, Nat.lt_of_not_le hsize]
    · simp [hraw, htotal, hne]
  · by_cases hskip : chunkType image source = chunkTypeDontCare
    · by_cases htotal : chunkTotalSz image source = 12
      · by_cases hsize : total ≤ sectionSize
        · simp [hskip, htotal, hsize, hne.symm, Nat.not_lt.2 hsize]
        · simp [hskip, htotal, hsize, hne.symm, Nat.lt_of_not_le hsize]
      · simp [hskip, htotal, hne.symm]
    · simp [hraw, hskip]

/-- The checks of the header of `unsparse`. -/
theorem unsparse_eq (sector sizeKb : Nat) (io : Io) :
    unsparse target image sector sizeKb io
      = if HeaderTaken image sizeKb then
          unsparseChunks target image (sparseBlkSz image) (sectionBytes sizeKb)
            (sparseTotalChunks image) 28 sector 0 io
        else (false, io) := by
  unfold unsparse
  rw [← sectionBytes]
  simp only
  by_cases h : HeaderTaken image sizeKb
  · obtain ⟨⟨hmagic, hversion⟩, hsize⟩ := id h
    rw [if_pos h, if_neg (not_not.2 hmagic), if_neg (Nat.not_lt.2 hsize), if_neg]
    simpa only [not_or, not_not] using hversion
  · rw [if_neg h]
    split
    · rfl
    next hmagic =>
    split
    · rfl
    next hsize =>
    split
    · rfl
    next hversion =>
    simp only [not_or, not_not] at hmagic hversion
    exact absurd ⟨⟨hmagic, hversion⟩, Nat.not_lt.1 hsize⟩ h

end Headers

/-! ## What is written

Each function above adds events to those there were: writes of the image it was given, to the
target it was given. -/

/-- The event is a write of `image` to `target`. -/
def Event.Writes (target : Target) (image : Mem) (e : Event) : Prop :=
  ∃ lba n off ok, e = .write target lba n image off ok

/-- The event is a write of a streamed download. -/
def Event.Streams (e : Event) : Prop := ∃ ptn image, e.Writes (.stream ptn) image

variable (target : Target) (image : Mem)

theorem storageWriteLba_appends (lba n off : Nat) (io : Io) :
    Appends (Event.Writes target image) io.events
      (storageWriteLba target lba n image off io).2.events :=
  .cons ⟨_, _, _, _, rfl⟩

theorem copyRounds_appends (k src dest remain : Nat) (io : Io) :
    Appends (Event.Writes target image) io.events
      (copyRounds target image k src dest remain io).2.events := by
  induction k generalizing src dest remain io with
  | zero => exact .refl
  | succ k ih =>
    have hw := storageWriteLba_appends target image dest (min remain 32) src io
    rw [copyRounds]
    split
    · exact hw.trans (ih ..)
    · exact hw

theorem rkloaderCopyMemory2Flash_appends (src dest : Nat) (sectors : Int) (io : Io) :
    Appends (Event.Writes target image) io.events
      (rkloaderCopyMemory2Flash target image src dest sectors io).2.events :=
  copyRounds_appends ..

theorem unsparseChunks_appends (blkSz sectionSize k source sector outlen : Nat) (io : Io) :
    Appends (Event.Writes target image) io.events
      (unsparseChunks target image blkSz sectionSize k source sector outlen io).2.events := by
  induction k generalizing source sector outlen io with
  | zero => exact .refl
  | succ k ih =>
    rw [unsparseChunks_round]
    simp only
    split
    · have hw := rkloaderCopyMemory2Flash_appends target image (source + 12) sector
        (chunkLen image blkSz source / 512 : Nat) io
      split
      · exact hw.trans (ih ..)
      · exact hw
    · split
      · exact ih ..
      · exact .refl

theorem unsparse_appends (sector sizeKb : Nat) (io : Io) :
    Appends (Event.Writes target image) io.events
      (unsparse target image sector sizeKb io).2.events := by
  rw [unsparse_eq]
  split
  · exact unsparseChunks_appends ..
  · exact .refl

theorem rkimgStoreImage_appends (ptn : DiskPartition) (dBytes : Nat) (io : Io) :
    Appends (Event.Writes (.partition ptn) image) io.events
      (rkimgStoreImage ptn image dBytes io).2.events := by
  unfold rkimgStoreImage
  split
  · exact unsparse_appends ..
  · exact rkloaderCopyMemory2Flash_appends ..

theorem writeParameter_appends (n k i : Nat) (done : Bool) (io : Io) :
    Appends (Event.Writes .parameter image) io.events (writeParameter image n k i done io).2.events := by
  induction k generalizing i done io with
  | zero => exact .refl
  | succ k ih => exact (storageWriteLba_appends ..).trans (ih ..)

/-! ## What a packet of a streamed download does

It changes the fields of the interface that describe the progress of the stream, and adds writes to
the pending partition to the events. -/

/-- The fields that are set by commands. -/
def Interface.request (p : Interface) :=
  (p.pendingPtn, p.dLegacy, p.transferBufferSize, p.dSize, p.dBytes, p.unlocked,
    p.unlockPendingStartTime)

/-- The fields that are set by commands are the same. -/
def Interface.SameRequest (priv priv' : Interface) : Prop := priv'.request = priv.request

theorem Interface.SameRequest.fields {priv priv' : Interface} (h : priv.SameRequest priv') :
    priv'.pendingPtn = priv.pendingPtn ∧ priv'.dLegacy = priv.dLegacy ∧
      priv'.transferBufferSize = priv.transferBufferSize ∧ priv'.dSize = priv.dSize ∧
      priv'.dBytes = priv.dBytes ∧ priv'.unlocked = priv.unlocked ∧
      priv'.unlockPendingStartTime = priv.unlockPendingStartTime := by
  simpa [SameRequest, request] using h

/-- What a part of a packet can do. -/
structure Streamed (priv : Interface) (io : Io) (r : Interface × Io) : Prop where
  request : priv.SameRequest r.1
  events : Appends Event.Streams io.events r.2.events

section Stream

variable {priv priv' : Interface} {io io' : Io} {r : Interface × Io}

/-- A change of the progress only. -/
theorem Streamed.progress (h : priv.SameRequest priv') : Streamed priv io (priv', io) := ⟨h, .refl⟩

theorem Streamed.trans (h : Streamed priv io (priv', io')) (h' : Streamed priv' io' r) :
    Streamed priv io r :=
  ⟨h'.request.trans h.request, h.events.trans h'.events⟩

/-- The progress changed before. -/
theorem Streamed.since (h : Streamed priv' io r) (h' : priv.SameRequest priv') : Streamed priv io r :=
  ⟨h.request.trans h', h.events⟩

theorem Streamed.then (h : Streamed priv io r) (h' : r.1.SameRequest priv') :
    Streamed priv io (priv', r.2) :=
  ⟨h'.trans h.request, h.events⟩

variable (ptn : DiskPartition) (off : Nat) (length : Int)

theorem directWrite_appends (blocks : Int) :
    Appends Event.Streams io.events (directWrite ptn image off blocks priv io).2.events := by
  unfold directWrite
  split
  · exact .refl
  · exact (storageWriteLba_appends ..).mono (fun _ h => ⟨ptn, image, h⟩)

theorem rkimgHandleDirectDownload_streamed (priv : Interface) (io : Io) :
    Streamed priv io (rkimgHandleDirectDownload ptn image off length priv io).2 := by
  unfold rkimgHandleDirectDownload
  simp only
  split
  · exact ⟨rfl, directWrite_appends ..⟩
  · exact ⟨rfl, directWrite_appends ..⟩

theorem rkimgNoBuffer_sameRequest : priv.SameRequest (rkimgNoBuffer image off length priv) := by
  unfold rkimgNoBuffer
  split <;> rfl

theorem rkimgImageDownload_streamed :
    Streamed priv io (rkimgImageDownload ptn image off length priv io) := by
  have hd := rkimgHandleDirectDownload_streamed image ptn off length priv io
  unfold rkimgImageDownload
  simp only
  split
  · exact .progress rfl
  split
  · exact hd.then rfl
  · split
    · exact hd.then (rkimgNoBuffer_sameRequest ..)
    · exact hd.then rfl

theorem sparseChunks_streamed (k : Nat) :
    Streamed priv io (sparseChunks ptn image k off length priv io) := by
  induction k generalizing off length priv io with
  | zero => exact .progress rfl
  | succ k ih =>
    rw [sparseChunks]
    simp only
    split
    · exact .progress (rkimgNoBuffer_sameRequest ..)
    split
    · split
      · exact .progress rfl
      have hsame : priv.SameRequest { priv with
          sparseCurChunk := toInt (priv.sparseCurChunk + 1)
          dDirectSize := chunkSz image off * sparseBlkSz priv.sparseHeader } :=
        rfl
      have hd := (rkimgHandleDirectDownload_streamed image ptn (off + 12) (length - 12)
        _ io).since hsame
      split
      · exact hd.then rfl
      · split
        · exact hd.then (rkimgNoBuffer_sameRequest ..)
        · exact hd.trans (ih _ _)
    · split
      · split
        · exact .progress rfl
        · exact (ih _ _).since rfl
      · exact .progress rfl

theorem rkimgHandleSparseDownload_streamed :
    Streamed priv io (rkimgHandleSparseDownload ptn image off length priv io) := by
  have hd := rkimgHandleDirectDownload_streamed image ptn off length priv io
  unfold rkimgHandleSparseDownload continueChunks
  simp only
  split
  · exact sparseChunks_streamed ..
  split
  · exact hd.then rfl
  · split
    · exact hd.then (rkimgNoBuffer_sameRequest ..)
    · exact hd.trans (sparseChunks_streamed ..)

theorem continueDownload_streamed :
    Streamed priv io (continueDownload ptn image off length priv io) := by
  unfold continueDownload
  split
  · exact rkimgHandleSparseDownload_streamed ..
  · exact rkimgImageDownload_streamed ..

theorem rkimgStartDownload_streamed :
    Streamed priv io (rkimgStartDownload ptn image off length priv io) := by
  unfold rkimgStartDownload
  simp only
  split
  · exact (rkimgHandleSparseDownload_streamed ..).since rfl
  · exact (rkimgImageDownload_streamed ..).since rfl

/-- A packet of a streamed download adds only writes to the pending partition. -/
theorem rkimageHandleDownload_streamed (parts : Nat → DiskPartition) (length : Nat) :
    Streamed priv io (rkimageHandleDownload parts image off length priv io) := by
  unfold rkimageHandleDownload
  split
  · exact .progress rfl
  split
  · exact .progress rfl
  split
  · exact .progress rfl
  split
  · exact .progress rfl
  split
  · exact rkimgStartDownload_streamed ..
  split
  · exact .progress rfl
  split
  · exact continueDownload_streamed ..
  · exact (continueDownload_streamed ..).since rfl

end Stream

end Fastboot
