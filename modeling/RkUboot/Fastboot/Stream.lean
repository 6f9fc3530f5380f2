import RkUboot.Fastboot.Image

set_option autoImplicit false

/-! # The cases of a streamed packet

The streaming functions of `rkimage.c` count in `int`, `size_t` and `u64`. Here their outcomes are
listed once, over natural numbers: `PacketRun` for a packet, `DirectRun` for the part of a chunk that
is written from the bytes at hand, and `ChunkRun` for the loop over the chunk headers. Statements
about streamed downloads are proved by cases on these. -/

namespace Fastboot

/-! ## Conversions -/

variable {avail blkSz k n off : Nat}

theorem toInt_natCast (h : n < 2 ^ 31) : toInt n = n := by
  apply Int.bmod_eq_of_le <;> omega

theorem toU64_natCast (h : n < 2 ^ 64) : toU64 n = n := by
  unfold toU64
  omega

theorem toU32_natCast (h : n < 2 ^ 32) : toU32 n = n := by
  unfold toU32
  omega

/-! ## Direct writes -/

/-- The number of blocks that hold `n` bytes. -/
def blocksOf (n : Nat) : Nat := (n + 511) / 512

/-- The progress once `n` bytes of the chunk are written. -/
def Interface.advance (priv : Interface) (n : Nat) : Interface :=
  { priv with
    dDirectOffset := (priv.dDirectOffset + blocksOf n) % 2 ^ 64
    dDirectSize := priv.dDirectSize - n }

/-- Write the blocks of `n` bytes. -/
def writeBytes (ptn : DiskPartition) (image : Mem) (off n : Nat) (priv : Interface) (io : Io) :
    Bool × Io :=
  directWrite ptn image off (blocksOf n) priv io

section Direct

variable {ptn : DiskPartition} {image : Mem} {off avail : Nat} {priv : Interface} {io : Io}

/-- `rkimg_handleDirectDownload` over natural numbers: all that is left, or whole blocks. -/
theorem rkimgHandleDirectDownload_eq (h : priv.dDirectSize < 2 ^ 31)
    (hn : n = if priv.dDirectSize ≤ avail then priv.dDirectSize else avail / 512 * 512) :
    rkimgHandleDirectDownload ptn image off avail priv io
      = if (writeBytes ptn image off n priv io).1 then
          ((n : Int), priv.advance n, (writeBytes ptn image off n priv io).2)
        else (-1, priv, (writeBytes ptn image off n priv io).2) := by
  have hle : n ≤ priv.dDirectSize := by
    rw [hn]
    split
    · exact le_rfl
    · omega
  have hlen : directLen priv avail = n := by
    rw [directLen, toInt_natCast h, hn]
    by_cases hfits : priv.dDirectSize ≤ avail
    · rw [if_pos (by omega), if_pos hfits]
    · rw [if_neg (by omega), if_neg hfits]
      rw [Int.tdiv_eq_ediv_of_nonneg (by omega)]
      omega
  have hblocks : ((n : Int) + 511).tdiv 512 = (blocksOf n : Nat) := by
    rfl
  have hadvance : { priv with
      dDirectOffset := toU64 (priv.dDirectOffset + (blocksOf n : Nat))
      dDirectSize := toU64 (priv.dDirectSize - (n : Int)) } = priv.advance n := by
    rw [Interface.advance, ← Nat.cast_add, ← Nat.cast_sub hle, toU64_natCast (by omega), toU64]
    rfl
  unfold rkimgHandleDirectDownload
  simp only [hlen, hblocks, hadvance]
  rfl

/-- What becomes of the bytes at hand when `d_direct_size` of them belong to the chunk: `next` is what
    follows once the chunk is complete. -/
inductive DirectRun (ptn : DiskPartition) (image : Mem) (off avail : Nat) (priv : Interface) (io : Io)
    (next : Io → Interface × Io) : Interface × Io → Prop
  | failed (n : Nat) (hn : n = if priv.dDirectSize ≤ avail then priv.dDirectSize else avail / 512 * 512)
      (hwrite : (writeBytes ptn image off n priv io).1 = false) :
      DirectRun ptn image off avail priv io next
        ({ priv with dStatus := -1 }, (writeBytes ptn image off n priv io).2)
  | unfinished (n : Nat) (hn : n = avail / 512 * 512) (hmore : avail < priv.dDirectSize)
      (hwrite : (writeBytes ptn image off n priv io).1 = true) :
      DirectRun ptn image off avail priv io next
        (rkimgNoBuffer image (off + n) ((avail - n : Nat) : Int) (priv.advance n),
          (writeBytes ptn image off n priv io).2)
  | finished (hfits : priv.dDirectSize ≤ avail)
      (hwrite : (writeBytes ptn image off priv.dDirectSize priv io).1 = true) :
      DirectRun ptn image off avail priv io next
        (next (writeBytes ptn image off priv.dDirectSize priv io).2)

/-- The three places that call `rkimg_handleDirectDownload` go on in the same way. -/
theorem directRun (h : priv.dDirectSize < 2 ^ 31)
    (next : Nat → Int → Interface → Io → Interface × Io) {r : Int × Interface × Io}
    (hr : r = rkimgHandleDirectDownload ptn image off avail priv io) :
    DirectRun ptn image off avail priv io
      (next (off + priv.dDirectSize) ((avail - priv.dDirectSize : Nat) : Int)
        (priv.advance priv.dDirectSize))
      (if r.1 < 0 then ({ r.2.1 with dStatus := -1 }, r.2.2)
      else if r.2.1.dDirectSize ≠ 0 then
        (rkimgNoBuffer image (off + r.1.toNat) (avail - r.1) r.2.1, r.2.2)
      else next (off + r.1.toNat) (avail - r.1) r.2.1 r.2.2) := by
  by_cases hfits : priv.dDirectSize ≤ avail
  · rw [rkimgHandleDirectDownload_eq h (n := priv.dDirectSize) (by rw [if_pos hfits])] at hr
    by_cases hwrite : (writeBytes ptn image off priv.dDirectSize priv io).1 = true
    · rw [if_pos hwrite] at hr
      subst hr
      have hdone : (priv.advance priv.dDirectSize).dDirectSize = 0 := Nat.sub_self _
      simp only [Int.toNat_natCast, ← Nat.cast_sub hfits]
      rw [if_neg (by omega), if_neg (not_not.2 hdone)]
      exact .finished hfits hwrite
    · rw [if_neg hwrite] at hr
      subst hr
      simp only
      rw [if_pos (by decide)]
      exact .failed _ (by rw [if_pos hfits]) (by simpa using hwrite)
  · generalize hn : avail / 512 * 512 = n
    have hle : n ≤ avail := by omega
    rw [rkimgHandleDirectDownload_eq h (n := n) (by rw [if_neg hfits, hn])] at hr
    by_cases hwrite : (writeBytes ptn image off n priv io).1 = true
    · rw [if_pos hwrite] at hr
      subst hr
      have hmore : (priv.advance n).dDirectSize ≠ 0 := by
        simp only [Interface.advance]
        omega
      simp only [Int.toNat_natCast, ← Nat.cast_sub hle]
      rw [if_neg (by omega), if_pos hmore]
      exact .unfinished n hn.symm (by omega) hwrite
    · rw [if_neg hwrite] at hr
      subst hr
      simp only
      rw [if_pos (by decide)]
      exact .failed _ (by rw [if_neg hfits, hn]) (by simpa using hwrite)

/-- `rkimg_ImageDownload` of an image that is not complete. -/
theorem rkimgImageDownload_run (h : priv.dDirectSize < 2 ^ 31) (hzero : priv.dDirectSize ≠ 0) :
    DirectRun ptn image off avail priv io
      (fun io => ({ priv.advance priv.dDirectSize with dStatus := 1 }, io))
      (rkimgImageDownload ptn image off avail priv io) := by
  unfold rkimgImageDownload
  rw [if_neg hzero]
  exact directRun h (fun _ _ priv io => ({ priv with dStatus := 1 }, io)) rfl

/-- `rkimg_handleSparseDownload`: the rest of a chunk, then the chunks that follow. -/
theorem rkimgHandleSparseDownload_run (h : priv.dDirectSize < 2 ^ 31)
    (hzero : priv.dDirectSize ≠ 0) :
    DirectRun ptn image off avail priv io
      (continueChunks ptn image (off + priv.dDirectSize) ((avail - priv.dDirectSize : Nat) : Int)
        (priv.advance priv.dDirectSize))
      (rkimgHandleSparseDownload ptn image off avail priv io) := by
  unfold rkimgHandleSparseDownload
  rw [if_neg hzero]
  exact directRun h (continueChunks ptn image) rfl

theorem writeBytes_streams (ptn : DiskPartition) (image : Mem) (off n : Nat) (priv : Interface)
    (io : Io) : Appends Event.Streams io.events (writeBytes ptn image off n priv io).2.events :=
  directWrite_appends image ptn off _

end Direct

/-! ## Chunks -/

variable {image : Mem}

theorem IsRaw.not_isSkip (h : IsRaw image blkSz off) :
    ¬ IsSkip image off := by
  rintro ⟨htype, -⟩
  rw [h.1] at htype
  cases htype

/-- The interface once the header of a RAW chunk of `n` bytes is read. -/
def Interface.begin (priv : Interface) (n : Nat) : Interface :=
  { priv with sparseCurChunk := toInt (priv.sparseCurChunk + 1), dDirectSize := n }

/-- The interface behind a DONT_CARE chunk of `n` bytes. -/
def Interface.skip (priv : Interface) (n : Nat) : Interface :=
  { priv with
    sparseCurChunk := toInt (priv.sparseCurChunk + 1)
    dDirectOffset := (priv.dDirectOffset + n / 512) % 2 ^ 64 }

/-- How the loop over the chunk headers ends, with `k` chunks to go and `avail` bytes at hand. -/
inductive ChunkRun (ptn : DiskPartition) (image : Mem) (blkSz : Nat) :
    Nat → Nat → Nat → Interface → Io → Interface × Io → Prop
  | complete (off avail : Nat) (priv : Interface) (io : Io) :
      ChunkRun ptn image blkSz 0 off avail priv io ({ priv with dStatus := 1 }, io)
  | short (k off avail : Nat) (priv : Interface) (io : Io) (h : avail < 12) :
      ChunkRun ptn image blkSz (k + 1) off avail priv io (rkimgNoBuffer image off avail priv, io)
  | bad (k off avail : Nat) (priv priv' : Interface) (io : Io) (h : 12 ≤ avail)
      (hraw : ¬ IsRaw image blkSz off) (hskip : ¬ IsSkip image off)
      (hpriv : priv' = { priv with
        sparseCurChunk := toInt (priv.sparseCurChunk + 1), dStatus := -1 }) :
      ChunkRun ptn image blkSz (k + 1) off avail priv io (priv', io)
  /-- The chunk does not fit in an `int`: little is said about this case. -/
  | large (k off avail : Nat) (priv : Interface) (io : Io) (r : Interface × Io) (h : 12 ≤ avail)
      (hraw : IsRaw image blkSz off) (hlarge : 2 ^ 31 ≤ chunkLen image blkSz off)
      (hevents : Appends Event.Streams io.events r.2.events) :
      ChunkRun ptn image blkSz (k + 1) off avail priv io r
  | raw (k off avail : Nat) (priv : Interface) (io : Io) (r : Interface × Io)
      (next : Io → Interface × Io) (h : 12 ≤ avail) (hraw : IsRaw image blkSz off)
      (hsmall : chunkLen image blkSz off < 2 ^ 31)
      (hrun : DirectRun ptn image (off + 12) (avail - 12) (priv.begin (chunkLen image blkSz off)) io
        next r)
      (hrest : chunkLen image blkSz off ≤ avail - 12 → ∀ io',
        ChunkRun ptn image blkSz k (off + 12 + chunkLen image blkSz off)
          (avail - 12 - chunkLen image blkSz off)
          ((priv.begin (chunkLen image blkSz off)).advance (chunkLen image blkSz off)) io' (next io')) :
      ChunkRun ptn image blkSz (k + 1) off avail priv io r
  | skip (k off avail : Nat) (priv : Interface) (io : Io) (r : Interface × Io) (h : 12 ≤ avail)
      (hskip : IsSkip image off)
      (hrest : ChunkRun ptn image blkSz k (off + 12) (avail - 12)
        (priv.skip (chunkLen image blkSz off)) io r) :
      ChunkRun ptn image blkSz (k + 1) off avail priv io r

variable {ptn : DiskPartition} {priv : Interface} {r : Interface × Io} {io : Io}

theorem ChunkRun.streams (h : ChunkRun ptn image blkSz k off avail priv io r) :
    Appends Event.Streams io.events r.2.events := by
  induction h with
  | complete => exact .refl
  | short => exact .refl
  | bad => exact .refl
  | large _ _ _ _ _ _ _ _ _ hevents => exact hevents
  | raw k off avail priv io r next h hraw hsmall hrun hrest ih =>
    cases hrun with
    | failed => exact writeBytes_streams ..
    | unfinished => exact writeBytes_streams ..
    | finished hfits => exact (writeBytes_streams ..).trans (ih hfits _)
  | skip _ _ _ _ _ _ _ _ _ ih => exact ih

/-- The loop of `rkimg_handleSparseDownload` is a `ChunkRun`. -/
theorem sparseChunks_run (ptn : DiskPartition) (image : Mem) (blkSz k off avail : Nat)
    (priv : Interface) (io : Io) (hblk : sparseBlkSz priv.sparseHeader = blkSz)
    (hlen : avail < 2 ^ 64) :
    ChunkRun ptn image blkSz k off avail priv io (sparseChunks ptn image k off avail priv io) := by
  induction k generalizing off avail priv io with
  | zero => exact .complete off avail priv io
  | succ k ih =>
    have hstreamed : Streamed priv io _ := sparseChunks_streamed image ptn off avail (k + 1)
    rw [sparseChunks] at hstreamed ⊢
    simp only [hblk, toU64_natCast hlen] at hstreamed ⊢
    by_cases hshort : avail < 12
    · rw [if_pos hshort]
      exact .short k off avail priv io hshort
    rw [if_neg hshort] at hstreamed ⊢
    have h : 12 ≤ avail := by omega
    have hrest : (avail : Int) - 12 = ((avail - 12 : Nat) : Int) := by omega
    by_cases hraw : chunkType image off = chunkTypeRaw
    · have hskip : ¬ IsSkip image off := by
        rintro ⟨htype, -⟩
        rw [hraw] at htype
        cases htype
      rw [if_pos hraw] at hstreamed ⊢
      by_cases htotal : chunkTotalSz image off ≠ chunkSz image off * blkSz + 12
      · rw [if_pos htotal]
        exact .bad k off avail priv _ io h (fun hr => htotal hr.2) hskip rfl
      rw [if_neg htotal, hrest] at hstreamed ⊢
      have hisRaw : IsRaw image blkSz off := ⟨hraw, not_not.1 htotal⟩
      by_cases hsmall : chunkLen image blkSz off < 2 ^ 31
      · exact .raw k off avail priv io _ _ h hisRaw hsmall
          (directRun hsmall (sparseChunks ptn image k) rfl) (fun _ io' => ih _ _ _ io' hblk (by omega))
      · exact .large k off avail priv io _ h hisRaw (by omega) hstreamed.events
    · have hnotRaw : ¬ IsRaw image blkSz off := fun hr => hraw hr.1
      rw [if_neg hraw]
      by_cases hskip : chunkType image off = chunkTypeDontCare
      · rw [if_pos hskip]
        by_cases htotal : chunkTotalSz image off ≠ 12
        · rw [if_pos htotal]
          exact .bad k off avail priv _ io h hnotRaw (fun hs => htotal hs.2) rfl
        · rw [if_neg htotal, hrest]
          exact .skip k off avail priv io _ h ⟨hskip, not_not.1 htotal⟩
            (ih _ _ (priv.skip (chunkLen image blkSz off)) _ hblk (by omega))
      · rw [if_neg hskip]
        exact .bad k off avail priv _ io h hnotRaw (fun hs => hskip hs.1) rfl

/-! ## Packets -/

/-- Bytes to process, and the interface then. -/
structure Hand where
  image : Mem
  off : Nat
  length : Int
  priv : Interface

/-- The interface at the start of a download, with the header of the image. -/
def Interface.fresh (priv : Interface) (header : Mem) : Interface :=
  { priv with
    dStatus := 0, flagSparse := false, dDirectSize := 0, dDirectOffset := 0, sparseCurChunk := 0,
    dCachePos := 0, sparseHeader := header }

/-- What a packet that is processed comes down to: the first one is looked at for a header, the others
    are put behind what was kept from the one before. -/
def hand (image : Mem) (off length : Nat) (priv : Interface) : Hand :=
  if priv.dBytes = 0 then
    let header := priv.sparseHeader.copy 0 image off 28
    if IsSparse header then
      ⟨image, off + 28, length - 28, { priv.fresh header with flagSparse := true }⟩
    else ⟨image, off, length, { priv.fresh header with dDirectSize := priv.dSize }⟩
  else if priv.dCachePos = 0 then ⟨image, off, length, priv⟩
  else
    let cache := priv.dCache.copy priv.dCachePos.toNat image off length
    ⟨cache, 0, length + priv.dCachePos, { priv with dCache := cache, dCachePos := 0 }⟩

/-- The packet is left alone because it is short and not the last one. -/
def Dropped (priv : Interface) (length : Nat) : Prop :=
  (length + priv.dBytes) % 2 ^ 64 < priv.dSize ∧ length < priv.transferBufferSize
  deriving Decidable

/-- What `rkimage_handleDownload` does with a packet. -/
inductive PacketRun (parts : Nat → DiskPartition) (image : Mem) (off length : Nat)
    (priv : Interface) (io : Io) : Interface × Io → Prop
  /-- There is no partition to stream to. -/
  | refused (h : ∀ ptn ∈ priv.pendingPtn.map parts, ptn.start = 0) :
      PacketRun parts image off length priv io ({ priv with dStatus := -1 }, io)
  | ignored (h : Dropped priv length ∨ priv.dStatus ≠ 0) :
      PacketRun parts image off length priv io (priv, io)
  /-- The packet does not fit in the cache. -/
  | overflow (hnot : ¬ Dropped priv length) (hstatus : priv.dStatus = 0) (hbytes : priv.dBytes ≠ 0)
      (h : usbMaxTransSize + 512 < toU64 (length + priv.dCachePos)) :
      PacketRun parts image off length priv io ({ priv with dStatus := -1 }, io)
  | processed (ptn : DiskPartition) (hptn : ptn ∈ priv.pendingPtn.map parts) (hstart : ptn.start ≠ 0)
      (hnot : ¬ Dropped priv length) (hstatus : priv.dStatus = 0)
      (hfits : priv.dBytes ≠ 0 → toU64 (length + priv.dCachePos) ≤ usbMaxTransSize + 512) :
      PacketRun parts image off length priv io
        (continueDownload ptn (hand image off length priv).image (hand image off length priv).off
          (hand image off length priv).length (hand image off length priv).priv io)

variable {length : Int}

theorem continueDownload_sparse (h : priv.flagSparse = true) :
    continueDownload ptn image off length priv io
      = rkimgHandleSparseDownload ptn image off length priv io := by
  rw [continueDownload, if_pos h]

theorem continueDownload_raw (h : priv.flagSparse = false) :
    continueDownload ptn image off length priv io
      = rkimgImageDownload ptn image off length priv io := by
  rw [continueDownload, if_neg (by rw [h]; nofun)]

section Hand

variable {image : Mem} {off length : Nat} {priv : Interface}

theorem hand_sparse (hbytes : priv.dBytes = 0)
    (hsparse : IsSparse (priv.sparseHeader.copy 0 image off 28)) :
    hand image off length priv = ⟨image, off + 28, length - 28,
      { priv.fresh (priv.sparseHeader.copy 0 image off 28) with flagSparse := true }⟩ := by
  rw [hand, if_pos hbytes]
  exact if_pos hsparse

theorem hand_raw (hbytes : priv.dBytes = 0)
    (hraw : ¬ IsSparse (priv.sparseHeader.copy 0 image off 28)) :
    hand image off length priv = ⟨image, off, length,
      { priv.fresh (priv.sparseHeader.copy 0 image off 28) with dDirectSize := priv.dSize }⟩ := by
  rw [hand, if_pos hbytes]
  exact if_neg hraw

theorem hand_empty_cache (hbytes : priv.dBytes ≠ 0) (hcache : priv.dCachePos = 0) :
    hand image off length priv = ⟨image, off, length, priv⟩ := by
  rw [hand, if_neg hbytes, if_pos hcache]

theorem hand_cached (hbytes : priv.dBytes ≠ 0) (hcache : priv.dCachePos ≠ 0) {cache : Mem}
    (h : cache = priv.dCache.copy priv.dCachePos.toNat image off length) :
    hand image off length priv
      = ⟨cache, 0, length + priv.dCachePos, { priv with dCache := cache, dCachePos := 0 }⟩ := by
  rw [hand, if_neg hbytes, if_neg hcache, h]

theorem rkimgStartDownload_eq (ptn : DiskPartition) (io : Io) (hbytes : priv.dBytes = 0) :
    rkimgStartDownload ptn image off length priv io
      = continueDownload ptn (hand image off length priv).image (hand image off length priv).off
          (hand image off length priv).length (hand image off length priv).priv io := by
  by_cases hsparse : IsSparse (priv.sparseHeader.copy 0 image off 28)
  · rw [hand_sparse hbytes hsparse, continueDownload_sparse rfl, rkimgStartDownload]
    exact if_pos hsparse
  · rw [hand_raw hbytes hsparse, continueDownload_raw rfl, rkimgStartDownload]
    exact if_neg hsparse

end Hand

theorem rkimageHandleDownload_run (parts : Nat → DiskPartition) (image : Mem) (off length : Nat)
    (priv : Interface) (io : Io) :
    PacketRun parts image off length priv io
      (rkimageHandleDownload parts image off length priv io) := by
  unfold rkimageHandleDownload
  cases hptn : priv.pendingPtn.map parts with
  | none => exact .refused (fun ptn h => by rw [hptn] at h; cases h)
  | some ptn =>
    simp only
    by_cases hstart : ptn.start = 0
    · rw [if_pos hstart]
      refine .refused (fun ptn' h => ?_)
      rw [hptn, Option.mem_some_iff] at h
      exact h ▸ hstart
    rw [if_neg hstart]
    by_cases hdrop : (length + priv.dBytes) % 2 ^ 64 < priv.dSize ∧ length < priv.transferBufferSize
    · rw [if_pos hdrop]
      exact .ignored (.inl hdrop)
    rw [if_neg hdrop]
    by_cases hstatus : priv.dStatus ≠ 0
    · rw [if_pos hstatus]
      exact .ignored (.inr hstatus)
    rw [if_neg hstatus]
    by_cases hbytes : priv.dBytes = 0
    · rw [if_pos hbytes, rkimgStartDownload_eq _ _ hbytes]
      exact .processed ptn hptn hstart hdrop (not_not.1 hstatus) (fun h => absurd hbytes h)
    rw [if_neg hbytes]
    by_cases hover : usbMaxTransSize + 512 < toU64 (length + priv.dCachePos)
    · rw [if_pos hover]
      exact .overflow hdrop (not_not.1 hstatus) hbytes hover
    rw [if_neg hover]
    have hprocessed : PacketRun parts image off length priv io _ :=
      .processed ptn hptn hstart hdrop (not_not.1 hstatus) (fun _ => Nat.not_lt.1 hover)
    by_cases hcache : priv.dCachePos = 0
    · rw [hand_empty_cache hbytes hcache] at hprocessed
      rw [if_pos hcache]
      exact hprocessed
    · rw [hand_cached hbytes hcache rfl] at hprocessed
      rw [if_neg hcache]
      exact hprocessed

end Fastboot
