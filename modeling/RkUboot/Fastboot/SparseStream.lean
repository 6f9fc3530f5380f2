import RkUboot.Fastboot.SparseLayout

set_option autoImplicit false

/-! # Streaming a sparse image

A sparse image that is streamed in packets ends up on the storage as `unsparse` would put it there.
Chunk headers and data may straddle the packets; `Cursor` relates the interface to the position in
the whole image, and says that what is left to do leads to the contents that `applyChunks` describes.
Each step of the loops moves the cursor. -/

namespace Fastboot

/-! ## Slices -/

/-- The `n` bytes at `off` of `image` are those at `pos` of `whole`. -/
def Slice (image : Mem) (off : Nat) (whole : Mem) (pos n : Nat) : Prop :=
  ∀ i < n, image (off + i) = whole (pos + i)

section Slices

variable {image whole : Mem} {off pos n : Nat}

theorem Slice.mono {m : Nat} (h : Slice image off whole pos n) (hm : m ≤ n) :
    Slice image off whole pos m :=
  fun i hi => h i (hi.trans_le hm)

theorem Slice.drop (h : Slice image off whole pos n) (m : Nat) :
    Slice image (off + m) whole (pos + m) (n - m) := by
  intro i hi
  rw [Nat.add_assoc, Nat.add_assoc]
  exact h (m + i) (by omega)

/-- Bytes that are copied behind a slice make it longer. -/
theorem Slice.append {cache : Mem} {m : Nat} (h : Slice cache 0 whole pos m)
    (h' : Slice image off whole (pos + m) n) :
    Slice (cache.copy m image off n) 0 whole pos (m + n) := by
  intro i hi
  rw [Nat.zero_add]
  by_cases hi' : i < m
  · rw [Mem.copy_apply_out (.inl hi')]
    have hbyte := h i hi'
    rwa [Nat.zero_add] at hbyte
  · rw [Mem.copy_apply_in (Nat.le_of_not_lt hi') (by omega), h' _ (by omega)]
    congr 1
    omega

theorem Slice.u16 (h : Slice image off whole pos n) {a : Nat} (ha : a + 2 ≤ n) :
    image.u16 (off + a) = whole.u16 (pos + a) := by
  have h0 := h a (by omega)
  have h1 := h (a + 1) (by omega)
  simp only [Mem.u16, Nat.add_assoc, h0, h1]

theorem Slice.u32 (h : Slice image off whole pos n) {a : Nat} (ha : a + 4 ≤ n) :
    image.u32 (off + a) = whole.u32 (pos + a) := by
  have h0 := h.u16 (a := a) (by omega)
  have h1 := h.u16 (a := a + 2) (by omega)
  simp only [Mem.u32, Nat.add_assoc, h0, h1]

theorem Slice.chunkLen (h : Slice image off whole pos n) (hn : 12 ≤ n) (blkSz : Nat) :
    chunkLen image blkSz off = chunkLen whole blkSz pos := by
  rw [Fastboot.chunkLen, Fastboot.chunkLen, chunkSz, chunkSz, h.u32 (by omega)]

theorem Slice.isRaw (h : Slice image off whole pos n) (hn : 12 ≤ n) (blkSz : Nat) :
    IsRaw image blkSz off ↔ IsRaw whole blkSz pos := by
  have htype : chunkType image off = chunkType whole pos := h.u16 (a := 0) (by omega)
  rw [IsRaw, IsRaw, htype, h.chunkLen hn, chunkTotalSz, chunkTotalSz, h.u32 (by omega)]

theorem Slice.isSkip (h : Slice image off whole pos n) (hn : 12 ≤ n) :
    IsSkip image off ↔ IsSkip whole pos := by
  have htype : chunkType image off = chunkType whole pos := h.u16 (a := 0) (by omega)
  rw [IsSkip, IsSkip, htype, chunkTotalSz, chunkTotalSz, h.u32 (by omega)]

end Slices

/-! ## The cursor -/

/-- The interface in the middle of the image `whole`: the next byte is at `pos`, `k` chunks are to
    begin, and what is left to do leads to the contents `final`. -/
structure Cursor (whole : Mem) (ptn : DiskPartition) (final : Mem) (k pos : Nat) (priv : Interface)
    (io : Io) : Prop where
  dStatus : priv.dStatus = 0
  flagSparse : priv.flagSparse = true
  blkSz : sparseBlkSz priv.sparseHeader = sparseBlkSz whole
  totalChunks : sparseTotalChunks priv.sparseHeader = sparseTotalChunks whole
  curChunk : toU32 priv.sparseCurChunk + k = sparseTotalChunks whole
  whole_blocks : 512 ∣ priv.dDirectSize
  small : priv.dDirectSize < 2 ^ 31
  good : ChunksGood whole (sparseBlkSz whole) k (pos + priv.dDirectSize)
  stop : chunksEnd whole (sparseBlkSz whole) k (pos + priv.dDirectSize)
    = chunksEnd whole (sparseBlkSz whole) (sparseTotalChunks whole) 28
  script : io.dev.script = []
  rest : applyChunks whole (sparseBlkSz whole) k (pos + priv.dDirectSize)
      (ptn.start + priv.dDirectOffset + priv.dDirectSize / 512)
      (putBlocks whole (priv.dDirectSize / 512) pos (ptn.start + priv.dDirectOffset) io.dev.disk)
    = final

theorem toU32_toInt (x : Int) : toU32 (toInt x) = toU32 x := by
  unfold toU32 toInt
  rw [show ((2 : Int) ^ 32) = ((2 ^ 32 : Nat) : Int) from rfl, Int.bmod_emod]

/-- The counter of the chunks does not wrap. -/
theorem curChunk_succ {x : Int} {k total : Nat} (h : toU32 x + (k + 1) = total)
    (htotal : total < 2 ^ 32) : toU32 (toInt (x + 1)) + k = total := by
  rw [toU32_toInt]
  unfold toU32 at h ⊢
  omega

theorem sparseTotalChunks_lt (m : Mem) : sparseTotalChunks m < 2 ^ 32 := m.u32_lt 20

section Cursor

variable {whole : Mem} {ptn : DiskPartition} {final : Mem} {k pos : Nat} {priv : Interface} {io : Io}

/-- The cursor behind the header of the image. -/
theorem Cursor.start {header : Mem} (hblkSz : sparseBlkSz header = sparseBlkSz whole)
    (htotal : sparseTotalChunks header = sparseTotalChunks whole)
    (hgood : ChunksGood whole (sparseBlkSz whole) (sparseTotalChunks whole) 28)
    (hscript : io.dev.script = [])
    (hfinal : applyChunks whole (sparseBlkSz whole) (sparseTotalChunks whole) 28 ptn.start
      io.dev.disk = final) :
    Cursor whole ptn final (sparseTotalChunks whole) 28
      { priv.fresh header with flagSparse := true } io := by
  refine ⟨rfl, rfl, hblkSz, htotal, Nat.zero_add _, Nat.dvd_zero _, Nat.two_pow_pos 31, hgood, rfl,
    hscript, ?_⟩
  simp only [Interface.fresh]
  exact hfinal

/-- The cursor does not depend on the cache. -/
theorem Cursor.setCache (h : Cursor whole ptn final k pos priv io) (cache : Mem) (n : Int) :
    Cursor whole ptn final k pos { priv with dCache := cache, dCachePos := n } io :=
  { h with }

/-- Between two chunks, the next header is good and the image goes on from there. -/
theorem Cursor.here (h : Cursor whole ptn final k pos priv io) (hzero : priv.dDirectSize = 0) :
    ChunksGood whole (sparseBlkSz whole) k pos ∧
      chunksEnd whole (sparseBlkSz whole) k pos
        = chunksEnd whole (sparseBlkSz whole) (sparseTotalChunks whole) 28 ∧
      applyChunks whole (sparseBlkSz whole) k pos (ptn.start + priv.dDirectOffset) io.dev.disk
        = final := by
  obtain ⟨-, -, -, -, -, -, -, hgood, hstop, -, hrest⟩ := h
  rw [hzero] at hgood hstop hrest
  exact ⟨hgood, hstop, hrest⟩

/-- `n` bytes of the chunk under way are written. -/
theorem Cursor.advance (h : Cursor whole ptn final k pos priv io) {n : Nat} (hn : 512 ∣ n)
    (hle : n ≤ priv.dDirectSize) {io' : Io} (hscript : io'.dev.script = [])
    (hdisk : io'.dev.disk
      = putBlocks whole (n / 512) pos (ptn.start + priv.dDirectOffset) io.dev.disk) :
    Cursor whole ptn final k (pos + n) (priv.advance n) io' := by
  obtain ⟨m, rfl⟩ := hn
  obtain ⟨d, hd⟩ := h.whole_blocks
  have hpos : pos + 512 * m + (priv.dDirectSize - 512 * m) = pos + priv.dDirectSize := by omega
  have hblocks : blocksOf (512 * m) = m := by
    unfold blocksOf
    omega
  refine ⟨h.dStatus, h.flagSparse, h.blkSz, h.totalChunks, h.curChunk, ?_, ?_, ?_, ?_, hscript, ?_⟩
  · exact ⟨d - m, by simp only [Interface.advance]; omega⟩
  · exact (Nat.sub_le _ _).trans_lt h.small
  · exact (congrArg _ hpos).mpr h.good
  · exact (congrArg _ hpos).trans h.stop
  have hsplit : putBlocks whole (priv.dDirectSize / 512) pos (ptn.start + priv.dDirectOffset)
      io.dev.disk = putBlocks whole (d - m) (pos + 512 * m) (ptn.start + priv.dDirectOffset + m)
        io'.dev.disk := by
    rw [hdisk, Nat.mul_div_cancel_left m (by decide), ← putBlocks_add]
    congr 1
    omega
  have hrest : (priv.dDirectSize - 512 * m) / 512 = d - m := by omega
  rw [← h.rest, hsplit]
  simp only [Interface.advance, hblocks, hpos, hrest]
  have hsector : (ptn.start + (priv.dDirectOffset + m) % 2 ^ 64) % 2 ^ 32
      = (ptn.start + priv.dDirectOffset + m) % 2 ^ 32 := by omega
  rw [putBlocks_mod (d - m) hsector]
  exact applyChunks_mod k (by omega)

/-- The header of a RAW chunk is read. -/
theorem Cursor.begin (h : Cursor whole ptn final (k + 1) pos priv io) (hblk : 512 ∣ sparseBlkSz whole)
    (hzero : priv.dDirectSize = 0) (hraw : IsRaw whole (sparseBlkSz whole) pos)
    (hsmall : chunkLen whole (sparseBlkSz whole) pos < 2 ^ 31) :
    Cursor whole ptn final k (pos + 12) (priv.begin (chunkLen whole (sparseBlkSz whole) pos)) io := by
  obtain ⟨hgood, hstop, hrest⟩ := h.here hzero
  refine ⟨h.dStatus, h.flagSparse, h.blkSz, h.totalChunks,
    curChunk_succ h.curChunk (sparseTotalChunks_lt _), Dvd.dvd.mul_left hblk _, hsmall, ?_, ?_,
    h.script, ?_⟩
  · rcases hgood with ⟨_, _, hgood⟩ | ⟨hskip, _⟩
    · exact hgood
    · exact absurd hskip hraw.not_isSkip
  · rw [chunksEnd, if_pos hraw] at hstop
    exact hstop
  · rw [applyChunks] at hrest
    simp only [if_pos hraw] at hrest
    exact hrest

/-- The header of a DONT_CARE chunk is read. -/
theorem Cursor.skip (h : Cursor whole ptn final (k + 1) pos priv io) (hzero : priv.dDirectSize = 0)
    (hskip : IsSkip whole pos) :
    Cursor whole ptn final k (pos + 12) (priv.skip (chunkLen whole (sparseBlkSz whole) pos)) io := by
  have hraw : ¬ IsRaw whole (sparseBlkSz whole) pos := fun hraw => hraw.not_isSkip hskip
  obtain ⟨hgood, hstop, hrest⟩ := h.here hzero
  have hzero' : (priv.skip (chunkLen whole (sparseBlkSz whole) pos)).dDirectSize = 0 := hzero
  refine ⟨h.dStatus, h.flagSparse, h.blkSz, h.totalChunks,
    curChunk_succ h.curChunk (sparseTotalChunks_lt _), h.whole_blocks, h.small, ?_, ?_, h.script, ?_⟩
  · rw [hzero']
    rcases hgood with ⟨hraw', _⟩ | ⟨_, hgood⟩
    · exact absurd hraw' hraw
    · exact hgood
  · rw [chunksEnd, if_neg hraw] at hstop
    rw [hzero']
    exact hstop
  rw [applyChunks, if_neg hraw] at hrest
  rw [hzero', ← hrest]
  simp only [Nat.add_zero, Nat.zero_div, putBlocks, Interface.skip]
  exact applyChunks_mod k (by omega)

/-- Blocks of the chunk under way are written from a slice of the image. -/
theorem writeBytes_put {image : Mem} {off n : Nat} (hslice : Slice image off whole pos n)
    (hscript : io.dev.script = []) (hn : 512 ∣ n) (hsmall : n < 2 ^ 31)
    (hon : ∀ e ∈ (writeBytes ptn image off n priv io).2.events, e.OnMedium) :
    (writeBytes ptn image off n priv io).1 = true ∧
      (writeBytes ptn image off n priv io).2.dev.script = [] ∧
      (writeBytes ptn image off n priv io).2.dev.disk
        = putBlocks whole (n / 512) pos (ptn.start + priv.dDirectOffset) io.dev.disk := by
  obtain ⟨m, rfl⟩ := hn
  have hblocks : blocksOf (512 * m) = m := by
    unfold blocksOf
    omega
  rw [Nat.mul_div_cancel_left m (by decide)]
  unfold writeBytes directWrite at hon ⊢
  rw [hblocks] at hon ⊢
  by_cases hzero : m = 0
  · subst hzero
    exact ⟨rfl, hscript, rfl⟩
  rw [if_neg (by omega), toU32_natCast (by omega)] at hon ⊢
  obtain ⟨hok, hscript', hdisk⟩ := storageWriteLba_put hscript (by omega) hon
  refine ⟨hok, hscript', ?_⟩
  rw [hdisk, Nat.add_comm priv.dDirectOffset]
  exact putBlocks_congr m hslice

end Cursor

/-! ## Packets -/

/-- The image is not complete after `received` bytes, and the rest of them is kept. -/
def Waiting (whole : Mem) (ptn : DiskPartition) (final : Mem) (received : Nat) (priv : Interface)
    (io : Io) : Prop :=
  received < chunksEnd whole (sparseBlkSz whole) (sparseTotalChunks whole) 28 ∧
    ∃ k pos, Cursor whole ptn final k pos priv io ∧ pos ≤ received ∧ received - pos < 512 ∧
      priv.dCachePos = (received - pos : Nat) ∧ Slice priv.dCache 0 whole pos (received - pos)

/-- The image is complete and on the storage, or there is more to come. -/
def OnTrack (whole : Mem) (ptn : DiskPartition) (final : Mem) (received : Nat)
    (r : Interface × Io) : Prop :=
  r.1.dStatus = 1 ∧ r.2.dev.disk = final ∨ Waiting whole ptn final received r.1 r.2

section Packets

variable {whole : Mem} {ptn : DiskPartition} {final : Mem} {image : Mem} {k pos off avail : Nat}
  {priv : Interface} {io : Io} {r : Interface × Io}

/-- What is at hand is kept for the next packet. -/
theorem Cursor.keep (h : Cursor whole ptn final k pos priv io) (hcache : priv.dCachePos = 0)
    (hslice : Slice image off whole pos avail) (havail : avail < 512)
    (hmore : pos + avail < chunksEnd whole (sparseBlkSz whole) (sparseTotalChunks whole) 28) :
    OnTrack whole ptn final (pos + avail) (rkimgNoBuffer image off avail priv, io) := by
  refine .inr ⟨hmore, k, pos, ?_, Nat.le_add_right _ _, by omega, ?_, ?_⟩
  · unfold rkimgNoBuffer
    split
    · exact h
    · exact h.setCache _ _
  · rw [Nat.add_sub_cancel_left]
    unfold rkimgNoBuffer
    split
    · next hzero => rw [hcache, hzero]
    · rfl
  · rw [Nat.add_sub_cancel_left]
    intro i hi
    unfold rkimgNoBuffer
    rw [if_neg (by omega)]
    simp only [Int.toNat_natCast]
    rw [Mem.copy_apply_in (Nat.zero_le _) (by omega), Nat.zero_add, Nat.sub_zero]
    exact hslice i hi

/-- The bytes of the chunk under way are written, and what follows is on track. -/
theorem directRun_onTrack {next : Io → Interface × Io}
    (h : DirectRun ptn image off avail priv io next r)
    (hcursor : Cursor whole ptn final k pos priv io) (hcache : priv.dCachePos = 0)
    (hslice : Slice image off whole pos avail)
    (hstreams : priv.dDirectSize ≤ avail → ∀ io',
      Appends Event.Streams io'.events (next io').2.events)
    (hnext : priv.dDirectSize ≤ avail → ∀ io',
      Cursor whole ptn final k (pos + priv.dDirectSize) (priv.advance priv.dDirectSize) io' →
      (∀ e ∈ (next io').2.events, e.OnMedium) →
      OnTrack whole ptn final (pos + priv.dDirectSize + (avail - priv.dDirectSize)) (next io'))
    (hon : ∀ e ∈ r.2.events, e.OnMedium) : OnTrack whole ptn final (pos + avail) r := by
  have hsmall := hcursor.small
  cases h with
  | failed n hn hwrite =>
    have hdvd : 512 ∣ n := by
      split at hn
      · exact hn ▸ hcursor.whole_blocks
      · omega
    have hle : n ≤ avail ∧ n ≤ priv.dDirectSize := by
      split at hn <;> omega
    obtain ⟨hok, -, -⟩ := writeBytes_put (hslice.mono hle.1) hcursor.script hdvd
      (hle.2.trans_lt hsmall) hon
    rw [hok] at hwrite
    cases hwrite
  | unfinished n hn hmore hwrite =>
    have hdvd : 512 ∣ n := Dvd.intro_left _ hn.symm
    obtain ⟨-, hscript, hdisk⟩ := writeBytes_put (hslice.mono (by omega))
      hcursor.script hdvd (by omega) hon
    have hsum : pos + avail = pos + n + (avail - n) := by omega
    rw [hsum]
    refine (hcursor.advance hdvd (by omega) hscript hdisk).keep hcache (hslice.drop n) (by omega) ?_
    rw [← hcursor.stop]
    exact (by omega : pos + n + (avail - n) < _).trans_le (le_chunksEnd k _)
  | finished hle hwrite =>
    obtain ⟨-, hscript, hdisk⟩ := writeBytes_put (hslice.mono hle) hcursor.script
      hcursor.whole_blocks hsmall (fun e he => hon e ((hstreams hle _).subset he))
    have hsum : pos + avail = pos + priv.dDirectSize + (avail - priv.dDirectSize) := by omega
    rw [hsum]
    exact hnext hle _ (hcursor.advance hcursor.whole_blocks le_rfl hscript hdisk) hon

/-- The chunk loop leads to the contents of the whole image. -/
theorem chunkRun_onTrack (hblk : 512 ∣ sparseBlkSz whole)
    (h : ChunkRun ptn image (sparseBlkSz whole) k off avail priv io r)
    (hcursor : Cursor whole ptn final k pos priv io) (hzero : priv.dDirectSize = 0)
    (hcache : priv.dCachePos = 0) (hslice : Slice image off whole pos avail)
    (hon : ∀ e ∈ r.2.events, e.OnMedium) : OnTrack whole ptn final (pos + avail) r := by
  induction h generalizing pos with
  | complete off avail priv io =>
    exact .inl ⟨rfl, (hcursor.here hzero).2.2⟩
  | short k off avail priv io h =>
    refine hcursor.keep hcache hslice (by omega) ?_
    rw [← (hcursor.here hzero).2.1]
    exact (by omega : pos + avail < pos + 12).trans_le (add_le_chunksEnd_succ k pos)
  | bad k off avail priv priv' io h hraw hskip hpriv =>
    rcases (hcursor.here hzero).1 with ⟨hraw', _⟩ | ⟨hskip', _⟩
    · exact absurd ((hslice.isRaw h _).2 hraw') hraw
    · exact absurd ((hslice.isSkip h).2 hskip') hskip
  | large k off avail priv io r h hraw hlarge hevents =>
    rcases (hcursor.here hzero).1 with ⟨_, hsmall, _⟩ | ⟨hskip', _⟩
    · rw [hslice.chunkLen h] at hlarge
      exact absurd hsmall (Nat.not_lt.2 hlarge)
    · exact absurd ((hslice.isSkip h).2 hskip') hraw.not_isSkip
  | raw k off avail priv io r next h hraw hsmall hrun hrest ih =>
    rw [hslice.chunkLen h] at hsmall hrun hrest ih
    have hbegin := hcursor.begin hblk hzero ((hslice.isRaw h _).1 hraw) hsmall
    have hsum : pos + avail = pos + 12 + (avail - 12) := by omega
    rw [hsum]
    refine directRun_onTrack hrun hbegin hcache (hslice.drop 12) (fun hle io' => (hrest hle io').streams)
      (fun hle io' hnext => ?_) hon
    exact ih hle io' hnext (Nat.sub_self _) hcache ((hslice.drop 12).drop _)
  | skip k off avail priv io r h hskip hrest ih =>
    have hnext := hcursor.skip hzero ((hslice.isSkip h).1 hskip)
    rw [← hslice.chunkLen h] at hnext
    have hsum : pos + avail = pos + 12 + (avail - 12) := by omega
    rw [hsum]
    exact ih hnext hzero hcache (hslice.drop 12) hon

theorem continueChunks_onTrack (hblk : 512 ∣ sparseBlkSz whole)
    (hcursor : Cursor whole ptn final k pos priv io) (hzero : priv.dDirectSize = 0)
    (hcache : priv.dCachePos = 0) (hslice : Slice image off whole pos avail)
    (hbound : avail < 2 ^ 64)
    (hon : ∀ e ∈ (continueChunks ptn image off avail priv io).2.events, e.OnMedium) :
    OnTrack whole ptn final (pos + avail) (continueChunks ptn image off avail priv io) := by
  have hk : sparseTotalChunks priv.sparseHeader - toU32 priv.sparseCurChunk = k := by
    rw [hcursor.totalChunks]
    have := hcursor.curChunk
    omega
  unfold continueChunks at hon ⊢
  rw [hk] at hon ⊢
  exact chunkRun_onTrack hblk (sparseChunks_run ptn image _ k off avail priv io hcursor.blkSz hbound)
    hcursor hzero hcache hslice hon

/-- A packet of the image: the rest of the chunk under way, and the chunks behind it. -/
theorem continueDownload_onTrack (hblk : 512 ∣ sparseBlkSz whole)
    (hcursor : Cursor whole ptn final k pos priv io) (hcache : priv.dCachePos = 0)
    (hslice : Slice image off whole pos avail) (hbound : avail < 2 ^ 64)
    (hon : ∀ e ∈ (continueDownload ptn image off avail priv io).2.events, e.OnMedium) :
    OnTrack whole ptn final (pos + avail) (continueDownload ptn image off avail priv io) := by
  rw [continueDownload_sparse hcursor.flagSparse] at hon ⊢
  by_cases hzero : priv.dDirectSize = 0
  · rw [rkimgHandleSparseDownload, if_pos hzero] at hon ⊢
    exact continueChunks_onTrack hblk hcursor hzero hcache hslice hbound hon
  exact directRun_onTrack (rkimgHandleSparseDownload_run hcursor.small hzero) hcursor hcache hslice
    (fun _ _ => (sparseChunks_streamed ..).events)
    (fun hle io' hnext => continueChunks_onTrack hblk hnext (Nat.sub_self _) hcache (hslice.drop _)
      (by omega)) hon

end Packets

/-! ## Runs -/

/-- A packet: where it is, and how long. -/
structure StreamPacket where
  image : Mem
  off : Nat
  length : Nat

/-- The packets carry the bytes of `whole` from `received` to `len`: each is of the largest size, or
    the last one. -/
def Carries (whole : Mem) (len : Nat) : Nat → List StreamPacket → Prop
  | received, [] => received = len
  | received, q :: qs =>
    received < len ∧ q.length = min usbMaxTransSize (len - received) ∧
      Slice q.image q.off whole received q.length ∧ Carries whole len (received + q.length) qs

/-- `rkimage_handleDownload` for a packet; then `d_bytes` is advanced. -/
def streamStep (parts : Nat → DiskPartition) (x : Interface × Io) (q : StreamPacket) :
    Interface × Io :=
  let r := rkimageHandleDownload parts q.image q.off q.length x.1 x.2
  ({ r.1 with dBytes := (r.1.dBytes + q.length) % 2 ^ 64 }, r.2)

/-- The interface of a download of `len` bytes to `ptn`, of which `received` have come. -/
structure Receiving (parts : Nat → DiskPartition) (ptn : DiskPartition) (len received : Nat)
    (priv : Interface) : Prop where
  pendingPtn : priv.pendingPtn.map parts = some ptn
  dSize : priv.dSize = len
  dBytes : priv.dBytes = received
  transferBufferSize : priv.transferBufferSize = usbMaxTransSize

section Runs

variable {parts : Nat → DiskPartition} {ptn : DiskPartition} {whole final : Mem} {len received : Nat}
  {priv : Interface} {io : Io} {q : StreamPacket}

/-- A packet of the download is processed, while there is no error and it fits in the cache. -/
theorem Receiving.handle_eq (h : Receiving parts ptn len received priv) (io : Io)
    (hlen : len < 2 ^ 64) (hmore : received < len) (hq : q.length = min usbMaxTransSize (len - received))
    (hstart : ptn.start ≠ 0) (hstatus : priv.dStatus = 0)
    (hfits : priv.dBytes ≠ 0 → toU64 (q.length + priv.dCachePos) ≤ usbMaxTransSize + 512) :
    rkimageHandleDownload parts q.image q.off q.length priv io
      = continueDownload ptn (hand q.image q.off q.length priv).image
          (hand q.image q.off q.length priv).off (hand q.image q.off q.length priv).length
          (hand q.image q.off q.length priv).priv io := by
  have hrun := rkimageHandleDownload_run parts q.image q.off q.length priv io
  generalize rkimageHandleDownload parts q.image q.off q.length priv io = r at hrun ⊢
  cases hrun with
  | refused hnone => exact absurd (hnone ptn h.pendingPtn) hstart
  | ignored hor =>
    obtain ⟨hlt, hshort⟩ := hor.resolve_right (not_not.2 hstatus)
    rw [h.dBytes, h.dSize, Nat.mod_eq_of_lt (by omega)] at hlt
    rw [h.transferBufferSize] at hshort
    omega
  | overflow _ _ hbytes hover => exact absurd (hfits hbytes) (Nat.not_le.2 hover)
  | processed ptn' hptn' =>
    obtain rfl := Option.mem_unique h.pendingPtn hptn'
    rfl

theorem Receiving.step (h : Receiving parts ptn len received priv) (hlen : len < 2 ^ 64)
    (hmore : received < len) (hq : q.length = min usbMaxTransSize (len - received)) :
    Receiving parts ptn len (received + q.length) (streamStep parts (priv, io) q).1 := by
  have hrequest : priv.SameRequest (rkimageHandleDownload parts q.image q.off q.length priv io).1 :=
    (rkimageHandleDownload_streamed q.image q.off parts q.length).request
  obtain ⟨hpending, -, hbuffer, hsize, hbytes, -⟩ := hrequest.fields
  refine ⟨?_, ?_, ?_, ?_⟩
  · exact (congrArg (Option.map parts) hpending).trans h.pendingPtn
  · exact hsize.trans h.dSize
  · simp only [streamStep, hbytes.trans h.dBytes]
    exact Nat.mod_eq_of_lt (by omega)
  · exact hbuffer.trans h.transferBufferSize

theorem OnTrack.setBytes {r : Interface × Io} (h : OnTrack whole ptn final received r)
    (dBytes : Nat) : OnTrack whole ptn final received ({ r.1 with dBytes := dBytes }, r.2) := by
  rcases h with hdone | ⟨hmore, k, pos, hcursor, hpos, hrest, hcache, hslice⟩
  · exact .inl hdone
  · exact .inr ⟨hmore, k, pos, { hcursor with }, hpos, hrest, hcache, hslice⟩

/-- The header that the first packet leaves is that of the image. -/
theorem header_slice {image header : Mem} {off n : Nat} (h : Slice image off whole 0 n)
    (hn : 28 ≤ n) : Slice (header.copy 0 image off 28) 0 whole 0 28 := by
  intro i hi
  rw [Mem.copy_apply_in (Nat.zero_le _) (by omega), Nat.zero_add, Nat.sub_zero]
  rw [h i (by omega), Nat.zero_add]

theorem Slice.header {header : Mem} (h : Slice header 0 whole 0 28) :
    sparseBlkSz header = sparseBlkSz whole ∧ sparseTotalChunks header = sparseTotalChunks whole ∧
      (IsSparse whole → IsSparse header) := by
  have hu16 : ∀ a, a + 2 ≤ 28 → header.u16 a = whole.u16 a := fun a ha => by
    simpa using h.u16 (a := a) ha
  have hu32 : ∀ a, a + 4 ≤ 28 → header.u32 a = whole.u32 a := fun a ha => by
    simpa using h.u32 (a := a) ha
  refine ⟨hu32 12 (by decide), hu32 20 (by decide), ?_⟩
  rintro ⟨hmagic, hmajor, hfile, hchunk⟩
  exact ⟨(hu32 0 (by decide)).trans hmagic, (hu16 4 (by decide)).trans hmajor,
    (hu16 8 (by decide)).trans hfile, (hu16 10 (by decide)).trans hchunk⟩

/-- The first packet: the header is read, and the cursor is behind it. -/
theorem streamStep_first (hblk : 512 ∣ sparseBlkSz whole) (hsparse : IsSparse whole)
    (hgood : ChunksGood whole (sparseBlkSz whole) (sparseTotalChunks whole) 28)
    (hfinal : applyChunks whole (sparseBlkSz whole) (sparseTotalChunks whole) 28 ptn.start io.dev.disk
      = final)
    (hend : chunksEnd whole (sparseBlkSz whole) (sparseTotalChunks whole) 28 ≤ len)
    (hlen : len < 2 ^ 64) (h : Receiving parts ptn len 0 priv) (hstart : ptn.start ≠ 0)
    (hstatus : priv.dStatus = 0) (hscript : io.dev.script = [])
    (hq : q.length = min usbMaxTransSize (len - 0)) (hslice : Slice q.image q.off whole 0 q.length)
    (hon : ∀ e ∈ (streamStep parts (priv, io) q).2.events, e.OnMedium) :
    OnTrack whole ptn final q.length (streamStep parts (priv, io) q) := by
  have hheader : 28 ≤ len := (le_chunksEnd _ _).trans hend
  have husb : usbMaxTransSize = 0x20000 := rfl
  have heq := h.handle_eq io hlen (by omega) hq hstart hstatus (absurd h.dBytes)
  have hcopied : Slice (priv.sparseHeader.copy 0 q.image q.off 28) 0 whole 0 28 :=
    header_slice hslice (by omega)
  obtain ⟨hblkSz, htotal, hfields⟩ := hcopied.header
  have hsub : (q.length : Int) - 28 = ((q.length - 28 : Nat) : Int) := by omega
  rw [hand_sparse h.dBytes (hfields hsparse), hsub] at heq
  refine OnTrack.setBytes ?_ _
  unfold streamStep at hon
  simp only [heq] at hon ⊢
  have htrack := continueDownload_onTrack hblk (.start hblkSz htotal hgood hscript hfinal) rfl
    (hslice.drop 28) (by omega) hon
  rwa [Nat.add_sub_cancel' (by omega)] at htrack

/-- The packets behind it move the cursor on. -/
theorem streamStep_next (hblk : 512 ∣ sparseBlkSz whole) (hlen : len < 2 ^ 64)
    (h : Receiving parts ptn len received priv) (hreceived : 0 < received) (hmore : received < len)
    (hstart : ptn.start ≠ 0) (htrack : OnTrack whole ptn final received (priv, io))
    (hq : q.length = min usbMaxTransSize (len - received))
    (hslice : Slice q.image q.off whole received q.length)
    (hon : ∀ e ∈ (streamStep parts (priv, io) q).2.events, e.OnMedium) :
    OnTrack whole ptn final (received + q.length) (streamStep parts (priv, io) q) := by
  have hbytes : priv.dBytes ≠ 0 := by
    rw [h.dBytes]
    omega
  refine OnTrack.setBytes ?_ _
  unfold streamStep at hon
  rcases htrack with ⟨hstatus, hdisk⟩ | ⟨-, k, pos, hcursor, hpos, hrest, hcache, hkept⟩
  · -- the image is complete, and the packet is ignored
    have hne : priv.dStatus ≠ 0 := by
      rw [show priv.dStatus = 1 from hstatus]
      decide
    have hrun := rkimageHandleDownload_run parts q.image q.off q.length priv io
    generalize rkimageHandleDownload parts q.image q.off q.length priv io = r at hrun ⊢
    cases hrun with
    | refused hnone => exact absurd (hnone ptn h.pendingPtn) hstart
    | ignored => exact .inl ⟨hstatus, hdisk⟩
    | overflow _ hzero => exact absurd hzero hne
    | processed _ _ _ _ hzero => exact absurd hzero hne
  simp only at hcursor hcache hkept
  have heq := h.handle_eq io hlen hmore hq hstart hcursor.dStatus (fun _ => by
    rw [hcache, ← Nat.cast_add, toU64_natCast (by omega)]
    omega)
  by_cases hzero : priv.dCachePos = 0
  · rw [hand_empty_cache hbytes hzero] at heq
    obtain rfl : pos = received := by omega
    simp only [heq] at hon ⊢
    exact continueDownload_onTrack hblk hcursor hzero hslice (by omega) hon
  -- the packet goes behind what was kept
  generalize hcopy : priv.dCache.copy priv.dCachePos.toNat q.image q.off q.length = cache
  have hwhole : Slice cache 0 whole pos (received - pos + q.length) := by
    rw [← hcopy, hcache, Int.toNat_natCast]
    refine hkept.append ?_
    rwa [Nat.add_sub_cancel' hpos]
  have hlength : (q.length : Int) + priv.dCachePos = ((received - pos + q.length : Nat) : Int) := by
    omega
  rw [hand_cached hbytes hzero hcopy.symm, hlength] at heq
  simp only [heq] at hon ⊢
  have hnext := continueDownload_onTrack hblk (hcursor.setCache cache 0) rfl hwhole (by omega) hon
  rwa [show pos + (received - pos + q.length) = received + q.length by omega] at hnext

theorem streamStep_streams (x : Interface × Io) (qs : List StreamPacket) :
    Appends Event.Streams x.2.events (qs.foldl (streamStep parts) x).2.events := by
  induction qs generalizing x with
  | nil => exact .refl
  | cons q qs ih =>
    have hstep : Appends Event.Streams x.2.events (streamStep parts x q).2.events :=
      (rkimageHandleDownload_streamed q.image q.off parts q.length).events
    exact hstep.trans (ih _)

/-- The packets behind the first one. -/
theorem stream_onTrack (hblk : 512 ∣ sparseBlkSz whole) (hlen : len < 2 ^ 64)
    (hstart : ptn.start ≠ 0) (qs : List StreamPacket) {x : Interface × Io} {received : Nat}
    (h : Receiving parts ptn len received x.1) (hreceived : 0 < received)
    (htrack : OnTrack whole ptn final received x) (hqs : Carries whole len received qs)
    (hon : ∀ e ∈ (qs.foldl (streamStep parts) x).2.events, e.OnMedium) :
    OnTrack whole ptn final len (qs.foldl (streamStep parts) x) := by
  induction qs generalizing x received with
  | nil =>
    obtain rfl : received = len := hqs
    exact htrack
  | cons q qs ih =>
    obtain ⟨hmore, hq, hslice, hrest⟩ := hqs
    have hon' : ∀ e ∈ (streamStep parts x q).2.events, e.OnMedium := fun e he =>
      hon e ((streamStep_streams _ qs).subset he)
    exact ih (h.step hlen hmore hq) (by omega)
      (streamStep_next hblk hlen h hreceived hmore hstart htrack hq hslice hon') hrest hon

end Runs

/-- **Streaming a sparse image in packets of the largest size leaves the contents of the storage that
    `unsparse` leaves, and ends with `d_status` 1.** The image has `len` bytes and holds all of its
    chunks, and all writes succeed. -/
theorem stream_eq_unsparse (parts : Nat → DiskPartition) (ptn : DiskPartition) (target : Target)
    (whole : Mem) (len sizeKb : Nat) (qs : List StreamPacket) (priv : Interface) (io : Io)
    (hblk : 512 ∣ sparseBlkSz whole)
    (hraw : RawBelow whole (sparseBlkSz whole) (sparseTotalChunks whole) 28)
    (hend : chunksEnd whole (sparseBlkSz whole) (sparseTotalChunks whole) 28 ≤ len)
    (hlen : len < 2 ^ 64) (hunsparse : (unsparse target whole ptn.start sizeKb io).1 = true)
    (hstart : ptn.start ≠ 0) (hpriv : Receiving parts ptn len 0 priv) (hstatus : priv.dStatus = 0)
    (hqs : Carries whole len 0 qs) (hscript : io.dev.script = [])
    (honce : ∀ e ∈ (unsparse target whole ptn.start sizeKb io).2.events, e.OnMedium)
    (hon : ∀ e ∈ (qs.foldl (streamStep parts) (priv, io)).2.events, e.OnMedium) :
    (qs.foldl (streamStep parts) (priv, io)).1.dStatus = 1 ∧
      (qs.foldl (streamStep parts) (priv, io)).2.dev.disk
        = (unsparse target whole ptn.start sizeKb io).2.dev.disk := by
  obtain ⟨hsparse, hgood, hdisk⟩ := unsparse_apply hunsparse hraw hscript honce
  have hheader : 28 ≤ len := (le_chunksEnd _ _).trans hend
  cases qs with
  | nil =>
    obtain rfl : 0 = len := hqs
    cases hheader
  | cons q qs =>
    obtain ⟨hmore, hq, hslice, hrest⟩ := hqs
    rw [Nat.zero_add] at hrest
    have husb : usbMaxTransSize = 0x20000 := rfl
    have hfirst := streamStep_first hblk hsparse hgood hdisk.symm hend hlen hpriv hstart hstatus
      hscript hq hslice (fun e he => hon e ((streamStep_streams _ qs).subset he))
    have hreceiving : Receiving parts ptn len (0 + q.length) (streamStep parts (priv, io) q).1 :=
      hpriv.step hlen hmore hq
    rw [Nat.zero_add] at hreceiving
    have htrack := stream_onTrack hblk hlen hstart qs hreceiving (by omega) hfirst hrest hon
    rcases htrack with hdone | ⟨hopen, -⟩
    · exact hdone
    · omega

/-- An image with one RAW chunk of 257 blocks, 131624 bytes. -/
def longImage : Mem := fun x =>
  ([0x3a, 0xff, 0x26, 0xed, 1, 0, 0, 0, 28, 0, 12, 0, 0, 2, 0, 0, 1, 1, 0, 0, 1, 0, 0, 0,
    0, 0, 0, 0, 0xc1, 0xca, 0, 0, 1, 1, 0, 0, 12, 2, 2, 0] : List UInt8).getD x 170

/-- The system partition. -/
def longPartition : DiskPartition := ⟨64, 512, 512, ascii "system", ascii "ext4"⟩

/-- The interface after "download:00020228". -/
def longInterface : Interface :=
  { pendingPtn := some 0, pendingPtnName := ascii "system", dLegacy := false
    transferBufferSize := usbMaxTransSize, dSize := 131624, dBytes := 0, dStatus := 0
    dDirectSize := 0, dDirectOffset := 0, dCache := Mem.zero, dCachePos := 0, flagSparse := false
    sparseHeader := Mem.zero, sparseCurChunk := 0, response := [], exit := false, unlocked := true
    unlockPendingStartTime := 0 }

/-- The image in two packets, of which the second holds the end of the chunk. -/
def longPackets : List StreamPacket := [⟨longImage, 0, 131072⟩, ⟨longImage, 131072, 552⟩]

theorem stream_eq_unsparse_longChunk :
    (longPackets.foldl (streamStep (fun _ => longPartition))
        (longInterface, ⟨⟨Mem.zero, []⟩, []⟩)).1.dStatus = 1 ∧
      (longPackets.foldl (streamStep (fun _ => longPartition))
        (longInterface, ⟨⟨Mem.zero, []⟩, []⟩)).2.dev.disk
        = (unsparse (.partition longPartition) longImage 64 256 ⟨⟨Mem.zero, []⟩, []⟩).2.dev.disk :=
  stream_eq_unsparse (fun _ => longPartition) longPartition (.partition longPartition)
    longImage 131624 256 longPackets longInterface ⟨⟨Mem.zero, []⟩, []⟩
    (by decide +kernel) (by decide +kernel) (by decide +kernel) (by decide) (by decide +kernel)
    (by decide) ⟨rfl, rfl, rfl, rfl⟩ rfl
    ⟨by decide, by decide, fun _ _ => rfl, by decide, by decide, fun _ _ => rfl, rfl⟩ rfl
    (by decide +kernel) (by decide +kernel)

end Fastboot
