import RkUboot.Fastboot.Effects
import RkUboot.Fastboot.Stream

set_option autoImplicit false

/-! # Streamed downloads and the bounds of the partition

`rkimg_handleDirectDownload` adds the progress of the download to the start of the pending partition
and does not compare it with the size. So a stream stays in its partition if the image that the host
announces does: the size of a raw download, and the chunks of a sparse one. -/

namespace Fastboot

/-- The blocks a download may use: up to the end of the partition, and of the block numbers. -/
def DiskPartition.room (ptn : DiskPartition) : Nat := min ptn.size (2 ^ 32 - ptn.start)

/-- A write of a streamed download lies in the partition. -/
def Event.Inside (e : Event) : Prop :=
  ∀ ptn lba n image off ok, e = .write (.stream ptn) lba n image off ok →
    ptn.start ≤ lba ∧ lba + n ≤ ptn.start + ptn.size

/-- The rest of the chunk under way fits in the partition, and in an `int`. -/
def Interface.Fits (priv : Interface) (ptn : DiskPartition) : Prop :=
  priv.dDirectSize < 2 ^ 31 ∧
    (priv.dDirectSize = 0 ∨ priv.dDirectOffset + blocksOf priv.dDirectSize ≤ ptn.room)
  deriving Decidable

/-- What is kept for the next packet fits in the cache. -/
def Interface.CacheOk (priv : Interface) : Prop :=
  0 ≤ priv.dCachePos ∧ priv.dCachePos ≤ usbMaxTransSize + 512

/-- The RAW chunks whose headers are at hand fit in the partition: `k` chunks to go, `avail` bytes at
    hand from offset `off`, and `pos` is the block where the next chunk goes. -/
def ChunksFit (room blkSz : Nat) (image : Mem) : Nat → Nat → Nat → Nat → Prop
  | 0, _, _, _ => True
  | k + 1, off, avail, pos =>
    let n := chunkLen image blkSz off
    12 ≤ avail →
      (IsRaw image blkSz off → n < 2 ^ 31 ∧ (n = 0 ∨ pos + blocksOf n ≤ room) ∧
        (n ≤ avail - 12 →
          ChunksFit room blkSz image k (off + 12 + n) (avail - 12 - n)
            ((pos + blocksOf n) % 2 ^ 64))) ∧
      (IsSkip image off →
        ChunksFit room blkSz image k (off + 12) (avail - 12) ((pos + n / 512) % 2 ^ 64))

instance ChunksFit.decidable (room blkSz : Nat) (image : Mem) :
    ∀ k off avail pos, Decidable (ChunksFit room blkSz image k off avail pos)
  | 0, _, _, _ => .isTrue trivial
  | k + 1, _, avail, _ =>
    have := ChunksFit.decidable room blkSz image k
    inferInstanceAs (Decidable (12 ≤ avail → (_ → _ ∧ _ ∧ (_ → ChunksFit _ _ _ k _ _ _)) ∧
      (_ → ChunksFit _ _ _ k _ _ _)))

/-- What a packet must meet in the state before it: the first packet is not a short one, it holds the
    header, and the size it announces fits; and so does every chunk that it announces. -/
def PacketFits (ptn : DiskPartition) (image : Mem) (off length : Nat) (priv : Interface) : Prop :=
  let h := hand image off length priv
  (priv.dBytes = 0 → ¬ Dropped priv length ∧ 0 ≤ h.length ∧ h.priv.Fits ptn) ∧
    (h.priv.flagSparse = true → (h.priv.dDirectSize : Int) ≤ h.length →
      ChunksFit ptn.room (sparseBlkSz h.priv.sparseHeader) h.image
        (sparseTotalChunks h.priv.sparseHeader - toU32 h.priv.sparseCurChunk)
        (h.off + h.priv.dDirectSize) (h.length.toNat - h.priv.dDirectSize)
        (h.priv.dDirectOffset + blocksOf h.priv.dDirectSize))
  deriving Decidable

/-- What an iteration that reads data must meet. -/
def StreamFits (s : State) (t : Tick) : Prop :=
  ∀ r ∈ dataRead s t, r.2.2.priv.dLegacy = false → r.2.2.priv.dStatus = 0 →
    ∀ ptn ∈ r.2.2.pending, ptn.start ≠ 0 →
      PacketFits ptn (r.2.2.mem r.1.base) r.1.off (min r.2.1 r.2.2.priv.transferBufferSize) r.2.2.priv
  deriving Decidable

/-! ## One write -/

section Write

variable {ptn : DiskPartition} {image : Mem} {off n : Nat} {priv : Interface} {io : Io}

theorem Event.inside_of_not_streams {e : Event} (h : ¬ e.Streams) : e.Inside := by
  rintro ptn lba n image off ok rfl
  exact absurd ⟨ptn, image, lba, n, off, ok, rfl⟩ h

/-- A write of whole blocks, or of the rest of the chunk, stays in the partition. -/
theorem writeBytes_inside (hsmall : n < 2 ^ 31)
    (h : n = 0 ∨ priv.dDirectOffset + blocksOf n ≤ ptn.room) :
    Appends Event.Inside io.events (writeBytes ptn image off n priv io).2.events := by
  unfold writeBytes directWrite
  split
  · exact .refl
  next hblocks =>
  refine .cons ?_
  rintro ptn' lba k image' off' ok heq
  injection heq with htarget hlba hk
  injection htarget with hptn
  subst hptn hlba hk
  have hpos : 0 < blocksOf n := by omega
  have hblocks : blocksOf n < 2 ^ 32 := by
    unfold blocksOf
    omega
  have hroom : priv.dDirectOffset + blocksOf n ≤ ptn.room := by
    rcases h with rfl | h
    · cases hpos
    · exact h
  have hsize : priv.dDirectOffset + blocksOf n ≤ ptn.size := hroom.trans (Nat.min_le_left _ _)
  have haddr : priv.dDirectOffset + blocksOf n ≤ 2 ^ 32 - ptn.start :=
    hroom.trans (Nat.min_le_right _ _)
  rw [toU32_natCast hblocks, Nat.mod_eq_of_lt (by omega), Nat.mod_eq_of_lt hblocks]
  omega

theorem Interface.Fits.advance (h : priv.Fits ptn)
    (hn : n = priv.dDirectSize ∨ n ≤ priv.dDirectSize ∧ 512 ∣ n) : (priv.advance n).Fits ptn := by
  obtain ⟨hsmall, hroom⟩ := h
  refine ⟨by simp only [Interface.advance]; omega, ?_⟩
  rcases hn with rfl | ⟨hle, m, rfl⟩
  · exact .inl (Nat.sub_self _)
  rcases hroom with hzero | hroom
  · left
    simp only [Interface.advance]
    omega
  right
  simp only [Interface.advance, blocksOf] at hroom ⊢
  omega

theorem rkimgNoBuffer_fits (h : priv.Fits ptn) (length : Int) :
    (rkimgNoBuffer image off length priv).Fits ptn := by
  unfold rkimgNoBuffer
  split <;> exact h

theorem rkimgNoBuffer_cacheOk (h : priv.CacheOk) (hn : n ≤ usbMaxTransSize + 512) :
    (rkimgNoBuffer image off n priv).CacheOk := by
  unfold rkimgNoBuffer
  split
  · exact h
  · exact ⟨Int.natCast_nonneg n, Int.ofNat_le.2 hn⟩

end Write

/-! ## Chunks -/

/-- Writes in the partition, after which the rest of the chunk under way fits. -/
structure StaysInside (ptn : DiskPartition) (io : Io) (r : Interface × Io) : Prop where
  events : Appends Event.Inside io.events r.2.events
  fits : r.1.Fits ptn
  cache : r.1.CacheOk

section Chunks

variable {ptn : DiskPartition} {image : Mem} {off avail : Nat} {priv : Interface} {io : Io}
  {r : Interface × Io}

theorem StaysInside.since {io' : Io} (h : StaysInside ptn io' r)
    (hevents : Appends Event.Inside io.events io'.events) : StaysInside ptn io r :=
  ⟨hevents.trans h.events, h.fits, h.cache⟩

theorem directRun_inside {next : Io → Interface × Io}
    (h : DirectRun ptn image off avail priv io next r) (hfits : priv.Fits ptn) (hcache : priv.CacheOk)
    (havail : avail ≤ usbMaxTransSize + 512)
    (hnext : priv.dDirectSize ≤ avail → ∀ io', StaysInside ptn io' (next io')) :
    StaysInside ptn io r := by
  -- a part of the chunk fits where the whole does
  have hpart : ∀ n, n ≤ priv.dDirectSize →
      Appends Event.Inside io.events (writeBytes ptn image off n priv io).2.events := by
    intro n hn
    refine writeBytes_inside (hn.trans_lt hfits.1) ?_
    rcases hfits.2 with hzero | hroom
    · left
      omega
    right
    have hle : blocksOf n ≤ blocksOf priv.dDirectSize := by
      unfold blocksOf
      omega
    omega
  cases h with
  | failed n hn hwrite =>
    have hle : n ≤ priv.dDirectSize := by
      split at hn
      · exact hn.le
      · omega
    exact ⟨hpart n hle, hfits, hcache⟩
  | unfinished n hn hmore hwrite =>
    have hle : n ≤ priv.dDirectSize := by omega
    exact ⟨hpart n hle,
      rkimgNoBuffer_fits (hfits.advance (.inr ⟨hle, Dvd.intro_left _ hn.symm⟩)) _,
      rkimgNoBuffer_cacheOk hcache ((Nat.sub_le _ _).trans havail)⟩
  | finished hle hwrite =>
    exact (hnext hle _).since (hpart _ le_rfl)

theorem chunkRun_inside {blkSz k : Nat} (h : ChunkRun ptn image blkSz k off avail priv io r)
    (hfit : ChunksFit ptn.room blkSz image k off avail priv.dDirectOffset)
    (hzero : priv.dDirectSize = 0) (hcache : priv.CacheOk)
    (havail : avail ≤ usbMaxTransSize + 512) : StaysInside ptn io r := by
  have hfits : ∀ p : Interface, p.dDirectSize = 0 → p.Fits ptn := fun p hp =>
    ⟨by rw [hp]; decide, .inl hp⟩
  induction h with
  | complete => exact ⟨.refl, hfits _ hzero, hcache⟩
  | short => exact ⟨.refl, rkimgNoBuffer_fits (hfits _ hzero) _, rkimgNoBuffer_cacheOk hcache havail⟩
  | bad k off avail priv priv' io h hraw hskip hpriv =>
    subst hpriv
    exact ⟨.refl, hfits _ hzero, hcache⟩
  | large k off avail priv io r h hraw hlarge _ =>
    exact absurd ((hfit h).1 hraw).1 (by omega)
  | raw k off avail priv io r next h hraw hsmall hrun hrest ih =>
    obtain ⟨-, hroom, hnext⟩ := (hfit h).1 hraw
    exact directRun_inside hrun ⟨hsmall, hroom⟩ hcache (by omega)
      (fun hle io' => ih hle io' (hnext hle) (Nat.sub_self _) hcache (by omega))
  | skip k off avail priv io r h hskip hrest ih =>
    exact ih ((hfit h).2 hskip) hzero hcache (by omega)

theorem continueChunks_inside (hzero : priv.dDirectSize = 0) (hcache : priv.CacheOk)
    (havail : avail ≤ usbMaxTransSize + 512)
    (hchunks : ChunksFit ptn.room (sparseBlkSz priv.sparseHeader) image
      (sparseTotalChunks priv.sparseHeader - toU32 priv.sparseCurChunk) off avail
      priv.dDirectOffset) :
    StaysInside ptn io (continueChunks ptn image off avail priv io) := by
  have hbound : avail < 2 ^ 64 := havail.trans_lt (by decide)
  exact chunkRun_inside (sparseChunks_run ptn image _ _ off avail priv io rfl hbound) hchunks hzero
    hcache havail

/-- A packet whose chunks fit stays in the partition, and so does what it leaves for the next one. -/
theorem continueDownload_inside (hfits : priv.Fits ptn) (hcache : priv.CacheOk)
    (havail : avail ≤ usbMaxTransSize + 512)
    (hchunks : priv.flagSparse = true → priv.dDirectSize ≤ avail →
      ChunksFit ptn.room (sparseBlkSz priv.sparseHeader) image
        (sparseTotalChunks priv.sparseHeader - toU32 priv.sparseCurChunk) (off + priv.dDirectSize)
        (avail - priv.dDirectSize) (priv.dDirectOffset + blocksOf priv.dDirectSize)) :
    StaysInside ptn io (continueDownload ptn image off avail priv io) := by
  by_cases hzero : priv.dDirectSize = 0
  · cases hflag : priv.flagSparse with
    | true =>
      rw [continueDownload_sparse hflag, rkimgHandleSparseDownload, if_pos hzero]
      have hfit := hchunks hflag (hzero ▸ Nat.zero_le _)
      rw [hzero] at hfit
      exact continueChunks_inside hzero hcache havail hfit
    | false =>
      rw [continueDownload_raw hflag, rkimgImageDownload, if_pos hzero]
      exact ⟨.refl, hfits, hcache⟩
  · have hroom : priv.dDirectOffset + blocksOf priv.dDirectSize ≤ ptn.room :=
      hfits.2.resolve_left hzero
    have hmin : ptn.room ≤ 2 ^ 32 - ptn.start := Nat.min_le_right _ _
    have hoffset : (priv.advance priv.dDirectSize).dDirectOffset
        = priv.dDirectOffset + blocksOf priv.dDirectSize :=
      Nat.mod_eq_of_lt (by omega)
    cases hflag : priv.flagSparse with
    | true =>
      rw [continueDownload_sparse hflag]
      refine directRun_inside (rkimgHandleSparseDownload_run hfits.1 hzero) hfits hcache havail
        (fun hle io' => ?_)
      refine continueChunks_inside (Nat.sub_self _) hcache ((Nat.sub_le _ _).trans havail) ?_
      rw [hoffset]
      exact hchunks hflag hle
    | false =>
      rw [continueDownload_raw hflag]
      exact directRun_inside (rkimgImageDownload_run hfits.1 hzero) hfits hcache havail
        (fun _ _ => ⟨.refl, hfits.advance (.inl rfl), hcache⟩)

end Chunks

/-! ## Packets -/

/-- What a packet finds: the chunk under way fits, in the partition and in the cache. -/
def Interface.UnderWay (priv : Interface) (parts : Nat → DiskPartition) : Prop :=
  priv.dStatus = 0 → ∀ ptn ∈ priv.pendingPtn.map parts, ptn.start ≠ 0 → priv.Fits ptn ∧ priv.CacheOk

section Packets

variable {parts : Nat → DiskPartition} {image : Mem} {off length : Nat} {priv : Interface} {io : Io}
  {ptn : DiskPartition}

/-- The bytes at hand are no more than the cache can hold. -/
theorem hand_fits (hlen : length ≤ usbMaxTransSize) (hcond : PacketFits ptn image off length priv)
    (hinv : priv.dBytes ≠ 0 → priv.Fits ptn ∧ priv.CacheOk)
    (hcap : priv.dBytes ≠ 0 → toU64 (length + priv.dCachePos) ≤ usbMaxTransSize + 512) :
    ∃ avail : Nat, (hand image off length priv).length = avail ∧ avail ≤ usbMaxTransSize + 512 ∧
      (hand image off length priv).priv.Fits ptn ∧ (hand image off length priv).priv.CacheOk := by
  have hfresh : ∀ p : Interface, p.dCachePos = 0 → p.CacheOk := fun p hp =>
    ⟨hp.ge, hp.le.trans (by decide)⟩
  by_cases hbytes : priv.dBytes = 0
  · obtain ⟨-, hpos, hfits⟩ := hcond.1 hbytes
    by_cases hsparse : IsSparse (priv.sparseHeader.copy 0 image off 28)
    · rw [hand_sparse hbytes hsparse] at hpos hfits ⊢
      exact ⟨length - 28, by simp only at hpos ⊢; omega, by omega, hfits, hfresh _ rfl⟩
    · rw [hand_raw hbytes hsparse] at hfits ⊢
      exact ⟨length, rfl, hlen.trans (Nat.le_add_right _ _), hfits, hfresh _ rfl⟩
  · obtain ⟨hfits, hcache⟩ := hinv hbytes
    by_cases hzero : priv.dCachePos = 0
    · rw [hand_empty_cache hbytes hzero]
      exact ⟨length, rfl, hlen.trans (Nat.le_add_right _ _), hfits, hcache⟩
    rw [hand_cached hbytes hzero rfl]
    have hcap' := hcap hbytes
    have hsum : ((length : Int) + priv.dCachePos) = ((length + priv.dCachePos.toNat : Nat) : Int) := by
      have := hcache.1
      omega
    have husb : usbMaxTransSize = 0x20000 := rfl
    rw [hsum, toU64_natCast (by have := hcache.2; omega)] at hcap'
    exact ⟨length + priv.dCachePos.toNat, hsum, hcap', hfits, hfresh _ rfl⟩

theorem rkimageHandleDownload_inside (hlen : length ≤ usbMaxTransSize)
    (hcond : priv.dStatus = 0 → ∀ ptn ∈ priv.pendingPtn.map parts, ptn.start ≠ 0 →
      PacketFits ptn image off length priv)
    (hinv : priv.dBytes ≠ 0 → priv.UnderWay parts) :
    Appends Event.Inside io.events (rkimageHandleDownload parts image off length priv io).2.events ∧
      (rkimageHandleDownload parts image off length priv io).1.UnderWay parts := by
  have hrun := rkimageHandleDownload_run parts image off length priv io
  have hrequest : priv.SameRequest (rkimageHandleDownload parts image off length priv io).1 :=
    (rkimageHandleDownload_streamed image off parts length).request
  generalize rkimageHandleDownload parts image off length priv io = r at hrun hrequest ⊢
  cases hrun with
  | refused h => exact ⟨.refl, nofun⟩
  | overflow => exact ⟨.refl, nofun⟩
  | ignored h =>
    refine ⟨.refl, fun hstatus ptn hptn hstart => ?_⟩
    -- the first packet is not dropped
    have hbytes : priv.dBytes ≠ 0 := by
      intro hzero
      exact ((hcond hstatus ptn hptn hstart).1 hzero).1 (h.resolve_right (not_not.2 hstatus))
    exact hinv hbytes hstatus ptn hptn hstart
  | processed ptn hptn hstart hnot hstatus hcap =>
    have hfits := hcond hstatus ptn hptn hstart
    obtain ⟨avail, havail, hmax, hhand, hcache⟩ := hand_fits hlen hfits
      (fun hbytes => hinv hbytes hstatus ptn hptn hstart) hcap
    rw [havail] at hrequest ⊢
    have hinside : StaysInside ptn io _ := continueDownload_inside hhand hcache hmax
      (fun hflag hle => by
        have h := hfits.2 hflag (by rw [havail]; exact Int.ofNat_le.2 hle)
        rwa [havail, Int.toNat_natCast] at h)
    refine ⟨hinside.events, fun _ ptn' hptn' _ => ?_⟩
    rw [hrequest.fields.1] at hptn'
    obtain rfl := Option.mem_unique hptn hptn'
    exact ⟨hinside.fits, hinside.cache⟩

end Packets

/-! ## Runs -/

/-- The data phase of a streamed download: the buffer size is set, and behind the first packet the
    chunk under way fits. -/
def StreamInv (s : State) : Prop :=
  s.priv.dSize ≠ 0 → s.priv.transferBufferSize = usbMaxTransSize ∧
    (s.priv.dLegacy = false → s.priv.dBytes ≠ 0 → s.priv.UnderWay s.world.parts)

variable {s : State}

theorem StreamInv.congr {s' : State} (h : StreamInv s) (hpriv : s'.priv = s.priv)
    (hparts : s'.world.parts = s.world.parts) : StreamInv s' := by
  unfold StreamInv
  rw [hpriv, hparts]
  exact h

theorem StreamInv.expireUnlock (h : StreamInv s) (now : Nat) :
    StreamInv (expireUnlock now s) := by
  unfold Fastboot.expireUnlock
  split <;> exact h

variable {length : Nat} {p : Ptr}

theorem streamPacket_inside (hinv : StreamInv s)
    (hsize : s.priv.dSize ≠ 0) (hlen : length ≤ s.priv.transferBufferSize)
    (hcond : s.priv.dLegacy = false → s.priv.dStatus = 0 → ∀ ptn ∈ s.pending, ptn.start ≠ 0 →
      PacketFits ptn (s.mem p.base) p.off length s.priv) :
    Appends Event.Inside s.events (streamPacket p length s).2.events ∧
      (s.priv.dLegacy = false → (streamPacket p length s).1.UnderWay s.world.parts) := by
  obtain ⟨hbuffer, hunder⟩ := hinv hsize
  unfold streamPacket
  cases hlegacy : s.priv.dLegacy with
  | true => exact ⟨.refl, nofun⟩
  | false =>
    obtain ⟨hevents, hway⟩ := rkimageHandleDownload_inside (hlen.trans hbuffer.le) (hcond hlegacy)
      (hunder hlegacy)
    exact ⟨hevents, fun _ => hway⟩

/-- The data part of `fbt_rx_process`. -/
theorem rxData_inside (hinv : StreamInv s)
    (hsize : s.priv.dSize ≠ 0)
    (hcond : s.priv.dLegacy = false → s.priv.dStatus = 0 → ∀ ptn ∈ s.pending, ptn.start ≠ 0 →
      PacketFits ptn (s.mem p.base) p.off (min length s.priv.transferBufferSize) s.priv) :
    Appends Event.Inside s.events (rxData p length s).2.events ∧ StreamInv (rxData p length s).2 := by
  obtain ⟨hevents, hway⟩ := streamPacket_inside hinv hsize (Nat.min_le_right _ _) hcond
  obtain ⟨hpriv, hio, hparts⟩ := rxPacket_outcome p (min length s.priv.transferBufferSize) s
  obtain ⟨-, hsame, hkept, -⟩ :=
    (rxPacket_streamed p (min length s.priv.transferBufferSize) s).request.fields
  rw [← hpriv] at hway
  have hbuffer := hkept.trans (hinv hsize).1
  have hunder : (rxPacket p (min length s.priv.transferBufferSize) s).priv.dLegacy = false →
      (rxPacket p (min length s.priv.transferBufferSize) s).priv.UnderWay
        (rxPacket p (min length s.priv.transferBufferSize) s).world.parts := by
    intro hlegacy
    rw [hparts]
    exact hway (hsame ▸ hlegacy)
  refine ⟨?_, ?_⟩
  · unfold rxData
    rw [rxFinish_events]
    rw [← hio] at hevents
    exact hevents
  · unfold rxData rxFinish
    simp only
    split
    · exact fun _ => ⟨hbuffer, fun hlegacy _ => hunder hlegacy⟩
    · split
      · exact fun _ => ⟨hbuffer, fun hlegacy _ => hunder hlegacy⟩
      · exact fun h => absurd rfl h

/-- One iteration. -/
theorem doFastboot_inside (board : Board) {t : Tick} (hinv : StreamInv s)
    (hcond : StreamFits s t) :
    Appends Event.Inside s.events (doFastboot board s t).events ∧
      StreamInv (doFastboot board s t) := by
  have hiter := doFastboot_iteration board s t
  generalize doFastboot board s t = s' at hiter ⊢
  cases hiter with
  | halted => exact ⟨.refl, hinv⟩
  | idle s₁ hmem =>
    rw [expireUnlock_events]
    exact ⟨.of_eq hmem.events, (hinv.congr hmem.priv hmem.parts).expireUnlock _⟩
  | data p length s₁ s₂ hmem hsize hcmd hdata hrest =>
    obtain ⟨hevents, hinv'⟩ := rxData_inside (hinv.congr hmem.priv hmem.parts)
      (by rw [hmem.priv]; exact hsize) (hcond _ hdata)
    rw [expireUnlock_events, hrest.events, ← hmem.events]
    exact ⟨hevents, (hinv'.congr hrest.priv hrest.parts).expireUnlock _⟩
  | command cmdbuf s₁ s₂ hmem hsize hcmd hdata hrest =>
    have heffect := runCommand_effect board t.now cmdbuf s₁
    rw [expireUnlock_events, hrest.events, ← hmem.events]
    refine ⟨heffect.events.mono (fun e h => Event.inside_of_not_streams h.1),
      StreamInv.expireUnlock ?_ _⟩
    refine StreamInv.congr (s := (runCommand board t.now cmdbuf s₁).2) ?_ hrest.priv hrest.parts
    intro hne
    -- a data phase that begins has no bytes yet
    rcases heffect.dSize with hsame | ⟨hbytes, hbuffer⟩
    · rw [hmem.priv, hsize] at hsame
      exact absurd hsame hne
    · omega

/-- **Along every run in which the packets of streamed downloads announce extents that fit in the
    pending partition, every block range that a streamed download writes lies in it.** -/
theorem stream_stays_inside (board : Board) (unlocked : Bool) (w : World) (ts : List Tick)
    (h : Run.Along (Session.step board) (fun x t => StreamFits x.st t) (Session.boot unlocked w) ts) :
    ∀ es ∈ (ts.foldl (Session.step board) (Session.boot unlocked w)).history, ∀ e ∈ es,
      ∀ ptn lba n image off ok, e = .write (.stream ptn) lba n image off ok →
        ptn.start ≤ lba ∧ lba + n ≤ ptn.start + ptn.size := by
  refine (Run.along_invariant (I := fun x : Session => StreamInv x.st ∧ x.st.events = [] ∧
    ∀ es ∈ x.history, ∀ e ∈ es, e.Inside) ?_ ts _ ?_ h).2.2
  · rintro x t ⟨hinv, hev, hx⟩ hcond
    obtain ⟨hevents, hinv'⟩ := doFastboot_inside board hinv hcond
    refine ⟨hinv', rfl, fun es hes => ?_⟩
    rcases List.mem_cons.1 hes with rfl | hes
    · intro e he
      rw [hev] at hevents
      exact (hevents.mem he).resolve_right List.not_mem_nil
    · exact hx es hes
  · exact ⟨fun h => absurd rfl h, rfl, fun es hes => absurd hes List.not_mem_nil⟩

/-- Storage with a system partition of `size` blocks from block 64 on. -/
def systemWorld (size : Nat) : World where
  dev := ⟨Mem.zero, []⟩
  parts _ := ⟨64, size, 512, ascii "system", ascii "ext4"⟩
  numParts := 1
  ram := Mem.zero

/-- A raw download of 513 bytes to the system partition. -/
def streamSystem : List Tick :=
  [say "getvar:partition-type:system", say "download:00000201",
    ⟨some (List.replicate 513 170), 0⟩]

/-- Two blocks are room enough for it. -/
theorem stream_stays_inside_system :
    Run.Along (Session.step (sampleBoard 0)) (fun x t => StreamFits x.st t)
        (Session.boot true (systemWorld 2)) streamSystem ∧
      ∀ es ∈ (streamSystem.foldl (Session.step (sampleBoard 0))
        (Session.boot true (systemWorld 2))).history, ∀ e ∈ es,
        ∀ ptn lba n image off ok, e = .write (.stream ptn) lba n image off ok →
          ptn.start ≤ lba ∧ lba + n ≤ ptn.start + ptn.size := by
  have h : Run.Along (Session.step (sampleBoard 0)) (fun x t => StreamFits x.st t)
      (Session.boot true (systemWorld 2)) streamSystem := by
    decide +kernel
  exact ⟨h, stream_stays_inside (sampleBoard 0) true (systemWorld 2) streamSystem h⟩

/-- The block range of a write of a streamed download, with the end of its partition. -/
def Event.streamRange : Event → Option (Nat × Nat)
  | .write (.stream ptn) lba n _ _ _ => some (lba + n, ptn.start + ptn.size)
  | _ => none

/-- With a partition of one block the same download writes the block behind it. -/
theorem stream_leaves_small_partition :
    ¬ ∀ es ∈ (streamSystem.foldl (Session.step (sampleBoard 0))
      (Session.boot true (systemWorld 1))).history, ∀ e ∈ es,
        ∀ ptn lba n image off ok, e = .write (.stream ptn) lba n image off ok →
          ptn.start ≤ lba ∧ lba + n ≤ ptn.start + ptn.size := by
  intro h
  have hwrite : (streamSystem.foldl (Session.step (sampleBoard 0))
      (Session.boot true (systemWorld 1))).history.any
        (fun es => es.any (fun e => e.streamRange = some (66, 65))) = true := by
    decide +kernel
  obtain ⟨es, hes, hany⟩ := List.any_eq_true.1 hwrite
  obtain ⟨e, he, hrange⟩ := List.any_eq_true.1 hany
  have hrange := of_decide_eq_true hrange
  cases e with
  | write target lba n image off ok =>
    cases target with
    | stream ptn =>
      obtain ⟨-, hend⟩ := h es hes _ he ptn lba n image off ok rfl
      simp only [Event.streamRange, Option.some.injEq, Prod.mk.injEq] at hrange
      omega
    | _ => exact absurd hrange (by simp [Event.streamRange])
  | _ => exact absurd hrange (by simp [Event.streamRange])

end Fastboot
