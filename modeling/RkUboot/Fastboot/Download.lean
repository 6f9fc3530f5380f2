import RkUboot.Lib.Run
import RkUboot.Fastboot.Session
import RkUboot.Fastboot.Stream

set_option autoImplicit false

/-! # The length of the data phase

"download:" announces a number of bytes, and `fbt_rx_process` is to take exactly that many as data.
It ends the phase by `d_status` as well, though: a streamed image that is complete ends it early, and
behind an error the length of each packet is added to `d_bytes` twice. The count is exact as long as
every packet but the last leaves the image open and free of errors. -/

namespace Fastboot

/-! ## Packets that keep the image open -/

/-- The next write of `blocks` blocks succeeds; nothing is written for 0 blocks. -/
def WriteOk (blocks : Nat) (script : List IoResult) : Prop :=
  blocks = 0 ∨ script.headD .ok = .ok
  deriving Decidable

/-- The outcomes left after a write of `blocks` blocks. -/
def scriptAfter (blocks : Nat) (script : List IoResult) : List IoResult :=
  if blocks = 0 then script else script.tail

/-- The chunk headers at hand are good, their writes succeed, and the bytes at hand end before the
    last chunk does: `k` chunks to go, `avail` bytes at hand from offset `off`. -/
def ChunksOpen (blkSz : Nat) (image : Mem) : Nat → Nat → Nat → List IoResult → Prop
  | 0, _, _, _ => False
  | k + 1, off, avail, script =>
    let n := chunkLen image blkSz off
    12 ≤ avail →
      (IsRaw image blkSz off ∨ IsSkip image off) ∧
      (IsRaw image blkSz off → n < 2 ^ 31 ∧
        (avail - 12 < n → WriteOk ((avail - 12) / 512) script) ∧
        (n ≤ avail - 12 → WriteOk (blocksOf n) script ∧
          ChunksOpen blkSz image k (off + 12 + n) (avail - 12 - n)
            (scriptAfter (blocksOf n) script))) ∧
      (IsSkip image off → ChunksOpen blkSz image k (off + 12) (avail - 12) script)

instance ChunksOpen.decidable (blkSz : Nat) (image : Mem) :
    ∀ k off avail script, Decidable (ChunksOpen blkSz image k off avail script)
  | 0, _, _, _ => .isFalse not_false
  | k + 1, _, avail, _ =>
    have := ChunksOpen.decidable blkSz image k
    inferInstanceAs (Decidable (12 ≤ avail → (_ ∨ _) ∧
      (_ → _ ∧ (_ → _) ∧ (_ → _ ∧ ChunksOpen _ _ k _ _ _)) ∧ (_ → ChunksOpen _ _ k _ _ _)))

/-- The bytes at hand leave the image open: there are no more than the cache can hold, and the writes
    they make succeed. -/
def HandOpen (h : Hand) (script : List IoResult) : Prop :=
  let avail := h.length.toNat
  let size := h.priv.dDirectSize
  0 ≤ h.length ∧ h.length ≤ usbMaxTransSize + 512 ∧ size < 2 ^ 31 ∧
    (avail < size → WriteOk (avail / 512) script) ∧
    (h.priv.flagSparse = false → size = 0 ∨ avail < size) ∧
    (h.priv.flagSparse = true → size ≤ avail → WriteOk (blocksOf size) script ∧
      ChunksOpen (sparseBlkSz h.priv.sparseHeader) h.image
        (sparseTotalChunks h.priv.sparseHeader - toU32 h.priv.sparseCurChunk) (h.off + size)
        (avail - size) (scriptAfter (blocksOf size) script))
  deriving Decidable

/-- A packet, where it lands, and the timer. -/
structure DataPacket where
  ptr : Ptr
  data : List UInt8
  now : Nat

/-- The packet is in memory. -/
def State.receive (s : State) (q : DataPacket) : State :=
  s.setMem q.ptr.base ((s.mem q.ptr.base).store q.ptr.off q.data)

/-- `fbt_rx_process` on a packet. -/
def feed (board : Board) (s : State) (q : DataPacket) : State :=
  (fbtRxProcess board q.now q.ptr q.data.length (s.receive q)).2

/-- What a packet must meet in the state before it, unless it is the last one or the download is a
    legacy one: there is a partition to stream to, and the packet is dropped or leaves the image
    open. -/
def StaysOpen (s : State) (q : DataPacket) : Prop :=
  s.priv.dBytes + q.data.length < s.priv.dSize → s.priv.dLegacy = false →
    ∃ ptn ∈ s.pending, ptn.start ≠ 0 ∧ (¬ Dropped s.priv q.data.length →
      HandOpen (hand ((s.receive q).mem q.ptr.base) q.ptr.off q.data.length s.priv)
        s.world.dev.script)
  deriving Decidable

/-! ## The status after a packet -/

section Status

variable {ptn : DiskPartition} {image : Mem} {off avail n : Nat} {priv : Interface} {io : Io}
  {r : Interface × Io}

theorem writeBytes_ok (h : WriteOk (blocksOf n) io.dev.script) :
    (writeBytes ptn image off n priv io).1 = true := by
  unfold writeBytes directWrite
  split
  · rfl
  · next hblocks =>
    exact decide_eq_true (h.resolve_left (by omega))

theorem writeBytes_script :
    (writeBytes ptn image off n priv io).2.dev.script = scriptAfter (blocksOf n) io.dev.script := by
  unfold writeBytes directWrite scriptAfter
  by_cases hblocks : blocksOf n = 0
  · rw [if_pos (by omega), if_pos hblocks]
  · rw [if_neg (by omega), if_neg hblocks]
    rfl

theorem rkimgNoBuffer_dStatus (length : Int) :
    (rkimgNoBuffer image off length priv).dStatus = priv.dStatus := by
  unfold rkimgNoBuffer
  split <;> rfl

theorem blocksOf_whole (m : Nat) : blocksOf (m / 512 * 512) = m / 512 := by
  unfold blocksOf
  omega

theorem directRun_open {next : Io → Interface × Io}
    (h : DirectRun ptn image off avail priv io next r)
    (hpart : avail < priv.dDirectSize → WriteOk (avail / 512) io.dev.script)
    (hnext : priv.dDirectSize ≤ avail → WriteOk (blocksOf priv.dDirectSize) io.dev.script ∧
      ∀ io', io'.dev.script = scriptAfter (blocksOf priv.dDirectSize) io.dev.script →
        (next io').1.dStatus = priv.dStatus) :
    r.1.dStatus = priv.dStatus := by
  cases h with
  | failed n hn hwrite =>
    have hok : (writeBytes ptn image off n priv io).1 = true := by
      apply writeBytes_ok
      split at hn
      · next hle => exact hn ▸ (hnext hle).1
      · next hlt => exact hn ▸ (blocksOf_whole avail).symm ▸ hpart (Nat.not_le.1 hlt)
    rw [hok] at hwrite
    cases hwrite
  | unfinished n hn hmore hwrite => exact rkimgNoBuffer_dStatus _
  | finished hle hwrite => exact (hnext hle).2 _ writeBytes_script

theorem chunkRun_open {blkSz k : Nat} (h : ChunkRun ptn image blkSz k off avail priv io r)
    (hopen : ChunksOpen blkSz image k off avail io.dev.script) : r.1.dStatus = priv.dStatus := by
  induction h with
  | complete => exact absurd hopen not_false
  | short => exact rkimgNoBuffer_dStatus _
  | bad k off avail priv priv' io h hraw hskip hpriv =>
    exact absurd (hopen h).1 (not_or.2 ⟨hraw, hskip⟩)
  | large k off avail priv io r h hraw hlarge _ =>
    exact absurd ((hopen h).2.1 hraw).1 (Nat.not_lt.2 hlarge)
  | raw k off avail priv io r next h hraw hsmall hrun hrest ih =>
    obtain ⟨-, hpart, hwhole⟩ := (hopen h).2.1 hraw
    have hstatus : r.1.dStatus = (priv.begin (chunkLen image blkSz off)).dStatus :=
      directRun_open hrun hpart (fun hle => ⟨(hwhole hle).1, fun io' hscript =>
        ih hle io' (hscript ▸ (hwhole hle).2)⟩)
    exact hstatus
  | skip k off avail priv io r h hskip hrest ih => exact ih ((hopen h).2.2 hskip)

theorem continueChunks_open (hbound : avail < 2 ^ 64)
    (hopen : ChunksOpen (sparseBlkSz priv.sparseHeader) image
      (sparseTotalChunks priv.sparseHeader - toU32 priv.sparseCurChunk) off avail io.dev.script) :
    (continueChunks ptn image off avail priv io).1.dStatus = priv.dStatus :=
  chunkRun_open (sparseChunks_run ptn image _ _ off avail priv io rfl hbound) hopen

/-- Bytes that leave the image open leave the status alone. -/
theorem continueDownload_open {h : Hand} (hopen : HandOpen h io.dev.script) :
    (continueDownload ptn h.image h.off h.length h.priv io).1.dStatus = h.priv.dStatus := by
  obtain ⟨image, off, length, priv⟩ := h
  obtain ⟨hpos, hmax, hsmall, hpart, hraw, hsparse⟩ := hopen
  simp only at hpos hmax hsmall hpart hraw hsparse ⊢
  obtain ⟨avail, rfl⟩ := Int.eq_ofNat_of_zero_le hpos
  rw [Int.toNat_natCast] at hpart hraw hsparse
  have husb : usbMaxTransSize = 0x20000 := rfl
  have hbound : avail < 2 ^ 64 := by omega
  cases hflag : priv.flagSparse with
  | false =>
    rw [continueDownload_raw hflag]
    rcases hraw hflag with hzero | hlt
    · rw [rkimgImageDownload, if_pos hzero]
    · exact directRun_open (rkimgImageDownload_run hsmall (by omega)) hpart
        (fun hle => absurd hle (Nat.not_le.2 hlt))
  | true =>
    rw [continueDownload_sparse hflag]
    by_cases hzero : priv.dDirectSize = 0
    · have hchunks := (hsparse hflag (hzero ▸ Nat.zero_le _)).2
      rw [hzero] at hchunks
      rw [rkimgHandleSparseDownload, if_pos hzero]
      exact continueChunks_open hbound hchunks
    · refine directRun_open (rkimgHandleSparseDownload_run hsmall hzero) hpart (fun hle => ?_)
      obtain ⟨hwrite, hchunks⟩ := hsparse hflag hle
      refine ⟨hwrite, fun io' hscript => ?_⟩
      exact continueChunks_open (by omega) (hscript ▸ hchunks)

/-- What is at hand has the status of the download. -/
theorem hand_dStatus {length : Nat} (hstatus : priv.dStatus = 0) :
    (hand image off length priv).priv.dStatus = 0 := by
  by_cases hbytes : priv.dBytes = 0
  · by_cases hsparse : IsSparse (priv.sparseHeader.copy 0 image off 28)
    · rw [hand_sparse hbytes hsparse]
      rfl
    · rw [hand_raw hbytes hsparse]
      rfl
  · by_cases hcache : priv.dCachePos = 0
    · rw [hand_empty_cache hbytes hcache]
      exact hstatus
    · rw [hand_cached hbytes hcache rfl]
      exact hstatus

theorem rkimageHandleDownload_open {parts : Nat → DiskPartition} {length : Nat}
    (hstatus : priv.dStatus = 0) (hptn : ptn ∈ priv.pendingPtn.map parts) (hstart : ptn.start ≠ 0)
    (hopen : ¬ Dropped priv length → HandOpen (hand image off length priv) io.dev.script) :
    (rkimageHandleDownload parts image off length priv io).1.dStatus = 0 := by
  have hrun := rkimageHandleDownload_run parts image off length priv io
  generalize rkimageHandleDownload parts image off length priv io = r at hrun ⊢
  cases hrun with
  | refused h => exact absurd (h ptn hptn) hstart
  | ignored => exact hstatus
  | overflow hnot _ hbytes hover =>
    -- the cached rest and the packet are what is at hand
    obtain ⟨hpos, hmax, -⟩ := hopen hnot
    have hlength : (hand image off length priv).length = length + priv.dCachePos := by
      by_cases hcache : priv.dCachePos = 0
      · rw [hand_empty_cache hbytes hcache, hcache, add_zero]
      · rw [hand_cached hbytes hcache rfl]
    rw [hlength] at hpos hmax
    unfold toU64 at hover
    omega
  | processed ptn' hptn' hstart' hnot _ hfits =>
    exact (continueDownload_open (hopen hnot)).trans (hand_dStatus hstatus)

end Status

/-! ## The count -/

/-- `t` of `d` bytes have come, and there was no error. -/
structure DataPhase (d t : Nat) (s : State) : Prop where
  dSize : s.priv.dSize = d
  dBytes : s.priv.dBytes = t
  dStatus : s.priv.dStatus = 0
  transferBufferSize : s.priv.transferBufferSize = usbMaxTransSize

theorem receive_memOnly (s : State) (q : DataPacket) : State.MemOnly s (s.receive q) :=
  setMem_memOnly _ _

section Count

variable {board : Board} {d t : Nat} {s : State} {q : DataPacket}

/-- A packet adds its length, and has this status. -/
theorem feed_eq (h : DataPhase d t s) (hd : d ≠ 0) (hlen : q.data.length ≤ usbMaxTransSize) :
    feed board s q
      = (rxFinish q.data.length
          (addBytes q.data.length (rxPacket q.ptr q.data.length (s.receive q)))).2 := by
  have hpriv := (receive_memOnly s q).priv
  have hmin : min q.data.length (s.receive q).priv.transferBufferSize = q.data.length := by
    rw [hpriv, h.transferBufferSize]
    exact Nat.min_eq_left hlen
  have hsize : (s.receive q).priv.dSize ≠ 0 := by
    rw [hpriv, h.dSize]
    exact hd
  rw [feed, fbtRxProcess, if_pos hsize, rxData, hmin]

theorem feed_fields (h : DataPhase d t s) (hd : d < 2 ^ 31) (htotal : t + q.data.length ≤ d) :
    (addBytes q.data.length (rxPacket q.ptr q.data.length (s.receive q))).priv.dSize = d ∧
      (addBytes q.data.length (rxPacket q.ptr q.data.length (s.receive q))).priv.dBytes
        = t + q.data.length ∧
      (addBytes q.data.length (rxPacket q.ptr q.data.length (s.receive q))).priv.transferBufferSize
        = usbMaxTransSize := by
  have hpriv := (receive_memOnly s q).priv
  obtain ⟨-, -, hbuffer, hsize, hbytes, -⟩ :=
    (rxPacket_streamed q.ptr q.data.length (s.receive q)).request.fields
  rw [hpriv] at hbuffer hsize hbytes
  dsimp only at hbytes
  refine ⟨hsize.trans h.dSize, ?_, hbuffer.trans h.transferBufferSize⟩
  simp only [addBytes, hbytes, h.dBytes]
  exact Nat.mod_eq_of_lt (by omega)

/-- A packet that leaves bytes to come keeps the data phase. -/
theorem feed_open (h : DataPhase d t s) (hd : d < 2 ^ 31) (hlen : q.data.length ≤ usbMaxTransSize)
    (hmore : t + q.data.length < d) (hopen : StaysOpen s q) :
    DataPhase d (t + q.data.length) (feed board s q) := by
  obtain ⟨hsize, hbytes, hbuffer⟩ := feed_fields (q := q) h hd hmore.le
  have hmem := receive_memOnly s q
  have hstatus : (rxPacket q.ptr q.data.length (s.receive q)).priv.dStatus = 0 := by
    rw [(rxPacket_outcome ..).1, streamPacket, hmem.priv]
    cases hlegacy : s.priv.dLegacy with
    | true => exact h.dStatus
    | false =>
      obtain ⟨ptn, hptn, hstart, hhand⟩ := hopen (by rw [h.dSize, h.dBytes]; exact hmore) hlegacy
      rw [if_neg Bool.false_ne_true, hmem.parts]
      refine rkimageHandleDownload_open h.dStatus hptn hstart (fun hnot => ?_)
      rw [State.io, hmem.dev]
      exact hhand hnot
  rw [feed_eq h (by omega) hlen, rxFinish, if_pos ⟨by rw [hsize, hbytes]; exact hmore, hstatus⟩]
  exact ⟨hsize, hbytes, hstatus, hbuffer⟩

/-- The packet that completes the count ends the data phase, whatever its status. -/
theorem feed_last (h : DataPhase d t s) (hd : d < 2 ^ 31) (hlen : q.data.length ≤ usbMaxTransSize)
    (ht : t < d) (hlast : t + q.data.length = d) : (feed board s q).priv.dSize = 0 := by
  obtain ⟨hsize, hbytes, -⟩ := feed_fields (q := q) h hd hlast.le
  rw [feed_eq h (by omega) hlen, rxFinish, if_neg (by rw [hsize, hbytes]; omega),
    if_neg (by rw [hsize, hbytes]; omega)]

/-- The number of bytes in the packets. -/
def totalLength (qs : List DataPacket) : Nat := (qs.map (fun q => q.data.length)).sum

theorem dataPhase_exact (hd : d < 2 ^ 31) (qs : List DataPacket) {s : State} {t : Nat}
    (h : DataPhase d t s) (ht : t < d)
    (hqs : ∀ q ∈ qs, 0 < q.data.length ∧ q.data.length ≤ usbMaxTransSize)
    (htotal : t + totalLength qs ≤ d) (hopen : Run.Along (feed board) StaysOpen s qs) :
    (qs.foldl (feed board) s).priv.dSize = 0 ↔ t + totalLength qs = d := by
  induction qs generalizing s t with
  | nil =>
    have hsize : s.priv.dSize ≠ 0 := by
      rw [h.dSize]
      omega
    refine iff_of_false hsize ?_
    simp only [totalLength, List.map_nil, List.sum_nil]
    omega
  | cons q qs ih =>
    obtain ⟨hpos, hlen⟩ := hqs q (.head _)
    have hrest := fun q' hq' => hqs q' (List.mem_cons_of_mem q hq')
    have hsum : totalLength (q :: qs) = q.data.length + totalLength qs := by
      rfl
    rw [hsum] at htotal ⊢
    rw [List.foldl_cons, ← Nat.add_assoc]
    by_cases hmore : t + q.data.length < d
    · exact ih (feed_open h hd hlen hmore hopen.1) hmore hrest (by omega) hopen.2
    · -- no byte is left for another packet
      have hnil : qs = [] := by
        cases qs with
        | nil => rfl
        | cons q' qs =>
          have hpos' := (hrest q' (.head _)).1
          simp only [totalLength, List.map_cons, List.sum_cons] at htotal
          omega
      subst hnil
      refine iff_of_true (feed_last h hd hlen ht (by omega)) ?_
      omega

end Count

theorem toU64_toInt_pos {x : Int} (h : toInt x ≠ 0) : 0 < toU64 (toInt x) := by
  have hlow : -(2 ^ 32 / 2) ≤ toInt x := Int.le_bmod (by decide)
  have hhigh : toInt x < (2 ^ 32 + 1) / 2 := Int.bmod_lt (by decide)
  unfold toU64
  omega

theorem acceptDownload_dSize (dSize : Int) (s : State) :
    (acceptDownload dSize s).priv.dSize = toU64 dSize := rfl

theorem acceptDownload_dataPhase (dSize : Int) {s : State} (hbytes : s.priv.dBytes = 0)
    (hstatus : s.priv.dStatus = 0) : DataPhase (toU64 dSize) 0 (acceptDownload dSize s) :=
  ⟨rfl, hbytes, hstatus, rfl⟩

/-- What an accepted "download:" leaves. -/
theorem fbtHandleDownload_accepted {cmdbuf : Mem} {s : State}
    (h : (fbtHandleDownload cmdbuf s).1 = false) :
    DataPhase (fbtHandleDownload cmdbuf s).2.priv.dSize 0 (fbtHandleDownload cmdbuf s).2 ∧
      0 < (fbtHandleDownload cmdbuf s).2.priv.dSize := by
  unfold fbtHandleDownload at h ⊢
  simp only at h ⊢
  split at h
  · cases h
  split at h
  · cases h
  split at h
  · cases h
  split at h
  · cases h
  · next hlock hlarge hlegacy hzero =>
    rw [if_neg hlock, if_neg hlarge, if_neg hlegacy, if_neg hzero, acceptDownload_dSize]
    exact ⟨acceptDownload_dataPhase _ rfl rfl, toU64_toInt_pos hzero⟩

/-- **After every accepted "download:" of `d` bytes, and for every split of the data into packets that
    all leave the image open or complete the count: `fbt_rx_process` is back to commands exactly when
    `d` bytes have come.** -/
theorem data_phase_exact (board : Board) (cmdbuf : Mem) (s : State)
    (haccept : (fbtHandleDownload cmdbuf s).1 = false)
    (hd : (fbtHandleDownload cmdbuf s).2.priv.dSize < 2 ^ 31) (qs : List DataPacket)
    (hqs : ∀ q ∈ qs, 0 < q.data.length ∧ q.data.length ≤ usbMaxTransSize)
    (htotal : totalLength qs ≤ (fbtHandleDownload cmdbuf s).2.priv.dSize)
    (hopen : Run.Along (feed board) StaysOpen (fbtHandleDownload cmdbuf s).2 qs) :
    (qs.foldl (feed board) (fbtHandleDownload cmdbuf s).2).priv.dSize = 0 ↔
      totalLength qs = (fbtHandleDownload cmdbuf s).2.priv.dSize := by
  obtain ⟨hphase, hpos⟩ := fbtHandleDownload_accepted haccept
  have hcount := dataPhase_exact hd qs hphase hpos hqs (by omega) hopen
  rwa [Nat.zero_add] at hcount

/-- The state after the host asked for the type of the partition `name`. -/
def askedFor (name : String) : State :=
  (runCommand (sampleBoard 0) 0 (Mem.zero.store 0 (ascii ("getvar:partition-type:" ++ name)))
    (start true sampleWorld)).2

/-- The command "download:00000003". -/
def downloadThree : Mem := Mem.zero.store 0 (ascii "download:00000003")

/-- A packet of one byte. -/
def oneByte : DataPacket := ⟨⟨.transfer, 0⟩, [170], 0⟩

/-- Three packets of one byte to a partition that exists. -/
theorem data_phase_exact_three :
    ([oneByte, oneByte, oneByte].foldl (feed (sampleBoard 0))
      (fbtHandleDownload downloadThree (askedFor "system")).2).priv.dSize = 0 := by
  refine (data_phase_exact (sampleBoard 0) downloadThree (askedFor "system") (by decide +kernel)
    (by decide +kernel) [oneByte, oneByte, oneByte] ?_ (by decide +kernel) (by decide +kernel)).2
    (by decide +kernel)
  simp [oneByte, usbMaxTransSize]

/-- Without a partition to stream to, the same download ends one byte early: the third packet would be
    taken for a command. -/
theorem failed_download_ends_early :
    (fbtHandleDownload downloadThree (askedFor "nosuch")).1 = false ∧
      (fbtHandleDownload downloadThree (askedFor "nosuch")).2.priv.dSize = 3 ∧
      ([oneByte, oneByte].foldl (feed (sampleBoard 0))
        (fbtHandleDownload downloadThree (askedFor "nosuch")).2).priv.dSize = 0 := by
  decide +kernel

end Fastboot
