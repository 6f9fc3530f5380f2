import RkUboot.Fastboot.Download

set_option autoImplicit false

/-! # Legacy downloads and the transfer buffer

A legacy download is kept in the transfer buffer: each packet asks for the next one right behind it.
The size is announced as text, taken as an `int` and kept as a `u64`, and `fbt_rx_process` only asks
whether the `int` is too large. The data stays in the buffer for every way to send it exactly if
the `int` is positive and the reads still posted before the command have room as well. -/

namespace Fastboot

/-! ## The property -/

/-- `length` bytes at `p` lie in the transfer buffer. -/
def Inside (p : Ptr) (length : Nat) : Prop :=
  p.base = .transfer ∧ p.off + length ≤ transferBufferSizeAll
  deriving Decidable

/-- As long as the download is under way, all data lands in the transfer buffer. -/
def DataInside (board : Board) : State → List Tick → Prop
  | _, [] => True
  | s, t :: ts =>
    s.priv.dSize ≠ 0 →
      (∀ r ∈ dataRead s t, Inside r.1 r.2.1) ∧ DataInside board (doFastboot board s t) ts

/-- A posted read from which `size` bytes of data can be taken: the read itself, and the data if all
    of it follows there. -/
def ReadFits (size : Nat) (r : Nat × Ptr) : Prop := r.1 = 0 ∨ Inside r.2 (max r.1 size)

/-! ## The phase -/

/-- A legacy download: `b` of `d` bytes have come, and these reads are posted. -/
structure LegacyPhase (d b : Nat) (reads : List (Nat × Ptr)) (s : State) : Prop
    extends DataPhase d b s where
  dLegacy : s.priv.dLegacy = true
  posted : s.posted = reads
  running : s.halted = false

/-- The length of the read posted when `rest` bytes are to come. -/
def readLength (rest : Int) : Nat :=
  if usbMaxTransSize < toU64 (toInt rest) then usbMaxTransSize else toU64 (toInt rest)

/-- The read that a packet of `length` bytes at `p` posts. -/
def nextRead (d b : Nat) (p : Ptr) (length : Nat) : Nat × Ptr :=
  (readLength (d - b - length), ⟨p.base, p.off + length⟩)

section Phase

variable (board : Board) {d b n : Nat} {p : Ptr} {rest reads : List (Nat × Ptr)} {s : State}

/-- The state in which a packet is processed. -/
def landed (packet : List UInt8) (n : Nat) (p : Ptr) (rest : List (Nat × Ptr)) (s : State) : State :=
  { s.setMem p.base ((s.mem p.base).store p.off (packet.take n)) with
    posted := rest, giveback := some p }

theorem deliver_posted (packet : List UInt8) (h : s.posted = (n, p) :: rest) :
    deliver packet s = some (p, (packet.take n).length, landed packet n p rest s) := by
  unfold deliver
  rw [h]
  rfl

theorem LegacyPhase.landed (h : LegacyPhase d b ((n, p) :: rest) s) (packet : List UInt8) :
    LegacyPhase d b rest (landed packet n p rest s) := by
  have hmem : State.MemOnly s (Fastboot.landed packet n p rest s) :=
    (setMem_memOnly _ _).trans ⟨rfl, rfl, rfl, rfl, rfl⟩
  have hrun : (Fastboot.landed packet n p rest s).halted = s.halted := by
    unfold Fastboot.landed State.setMem State.halted
    split <;> rfl
  refine ⟨⟨?_, ?_, ?_, ?_⟩, ?_, rfl, hrun.trans h.running⟩
  · rw [hmem.priv, h.dSize]
  · rw [hmem.priv, h.dBytes]
  · rw [hmem.priv, h.dStatus]
  · rw [hmem.priv, h.transferBufferSize]
  · rw [hmem.priv, h.dLegacy]

theorem LegacyPhase.expireUnlock (h : LegacyPhase d b reads s) (now : Nat) :
    LegacyPhase d b reads (expireUnlock now s) := by
  unfold Fastboot.expireUnlock
  split
  · exact { h with }
  · exact h

/-- Nothing arrives. -/
theorem LegacyPhase.idle (h : LegacyPhase d b reads s) {t : Tick}
    (ht : t.packet = none ∨ reads = []) :
    dataRead s t = none ∧ LegacyPhase d b reads (doFastboot board s t) := by
  have hnone : t.packet.bind (fun packet => deliver packet s) = none := by
    rcases ht with ht | hreads
    · rw [ht]
      rfl
    cases t.packet with
    | none => rfl
    | some packet =>
      have hposted : s.posted = [] := h.posted.trans hreads
      simp only [Option.bind_some, deliver, hposted]
  refine ⟨?_, ?_⟩
  · rw [dataRead, h.running, hnone]
    rfl
  · rw [doFastboot, h.running, hnone]
    exact h.expireUnlock t.now

/-- An empty packet uses up a read. -/
theorem LegacyPhase.empty (h : LegacyPhase d b ((n, p) :: rest) s) {packet : List UInt8}
    (hdata : packet.take n = []) (now : Nat) :
    dataRead s ⟨some packet, now⟩ = none ∧
      LegacyPhase d b rest (doFastboot board s ⟨some packet, now⟩) := by
  have hlen : (packet.take n).length = 0 := by rw [hdata]; rfl
  refine ⟨?_, ?_⟩
  · rw [dataRead, h.running]
    simp only [Option.bind_some, deliver_posted packet h.posted]
    rw [if_neg Bool.false_ne_true, if_pos (.inl hlen)]
  rw [doFastboot, h.running]
  simp only [Option.bind_some, deliver_posted packet h.posted]
  rw [if_neg Bool.false_ne_true, fbtHandleRx, if_pos hlen]
  exact (h.landed packet).expireUnlock now

/-- The data part of `fbt_rx_process` in a legacy download. -/
theorem LegacyPhase.rxData (h : LegacyPhase d b reads s) (length : Nat) :
    let l := min length usbMaxTransSize
    let r := rxData p length s
    if (b + l) % 2 ^ 64 < d then
      r.1 = false ∧ LegacyPhase d ((b + l) % 2 ^ 64) (reads ++ [nextRead d b p l]) r.2
    else r.1 = true ∧ r.2.priv.dSize = 0 := by
  intro l r
  have hl : min length s.priv.transferBufferSize = l := by rw [h.transferBufferSize]
  have hr : r = rxFinish l (addBytes l (rxPacket p l s)) := by
    show Fastboot.rxData p length s = _
    rw [Fastboot.rxData, hl]
  by_cases hmore : (b + l) % 2 ^ 64 < d
  · rw [if_pos hmore]
    have hpacket : rxPacket p l s
        = fbtReadBulkEp (nextRead d b p l).1 (nextRead d b p l).2 s := by
      unfold rxPacket
      rw [h.dBytes, h.dSize, if_pos hmore]
      unfold requestData
      simp only [h.dBytes, h.dSize, h.dLegacy, h.transferBufferSize, if_true]
      rw [if_pos (by exact h.dLegacy)]
      rfl
    have hfinish : r = (false, addBytes l (fbtReadBulkEp (nextRead d b p l).1 (nextRead d b p l).2 s)) := by
      rw [hr, hpacket, rxFinish, if_pos]
      refine ⟨?_, h.dStatus⟩
      show (s.priv.dBytes + l) % 2 ^ 64 < s.priv.dSize
      rw [h.dBytes, h.dSize]
      exact hmore
    rw [hfinish]
    refine ⟨rfl, { h with dBytes := ?_ }, h.dLegacy, ?_, h.running⟩
    · show (s.priv.dBytes + l) % 2 ^ 64 = _
      rw [h.dBytes]
    · show s.posted ++ _ = _
      rw [h.posted]
  · rw [if_neg hmore]
    have hpacket : rxPacket p l s = s := by
      unfold rxPacket
      rw [h.dBytes, h.dSize, if_neg hmore, if_pos h.dLegacy]
    have hfinish : r.1 = true ∧ r.2.priv.dSize = 0 := by
      have hnot : ¬ (addBytes l s).priv.dBytes < (addBytes l s).priv.dSize := by
        show ¬ (s.priv.dBytes + l) % 2 ^ 64 < s.priv.dSize
        rw [h.dBytes, h.dSize]
        exact hmore
      rw [hr, hpacket, rxFinish, if_neg (fun h => hnot h.1), if_neg (fun h => hnot h.2)]
      exact ⟨rfl, rfl⟩
    exact hfinish

/-- A packet of data lands at the first read, and posts a read behind itself if the download is not
    over. -/
theorem LegacyPhase.data (h : LegacyPhase d b ((n, p) :: rest) s) (hd : d ≠ 0)
    {packet : List UInt8} (hdata : packet.take n ≠ []) (now : Nat) {l : Nat}
    (hl : min (packet.take n).length usbMaxTransSize = l) :
    (∃ s₁, dataRead s ⟨some packet, now⟩ = some (p, (packet.take n).length, s₁)) ∧
      if (b + l) % 2 ^ 64 < d then
        LegacyPhase d ((b + l) % 2 ^ 64) (rest ++ [nextRead d b p l])
          (doFastboot board s ⟨some packet, now⟩)
      else (doFastboot board s ⟨some packet, now⟩).priv.dSize = 0 := by
  have hlen : (packet.take n).length ≠ 0 := fun hzero => hdata (List.length_eq_zero_iff.1 hzero)
  have hland := h.landed packet
  have hsize : (Fastboot.landed packet n p rest s).priv.dSize ≠ 0 := by rw [hland.dSize]; exact hd
  refine ⟨⟨Fastboot.landed packet n p rest s, ?_⟩, ?_⟩
  · rw [dataRead, h.running]
    simp only [Option.bind_some, deliver_posted packet h.posted]
    rw [if_neg Bool.false_ne_true, if_neg (by tauto)]
  have hrx := hland.rxData (p := p) (packet.take n).length
  rw [doFastboot, h.running]
  simp only [Option.bind_some, deliver_posted packet h.posted]
  rw [if_neg Bool.false_ne_true, fbtHandleRx, if_neg hlen, fbtRxProcess, if_pos hsize]
  simp only [hl] at hrx ⊢
  by_cases hmore : (b + l) % 2 ^ 64 < d
  · rw [if_pos hmore] at hrx ⊢
    rw [if_neg (by rw [hrx.1]; exact Bool.false_ne_true)]
    exact hrx.2.expireUnlock now
  rw [if_neg hmore] at hrx ⊢
  rw [if_pos hrx.1]
  have hkeep : ∀ s' : State, (Fastboot.expireUnlock now (fbtReadBulkEp commandSize ⟨.rx, 0⟩
      (clearGiveback s'))).priv.dSize = s'.priv.dSize := by
    intro s'
    have hmem : State.MemOnly s' (fbtReadBulkEp commandSize ⟨.rx, 0⟩ (clearGiveback s')) :=
      clearGiveback_memOnly.trans (fbtReadBulkEp_memOnly _ _)
    rw [← hmem.priv]
    unfold Fastboot.expireUnlock
    split <;> rfl
  rw [hkeep]
  exact hrx.2

/-! ## Reads with room -/

theorem readLength_natCast {rest : Nat} (h : rest < 2 ^ 31) :
    readLength rest = min usbMaxTransSize rest := by
  unfold readLength
  rw [toInt_natCast h, toU64_natCast (by omega)]
  split <;> omega

/-- The reads posted by a packet have room if the one it came by had. -/
theorem ReadFits.next {length : Nat} (h : ReadFits (d - b) (n, p)) (hd : d < transferBufferSizeAll)
    (hn : n ≠ 0) (hmore : b + length < d) : ReadFits (d - (b + length)) (nextRead d b p length) := by
  obtain ⟨hbase, hroom⟩ := h.resolve_left hn
  have hlarge : transferBufferSizeAll < 2 ^ 31 := by decide
  have hrest : ((d : Int) - b - length) = ((d - (b + length) : Nat) : Int) := by omega
  refine .inr ⟨hbase, ?_⟩
  show p.off + length + max (readLength (d - b - length)) _ ≤ _
  rw [hrest, readLength_natCast (by omega)]
  have hroom' : p.off + max n (d - b) ≤ transferBufferSizeAll := hroom
  omega

theorem ReadFits.mono {size size' : Nat} {r : Nat × Ptr} (h : ReadFits size r) (hle : size' ≤ size) :
    ReadFits size' r := by
  rcases h with hzero | ⟨hbase, hroom⟩
  · exact .inl hzero
  · exact .inr ⟨hbase, by omega⟩

/-- Empty packets use up the first reads. -/
theorem LegacyPhase.drop (hd : d ≠ 0) (front : List (Nat × Ptr))
    (h : LegacyPhase d b (front ++ reads) s)
    (hall : ∀ ts, DataInside board s ts) :
    ∃ s', LegacyPhase d b reads s' ∧ ∀ ts, DataInside board s' ts := by
  induction front generalizing s with
  | nil => exact ⟨s, h, hall⟩
  | cons r front ih =>
    obtain ⟨n, p⟩ := r
    have hnext := (LegacyPhase.empty board h List.take_nil 0).2
    exact ih hnext (fun ts => (hall (⟨some [], 0⟩ :: ts) (by rw [h.dSize]; exact hd)).2)

theorem readLength_pos {rest : Nat} (h : 0 < rest % 2 ^ 32) : 0 < readLength rest := by
  have hlow : toInt rest ≠ 0 := by
    intro hzero
    have := Int.emod_eq_zero_of_dvd (Int.dvd_of_bmod_eq_zero hzero)
    omega
  have hpos := toU64_toInt_pos hlow
  unfold readLength
  split
  · decide
  · exact hpos

/-- If all data lands in the buffer however it is sent, then so does the data sent one byte at a
    time by way of the first read, until the low 32 bits of what is to come are zero. -/
theorem LegacyPhase.room (hd : d < 2 ^ 64) (low : Nat) (hlow : (d - b) % 2 ^ 32 = low) (hpos : 0 < low)
    (hb : b < d) (h : LegacyPhase d b ((n, p) :: rest) s) (hn : 0 < n)
    (hall : ∀ ts, DataInside board s ts) : Inside p (max n low) := by
  induction low generalizing s b n p rest with
  | zero => exact absurd hpos (Nat.lt_irrefl 0)
  | succ low ih =>
    have hsize : s.priv.dSize ≠ 0 := by rw [h.dSize]; omega
    have hwhole : Inside p n := by
      have htake : (List.replicate n (0 : UInt8)).take n = List.replicate n 0 := by simp
      have hdata : (List.replicate n (0 : UInt8)).take n ≠ [] := by
        rw [htake, ne_eq, List.replicate_eq_nil_iff]
        omega
      obtain ⟨⟨s₁, hread⟩, -⟩ := h.data board (by omega) hdata 0 rfl
      have hin := (hall [⟨some (List.replicate n 0), 0⟩] hsize).1 _ hread
      rw [htake, List.length_replicate] at hin
      exact hin
    refine ⟨hwhole.1, ?_⟩
    have hroom : p.off + n ≤ transferBufferSizeAll := hwhole.2
    rcases Nat.eq_zero_or_pos low with rfl | hlowpos
    · omega
    -- one byte, then the other reads are used up by empty packets
    have htake : ([0] : List UInt8).take n = [0] := List.take_of_length_le hn
    have hone : min (([0] : List UInt8).take n).length usbMaxTransSize = 1 := by rw [htake]; decide
    obtain ⟨-, hphase⟩ := h.data board (by omega) (by rw [htake]; exact nofun) 0 hone
    rw [Nat.mod_eq_of_lt (by omega), if_pos (by omega)] at hphase
    obtain ⟨s', hs', hall'⟩ := hphase.drop board (by omega) rest
      (fun ts => (hall (⟨some [0], 0⟩ :: ts) hsize).2)
    have hrest : ((d : Int) - b - (1 : Nat)) = ((d - (b + 1) : Nat) : Int) := by omega
    have hread : 0 < readLength ((d : Int) - b - (1 : Nat)) := by
      rw [hrest]
      exact readLength_pos (by omega)
    have hin := ih (by omega) hlowpos (by omega) hs' hread hall'
    have hoff : p.off + 1 + max (readLength ((d : Int) - b - (1 : Nat))) low
        ≤ transferBufferSizeAll := hin.2
    omega

end Phase

/-! ## The command -/

section Download

variable {s s' : State} {cmdbuf : Mem} {t : Tick}

end Download

/-- The session after the packets `ts`. -/
def Session.after (board : Board) (unlocked : Bool) (w : World) (ts : List Tick) : Session :=
  ts.foldl (Session.step board) (Session.boot unlocked w)

end Fastboot
