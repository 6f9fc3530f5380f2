import RkUboot.Rockusb.Basic

set_option autoImplicit false

/-! # The pre-read buffer

A transfer of `RKUSB_BUFFER_BLOCK_MAX` blocks to the host is followed by a read of as many blocks
ahead, into the other transmit buffer, and `pre_read` keeps them beyond the end of the command. A
later read that begins where they begin is answered from the buffer. `Coherent` says when that is
right: if the blocks came from the LBA space, they are the blocks that the medium still holds there.
Everything that `rkusb_handle_datatx` does keeps it. -/

namespace Rockusb

/-- The addresses from here on do not stand for blocks. -/
def specialBase : Nat := 0xFFF00000

/-- The data sent to the host since the last command was taken. -/
def sentData : List Event → List UInt8
  | [] => []
  | .command :: _ => []
  | .tx data :: es => sentData es ++ data
  | _ :: es => sentData es

/-- The address space of the last blocks read, which are the ones of the pre-read. -/
def lastRead : List Event → Option Space
  | [] => none
  | .read space _ _ :: _ => some space
  | _ :: es => lastRead es

/-- A pre-read of LBA blocks holds what the medium holds, it fits in its buffer, and the next one goes
    to the other buffer. -/
structure Coherent (p : PreRead) (txBuffer : Nat → Mem) (txbufNum : Nat) (lba : Mem)
    (space : Option Space) : Prop where
  coherent : space = some .lba → p.lba < specialBase →
    ∀ i < 512 * p.blocks, txBuffer p.buffer i = lba (512 * p.lba + i)
  buffers : p.blocks = 0 ∨ p.buffer ≠ txbufNum % 2
  fits : p.blocks ≤ rkusbBufferBlockMax

/-- The parts of the state that the pre-read depends on are coherent. -/
abbrev PreReadInv (s : State) : Prop :=
  Coherent s.preRead s.txBuffer s.txbufNum s.medium.lba (lastRead s.log)

variable {s s' s'' : State}

theorem Coherent.of_read {p : PreRead} {txBuffer : Nat → Mem} {txbufNum : Nat} {lba : Mem}
    {space space' : Option Space} (h : Coherent p txBuffer txbufNum lba space)
    (hread : space' = space) : Coherent p txBuffer txbufNum lba space' := hread ▸ h

/-- A shorter pre-read of the same blocks will do. -/
theorem Coherent.shrink (h : PreReadInv s) {blocks : Nat} (hblocks : blocks ≤ s.preRead.blocks) :
    PreReadInv { s with preRead := { s.preRead with blocks := blocks } } where
  coherent := fun hread hlba i hi =>
    h.coherent hread hlba i (hi.trans_le (Nat.mul_le_mul_left _ hblocks))
  buffers := by
    rcases h.buffers with hzero | hne
    · exact .inl (Nat.le_zero.1 (hzero ▸ hblocks))
    · exact .inr hne
  fits := hblocks.trans h.fits

/-- A driver call that leaves the blocks of the pre-read alone. -/
theorem Coherent.issue (h : PreReadInv s) (env : Env) (op : Op)
    (hkeep : lastRead s.log = some .lba → s.preRead.lba < specialBase →
      ∀ i < 512 * s.preRead.blocks, (env.apply op s.medium).lba (512 * s.preRead.lba + i)
        = s.medium.lba (512 * s.preRead.lba + i)) : PreReadInv (s.issue env op) where
  coherent := fun hread hlba i hi =>
    (h.coherent hread hlba i hi).trans (hkeep hread hlba i hi).symm
  buffers := h.buffers
  fits := h.fits

/-- The main loop goes on as it would have. -/
structure SameLoop (s s' : State) : Prop where
  status : s'.status = s.status
  halted : s'.halted = s.halted
  resetFlag : s'.resetFlag = s.resetFlag
  lowFormatEn : s'.lowFormatEn = s.lowFormatEn

theorem SameLoop.trans (h : SameLoop s s') (h' : SameLoop s' s'') : SameLoop s s'' :=
  ⟨h'.status.trans h.status, h'.halted.trans h.halted, h'.resetFlag.trans h.resetFlag,
    h'.lowFormatEn.trans h.lowFormatEn⟩

/-- No reset and no low-level format is due. -/
def Calm (s : State) : Prop := s.resetFlag = 0 ∧ s.lowFormatEn = false

theorem SameLoop.calm (h : SameLoop s s') (hcalm : Calm s) : Calm s' :=
  ⟨h.resetFlag.trans hcalm.1, h.lowFormatEn.trans hcalm.2⟩

/-! ## Reading ahead -/

/-- What reading ahead leaves alone, and where it puts the blocks. -/
structure Refilled (s : State) (blocks : Nat) (s' : State) : Prop where
  preRead : s'.preRead = ⟨s.txbufNum % 2, s.lba, blocks⟩
  txbufNum : s'.txbufNum = (s.txbufNum + 1) % 2 ^ 8
  txBuffer : ∀ j, j ≠ s.txbufNum % 2 → s'.txBuffer j = s.txBuffer j
  sent : sentData s'.log = sentData s.log
  medium : s'.medium = s.medium
  same : s'.cmnd = s.cmnd ∧ s'.uSize = s.uSize ∧ s'.uBytes = s.uBytes ∧ s'.lba = s.lba ∧
    s'.inFlight = s.inFlight
  loop : SameLoop s s'

theorem refill_refilled (s : State) (blocks : Nat) : Refilled s blocks (refill s blocks) := by
  -- each of the places that are read from puts its data to the buffer of the pre-read
  have hset : ∀ (buf : Mem) (e : List Event), sentData (e ++ s.log) = sentData s.log →
      Refilled s blocks { (State.setTxBuffer { s with
        preRead := ⟨s.txbufNum % 2, s.lba, blocks⟩, txbufNum := (s.txbufNum + 1) % 2 ^ 8 }
        (s.txbufNum % 2) buf) with log := e ++ s.log } := fun buf e he =>
    { preRead := rfl, txbufNum := rfl, txBuffer := fun j hj => if_neg hj, sent := he, medium := rfl
      same := ⟨rfl, rfl, rfl, rfl, rfl⟩, loop := ⟨rfl, rfl, rfl, rfl⟩ }
  have hnone : Refilled s blocks { s with
      preRead := ⟨s.txbufNum % 2, s.lba, blocks⟩, txbufNum := (s.txbufNum + 1) % 2 ^ 8 } :=
    { preRead := rfl, txbufNum := rfl, txBuffer := fun j _ => rfl, sent := rfl, medium := rfl
      same := ⟨rfl, rfl, rfl, rfl, rfl⟩, loop := ⟨rfl, rfl, rfl, rfl⟩ }
  simp only [refill]
  split
  · unfold readMedia
    split
    · exact hset _ [.read .pba _ _] rfl
    · split
      · exact hset _ [] rfl
      · split
        · exact hset _ [] rfl
        · split
          · exact hset _ [] rfl
          · exact hset _ [.read .lba _ _] rfl
    · exact hnone
  · exact hnone

/-- A plain address is none of the special ones. -/
theorem not_special {lba : Nat} (h : lba < specialBase) :
    ¬ 0xFFFFFF00 ≤ lba ∧ ¬ lba = 0xFFFFF000 ∧ ¬ lba / 2 ^ 16 = 0xFFF0 := by
  unfold specialBase at h
  omega

/-- An LBA read of plain blocks ahead. -/
theorem refill_lba (hcmnd : s.cmnd = .lbaRead10) (hlba : s.lba < specialBase) {blocks : Nat}
    (hblocks : blocks ≠ 0) :
    lastRead (refill s blocks).log = some .lba ∧
      ∀ i < 512 * blocks,
        (refill s blocks).txBuffer (s.txbufNum % 2) i = s.medium.lba (512 * s.lba + i) := by
  obtain ⟨hsys, hkey, hvendor⟩ := not_special hlba
  simp only [refill, if_pos hblocks, readMedia, hcmnd, if_neg hsys, if_neg hkey, if_neg hvendor]
  refine ⟨rfl, fun i hi => ?_⟩
  simp only [State.emit, State.setTxBuffer, if_true]
  rw [Mem.copy_apply_in (Nat.zero_le i) (by omega), Nat.sub_zero]

theorem refill_inv (hcmnd : s.cmnd = .read10 ∨ s.cmnd = .lbaRead10) {blocks : Nat}
    (hfits : blocks ≤ rkusbBufferBlockMax) : PreReadInv (refill s blocks) := by
  have hrefilled := refill_refilled s blocks
  refine ⟨?_, .inr ?_, ?_⟩
  · intro hread hlba i hi
    rw [hrefilled.preRead] at hlba hi ⊢
    have hblocks : blocks ≠ 0 := by
      rintro rfl
      cases hi
    rcases hcmnd with hpba | hlbaRead
    · -- a PBA read ahead is not one of LBA blocks
      simp only [refill, if_pos hblocks, readMedia, hpba] at hread
      cases hread
    · rw [hrefilled.medium]
      exact (refill_lba hlbaRead hlba hblocks).2 i hi
  · rw [hrefilled.preRead, hrefilled.txbufNum]
    show s.txbufNum % 2 ≠ (s.txbufNum + 1) % 2 ^ 8 % 2
    omega
  · rw [hrefilled.preRead]
    exact hfits

/-! ## `rkusb_handle_datatx` -/

theorem sendPreRead_inv (h : PreReadInv s) : PreReadInv (sendPreRead s) := by
  unfold sendPreRead
  split
  · exact h.shrink (Nat.sub_le _ _)
  · exact h

theorem sendPreRead_cmnd : (sendPreRead s).cmnd = s.cmnd := by
  unfold sendPreRead
  split <;> rfl

theorem sendPreRead_loop : SameLoop s (sendPreRead s) := by
  unfold sendPreRead
  split <;> exact ⟨rfl, rfl, rfl, rfl⟩

/-- What a pass of the loop keeps, for both kinds of read. -/
structure ReadInv (s : State) : Prop where
  pre : PreReadInv s
  cmnd : s.cmnd = .read10 ∨ s.cmnd = .lbaRead10

theorem datatxPass_inv (h : ReadInv s) : ReadInv (datatxPass s) := by
  have hsend : (sendPreRead s).cmnd = .read10 ∨ (sendPreRead s).cmnd = .lbaRead10 := by
    rw [sendPreRead_cmnd]
    exact h.cmnd
  simp only [datatxPass]
  split
  · refine ⟨refill_inv hsend (Nat.min_le_right _ _), ?_⟩
    rw [(refill_refilled _ _).same.1]
    exact hsend
  · exact ⟨sendPreRead_inv h.pre, hsend⟩

theorem datatxPass_loop : SameLoop s (datatxPass s) := by
  simp only [datatxPass]
  split
  · exact sendPreRead_loop.trans (refill_refilled _ _).loop
  · exact sendPreRead_loop

theorem datatxPasses_loop : SameLoop s (datatxPasses s) := by
  unfold datatxPasses
  split
  · exact datatxPass_loop.trans datatxPass_loop
  · exact datatxPass_loop

theorem datatxPasses_inv (h : ReadInv s) : ReadInv (datatxPasses s) := by
  unfold datatxPasses
  split
  · exact datatxPass_inv (datatxPass_inv h)
  · exact datatxPass_inv h

/-! ## The next transfer -/

section Sizes

variable {len n k : Nat}

/-- Of `n` blocks the first `k` are handed over: the blocks of the next transfer. -/
theorem txBlocks_of_sizes (hlen : 0 < len) (hblock : txBlockLength s.cmnd = len)
    (hsize : s.uSize = len * n) (hbytes : s.uBytes = len * k) :
    txBlocks s = min (n - k) rkusbBufferBlockMax := by
  rw [txBlocks, hblock, hsize, hbytes, ← Nat.mul_sub, Nat.mul_div_cancel_left _ hlen]

theorem txdataSize_of_sizes (hlen : 0 < len) (hblock : txBlockLength s.cmnd = len)
    (hsize : s.uSize = len * n) (hbytes : s.uBytes = len * k) :
    txdataSize s = len * min (n - k) rkusbBufferBlockMax := by
  rw [txdataSize, hblock, hsize, hbytes, ← Nat.mul_sub, Nat.mul_div_cancel_left _ hlen,
    Nat.mul_comm _ len]
  split
  · next hfull => rw [Nat.min_eq_right hfull]
  · next hrest => rw [Nat.min_eq_left (Nat.le_of_not_le hrest)]

end Sizes

/-! ## An LBA read under way -/

/-- The data of the transfer under way. -/
def inFlightData (s : State) : List UInt8 :=
  match s.inFlight with
  | none => []
  | some (buffer, len) => (s.txBuffer buffer).bytes 0 len

/-- Of a read of `n` blocks at `lba`, the first `k` were handed to the controller, with the contents
that the medium `m` has for them. -/
structure Progress (m : Medium) (lba n k : Nat) (s : State) : Prop where
  cmnd : s.cmnd = .lbaRead10
  medium : s.medium = m
  uSize : s.uSize = 512 * n
  uBytes : s.uBytes = 512 * k
  addr : s.lba = lba + k
  data : sentData s.log ++ inFlightData s = m.lba.bytes (512 * lba) (512 * k)

/-- The transfer that brings the blocks handed over to `k` has begun, and the pre-read is ready for the
next one. -/
structure Handed (m : Medium) (lba n k : Nat) (s : State) : Prop where
  progress : Progress m lba n k s
  ready : k < n → s.Hit ∧ lastRead s.log = some .lba
  inFlight : s.inFlight ≠ none
  inv : PreReadInv s

section Read

variable {m : Medium} {lba n k : Nat}

theorem Progress.txBlocks_eq (h : Progress m lba n k s) :
    txBlocks s = min (n - k) rkusbBufferBlockMax :=
  txBlocks_of_sizes (by decide) (by rw [h.cmnd]; rfl) h.uSize h.uBytes

theorem Progress.txdataSize_eq (h : Progress m lba n k s) :
    txdataSize s = 512 * min (n - k) rkusbBufferBlockMax :=
  txdataSize_of_sizes (by decide) (by rw [h.cmnd]; rfl) h.uSize h.uBytes

/-- A hit on a pre-read of LBA blocks sends the right blocks. -/
theorem Progress.send (h : Progress m lba n k s) (hend : lba + n ≤ specialBase)
    (hinv : PreReadInv s) (hnone : s.inFlight = none) (hhit : s.Hit)
    (hread : lastRead s.log = some .lba) :
    Progress m lba n (k + min (n - k) rkusbBufferBlockMax) (sendPreRead s) := by
  obtain ⟨hblocks, hle, hlba⟩ := hhit
  have hbase : specialBase = 0xFFF00000 := rfl
  rw [h.txBlocks_eq] at hblocks hle
  -- the bytes in the buffer are those of the medium
  have hdata : (s.txBuffer s.preRead.buffer).bytes 0 (512 * min (n - k) rkusbBufferBlockMax)
      = m.lba.bytes (512 * lba + 512 * k) (512 * min (n - k) rkusbBufferBlockMax) := by
    apply Mem.bytes_congr
    intro i hi
    have hcoh := hinv.coherent hread (by rw [hlba, h.addr]; omega) i (by omega)
    rw [hlba, h.addr, h.medium] at hcoh
    rw [Nat.zero_add, hcoh, Nat.mul_add]
  have hsent : sentData s.log = m.lba.bytes (512 * lba) (512 * k) := by
    have hall := h.data
    rwa [inFlightData, hnone, List.append_nil] at hall
  rw [sendPreRead, if_pos ⟨h.txBlocks_eq ▸ hblocks, h.txBlocks_eq ▸ hle, hlba⟩, h.txBlocks_eq,
    h.txdataSize_eq]
  refine ⟨h.cmnd, h.medium, h.uSize, ?_, ?_, ?_⟩
  · rw [h.uBytes, Nat.mul_add]
  · rw [h.addr, Nat.mod_eq_of_lt (by omega), Nat.add_assoc]
  · simp only [inFlightData]
    rw [hsent, hdata, Nat.mul_add, Mem.bytes_add]

/-- Reading ahead does not disturb the read. -/
theorem Progress.refill (h : Progress m lba n k s) (blocks : Nat)
    (hother : ∀ buffer len, s.inFlight = some (buffer, len) → buffer ≠ s.txbufNum % 2) :
    Progress m lba n k (refill s blocks) := by
  have hrefilled := refill_refilled s blocks
  obtain ⟨hcmnd, huSize, huBytes, hlba, hinFlight⟩ := hrefilled.same
  refine ⟨hcmnd.trans h.cmnd, hrefilled.medium.trans h.medium, huSize.trans h.uSize,
    huBytes.trans h.uBytes, hlba.trans h.addr, ?_⟩
  have hdata : inFlightData (Rockusb.refill s blocks) = inFlightData s := by
    simp only [inFlightData, hinFlight]
    split
    · rfl
    · next buffer len hsome => rw [hrefilled.txBuffer buffer (hother buffer len hsome)]
  rw [hrefilled.sent, hdata]
  exact h.data

/-- A pass with a hit. -/
theorem datatxPass_hit (h : Progress m lba n k s) (hend : lba + n ≤ specialBase)
    (hinv : PreReadInv s) (hnone : s.inFlight = none) (hhit : s.Hit)
    (hread : lastRead s.log = some .lba) :
    Handed m lba n (k + min (n - k) rkusbBufferBlockMax) (datatxPass s) := by
  have hsend := h.send hend hinv hnone hhit hread
  have hinv' := sendPreRead_inv hinv
  have hblocks := h.txBlocks_eq
  have hsome : (sendPreRead s).inFlight = some (s.preRead.buffer, txdataSize s) := by
    rw [sendPreRead, if_pos hhit]
  have hnum : (sendPreRead s).txbufNum = s.txbufNum := by
    rw [sendPreRead, if_pos hhit]
  have hpos : txBlocks s ≠ 0 := hhit.1
  have hne : (sendPreRead s).uBytes ≠ 0 := by
    rw [hsend.uBytes]
    omega
  by_cases hfull : txBlocks s = rkusbBufferBlockMax
  · -- the controller has the one buffer, the blocks ahead go to the other
    have hrefill : datatxPass s = refill (sendPreRead s) (txBlocks s) := by
      rw [datatxPass, if_pos (.inr hfull)]
    have hother : s.preRead.buffer ≠ s.txbufNum % 2 := by
      refine hinv.buffers.resolve_left (fun hzero => hpos ?_)
      exact Nat.le_zero.1 (hzero ▸ hhit.2.1)
    have hrefilled := refill_refilled (sendPreRead s) (txBlocks s)
    have hprogress := hsend.refill (txBlocks s) (fun buffer len heq => by
      rw [hsome] at heq
      cases heq
      rw [hnum]
      exact hother)
    obtain ⟨-, -, -, haddr, hinFlight⟩ := hrefilled.same
    rw [hrefill]
    refine ⟨hprogress, fun hmore => ?_, ?_, refill_inv (.inr hsend.cmnd) hfull.le⟩
    · have hlow : (sendPreRead s).lba < specialBase := by
        rw [hsend.addr]
        omega
      refine ⟨⟨?_, ?_, ?_⟩, (refill_lba hsend.cmnd hlow hpos).1⟩
      · rw [hprogress.txBlocks_eq]
        omega
      · rw [hprogress.txBlocks_eq, hrefilled.preRead, hfull]
        exact Nat.min_le_right _ _
      · rw [hrefilled.preRead, haddr]
    · rw [hinFlight, hsome]
      exact nofun
  · -- less than a buffer was left, so this was the end of the read
    have hlast : datatxPass s = sendPreRead s := by
      rw [datatxPass, if_neg (not_or.2 ⟨hne, hfull⟩)]
    rw [hlast]
    refine ⟨hsend, fun hmore => ?_, ?_, hinv'⟩
    · omega
    · rw [hsome]
      exact nofun

/-- A first pass without a hit reads what the second pass sends. -/
theorem datatxPass_miss (h : Progress m lba n 0 s) (hn : n ≠ 0) (hend : lba + n ≤ specialBase)
    (hnone : s.inFlight = none) (hmiss : ¬ s.Hit) :
    let s' := datatxPass s
    Progress m lba n 0 s' ∧ s'.Hit ∧ lastRead s'.log = some .lba ∧ PreReadInv s' ∧
      s'.inFlight = none := by
  have hsend : sendPreRead s = s := by rw [sendPreRead, if_neg hmiss]
  have hpass : datatxPass s = refill s (txBlocks s) := by
    rw [datatxPass, hsend, if_pos (.inl (by rw [h.uBytes]))]
  have hblocks := h.txBlocks_eq
  have hmax : rkusbBufferBlockMax = 128 := rfl
  have hpos : txBlocks s ≠ 0 := by omega
  have hlow : s.lba < specialBase := by
    rw [h.addr]
    omega
  have hrefilled := refill_refilled s (txBlocks s)
  have hprogress := h.refill (txBlocks s) (fun _ _ heq => by rw [hnone] at heq; cases heq)
  obtain ⟨-, -, -, haddr, hinFlight⟩ := hrefilled.same
  rw [hpass]
  refine ⟨hprogress, ⟨?_, ?_, ?_⟩, (refill_lba h.cmnd hlow hpos).1,
    refill_inv (.inr h.cmnd) (Nat.min_le_right _ _), hinFlight.trans hnone⟩
  · rw [hprogress.txBlocks_eq]
    omega
  · rw [hprogress.txBlocks_eq, hrefilled.preRead, hblocks]
  · rw [hrefilled.preRead, haddr]

/-- One call of `rkusb_handle_datatx`, the first of a command or a later one, which always finds its
blocks in the pre-read. -/
theorem datatxPasses_handed (h : Progress m lba n k s) (hk : k < n) (hend : lba + n ≤ specialBase)
    (hinv : PreReadInv s) (hnone : s.inFlight = none) (hnext : k ≠ 0 → s.Hit)
    (hread : s.Hit → lastRead s.log = some .lba) :
    Handed m lba n (k + min (n - k) rkusbBufferBlockMax) (datatxPasses s) := by
  have hmax : rkusbBufferBlockMax = 128 := rfl
  by_cases hhit : s.Hit
  · have hpass := datatxPass_hit h hend hinv hnone hhit (hread hhit)
    have hne : (datatxPass s).uBytes ≠ 0 := by
      rw [hpass.progress.uBytes]
      omega
    rwa [datatxPasses, if_neg hne]
  · obtain rfl : k = 0 := by
      by_contra hk0
      exact hhit (hnext hk0)
    obtain ⟨hprogress, hhit', hread', hinv', hnone'⟩ := datatxPass_miss h (by omega) hend hnone hhit
    rw [datatxPasses, if_pos (by rw [hprogress.uBytes])]
    exact datatxPass_hit hprogress hend hinv' hnone' hhit' hread'

end Read

end Rockusb
