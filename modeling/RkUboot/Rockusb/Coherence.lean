import RkUboot.Rockusb.PreRead

set_option autoImplicit false

/-! # Reads see the medium

An LBA read is answered from the pre-read when that begins at the right block. `LoopInv` is the
invariant behind it: the pre-read is coherent, and what a write under way has still to write does not
touch it, since the write has dropped it otherwise.

Two things break it. An erase does not drop the pre-read, so the blocks that it erases may still be
in the buffer. And the pre-read does not say which address space it is of, so an LBA read may find
PBA blocks there. `Spared` excludes both, in terms of the state before the command. -/

namespace Rockusb

variable {env : Env} {s : State} {u : Usb}

/-! ## Completing transfers -/

theorem completeTx_eq (s : State) :
    ∃ log, s.completeTx = { s with inFlight := none, log := log } ∧
      lastRead log = lastRead s.log ∧ sentData log = sentData s.log ++ inFlightData s := by
  rcases hflight : s.inFlight with _ | ⟨buffer, len⟩
  · refine ⟨s.log, ?_, rfl, ?_⟩
    · obtain ⟨⟩ := s
      cases hflight
      rfl
    · rw [inFlightData, hflight, List.append_nil]
  · refine ⟨.tx ((s.txBuffer buffer).bytes 0 len) :: s.log, ?_, rfl, ?_⟩
    · rw [State.completeTx, hflight]
    · rw [inFlightData, hflight]
      rfl

theorem sendCsw_eq (s : State) :
    ∃ log, s.sendCsw
        = { s with inFlight := none, bufferLength := usbBulkCbWrapLen, status := .idle, log := log } ∧
      lastRead log = lastRead s.log ∧ sentData log = sentData s.log ++ inFlightData s := by
  obtain ⟨log, heq, hread, hsent⟩ := completeTx_eq s
  refine ⟨.csw (cbwTag s.cbw) s.cswResidue s.cswStatus :: log, ?_, hread, hsent⟩
  rw [State.sendCsw, heq]

/-- The state after what the controller reports. -/
def State.afterTx (s : State) (u : Usb) : State := if u.sent then s.completeTx else s

theorem afterTx_none (h : s.inFlight = none) : s.afterTx u = s := by
  unfold State.afterTx State.completeTx
  rw [h]
  exact ite_self s

theorem afterTx_status : (s.afterTx u).status = s.status := by
  unfold State.afterTx
  split
  · obtain ⟨log, heq, -⟩ := completeTx_eq s
    rw [heq]
  · rfl

theorem poll_eq (h : s.halted = false) :
    poll env s u = finishPass env (rkusbHandleResponse env (takeCommand env (s.afterTx u) u) u) := by
  rw [poll, if_neg (by rw [h]; nofun)]
  rfl

theorem takeCommand_not (h : ¬ s.Takes u) : takeCommand env s u = s := if_neg h

/-- Without a request pending, the tail of the main loop sends the status block at most. -/
theorem finishPass_eq (hcalm : Calm s) (hhalted : s.halted = false) :
    finishPass env s = s.sendStatus := by
  have hflag : Calm s.sendStatus ∧ s.sendStatus.halted = false := by
    unfold State.sendStatus
    split
    · obtain ⟨log, heq, -⟩ := sendCsw_eq s
      rw [heq]
      exact ⟨hcalm, hhalted⟩
    · exact ⟨hcalm, hhalted⟩
  have hcheck : rkusbResetCheck env s.sendStatus = s.sendStatus := by
    simp only [rkusbResetCheck, hflag.1.1]
    rfl
  simp only [finishPass, hhalted, hcheck, rkusbLowformatCheck, hflag.1.2, hflag.2]
  rfl

theorem finishPass_csw (hstatus : s.status = .csw) (hcalm : Calm s) (hhalted : s.halted = false) :
    finishPass env s = s.sendCsw := by
  rw [finishPass_eq hcalm hhalted, State.sendStatus, if_pos hstatus]

theorem finishPass_self (hstatus : s.status ≠ .csw) (hcalm : Calm s) (hhalted : s.halted = false) :
    finishPass env s = s := by
  rw [finishPass_eq hcalm hhalted, State.sendStatus, if_neg hstatus]

/-! ## The invariant -/

/-- A write of `size` bytes from block `lba` on goes to plain blocks, and not to one of the
    pre-read. -/
structure WriteApart (lba size : Nat) (p : PreRead) : Prop where
  plain : lba + size / 512 ≤ specialBase
  apart : p.lba < specialBase → p.blocks = 0 ∨ lba + size / 512 ≤ p.lba ∨ p.lba + p.blocks ≤ lba

/-- The data phase of an LBA write. -/
def LbaWrite (s : State) : Prop :=
  s.cmnd = .lbaWrite10 ∧ s.dSize < 2 ^ 32 ∧ WriteApart s.lba (s.dSize - s.dBytes) s.preRead

structure LoopInv (s : State) : Prop where
  pre : PreReadInv s
  read : s.status = .txdataPrepare → s.cmnd = .read10 ∨ s.cmnd = .lbaRead10
  write : s.status = .rxdata →
    s.cmnd = .write10 ∨ LbaWrite s ∧ s.dBytes + s.bufferLength ≤ s.dSize
  idle : s.status = .idle → s.inFlight = none
  calm : Calm s

section WriteApart

variable {lba size len : Nat} {p : PreRead}

/-- The first bytes of the write. -/
theorem WriteApart.head (h : WriteApart lba size p) (hlen : len ≤ size) : WriteApart lba len p := by
  have hle : len / 512 ≤ size / 512 := Nat.div_le_div_right hlen
  refine ⟨(Nat.add_le_add_left hle lba).trans h.plain, fun hlow => ?_⟩
  exact (h.apart hlow).imp id (Or.imp (Nat.add_le_add_left hle lba).trans id)

/-- What is left of the write after `len` bytes, whose whole blocks were written. -/
theorem WriteApart.tail (h : WriteApart lba size p) (hlen : len ≤ size) :
    WriteApart (lba + len / 512) (size - len) p := by
  have hsplit : lba + len / 512 + (size - len) / 512 ≤ lba + size / 512 := by omega
  refine ⟨hsplit.trans h.plain, fun hlow => ?_⟩
  rcases h.apart hlow with hzero | hbelow | habove
  · exact .inl hzero
  · omega
  · omega

end WriteApart

/-- Where a pass of the main loop ends. -/
def AtRest (s : State) : Prop :=
  s.halted = false → s.status = .idle ∨ s.status = .rxdata ∨ s.status = .txdataPrepare

/-- The same before the tail of the loop, where the status block may still be due. -/
def Pending (s : State) : Prop :=
  s.halted = false → s.status = .csw ∨ s.status = .idle ∨ s.status = .rxdata ∨
    s.status = .txdataPrepare

/-- The invariant before the tail of the loop. -/
def Ready (s : State) : Prop := LoopInv s ∧ Pending s

theorem LoopInv.afterTx (h : LoopInv s) (u : Usb) : LoopInv (s.afterTx u) := by
  unfold State.afterTx
  split
  · obtain ⟨log, heq, hread, -⟩ := completeTx_eq s
    rw [heq]
    exact ⟨h.pre.of_read hread, h.read, h.write, fun _ => rfl, h.calm⟩
  · exact h

theorem finishPass_inv (hready : Ready s) :
    LoopInv (finishPass env s) ∧ AtRest (finishPass env s) := by
  obtain ⟨h, hstatus⟩ := hready
  by_cases hhalted : s.halted = false
  · rw [finishPass_eq h.calm hhalted, State.sendStatus]
    split
    · obtain ⟨log, heq, hread, -⟩ := sendCsw_eq s
      rw [heq]
      exact ⟨⟨h.pre.of_read hread, nofun, nofun, fun _ => rfl, h.calm⟩, fun _ => .inl rfl⟩
    · next hcsw => exact ⟨h, fun _ => (hstatus hhalted).resolve_left hcsw⟩
  · have htrue : s.halted = true := Bool.not_eq_false _ ▸ hhalted
    rw [finishPass, if_pos htrue]
    exact ⟨h, fun hfalse => absurd hfalse hhalted⟩

/-! ## Data from the host -/

theorem nextPacket_eq (s : State) :
    (∃ len, nextPacket s = { s with bufferLength := len, status := .rxdata } ∧
      s.dBytes + len ≤ s.dSize) ∨
    ∃ log residue status, nextPacket s = { s with
        cswResidue := residue, cswStatus := status, inFlight := none,
        bufferLength := usbBulkCbWrapLen, status := .idle, log := log } ∧
      lastRead log = lastRead s.log := by
  unfold nextPacket
  split
  · next hlt =>
    refine .inl ⟨_, rfl, ?_⟩
    have hfloor := Nat.div_mul_le_self (s.dSize - s.dBytes) (rxBlockLength s.cmnd)
    have hmin := Nat.mul_le_mul_right (rxBlockLength s.cmnd)
      (Nat.min_le_left ((s.dSize - s.dBytes) / rxBlockLength s.cmnd) rkusbBufferBlockMax)
    omega
  · obtain ⟨log, heq, hread, -⟩ :=
      sendCsw_eq (s.answer (dataTransferLength s.cbw) cswGood s.status)
    exact .inr ⟨log, _, _, heq, hread⟩

theorem not_txdataPrepare (hstatus : s.status = .idle ∨ s.status = .rxdata) :
    s.status ≠ .txdataPrepare := by
  rcases hstatus with hs | hs <;> rw [hs] <;> decide

/-- The end of a packet of a PBA write: nothing of the LBA space changes. -/
theorem writeMedia_pba (env : Env) (hcmnd : s.cmnd = .write10) (h : LoopInv s) (buf : Mem)
    (blocks : Nat) (hstatus : s.status = .idle ∨ s.status = .rxdata) :
    LoopInv (writeMedia env s buf blocks) ∧ (writeMedia env s buf blocks).status = s.status := by
  unfold writeMedia
  split
  · exact ⟨h, rfl⟩
  rw [hcmnd]
  simp only
  split <;> exact ⟨⟨h.pre,
    fun hs => absurd hs (not_txdataPrepare hstatus), fun _ => .inl hcmnd, h.idle, h.calm⟩, rfl⟩

theorem writeMedia_plain (env : Env) (hcmnd : s.cmnd = .lbaWrite10) (buf : Mem) {blocks : Nat}
    (hlba : blocks ≠ 0 → s.lba < specialBase) :
    writeMedia env s buf blocks = s ∨
      blocks ≠ 0 ∧ writeMedia env s buf blocks
        = (s.issue env (.writeLba s.lba blocks s.imgwrMode buf)).advance blocks := by
  by_cases hzero : blocks = 0
  · exact .inl (if_pos hzero)
  obtain ⟨hsys, hkey, hvendor⟩ := not_special (hlba hzero)
  simp only [writeMedia, if_neg hzero, hcmnd, if_neg hsys, if_neg hkey, if_neg hvendor]
  split
  · exact .inr ⟨hzero, rfl⟩
  · exact .inl rfl

/-- The end of a packet of an LBA write. The blocks that it writes are plain ones that are not in the
pre-read. -/
theorem writeMedia_lba (env : Env) (hcmnd : s.cmnd = .lbaWrite10) (h : LoopInv s) (buf : Mem)
    {blocks : Nat} (hstatus : s.status = .idle ∨ s.status = .rxdata)
    (happart : WriteApart s.lba (512 * blocks) s.preRead)
    (hrest : s.status = .rxdata →
      LbaWrite { s with lba := s.lba + blocks } ∧ s.dBytes + s.bufferLength ≤ s.dSize) :
    LoopInv (writeMedia env s buf blocks) ∧ (writeMedia env s buf blocks).status = s.status := by
  obtain ⟨hplain, hapart⟩ := happart
  rw [Nat.mul_div_cancel_left _ (by decide)] at hplain hapart
  have hbase : specialBase = 0xFFF00000 := rfl
  have hlow : blocks ≠ 0 → s.lba < specialBase := fun hblocks => by omega
  rcases writeMedia_plain env hcmnd buf hlow with heq | ⟨-, heq⟩
  · rw [heq]
    exact ⟨h, rfl⟩
  have hpre : PreReadInv (s.issue env (.writeLba s.lba blocks s.imgwrMode buf)) := by
    refine h.pre.issue env _ (fun _ hlow i hi => Mem.copy_apply_out ?_)
    rcases hapart hlow with hzero | hbelow | habove
    · omega
    · exact .inr (by omega)
    · exact .inl (by omega)
  have hadvance : (s.issue env (.writeLba s.lba blocks s.imgwrMode buf)).advance blocks
      = { s.issue env (.writeLba s.lba blocks s.imgwrMode buf) with lba := s.lba + blocks } := by
    rw [State.advance]
    congr 1
    exact Nat.mod_eq_of_lt (show s.lba + blocks < 2 ^ 32 by omega)
  rw [heq, hadvance]
  refine ⟨⟨hpre, fun hs => absurd hs (not_txdataPrepare hstatus),
    fun hs => .inr (hrest hs), h.idle, h.calm⟩, rfl⟩

/-- Between two packets. -/
theorem nextPacket_inv (hpre : PreReadInv s) (hcalm : Calm s)
    (hwrite : s.cmnd = .write10 ∨ LbaWrite s) :
    LoopInv (nextPacket s) ∧
      ((nextPacket s).status = .idle ∨ (nextPacket s).status = .rxdata) ∧
      (nextPacket s).cmnd = s.cmnd ∧ (nextPacket s).lba = s.lba ∧
      (nextPacket s).preRead = s.preRead ∧ (nextPacket s).dSize = s.dSize ∧
      (nextPacket s).dBytes = s.dBytes := by
  rcases nextPacket_eq s with ⟨len, heq, hlen⟩ | ⟨log, residue, status, heq, hread⟩
  · rw [heq]
    refine ⟨⟨hpre, nofun, fun _ => ?_, nofun, hcalm⟩,
      .inr rfl, rfl, rfl, rfl, rfl, rfl⟩
    exact hwrite.imp id (fun hw => ⟨hw, hlen⟩)
  · rw [heq]
    exact ⟨⟨hpre.of_read hread, nofun, nofun, fun _ => rfl, hcalm⟩,
      .inl rfl, rfl, rfl, rfl, rfl, rfl⟩

/-- A packet of a write. -/
theorem rkusbHandleDatarx_inv (env : Env) (h : LoopInv s) (hstatus : s.status = .rxdata) (buf : Mem)
    {len : Nat} (hlen : len ≤ s.bufferLength) :
    LoopInv (rkusbHandleDatarx env s buf len) ∧
      ((rkusbHandleDatarx env s buf len).status = .idle ∨
        (rkusbHandleDatarx env s buf len).status = .rxdata) := by
  let s1 : State := { s with dBytes := (s.dBytes + len) % 2 ^ 32 }
  have hpre : PreReadInv s1 := h.pre
  rcases h.write hstatus with hpba | ⟨hlba, hpacket⟩
  · obtain ⟨hnext, hs, hcmnd, -⟩ := nextPacket_inv hpre h.calm (.inl hpba)
    obtain ⟨hinv, heq⟩ :=
      writeMedia_pba env (hcmnd.trans hpba) hnext buf (len / rxBlockLength s.cmnd) hs
    rw [← heq] at hs
    exact ⟨hinv, hs⟩
  · have hle : len ≤ s.dSize - s.dBytes := by omega
    have hbytes : s1.dBytes = s.dBytes + len := Nat.mod_eq_of_lt (by have := hlba.2.1; omega)
    have hleft : s1.dSize - s1.dBytes = s.dSize - s.dBytes - len := by
      rw [hbytes]
      exact Nat.sub_add_eq ..
    have hs1 : LbaWrite s1 :=
      ⟨hlba.1, hlba.2.1, hleft ▸ hlba.2.2.head (Nat.sub_le _ _)⟩
    obtain ⟨hnext, hs, hcmnd, haddr, hpreRead, hdSize, hdBytes⟩ :=
      nextPacket_inv hpre h.calm (.inr hs1)
    -- the blocks of the packet, and then the rest
    have hfirst : WriteApart (nextPacket s1).lba (512 * (len / 512)) (nextPacket s1).preRead := by
      rw [haddr, hpreRead]
      exact hlba.2.2.head ((Nat.mul_div_le len 512).trans hle)
    have hrest : (nextPacket s1).status = .rxdata →
        LbaWrite { nextPacket s1 with lba := (nextPacket s1).lba + len / 512 } ∧
          (nextPacket s1).dBytes + (nextPacket s1).bufferLength ≤ (nextPacket s1).dSize := by
      intro hrx
      rcases hnext.write hrx with hpba | ⟨hw, hpacket'⟩
      · rw [hcmnd] at hpba
        cases hs1.1.symm.trans hpba
      · refine ⟨⟨hw.1, hw.2.1, ?_⟩, hpacket'⟩
        rw [haddr, hdSize, hdBytes, hpreRead, hleft]
        exact hlba.2.2.tail hle
    have hblock : rxBlockLength s.cmnd = 512 := by rw [hlba.1]; rfl
    obtain ⟨hinv, heq⟩ :=
      writeMedia_lba env (hcmnd.trans hlba.1) hnext buf hs hfirst hrest
    rw [← heq] at hs
    rw [rkusbHandleDatarx, hblock]
    exact ⟨hinv, hs⟩

/-! ## Commands -/

/-- With the status block due, only the pre-read matters. -/
theorem LoopInv.of_csw (hpre : PreReadInv s) (hstatus : s.status = .csw) (hcalm : Calm s) :
    LoopInv s := by
  refine ⟨hpre, fun hs => ?_, fun hs => ?_, fun hs => ?_, hcalm⟩
  all_goals cases hstatus.symm.trans hs

theorem LoopInv.of_read (h : ReadInv s) (hstatus : s.status = .txdataPrepare) (hcalm : Calm s) :
    LoopInv s := by
  refine ⟨h.pre, fun _ => h.cmnd, fun hs => ?_, fun hs => ?_, hcalm⟩
  all_goals cases hstatus.symm.trans hs

/-- Data to the host, for both kinds of read. -/
theorem rkusbHandleDatatx_loopInv (h : ReadInv s) (hstatus : s.status = .txdataPrepare)
    (hcalm : Calm s) :
    LoopInv (rkusbHandleDatatx s) ∧
      ((rkusbHandleDatatx s).status = .csw ∨ (rkusbHandleDatatx s).status = .txdataPrepare) := by
  have hinv := datatxPasses_inv h
  have hloop := datatxPasses_loop (s := s)
  have hstatus' := hloop.status.trans hstatus
  have hcalm' := hloop.calm hcalm
  simp only [rkusbHandleDatatx]
  split
  · exact ⟨.of_read ⟨hinv.pre, hinv.cmnd⟩ hstatus' hcalm',
      .inr hstatus'⟩
  split
  · exact ⟨.of_csw hinv.pre rfl hcalm', .inl rfl⟩
  · exact ⟨.of_read hinv hstatus' hcalm', .inr hstatus'⟩

theorem dropPreRead_apart {p : PreRead} {lba blocks : Nat} (hplain : lba + blocks ≤ specialBase)
    (hfits : p.blocks ≤ rkusbBufferBlockMax) :
    WriteApart lba (blocks * 512) (dropPreRead p lba blocks) := by
  have hbase : specialBase = 0xFFF00000 := rfl
  have hmax : rkusbBufferBlockMax = 128 := rfl
  have hdiv : blocks * 512 / 512 = blocks := Nat.mul_div_cancel _ (by decide)
  refine ⟨by rwa [hdiv], fun hlow => ?_⟩
  rw [hdiv]
  unfold dropPreRead at hlow ⊢
  split at hlow
  · next htouch =>
    rw [if_pos htouch]
    exact .inl rfl
  next hfree =>
  rw [if_neg hfree]
  rw [not_not, Nat.mod_eq_of_lt (by omega), Nat.mod_eq_of_lt (by omega)] at hfree
  omega

theorem Coherent.drop (h : PreReadInv s) (lba blocks : Nat) :
    PreReadInv { s with preRead := dropPreRead s.preRead lba blocks } := by
  unfold dropPreRead
  split
  · exact ⟨fun _ _ i hi => absurd hi (Nat.not_lt_zero i), .inl rfl, Nat.zero_le _⟩
  · exact h

theorem cdbCount_lt (cbw : Mem) : cdbCount cbw < 2 ^ 16 := by
  have h7 : cdb cbw 7 < 2 ^ 8 := (cbw (15 + 7)).toNat_lt
  have h8 : cdb cbw 8 < 2 ^ 8 := (cbw (15 + 8)).toNat_lt
  unfold cdbCount
  omega

/-- The commands that read, write and erase blocks. -/
def Command.IsBlock (c : Command) : Prop :=
  c ∈ [.read10, .write10, .erase10, .erase10Force, .lbaRead10, .lbaWrite10, .eraseData]
  deriving Decidable

/-- The command that is taken, if one is, is a block command at plain addresses. -/
def BlockRequest (s : State) (u : Usb) : Prop :=
  s.Takes u → (commandOf (s.received u)).IsBlock ∧
    cdbLba (s.received u) + cdbCount (s.received u) ≤ specialBase

/-- What an erase command asks of the driver. -/
def eraseOf (locked : Bool) (cbw : Mem) : Option Op :=
  match commandOf cbw with
  | .erase10 => if locked then none else some (.eraseBlock (cdbLba cbw) (cdbCount cbw) 0)
  | .erase10Force => if locked then none else some (.eraseBlock (cdbLba cbw) (cdbCount cbw) 1)
  | .eraseData => some (.eraseData (cdbLba cbw) (cdbCount cbw))
  | _ => none

/-- The command that is taken leaves the pre-read right: an erase keeps the LBA blocks that are in it,
and an LBA read that finds its first blocks there finds LBA blocks. -/
def Spared (env : Env) (s : State) (u : Usb) : Prop :=
  s.Takes u →
    (∀ op ∈ eraseOf s.secureBootLock (s.received u), lastRead s.log = some .lba →
      ∀ i < 512 * s.preRead.blocks, (env.apply op s.medium).lba (512 * s.preRead.lba + i)
        = s.medium.lba (512 * s.preRead.lba + i)) ∧
    (commandOf (s.received u) = .lbaRead10 → cdbCount (s.received u) ≠ 0 →
      s.preRead.lba = cdbLba (s.received u) →
      min (cdbCount (s.received u)) rkusbBufferBlockMax ≤ s.preRead.blocks →
      lastRead s.log = some .lba)

/-- The operation leaves the LBA blocks of the pre-read as they are. -/
def KeepsPreRead (env : Env) (s : State) (op : Op) : Prop :=
  lastRead s.log = some .lba → ∀ i < 512 * s.preRead.blocks,
    (env.apply op s.medium).lba (512 * s.preRead.lba + i) = s.medium.lba (512 * s.preRead.lba + i)

/-- Before the status block. -/
def BeforeCsw (s : State) : Prop := PreReadInv s ∧ s.status = .csw ∧ Calm s

/-- After an erase of blocks. -/
theorem eraseBlocks_csw (h : PreReadInv s) (hcalm : Calm s) {mode : Nat}
    (hkeep : s.secureBootLock = false →
      KeepsPreRead env s (.eraseBlock (cdbLba s.cbw) (cdbCount s.cbw) mode)) :
    BeforeCsw (eraseBlocks env s mode) := by
  simp only [eraseBlocks, storageEraseBlock]
  split
  · next hopen =>
    split
    · have hissue := h.issue env (.eraseBlock (cdbLba s.cbw) (cdbCount s.cbw) mode)
        (fun hread _ => hkeep (Bool.not_eq_true _ ▸ hopen) hread)
      exact ⟨hissue, rfl, hcalm⟩
    · exact ⟨h, rfl, hcalm⟩
  · exact ⟨h, rfl, hcalm⟩

theorem fwEraseData_csw (h : PreReadInv s) (hcalm : Calm s)
    (hkeep : KeepsPreRead env s (.eraseData (cdbLba s.cbw) (cdbCount s.cbw))) :
    BeforeCsw (fwEraseData env s) := by
  simp only [fwEraseData, storageEraseData]
  split
  · have hissue := h.issue env (.eraseData (cdbLba s.cbw) (cdbCount s.cbw))
      (fun hread _ => hkeep hread)
    exact ⟨hissue, rfl, hcalm⟩
  · exact ⟨h, rfl, hcalm⟩

/-- The first pass of a write, which has no data yet. -/
theorem startWrite_response (hstatus : s.status = .rxdataPrepare) (hbytes : s.dBytes = 0) :
    rkusbHandleResponse env s u = nextPacket s := by
  have hsame : { s with dBytes := (s.dBytes + 0) % 2 ^ 32 } = s := by
    obtain ⟨⟩ := s
    cases hbytes
    rfl
  have hresponse : rkusbHandleResponse env s u = rkusbHandleDatarx env s u.buf 0 := by
    rw [rkusbHandleResponse, hstatus]
  rw [hresponse, rkusbHandleDatarx, hsame, Nat.zero_div]
  exact if_pos rfl

/-- The first pass of a read. -/
theorem startRead_response (hstatus : s.status = .txdataPrepare) (hbytes : s.uBytes = 0) :
    rkusbHandleResponse env s u = rkusbHandleDatatx s := by
  rw [rkusbHandleResponse, hstatus]
  exact if_pos (.inl hbytes)

/-- A command without data. -/
theorem response_csw (h : BeforeCsw s) : Ready (rkusbHandleResponse env s u) := by
  obtain ⟨hpre, hstatus, hcalm⟩ := h
  have heq : rkusbHandleResponse env s u = s := by rw [rkusbHandleResponse, hstatus]
  rw [heq]
  exact ⟨.of_csw hpre hstatus hcalm, fun _ => .inl hstatus⟩

section Response

variable (hcalm : Calm s)

include hcalm

/-- A command that sends data. -/
theorem response_read (hread : ReadInv s) (hstatus : s.status = .txdataPrepare)
    (hbytes : s.uBytes = 0) :
    Ready (rkusbHandleResponse env s u) := by
  obtain ⟨hinv, hnext⟩ := rkusbHandleDatatx_loopInv hread hstatus hcalm
  rw [startRead_response hstatus hbytes]
  exact ⟨hinv, fun _ => hnext.imp id (fun hs => .inr (.inr hs))⟩

/-- A command that receives data. -/
theorem response_write (hpre : PreReadInv s) (hwrite : s.cmnd = .write10 ∨ LbaWrite s)
    (hstatus : s.status = .rxdataPrepare) (hbytes : s.dBytes = 0) :
    Ready (rkusbHandleResponse env s u) := by
  obtain ⟨hinv, hnext, -⟩ := nextPacket_inv hpre hcalm hwrite
  rw [startWrite_response hstatus hbytes]
  exact ⟨hinv, fun _ => .inr (hnext.imp id .inl)⟩

end Response

/-- The size that an LBA write announces, against the pre-read that it leaves. -/
theorem fwLBAWrite10_lbaWrite (hpre : PreReadInv s) (hcmnd : s.cmnd = .lbaWrite10)
    (hplain : cdbLba s.cbw + cdbCount s.cbw ≤ specialBase) : LbaWrite (fwLBAWrite10 s) := by
  have hcount := cdbCount_lt s.cbw
  have hdiv : cdbCount s.cbw * 512 / 512 = cdbCount s.cbw := Nat.mul_div_cancel _ (by decide)
  refine ⟨hcmnd, show cdbCount s.cbw * 512 < 2 ^ 32 by omega, ?_⟩
  show WriteApart (cdbLba s.cbw) (cdbCount s.cbw * 512 - 0)
    (dropPreRead s.preRead (cdbLba s.cbw) (cdbCount s.cbw * 512 / 512))
  rw [hdiv]
  exact dropPreRead_apart hplain hpre.fits

/-- A command is carried out as far as its first pass goes. -/
theorem dispatch_inv (hpre : PreReadInv s) (hcalm : Calm s) (hcmnd : s.cmnd = commandOf s.cbw)
    (hblock : s.cmnd.IsBlock) (hplain : cdbLba s.cbw + cdbCount s.cbw ≤ specialBase)
    (hkeep : ∀ op ∈ eraseOf s.secureBootLock s.cbw, KeepsPreRead env s op) :
    Ready (rkusbHandleResponse env (dispatch env s) u) := by
  cases hcmd : s.cmnd with
  | read10 =>
    have hread : ReadInv (fwRead10 s) := ⟨hpre, .inl hcmd⟩
    rw [dispatch, hcmd]
    exact response_read hcalm hread rfl rfl
  | lbaRead10 =>
    have hread : ReadInv (fwLBARead10 s) := ⟨hpre, .inr hcmd⟩
    rw [dispatch, hcmd]
    exact response_read hcalm hread rfl rfl
  | write10 =>
    have hdrop : PreReadInv (fwWrite10 s) := hpre.drop _ _
    rw [dispatch, hcmd]
    exact response_write hcalm hdrop (.inl hcmd) rfl rfl
  | lbaWrite10 =>
    have hdrop : PreReadInv (fwLBAWrite10 s) := hpre.drop _ _
    rw [dispatch, hcmd]
    exact response_write hcalm hdrop (.inr (fwLBAWrite10_lbaWrite hpre hcmd hplain)) rfl rfl
  | erase10 | erase10Force =>
    rw [dispatch, hcmd]
    refine response_csw (eraseBlocks_csw hpre hcalm (fun hopen => hkeep _ ?_))
    rw [eraseOf, ← hcmnd, hcmd]
    simp only [hopen]
    rfl
  | eraseData =>
    rw [dispatch, hcmd]
    exact response_csw (fwEraseData_csw hpre hcalm (hkeep _ (by rw [eraseOf, ← hcmnd, hcmd]; rfl)))
  | _ => exact absurd hblock (by rw [hcmd]; decide)

/-! ## The main loop -/

/-- The state in which a command is carried out. -/
def State.withCommand (s : State) (u : Usb) : State :=
  { s with
    cbw := s.received u, status := .cmd, log := .command :: s.log, cmnd := commandOf (s.received u) }

theorem takeCommand_takes (h : s.Takes u) :
    takeCommand env s u = dispatch env (s.withCommand u) := if_pos h

/-- One pass through the main loop keeps the invariant. -/
theorem poll_inv (h : LoopInv s) (hrest : AtRest s) (hreq : BlockRequest s u)
    (hspared : Spared env s u) : LoopInv (poll env s u) ∧ AtRest (poll env s u) := by
  by_cases hhalted : s.halted = false
  · rw [poll_eq hhalted]
    rcases hrest hhalted with hidle | hrx | htx
    · rw [afterTx_none (h.idle hidle)]
      by_cases htakes : s.Takes u
      · rw [takeCommand_takes htakes]
        obtain ⟨hblock, hplain⟩ := hreq htakes
        exact finishPass_inv (dispatch_inv (s := s.withCommand u)
          h.pre h.calm rfl hblock hplain (hspared htakes).1)
      · have heq : rkusbHandleResponse env s u = s := by rw [rkusbHandleResponse, hidle]
        rw [takeCommand_not htakes, heq]
        exact finishPass_inv ⟨h, fun _ => .inr (.inl hidle)⟩
    · have hrx' : (s.afterTx u).status = .rxdata := afterTx_status.trans hrx
      have hinv := h.afterTx u
      rw [takeCommand_not (fun ht => nomatch (hrx'.symm.trans ht.1)), rkusbHandleResponse,
        hrx']
      simp only
      split
      · obtain ⟨hinv', hstatus⟩ :=
          rkusbHandleDatarx_inv env hinv hrx' u.buf (Nat.min_le_right u.len (s.afterTx u).bufferLength)
        exact finishPass_inv ⟨hinv', fun _ => .inr (hstatus.imp id .inl)⟩
      · exact finishPass_inv ⟨hinv, fun _ => .inr (.inr (.inl hrx'))⟩
    · have htx' : (s.afterTx u).status = .txdataPrepare := afterTx_status.trans htx
      have hinv := h.afterTx u
      rw [takeCommand_not (fun ht => nomatch (htx'.symm.trans ht.1)), rkusbHandleResponse,
        htx']
      simp only
      split
      · obtain ⟨hinv', hstatus⟩ :=
          rkusbHandleDatatx_loopInv ⟨hinv.pre, hinv.read htx'⟩ htx' hinv.calm
        exact finishPass_inv ⟨hinv', fun _ => hstatus.imp id (fun hs => .inr (.inr hs))⟩
      · exact finishPass_inv ⟨hinv, fun _ => .inr (.inr (.inr htx'))⟩
  · have htrue : s.halted = true := Bool.not_eq_false _ ▸ hhalted
    rw [poll, if_pos htrue]
    exact ⟨h, hrest⟩

/-- In every state that a run reaches. -/
theorem run_inv (env : Env) (us : List Usb) (h : LoopInv s) (hrest : AtRest s)
    (hrun : Run.Along (poll env) (fun s u => BlockRequest s u ∧ Spared env s u) s us) :
    LoopInv (us.foldl (poll env) s) ∧ AtRest (us.foldl (poll env) s) :=
  Run.along_invariant (I := fun s => LoopInv s ∧ AtRest s)
    (fun _ _ hs hu => poll_inv hs.1 hs.2 hu.1 hu.2) us s ⟨h, hrest⟩ hrun

theorem start_inv (secureBootLock : Bool) (drmKeyInfo check : Mem) (medium : Medium)
    (vendor : Vendor.State) :
    LoopInv (State.start secureBootLock drmKeyInfo check medium vendor) ∧
      AtRest (State.start secureBootLock drmKeyInfo check medium vendor) :=
  ⟨⟨⟨nofun, .inl rfl, Nat.zero_le _⟩, nofun, nofun, fun _ => rfl, rfl, rfl⟩, fun _ => .inl rfl⟩

/-! ## An LBA read -/

/-- A read of `n` blocks at `lba` is under way, with `k` blocks handed over. -/
structure Reading (m : Medium) (lba n k : Nat) (s : State) : Prop where
  handed : Handed m lba n k s
  left : k < n
  begun : k ≠ 0
  status : s.status = .txdataPrepare
  halted : s.halted = false
  calm : Calm s

/-- The read has been answered. -/
structure Answered (m : Medium) (lba n : Nat) (s : State) : Prop where
  data : sentData s.log = m.lba.bytes (512 * lba) (512 * n)
  status : s.status = .idle
  inFlight : s.inFlight = none
  halted : s.halted = false
  calm : Calm s

section Read

variable {m : Medium} {lba n k : Nat}

/-- A pass that sends data, up to its end: either there is more to send, or the read is answered. -/
theorem finishPass_read (h : Progress m lba n k s) (hk : k < n) (hend : lba + n ≤ specialBase)
    (hinv : PreReadInv s) (hnone : s.inFlight = none) (hnext : k ≠ 0 → s.Hit)
    (hread : s.Hit → lastRead s.log = some .lba) (hstatus : s.status = .txdataPrepare)
    (hhalted : s.halted = false) (hcalm : Calm s) :
    (k + rkusbBufferBlockMax < n ∧
      Reading m lba n (k + rkusbBufferBlockMax) (finishPass env (rkusbHandleDatatx s))) ∨
    (n ≤ k + rkusbBufferBlockMax ∧ Answered m lba n (finishPass env (rkusbHandleDatatx s))) := by
  have hmax : rkusbBufferBlockMax = 128 := rfl
  have hhanded := datatxPasses_handed h hk hend hinv hnone hnext hread
  have hloop := datatxPasses_loop (s := s)
  have hne : (datatxPasses s).uBytes ≠ 0 := by
    rw [hhanded.progress.uBytes]
    omega
  have hstatus' := hloop.status.trans hstatus
  have hhalted' := hloop.halted.trans hhalted
  have hcalm' := hloop.calm hcalm
  rw [rkusbHandleDatatx, if_neg hne, hhanded.progress.uSize, hhanded.progress.uBytes]
  by_cases hmore : k + rkusbBufferBlockMax < n
  · have hmin : min (n - k) rkusbBufferBlockMax = rkusbBufferBlockMax := by omega
    rw [hmin] at hhanded ⊢
    rw [if_neg (by omega), finishPass_self (by rw [hstatus']; decide) hcalm' hhalted']
    exact .inl ⟨hmore, hhanded, hmore, by omega, hstatus', hhalted', hcalm'⟩
  · have hmin : k + min (n - k) rkusbBufferBlockMax = n := by omega
    rw [hmin] at hhanded ⊢
    let t := (datatxPasses s).answer (dataTransferLength (datatxPasses s).cbw) cswGood .csw
    have hfinish : finishPass env t = t.sendCsw := finishPass_csw rfl hcalm' hhalted'
    obtain ⟨log, heq, -, hsent⟩ := sendCsw_eq t
    rw [if_pos rfl, hfinish, heq]
    refine .inr ⟨Nat.le_of_not_lt hmore, ?_, rfl, rfl, hhalted', hcalm'⟩
    exact hsent.trans hhanded.progress.data

/-- The controller has sent a part of the data. -/
theorem poll_reading (env : Env) (h : Reading m lba n k s) (hend : lba + n ≤ specialBase)
    (hsent : u.sent = true) :
    (k + rkusbBufferBlockMax < n ∧ Reading m lba n (k + rkusbBufferBlockMax) (poll env s u)) ∨
      (n ≤ k + rkusbBufferBlockMax ∧ Answered m lba n (poll env s u)) := by
  obtain ⟨log, heq, hread, hdata⟩ := completeTx_eq s
  let t : State := { s with inFlight := none, log := log }
  have hpoll : poll env s u = finishPass env (rkusbHandleDatatx t) := by
    have htakes : ¬ t.Takes u := fun ht => nomatch (h.status.symm.trans ht.1)
    rw [poll_eq h.halted, State.afterTx, if_pos hsent, heq, takeCommand_not htakes,
      rkusbHandleResponse, h.status]
    simp only
    rw [if_pos (.inr rfl)]
  obtain ⟨hhit, hlast⟩ := h.handed.ready h.left
  have hprogress := h.handed.progress
  rw [hpoll]
  refine finishPass_read ?_ h.left hend (h.handed.inv.of_read hread) rfl
    (fun _ => hhit) (fun _ => hread.trans hlast) h.status h.halted h.calm
  refine { hprogress with data := ?_ }
  show sentData log ++ [] = _
  rw [List.append_nil, hdata]
  exact hprogress.data

/-- The controller is still sending. -/
theorem poll_waiting (h : Reading m lba n k s) (hsent : u.sent = false) : poll env s u = s := by
  have htakes : ¬ s.Takes u := fun ht => nomatch (h.status.symm.trans ht.1)
  have hbusy : ¬ (s.uBytes = 0 ∨ s.inFlight = none) := by
    rintro (hzero | hnone)
    · have := h.begun
      rw [h.handed.progress.uBytes] at hzero
      omega
    · exact h.handed.inFlight hnone
  rw [poll_eq h.halted, State.afterTx, if_neg (by rw [hsent]; nofun),
    takeCommand_not htakes, rkusbHandleResponse, h.status]
  rw [if_neg hbusy, finishPass_self (by rw [h.status]; decide) h.calm h.halted]

/-- Nothing happens until the next command. -/
theorem poll_answered (h : Answered m lba n s) (hlen : u.len = 0) : poll env s u = s := by
  rw [poll_eq h.halted, afterTx_none h.inFlight, takeCommand_not (fun ht => ht.2 hlen),
    rkusbHandleResponse, h.status]
  rw [finishPass_self (by rw [h.status]; decide) h.calm h.halted]

theorem run_answered (env : Env) (h : Answered m lba n s) (us : List Usb)
    (hus : ∀ u ∈ us, u.len = 0) : us.foldl (poll env) s = s := by
  induction us with
  | nil => rfl
  | cons u us ih =>
    rw [List.foldl_cons, poll_answered h (hus u (.head _))]
    exact ih (fun v hv => hus v (.tail _ hv))

/-- The passes after the command: each transfer that completes lets the next `RKUSB_BUFFER_BLOCK_MAX`
blocks go, and in the end the read is answered. -/
theorem run_reading (env : Env) (hend : lba + n ≤ specialBase) (us : List Usb)
    (hus : ∀ u ∈ us, u.len = 0) (h : Reading m lba n k s) :
    Answered m lba n (us.foldl (poll env) s) ∨
      ∃ k', k + rkusbBufferBlockMax * us.countP Usb.sent ≤ k' ∧
        Reading m lba n k' (us.foldl (poll env) s) := by
  induction us generalizing s k with
  | nil => exact .inr ⟨k, Nat.le_refl _, h⟩
  | cons u us ih =>
    have htail : ∀ u ∈ us, u.len = 0 := fun v hv => hus v (.tail _ hv)
    rw [List.foldl_cons]
    by_cases hsent : u.sent = true
    · rcases poll_reading env h hend hsent with ⟨-, hmore⟩ | ⟨-, hdone⟩
      · refine (ih htail hmore).imp id (fun ⟨k', hk', hr⟩ => ⟨k', ?_, hr⟩)
        rw [List.countP_cons_of_pos hsent, Nat.mul_add, Nat.mul_one]
        omega
      · rw [run_answered env hdone us htail]
        exact .inl hdone
    · rw [poll_waiting h (Bool.not_eq_true _ ▸ hsent), List.countP_cons_of_neg hsent]
      exact ih htail h

/-- The pass that takes the command. -/
theorem poll_lbaRead (env : Env) (h : LoopInv s) (hhalted : s.halted = false) (htakes : s.Takes u)
    (hreq : BlockRequest s u) (hspared : Spared env s u)
    (hcmd : commandOf (s.received u) = .lbaRead10) (hn : cdbCount (s.received u) ≠ 0) :
    (rkusbBufferBlockMax < cdbCount (s.received u) ∧
      Reading s.medium (cdbLba (s.received u)) (cdbCount (s.received u)) rkusbBufferBlockMax
        (poll env s u)) ∨
      Answered s.medium (cdbLba (s.received u)) (cdbCount (s.received u)) (poll env s u) := by
  let t := fwLBARead10 (s.withCommand u)
  have hnone : s.inFlight = none := h.idle htakes.1
  have hpoll : poll env s u = finishPass env (rkusbHandleDatatx t) := by
    have hcmnd : (s.withCommand u).cmnd = .lbaRead10 := hcmd
    have hresponse : rkusbHandleResponse env t u = rkusbHandleDatatx t := startRead_response rfl rfl
    rw [poll_eq hhalted, afterTx_none hnone, takeCommand_takes htakes, dispatch, hcmnd]
    exact congrArg (finishPass env) hresponse
  have hprogress : Progress s.medium (cdbLba (s.received u)) (cdbCount (s.received u)) 0 t := by
    have hsize : t.uSize = 512 * cdbCount (s.received u) :=
      Nat.mul_comm (cdbCount (s.received u)) 512
    have hflight : inFlightData t = [] := by
      have hnone' : t.inFlight = none := hnone
      rw [inFlightData, hnone']
    have haddr : t.lba = cdbLba (s.received u) + 0 := (Nat.add_zero (cdbLba (s.received u))).symm
    refine ⟨hcmd, rfl, hsize, rfl, haddr, ?_⟩
    rw [hflight]
    rfl
  have hread : t.Hit → lastRead t.log = some .lba := by
    rintro ⟨-, hblocks, hlba⟩
    rw [hprogress.txBlocks_eq, Nat.sub_zero] at hblocks
    exact (hspared htakes).2 hcmd hn hlba hblocks
  rw [hpoll]
  refine (finishPass_read hprogress (Nat.pos_of_ne_zero hn) (hreq htakes).2
    h.pre hnone (fun h0 => absurd rfl h0) hread rfl hhalted
    h.calm).imp (fun hr => ?_) (fun hd => hd.2)
  rwa [Nat.zero_add] at hr

end Read

/-- **An LBA read of `n ≥ 1` blocks at `lba` sends what the medium holds in the blocks `lba` to
`lba + n - 1` when the command is taken**, after any sequence of block commands each of which is
`Spared`. It is answered as soon as the controller has completed all transfers but the last. -/
theorem lba_read_coherent (env : Env) (secureBootLock : Bool) (drmKeyInfo check : Mem)
    (medium : Medium) (vendor : Vendor.State) (us : List Usb) (u : Usb) (rest : List Usb)
    (hrun : Run.Along (poll env) (fun s u => BlockRequest s u ∧ Spared env s u)
      (State.start secureBootLock drmKeyInfo check medium vendor) (us ++ [u]))
    (hrest : ∀ u ∈ rest, u.len = 0) :
    let s := us.foldl (poll env) (State.start secureBootLock drmKeyInfo check medium vendor)
    let s' := rest.foldl (poll env) (poll env s u)
    let lba := cdbLba (s.received u)
    let n := cdbCount (s.received u)
    s.halted = false → s.Takes u → commandOf (s.received u) = .lbaRead10 → n ≠ 0 →
      (s'.status = .idle → sentData s'.log = s.medium.lba.bytes (512 * lba) (512 * n)) ∧
      ((n - 1) / rkusbBufferBlockMax ≤ rest.countP Usb.sent → s'.status = .idle) := by
  intro s s' lba n hhalted htakes hcmd hn
  obtain ⟨hstart, hstart'⟩ := start_inv secureBootLock drmKeyInfo check medium vendor
  obtain ⟨hbefore, hreq, hspared⟩ := Run.along_snoc hrun
  obtain ⟨hinv, -⟩ := run_inv env us hstart hstart' hbefore
  have hend : lba + n ≤ specialBase := (hreq htakes).2
  have hdone : Answered s.medium lba n s' ∨
      ∃ k, rkusbBufferBlockMax + rkusbBufferBlockMax * rest.countP Usb.sent ≤ k ∧
        Reading s.medium lba n k s' := by
    rcases poll_lbaRead env hinv hhalted htakes hreq hspared hcmd hn with ⟨-, hreading⟩ | hanswered
    · exact run_reading env hend rest hrest hreading
    · have hstay : s' = poll env s u := run_answered env hanswered rest hrest
      rw [hstay]
      exact .inl hanswered
  rcases hdone with hanswered | ⟨k, hk, hreading⟩
  · exact ⟨fun _ => hanswered.data, fun _ => hanswered.status⟩
  refine ⟨fun hidle => absurd (hreading.status.symm.trans hidle) (by decide), fun hcount => ?_⟩
  -- so many transfers would have sent more than there is
  have hcount' : (n - 1) / 128 ≤ rest.countP Usb.sent := hcount
  have hk' : 128 + 128 * rest.countP Usb.sent ≤ k := hk
  have hleft := hreading.left
  omega

theorem eraseOf_isNone {locked : Bool} {cbw : Mem} (h : (eraseOf locked cbw).isNone = true)
    {P : Op → Prop} : ∀ op ∈ eraseOf locked cbw, P op := by
  intro op hop
  rw [Option.isNone_iff_eq_none.1 h] at hop
  cases hop

/-- A read of 128 blocks leaves the next 128 in the pre-read, and a read of the first of them is
answered from there. -/
theorem lba_read_coherent_ahead :
    let s := [sampleCommand 0x14 0 0 128].foldl (poll sampleEnv) (sampleStart false)
    let s' := [].foldl (poll sampleEnv) (poll sampleEnv s (sampleCommand 0x14 0 128 1))
    s.preRead = ⟨1, 128, 128⟩ ∧
      sentData s'.log
        = s.medium.lba.bytes (512 * cdbLba (s.received (sampleCommand 0x14 0 128 1)))
          (512 * cdbCount (s.received (sampleCommand 0x14 0 128 1))) := by
  have hrun : Run.Along (poll sampleEnv) (fun s u => BlockRequest s u ∧ Spared sampleEnv s u)
      (sampleStart false) ([sampleCommand 0x14 0 0 128] ++ [sampleCommand 0x14 0 128 1]) := by
    refine ⟨⟨fun _ => by decide, fun _ => ⟨eraseOf_isNone (by decide), ?_⟩⟩,
      ⟨fun _ => by decide +kernel, fun _ => ⟨eraseOf_isNone (by decide +kernel), ?_⟩⟩, trivial⟩
    · exact fun _ _ _ hle => absurd hle (by decide)
    · intro _ _ _ _
      decide +kernel
  refine ⟨by decide +kernel, ?_⟩
  exact (lba_read_coherent sampleEnv false Mem.zero Mem.zero
    sampleMedium ⟨Mem.zero, ⟨Mem.zero, []⟩⟩
    [sampleCommand 0x14 0 0 128] (sampleCommand 0x14 0 128 1) [] hrun nofun
    (by decide +kernel) (by decide +kernel) (by decide +kernel) (by decide +kernel)).1
    (by decide +kernel)

/-- Blocks 128 to 255 were read ahead, and then block 128 was erased. -/
def erasedAhead : State :=
  [sampleCommand 0x14 0 0 128, sampleCommand 0x25 0 128 1].foldl (poll sampleEnv) (sampleStart false)

/-- Blocks 128 to 255 of the PBA space were read ahead. -/
def pbaAhead : State :=
  poll sampleEnv
    (State.start false Mem.zero Mem.zero { sampleMedium with pba := fun _ => 1 }
      ⟨Mem.zero, ⟨Mem.zero, []⟩⟩) (sampleCommand 0x04 0 0 128)

/-- In either case an LBA read of block 128 does not send what the medium holds there. -/
theorem stale_preRead_sent :
    sentData (poll sampleEnv erasedAhead (sampleCommand 0x14 0 128 1)).log
        ≠ erasedAhead.medium.lba.bytes (512 * 128) 512 ∧
      sentData (poll sampleEnv pbaAhead (sampleCommand 0x14 0 128 1)).log
        ≠ pbaAhead.medium.lba.bytes (512 * 128) 512 := by
  decide +kernel

end Rockusb
