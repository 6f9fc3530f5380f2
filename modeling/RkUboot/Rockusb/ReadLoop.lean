import RkUboot.Rockusb.Dwc3
import RkUboot.Rockusb.PreRead

set_option autoImplicit false

/-! # The end of a read

`rkusb_handle_datatx` goes back to its label `start` as long as `u_bytes` is 0, and only a hit on the
pre-read changes that. It is called again after each transfer until `u_size` bytes are handed over.
This module has the loop with its passes counted, for both controllers, and settles when it ends. The
two differ in what a pass does (`datatxPass`, `datatxPassDwc3`); `PassSpec` is what they have in
common, and all that the results rest on. -/

namespace Rockusb

/-- A pass with or without `CONFIG_RK_DWC3_UDC`. -/
def datatxPassOf (dwc3 : Bool) : State → State := if dwc3 then datatxPassDwc3 else datatxPass

/-! ## The loop and its calls -/

/-- What `rkusb_handle_datatx` does behind its loop. -/
def endDatatx (s : State) : State :=
  if s.uSize = s.uBytes then s.answer (dataTransferLength s.cbw) cswGood .csw else s

/-- The loop of `rkusb_handle_datatx`, for at most `fuel` passes. -/
def datatxLoop (pass : State → State) : Nat → State → Option State
  | 0, _ => none
  | fuel + 1, s => if (pass s).uBytes = 0 then datatxLoop pass fuel (pass s) else some (endDatatx (pass s))

/-- A call of `rkusb_handle_datatx` returns. -/
def Returns (pass : State → State) (s s' : State) : Prop := ∃ fuel, datatxLoop pass fuel s = some s'

/-- Calls of `rkusb_handle_datatx`, with each transfer completed before the next call, all return and
    lead to the status phase. -/
inductive Served (pass : State → State) : State → State → Prop
  | last {s s' : State} (h : Returns pass s s') (hcsw : s'.status = .csw) : Served pass s s'
  | next {s s' s'' : State} (h : Returns pass s s') (hmore : s'.status = .txdataPrepare)
      (hrest : Served pass s'.completeTx s'') : Served pass s s''

theorem Served.status {pass : State → State} {s s' : State} (h : Served pass s s') :
    s'.status = .csw := by
  induction h with
  | last _ hcsw => exact hcsw
  | next _ _ _ ih => exact ih

/-! ## What a pass does -/

/-- Of a read of `n` blocks of `len` bytes, `k` blocks were sent, and no transfer is under way. -/
structure ReadPhase (len n k : Nat) (s : State) : Prop where
  len_eq : txBlockLength s.cmnd = len
  uSize : s.uSize = len * n
  uBytes : s.uBytes = len * k
  status : s.status = .txdataPrepare
  inFlight : s.inFlight = none
  sent : (sentData s.log).length = len * k

/-- A transfer is under way that brings the blocks sent to `k`. -/
structure Sent (len n k : Nat) (s : State) : Prop where
  len_eq : txBlockLength s.cmnd = len
  uSize : s.uSize = len * n
  uBytes : s.uBytes = len * k
  status : s.status = .txdataPrepare
  inFlight : ∃ buffer size, s.inFlight = some (buffer, size) ∧
    (sentData s.log).length + size = len * k

/-- And the pre-read is ready for the next one. -/
structure SendPhase (len n k : Nat) (s : State) : Prop extends Sent len n k s where
  ready : k < n → s.Hit

/-- What the passes of both variants have in common. -/
structure PassSpec (pass : State → State) : Prop where
  hit : ∀ {len n k : Nat} {s : State}, 0 < len → ReadPhase len n k s → k < n → s.Hit →
    SendPhase len n (k + min (n - k) rkusbBufferBlockMax) (pass s)
  miss : ∀ {len n : Nat} {s : State}, 0 < len → ReadPhase len n 0 s → 0 < n → ¬ s.Hit →
    ReadPhase len n 0 (pass s) ∧ (pass s).Hit
  stuck : ∀ {s : State}, s.uSize = 0 → s.uBytes = 0 → (pass s).uSize = 0 ∧ (pass s).uBytes = 0

section Pass

variable {len n k : Nat} {s s' : State}

theorem ReadPhase.txBlocks_eq (h : ReadPhase len n k s) (hlen : 0 < len) :
    txBlocks s = min (n - k) rkusbBufferBlockMax :=
  txBlocks_of_sizes hlen h.len_eq h.uSize h.uBytes

theorem ReadPhase.txdataSize_eq (h : ReadPhase len n k s) (hlen : 0 < len) :
    txdataSize s = len * min (n - k) rkusbBufferBlockMax :=
  txdataSize_of_sizes hlen h.len_eq h.uSize h.uBytes

/-- The states agree in what a read depends on besides the pre-read. -/
structure SameRead (s s' : State) : Prop where
  cmnd : s'.cmnd = s.cmnd
  uSize : s'.uSize = s.uSize
  uBytes : s'.uBytes = s.uBytes
  lba : s'.lba = s.lba
  status : s'.status = s.status
  inFlight : s'.inFlight = s.inFlight
  sent : sentData s'.log = sentData s.log

theorem SameRead.txBlocks (h : SameRead s s') : txBlocks s' = txBlocks s := by
  rw [Rockusb.txBlocks, h.cmnd, h.uSize, h.uBytes]
  rfl

theorem SameRead.readPhase (h : SameRead s s') (hs : ReadPhase len n k s) : ReadPhase len n k s' :=
  ⟨by rw [h.cmnd, hs.len_eq], by rw [h.uSize, hs.uSize], by rw [h.uBytes, hs.uBytes],
    by rw [h.status, hs.status], by rw [h.inFlight, hs.inFlight], by rw [h.sent, hs.sent]⟩

theorem refill_same (s : State) (blocks : Nat) :
    SameRead s (refill s blocks) ∧ (refill s blocks).preRead.lba = s.lba ∧
      (refill s blocks).preRead.blocks = blocks := by
  have hrefilled := refill_refilled s blocks
  obtain ⟨hcmnd, huSize, huBytes, hlba, hinFlight⟩ := hrefilled.same
  refine ⟨⟨hcmnd, huSize, huBytes, hlba, hrefilled.loop.status, hinFlight, hrefilled.sent⟩, ?_, ?_⟩
  · rw [hrefilled.preRead]
  · rw [hrefilled.preRead]

/-- Reading the media fills the buffer of the pre-read. -/
theorem readMedia_same (s : State) (blocks : Nat) :
    SameRead s (readMedia s blocks) ∧ (readMedia s blocks).preRead = s.preRead := by
  unfold readMedia
  split
  case h_2 => split_ifs <;> exact ⟨⟨rfl, rfl, rfl, rfl, rfl, rfl, rfl⟩, rfl⟩
  all_goals exact ⟨⟨rfl, rfl, rfl, rfl, rfl, rfl, rfl⟩, rfl⟩

theorem refillDwc3_same (s : State) (blocks : Nat) :
    SameRead s (refillDwc3 s blocks) ∧ (refillDwc3 s blocks).preRead.lba = s.lba ∧
      (refillDwc3 s blocks).preRead.blocks = blocks := by
  unfold refillDwc3
  split
  · obtain ⟨hsame, hpre⟩ := readMedia_same (State.setTxBuffer { s with
      preRead := ⟨s.txbufNum, s.lba, blocks⟩ } s.txbufNum
        ((s.txBuffer s.txbufNum).fill 0 0 (blocks * txBlockLength s.cmnd))) blocks
    exact ⟨{ hsame with }, by rw [hpre]; rfl, by rw [hpre]; rfl⟩
  · exact ⟨⟨rfl, rfl, rfl, rfl, rfl, rfl, rfl⟩, rfl, rfl⟩

/-- Reading ahead as many blocks as the next transfer takes makes for a hit. -/
theorem SameRead.hit (h : SameRead s s') {blocks : Nat} (hlba : s'.preRead.lba = s.lba)
    (hblocks : s'.preRead.blocks = blocks) (hpos : Rockusb.txBlocks s ≠ 0)
    (hle : Rockusb.txBlocks s ≤ blocks) : s'.Hit := by
  refine ⟨?_, ?_, ?_⟩
  · rw [h.txBlocks]
    exact hpos
  · rw [h.txBlocks, hblocks]
    exact hle
  · rw [hlba, h.lba]

theorem Sent.same (h : Sent len n k s) (hsame : SameRead s s') : Sent len n k s' :=
  ⟨by rw [hsame.cmnd, h.len_eq], by rw [hsame.uSize, h.uSize], by rw [hsame.uBytes, h.uBytes],
    by rw [hsame.status, h.status], by rw [hsame.inFlight, hsame.sent]; exact h.inFlight⟩

/-- After a full transfer the blocks read ahead are the ones to send next. -/
theorem Sent.ahead (h : Sent len n k s) (hlen : 0 < len) (hsame : SameRead s s')
    (hlba : s'.preRead.lba = s.lba) (hblocks : s'.preRead.blocks = rkusbBufferBlockMax) :
    SendPhase len n k s' := by
  refine ⟨h.same hsame, fun hmore => hsame.hit hlba hblocks ?_ (Nat.min_le_right _ _)⟩
  have hmax : rkusbBufferBlockMax = 128 := rfl
  rw [txBlocks_of_sizes hlen h.len_eq h.uSize h.uBytes]
  omega

theorem ReadPhase.sendPreRead (h : ReadPhase len n k s) (hlen : 0 < len) (hhit : s.Hit) :
    Sent len n (k + min (n - k) rkusbBufferBlockMax) (sendPreRead s) := by
  rw [Rockusb.sendPreRead, if_pos hhit, h.txdataSize_eq hlen]
  refine ⟨h.len_eq, h.uSize, ?_, h.status, _, _, rfl, ?_⟩
  · rw [h.uBytes, Nat.mul_add]
  · rw [h.sent, Nat.mul_add]

theorem ReadPhase.sendPreReadDwc3 (h : ReadPhase len n k s) (hlen : 0 < len) (hhit : s.Hit) :
    Sent len n (k + min (n - k) rkusbBufferBlockMax) (sendPreReadDwc3 s) := by
  rw [Rockusb.sendPreReadDwc3, if_pos hhit, h.txdataSize_eq hlen]
  refine ⟨h.len_eq, h.uSize, ?_, h.status, _, _, rfl, ?_⟩
  · rw [h.uBytes, Nat.mul_add]
  · rw [h.sent, Nat.mul_add]

/-- A read of nothing has no blocks to send. -/
theorem not_hit_of_empty (hsize : s.uSize = 0) : ¬ s.Hit := by
  intro hhit
  apply hhit.1
  rw [txBlocks, hsize, Nat.zero_sub, Nat.zero_div, Nat.zero_min]

end Pass

theorem datatxPass_spec : PassSpec datatxPass where
  hit := by
    intro len n k s hlen h hk hhit
    have hsent := h.sendPreRead hlen hhit
    have hblocks := h.txBlocks_eq hlen
    by_cases hfull : txBlocks s = rkusbBufferBlockMax
    · obtain ⟨hsame, hlba, hpre⟩ := refill_same (sendPreRead s) (txBlocks s)
      rw [datatxPass, if_pos (.inr hfull)]
      exact hsent.ahead hlen hsame hlba (hpre.trans hfull)
    · have hne : (sendPreRead s).uBytes ≠ 0 := by
        rw [hsent.uBytes]
        exact Nat.mul_ne_zero hlen.ne' (by omega)
      rw [datatxPass, if_neg (not_or.2 ⟨hne, hfull⟩)]
      exact ⟨hsent, fun hmore => by omega⟩
  miss := by
    intro len n s hlen h hn hmiss
    have hblocks := h.txBlocks_eq hlen
    have hmax : rkusbBufferBlockMax = 128 := rfl
    have hsend : sendPreRead s = s := by rw [sendPreRead, if_neg hmiss]
    obtain ⟨hsame, hlba, hpre⟩ := refill_same s (txBlocks s)
    rw [datatxPass, hsend, if_pos (.inl (by rw [h.uBytes, Nat.mul_zero]))]
    exact ⟨hsame.readPhase h, hsame.hit hlba hpre (by omega) le_rfl⟩
  stuck := by
    intro s hsize hbytes
    have hsend : sendPreRead s = s := by rw [sendPreRead, if_neg (not_hit_of_empty hsize)]
    obtain ⟨hsame, -⟩ := refill_same s (txBlocks s)
    rw [datatxPass, hsend, if_pos (.inl hbytes), hsame.uSize, hsame.uBytes]
    exact ⟨hsize, hbytes⟩

theorem datatxPassDwc3_spec : PassSpec datatxPassDwc3 where
  hit := by
    intro len n k s hlen h hk hhit
    have hsent := h.sendPreReadDwc3 hlen hhit
    have hblocks := h.txBlocks_eq hlen
    unfold datatxPassDwc3
    simp only
    split
    · next hend =>
      -- the whole read is handed over
      rw [hsent.uSize, hsent.uBytes] at hend
      have hlast := Nat.eq_of_mul_eq_mul_left hlen hend
      exact ⟨{ hsent with }, fun hmore => by omega⟩
    · next hend =>
      have hfull : txBlocks s = rkusbBufferBlockMax := by
        by_contra hno
        refine hend ?_
        rw [hsent.uSize, hsent.uBytes]
        congr 1
        omega
      obtain ⟨hsame, hlba, hpre⟩ := refillDwc3_same (sendPreReadDwc3 s) (txBlocks s)
      rw [if_pos (.inr hfull)]
      exact hsent.ahead hlen hsame hlba (hpre.trans hfull)
  miss := by
    intro len n s hlen h hn hmiss
    have hblocks := h.txBlocks_eq hlen
    have hmax : rkusbBufferBlockMax = 128 := rfl
    have hsend : sendPreReadDwc3 s = s := by rw [sendPreReadDwc3, if_neg hmiss]
    have hmore : ¬ s.uSize = s.uBytes := by
      rw [h.uSize, h.uBytes, Nat.mul_zero]
      exact Nat.mul_ne_zero hlen.ne' hn.ne'
    obtain ⟨hsame, hlba, hpre⟩ := refillDwc3_same s (txBlocks s)
    rw [datatxPassDwc3, hsend, if_neg hmore, if_pos (.inl (by rw [h.uBytes, Nat.mul_zero]))]
    exact ⟨hsame.readPhase h, hsame.hit hlba hpre (by omega) le_rfl⟩
  stuck := by
    intro s hsize hbytes
    have hsend : sendPreReadDwc3 s = s := by rw [sendPreReadDwc3, if_neg (not_hit_of_empty hsize)]
    rw [datatxPassDwc3, hsend, if_pos (hsize.trans hbytes.symm)]
    exact ⟨hsize, hbytes⟩

theorem datatxPassOf_spec (dwc3 : Bool) : PassSpec (datatxPassOf dwc3) := by
  cases dwc3 with
  | false => exact datatxPass_spec
  | true => exact datatxPassDwc3_spec

/-! ## Calls -/

section Calls

variable {pass : State → State} {len n k : Nat} {s s' : State}

/-- The state after a call that hands over the blocks up to `k`. -/
theorem SendPhase.endDatatx (h : SendPhase len n k s) (hlen : 0 < len) :
    (k = n → (endDatatx s).status = .csw) ∧ (k < n → endDatatx s = s) := by
  refine ⟨fun hlast => ?_, fun hmore => ?_⟩
  · rw [Rockusb.endDatatx, if_pos (by rw [h.uSize, h.uBytes, hlast])]
    rfl
  · rw [Rockusb.endDatatx, if_neg]
    rw [h.uSize, h.uBytes]
    exact fun heq => hmore.ne (Nat.eq_of_mul_eq_mul_left hlen heq).symm

theorem completeTx_sent {buffer size : Nat} (h : s.inFlight = some (buffer, size)) :
    (sentData s.completeTx.log).length = (sentData s.log).length + size := by
  rw [State.completeTx, h]
  show (sentData s.log ++ (s.txBuffer buffer).bytes 0 size).length = _
  rw [List.length_append, Mem.length_bytes]

/-- Once the transfer is completed, the next call finds its blocks in the pre-read. -/
theorem SendPhase.completeTx (h : SendPhase len n k s) :
    ReadPhase len n k s.completeTx ∧ (k < n → s.completeTx.Hit) := by
  obtain ⟨buffer, size, hflight, hsent⟩ := h.inFlight
  have hlog := completeTx_sent hflight
  have hstate : s.completeTx = { s with inFlight := none, log := s.completeTx.log } := by
    rw [State.completeTx, hflight]
  rw [hstate]
  exact ⟨⟨h.len_eq, h.uSize, h.uBytes, h.status, rfl, hlog.trans hsent⟩, h.ready⟩

/-- A call returns, after one pass or two. -/
theorem PassSpec.call (hpass : PassSpec pass) (hlen : 0 < len) (h : ReadPhase len n k s)
    (hk : k < n) (hnext : k ≠ 0 → s.Hit) :
    ∃ s', Returns pass s (endDatatx s') ∧
      SendPhase len n (k + min (n - k) rkusbBufferBlockMax) s' := by
  have hmax : rkusbBufferBlockMax = 128 := rfl
  have hone : ∀ {s : State}, ReadPhase len n k s → s.Hit →
      SendPhase len n (k + min (n - k) rkusbBufferBlockMax) (pass s) ∧
        datatxLoop pass 1 s = some (endDatatx (pass s)) := by
    intro s h hhit
    have hsend := hpass.hit hlen h hk hhit
    refine ⟨hsend, ?_⟩
    rw [datatxLoop, if_neg]
    rw [hsend.uBytes]
    exact Nat.mul_ne_zero hlen.ne' (by omega)
  by_cases hhit : s.Hit
  · obtain ⟨hsend, hloop⟩ := hone h hhit
    exact ⟨pass s, ⟨1, hloop⟩, hsend⟩
  · obtain rfl : k = 0 := by
      by_contra hk0
      exact hhit (hnext hk0)
    obtain ⟨hphase, hhit'⟩ := hpass.miss hlen h hk hhit
    obtain ⟨hsend, hloop⟩ := hone hphase hhit'
    refine ⟨pass (pass s), ⟨2, ?_⟩, hsend⟩
    rw [datatxLoop, if_pos (by rw [hphase.uBytes, Nat.mul_zero])]
    exact hloop

/-- **A read of at least one block ends with all its blocks sent.** -/
theorem PassSpec.served (hpass : PassSpec pass) (hlen : 0 < len) (h : ReadPhase len n k s)
    (hk : k < n) (hnext : k ≠ 0 → s.Hit) :
    ∃ s', Served pass s s' ∧ (sentData s'.completeTx.log).length = len * n := by
  have hmax : rkusbBufferBlockMax = 128 := rfl
  -- on the blocks that are left
  induction hleft : n - k using Nat.strong_induction_on generalizing k s with
  | _ left ih =>
    obtain ⟨s', hreturns, hsend⟩ := hpass.call hlen h hk hnext
    obtain ⟨hlast, hmore⟩ := hsend.endDatatx hlen
    rcases Nat.lt_or_ge (k + min (n - k) rkusbBufferBlockMax) n with hlt | hge
    · have hcall := hmore hlt
      rw [hcall] at hreturns
      obtain ⟨hphase, hhit⟩ := hsend.completeTx
      obtain ⟨s'', hserved, hsent⟩ := ih _ (by omega) hphase hlt (fun _ => hhit hlt) rfl
      exact ⟨s'', .next hreturns hsend.status hserved, hsent⟩
    · have hall : k + min (n - k) rkusbBufferBlockMax = n := by omega
      refine ⟨endDatatx s', .last hreturns (hlast hall), ?_⟩
      obtain ⟨buffer, size, hflight, hsent⟩ := hsend.inFlight
      have hend : endDatatx s' = s'.answer (dataTransferLength s'.cbw) cswGood .csw := by
        rw [endDatatx, if_pos (by rw [hsend.uSize, hsend.uBytes, hall])]
      have hflight' : (endDatatx s').inFlight = some (buffer, size) := by
        rw [hend]
        exact hflight
      have hlog : (endDatatx s').log = s'.log := by
        rw [hend]
        rfl
      rw [completeTx_sent hflight', hlog, hsent, hall]

/-- A read of no blocks never leaves the loop. -/
theorem PassSpec.loop_stuck (hpass : PassSpec pass) (hsize : s.uSize = 0) (hbytes : s.uBytes = 0)
    (fuel : Nat) : datatxLoop pass fuel s = none := by
  induction fuel generalizing s with
  | zero => rfl
  | succ fuel ih =>
    obtain ⟨hsize', hbytes'⟩ := hpass.stuck hsize hbytes
    rw [datatxLoop, if_pos hbytes']
    exact ih hsize' hbytes'

theorem PassSpec.not_served (hpass : PassSpec pass) (hsize : s.uSize = 0) (hbytes : s.uBytes = 0) :
    ¬ Served pass s s' := by
  have hnone : ∀ s', ¬ Returns pass s s' := by
    rintro s' ⟨fuel, hloop⟩
    rw [hpass.loop_stuck hsize hbytes] at hloop
    exact absurd hloop nofun
  intro h
  cases h with
  | last h => exact hnone _ h
  | next h => exact hnone _ h

end Calls

/-! ## Commands -/

/-- A read command that is taken begins with nothing sent. -/
theorem takeCommand_readPhase (env : Env) {s : State} {u : Usb} (htakes : s.Takes u)
    (hcmnd : commandOf (s.received u) = .read10 ∨ commandOf (s.received u) = .lbaRead10)
    (hflight : s.inFlight = none) :
    ReadPhase (txBlockLength (commandOf (s.received u))) (cdbCount (s.received u)) 0
      (takeCommand env s u) := by
  rw [takeCommand, if_pos htakes, doRockusbCmd, dispatch]
  rcases hcmnd with hcmnd | hcmnd
  · simp only [hcmnd]
    exact ⟨rfl, Nat.mul_comm _ _, rfl, rfl, hflight, rfl⟩
  · simp only [hcmnd]
    exact ⟨rfl, Nat.mul_comm _ _, rfl, rfl, hflight, rfl⟩

theorem txBlockLength_pos (cmnd : Command) : 0 < txBlockLength cmnd := by
  unfold txBlockLength
  split <;> decide

/-- **For every state the earlier commands have left without a transfer under way, every command block
    with a read opcode, and both variants: the calls of `rkusb_handle_datatx` all return, send
    `u_size` bytes in total and lead to the status phase, exactly if the block count is not 0.** -/
theorem read_served_iff (dwc3 : Bool) (env : Env) {s : State} {u : Usb} (hidle : s.status = .idle)
    (hlen : u.len = usbBulkCbWrapLen)
    (hcmnd : commandOf (s.received u) = .read10 ∨ commandOf (s.received u) = .lbaRead10)
    (hflight : s.inFlight = none) :
    (∃ s', Served (datatxPassOf dwc3) (takeCommand env s u) s' ∧ s'.status = .csw ∧
        (sentData s'.completeTx.log).length = (takeCommand env s u).uSize ∧
        (takeCommand env s u).uSize
          = cdbCount (s.received u) * txBlockLength (commandOf (s.received u))) ↔
      cdbCount (s.received u) ≠ 0 := by
  have htakes : s.Takes u := ⟨hidle, by rw [hlen]; decide⟩
  have hphase := takeCommand_readPhase env htakes hcmnd hflight
  have hpos := txBlockLength_pos (commandOf (s.received u))
  have hspec := datatxPassOf_spec dwc3
  constructor
  · rintro ⟨s', hserved, -⟩ hzero
    refine hspec.not_served ?_ ?_ hserved
    · rw [hphase.uSize, hzero, Nat.mul_zero]
    · rw [hphase.uBytes, Nat.mul_zero]
  · intro hcount
    obtain ⟨s', hserved, hsent⟩ :=
      hspec.served hpos hphase (Nat.pos_of_ne_zero hcount) (fun h => absurd rfl h)
    exact ⟨s', hserved, hserved.status, by rw [hsent, hphase.uSize],
      by rw [hphase.uSize, Nat.mul_comm]⟩

/-- A read of 200 blocks of 512 bytes, with either controller: two transfers. -/
theorem read_served_iff_two_transfers :
    (∃ s', Served (datatxPassOf true)
        (takeCommand sampleEnv (sampleStart false) (sampleCommand 0x14 0 64 200)) s' ∧
      s'.status = .csw ∧ (sentData s'.completeTx.log).length = 102400) ∧
    (∃ s', Served (datatxPassOf false)
        (takeCommand sampleEnv (sampleStart false) (sampleCommand 0x14 0 64 200)) s' ∧
      s'.status = .csw ∧ (sentData s'.completeTx.log).length = 102400) := by
  have hcount : cdbCount ((sampleStart false).received (sampleCommand 0x14 0 64 200)) = 200 := by
    decide +kernel
  have hcmnd : commandOf ((sampleStart false).received (sampleCommand 0x14 0 64 200))
      = .lbaRead10 := by
    decide +kernel
  have heither : ∀ dwc3, ∃ s', Served (datatxPassOf dwc3)
        (takeCommand sampleEnv (sampleStart false) (sampleCommand 0x14 0 64 200)) s' ∧
      s'.status = .csw ∧ (sentData s'.completeTx.log).length = 102400 := by
    intro dwc3
    obtain ⟨s', hserved, hcsw, hsent, hsize⟩ :=
      (read_served_iff dwc3 sampleEnv (s := sampleStart false) (u := sampleCommand 0x14 0 64 200)
        rfl rfl (.inr hcmnd) rfl).2 (by rw [hcount]; decide)
    refine ⟨s', hserved, hcsw, ?_⟩
    rw [hsent, hsize, hcount, hcmnd]
    decide
  exact ⟨heither true, heither false⟩

/-- A read of 0 blocks: with either controller the call never returns. -/
theorem read_of_nothing_never_returns :
    (∀ fuel, datatxLoop (datatxPassOf true) fuel
      (takeCommand sampleEnv (sampleStart false) (sampleCommand 0x14 0 64 0)) = none) ∧
    (∀ fuel, datatxLoop (datatxPassOf false) fuel
      (takeCommand sampleEnv (sampleStart false) (sampleCommand 0x14 0 64 0)) = none) := by
  have hsize : (takeCommand sampleEnv (sampleStart false) (sampleCommand 0x14 0 64 0)).uSize = 0 := by
    decide +kernel
  have hbytes : (takeCommand sampleEnv (sampleStart false) (sampleCommand 0x14 0 64 0)).uBytes = 0 := by
    decide +kernel
  exact ⟨(datatxPassOf_spec true).loop_stuck hsize hbytes,
    (datatxPassOf_spec false).loop_stuck hsize hbytes⟩

end Rockusb
