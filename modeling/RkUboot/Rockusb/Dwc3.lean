import RkUboot.Lib.Bytes
import RkUboot.Rockusb.Basic

set_option autoImplicit false

/-! # The gadget with `CONFIG_RK_DWC3_UDC`

On the RK3399 the gadget does not wait for the controller. `rkusb_read_bulk_ep` and
`rkusb_write_bulk_ep` post a transfer, and `rx_giveback` and `tx_giveback` say later what has become of
it. So a packet stays where it is until the next read is posted, and a status block that cannot be sent
yet is left for a later pass: then the packet before it is handled once more.

The storage side is the same as without the option, but an erase reports its status. That the last
transfer has been sent (`tx_giveback.status == SEND_FINISHED_OK`) is again that none is in flight. -/

namespace Rockusb

/-- `usbcmd` with `rx_giveback`. -/
structure Dwc3 extends State where
  /-- `rx_giveback.status == RECV_OK`; otherwise a read is posted. -/
  rxOk : Bool
  rxActual : Nat
  rxBuf : Mem

/-- What the controller reports in one pass: a packet for the read that is posted, and that the last
transfer is over. -/
structure Interrupts where
  recv : Option (Nat × Mem)
  sent : Bool

/-! ## Data to the host -/

/-- Send the buffer that is filled, if the pre-read is the right one. -/
def sendPreReadDwc3 (s : State) : State :=
  if s.Hit then
    { s with
      uBytes := s.uBytes + txdataSize s
      lba := (s.lba + txBlocks s) % 2 ^ 32
      preRead := { s.preRead with blocks := s.preRead.blocks - txBlocks s }
      inFlight := some (s.txbufNum, txdataSize s)
      txbufNum := (s.txbufNum + 1) % 2 }
  else s

/-- Read ahead into the buffer that is sent next; it is cleared first. -/
def refillDwc3 (s : State) (blocks : Nat) : State :=
  let s := { s with preRead := ⟨s.txbufNum, s.lba, blocks⟩ }
  if blocks ≠ 0 then
    readMedia (s.setTxBuffer s.preRead.buffer
      ((s.txBuffer s.preRead.buffer).fill 0 0 (blocks * txBlockLength s.cmnd))) blocks
  else s

/-- One pass of `rkusb_handle_datatx` from its label `start`. The end of the read forgets the
    pre-read. -/
def datatxPassDwc3 (s : State) : State :=
  let blocks := txBlocks s
  let s := sendPreReadDwc3 s
  if s.uSize = s.uBytes then { s with preRead := { s.preRead with lba := 0, blocks := 0 } }
  else if s.uBytes = 0 ∨ blocks = rkusbBufferBlockMax then refillDwc3 s blocks
  else s

namespace Dwc3

/-- The passes of `rkusb_handle_datatx`; as without the option, the second one sends what the first has
read. -/
def datatxPasses (s : State) : State :=
  if (datatxPassDwc3 s).uBytes = 0 then datatxPassDwc3 (datatxPassDwc3 s) else datatxPassDwc3 s

/-- `rkusb_handle_datatx` -/
def rkusbHandleDatatx (s : State) : State :=
  let s := datatxPasses s
  if s.uBytes = 0 then { s with halted := true }
  else if s.uSize = s.uBytes then s.answer (dataTransferLength s.cbw) cswGood .csw
  else s

/-! ## Transfers -/

/-- `do_rockusb` clears `usbcmd`, and the configuration of the device posts the first read. -/
def start (secureBootLock : Bool) (drmKeyInfo secureBootCheckBuf : Mem) (medium : Medium)
    (vendor : Vendor.State) : Dwc3 :=
  { State.start secureBootLock drmKeyInfo secureBootCheckBuf medium vendor with
    rxOk := false, rxActual := 0, rxBuf := Mem.zero }

/-- `rkusb_write_bulk_ep` of `tx_buffer[txbuf_num]`; the other buffer is next. -/
def rkusbWriteBulkEp (g : Dwc3) (len : Nat) : Dwc3 :=
  { g with inFlight := some (g.txbufNum, len), txbufNum := (g.txbufNum + 1) % 2 }

/-- `rkusb_read_bulk_ep` -/
def rkusbReadBulkEp (g : Dwc3) (len : Nat) : Dwc3 :=
  { g with bufferLength := len, rxOk := false, rxActual := 0 }

/-- The 13 bytes of `usbcmd.csw`. -/
def cswBytes (s : State) : List UInt8 :=
  [0x55, 0x53, 0x42, 0x53] ++ Mem.le32 (cbwTag s.cbw) ++ (Mem.le32 s.cswResidue).reverse ++
    [UInt8.ofNat s.cswStatus]

/-- `rkusb_send_csw`, which does nothing while a transfer is under way. -/
def rkusbSendCsw (g : Dwc3) : Dwc3 :=
  if g.inFlight ≠ none then g
  else
    let buf := (g.txBuffer g.txbufNum).store 0 (cswBytes g.toState)
    let g := { g with toState := g.setTxBuffer g.txbufNum buf }
    let g := (g.rkusbWriteBulkEp 13).rkusbReadBulkEp usbBulkCbWrapLen
    { g with status := .idle, log := .csw (cbwTag g.cbw) g.cswResidue g.cswStatus :: g.log }

/-- `dwc3_tx_handler`; a transfer that fails stays under way. -/
def dwc3TxHandler (g : Dwc3) (sent : Bool) : Dwc3 :=
  if sent then { g with toState := g.completeTx } else g

/-- `dwc3_rx_handler`, which is called only for a read that is posted. -/
def dwc3RxHandler (g : Dwc3) : Option (Nat × Mem) → Dwc3
  | some (len, buf) =>
    if g.rxOk then g else { g with rxOk := true, rxActual := min len g.bufferLength, rxBuf := buf }
  | none => g

/-- `dwc3_uboot_handle_interrupt` -/
def handleInterrupt (g : Dwc3) (u : Interrupts) : Dwc3 := (g.dwc3TxHandler u.sent).dwc3RxHandler u.recv

/-! ## Commands -/

/-- `FW_Write10` -/
def fwWrite10 (g : Dwc3) : Dwc3 := { g with toState := Rockusb.fwWrite10 g.toState, rxActual := 0 }

/-- `FW_LBAWrite10` -/
def fwLBAWrite10 (g : Dwc3) : Dwc3 :=
  { g with toState := Rockusb.fwLBAWrite10 g.toState, rxActual := 0 }

/-- The status that `StorageEraseBlock` returns. -/
def eraseStatus (env : Env) (s : State) (mode : Nat) : Int :=
  if env.erase.isSome ∧ ¬ s.secureBootLock then
    env.eraseStatus (cdbLba s.cbw) (cdbCount s.cbw) mode s.medium
  else 0

/-- `FW_Erase10` and `FW_Erase10Force`, which differ in the mode. -/
def eraseBlocks (env : Env) (s : State) (mode : Nat) : State :=
  let status := if ¬ s.secureBootLock then eraseStatus env s mode else 0
  let s :=
    if ¬ s.secureBootLock then storageEraseBlock env s (cdbLba s.cbw) (cdbCount s.cbw) mode else s
  s.answer (dataTransferLength s.cbw) (if status = 0 then 0 else 1) .csw

/-- `FW_Erase10` -/
def fwErase10 (env : Env) (g : Dwc3) : Dwc3 := { g with toState := eraseBlocks env g.toState 0 }

/-- `FW_Erase10Force` -/
def fwErase10Force (env : Env) (g : Dwc3) : Dwc3 := { g with toState := eraseBlocks env g.toState 1 }

/-- The `switch` of `do_rockusb_cmd`; the other commands have one body, or bodies that do the same. -/
def dispatch (env : Env) (g : Dwc3) : Dwc3 :=
  match g.cmnd with
  | .write10 => fwWrite10 g
  | .erase10 => fwErase10 env g
  | .erase10Force => fwErase10Force env g
  | .lbaWrite10 => fwLBAWrite10 g
  | _ => { g with toState := Rockusb.dispatch env g.toState }

/-- The command block after `do_rockusb_cmd` has copied it; `sizeof(usbcmd.cbw)` is 32. -/
def received (g : Dwc3) : Mem := g.cbw.copy 0 g.rxBuf 0 32

/-- `do_rockusb_cmd` -/
def doRockusbCmd (env : Env) (g : Dwc3) : Dwc3 :=
  dispatch env { g with cbw := g.received, cmnd := commandOf g.received }

/-- The main loop takes a command block in this pass. -/
def Takes (g : Dwc3) : Prop := g.status = .idle ∧ g.rxActual ≠ 0
  deriving Decidable

/-- Take a command block if there is one. -/
def takeCommand (env : Env) (g : Dwc3) : Dwc3 :=
  if g.Takes then doRockusbCmd env { g with status := .cmd, log := .command :: g.log } else g

/-! ## Data from the host -/

/-- The middle of `rkusb_handle_datarx`: ask for the next packet, or end the command. -/
def nextPacket (g : Dwc3) : Dwc3 :=
  if g.dBytes < g.dSize then
    let blockLength := rxBlockLength g.cmnd
    { g.rkusbReadBulkEp (min ((g.dSize - g.dBytes) / blockLength) rkusbBufferBlockMax * blockLength)
      with status := .rxdata }
  else { g with toState := g.answer (dataTransferLength g.cbw) cswGood g.status }.rkusbSendCsw

/-- `rkusb_handle_datarx` -/
def rkusbHandleDatarx (env : Env) (g : Dwc3) : Dwc3 :=
  let buf := g.rxBuf
  let blocks := g.rxActual / rxBlockLength g.cmnd
  let g := nextPacket { g with dBytes := (g.dBytes + g.rxActual) % 2 ^ 32 }
  { g with toState := writeMedia env g.toState buf blocks }

/-! ## The main loop -/

/-- `rkusb_handle_response` -/
def rkusbHandleResponse (env : Env) (g : Dwc3) : Dwc3 :=
  match g.status with
  | .txdata =>
    let g := g.rkusbWriteBulkEp g.txLength
    { g with toState := g.answer (dataTransferLength g.cbw) cswGood .csw }
  | .rxdata => if g.rxOk then g.rkusbHandleDatarx env else g
  | .rxdataPrepare => g.rkusbHandleDatarx env
  | .txdataPrepare =>
    if g.uBytes = 0 ∨ g.inFlight = none then { g with toState := rkusbHandleDatatx g.toState } else g
  | _ => g

/-- Send the status block when it is due. -/
def sendStatus (g : Dwc3) : Dwc3 := if g.status = .csw then g.rkusbSendCsw else g

/-- The tail of the main loop. -/
def finishPass (env : Env) (g : Dwc3) : Dwc3 :=
  if g.halted then g
  else
    let s := rkusbResetCheck env g.sendStatus.toState
    { g.sendStatus with toState := if s.halted then s else rkusbLowformatCheck env s }

/-- One pass through the main loop of `do_rockusb`. -/
def poll (env : Env) (g : Dwc3) (u : Interrupts) : Dwc3 :=
  if g.halted then g
  else finishPass env (rkusbHandleResponse env (takeCommand env (g.handleInterrupt u)))

end Dwc3

end Rockusb
