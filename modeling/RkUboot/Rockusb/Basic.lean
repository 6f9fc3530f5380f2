import RkUboot.Lib.Run
import RkUboot.Vendor.Basic

set_option autoImplicit false

/-! # The rockusb gadget (`common/cmd_rockusb.c`)

The host sends a 31-byte command block, data packets follow in one direction or the other, and a
status block ends the exchange. `poll` is one pass through the main loop of `do_rockusb`; what USB
has delivered since the last pass is its input. The storage driver sees two address spaces, LBA
blocks of 512 bytes and PBA blocks of 528, and the numbered system-data sectors.

A transfer to the host is not over when `udc_endpoint_write` returns: the controller fetches the
bytes from the buffer later. `inFlight` is the transfer under way, and the bytes count as sent, with
the contents the buffer has then, when the controller reports completion.

This is the gadget without `CONFIG_RK_DWC3_UDC`; what that option changes is in `Rockusb.Dwc3`. -/

namespace Rockusb

/-! ## The storage driver -/

inductive Space where
  | lba
  | pba
  deriving DecidableEq, Repr

/-- The two block address spaces and the system-data sectors, as the driver presents them. The drivers do
not bound the number of a system-data sector, so it may be one of the LBA blocks. -/
structure Medium where
  lba : Mem
  pba : Mem
  sys : Nat → Mem
  /-- The LBA block that a system-data sector is, if it is one. -/
  sysLba : Nat → Option Nat

/-- `SdhciSysDataStore` and `SdmmcSysDataStore` take block 8064 + `i` of the card, and LBA block `k` is
block 8192 + `k`. -/
def sdSysLba (i : Nat) : Option Nat := if 8192 ≤ 8064 + i then some (8064 + i - 8192) else none

/-- The contents of a system-data sector. -/
def Medium.sysSector (m : Medium) (i : Nat) : Mem :=
  match m.sysLba i with
  | some k => fun x => m.lba (512 * k + x)
  | none => m.sys i

/-- The driver calls that change the medium. -/
inductive Op where
  | writeLba (lba n mode : Nat) (buf : Mem)
  | writePba (pba n : Nat) (buf : Mem)
  | eraseBlock (blkIndex nblk mode : Nat)
  | eraseData (lba nSec : Nat)
  | lowFormat
  | sysDataStore (index : Nat) (buf : Mem)

/-- What the gadget depends on: the driver table `gpMemFun`, whose erase functions may be missing, the
key check, and the lock state of the boot ROM. -/
structure Env where
  /-- `gpMemFun->Valid` -/
  valid : Bool
  getTotleBlk : Nat
  getCurEraseBlock : Nat
  getCapacity : Nat
  erase : Option (Nat → Nat → Nat → Medium → Medium)
  /-- What `Erase` returns. -/
  eraseStatus : Nat → Nat → Nat → Medium → Int
  eraseData : Option (Nat → Nat → Medium → Medium)
  lowFormat : Option (Medium → Medium)
  readId : List UInt8
  readInfo : List UInt8
  chipInfo : List UInt8
  /-- `SecureModeRSAKeyCheck`: the key block as the check leaves it, if it passes. -/
  rsaKeyCheck : Mem → Option Mem
  /-- RK mode, or NS mode with a loader key (`RSK_KEY[0] == 0x400`). -/
  canLock : Bool
  vendorLayout : Vendor.Layout

/-- The effect of a driver call. -/
def Env.apply (env : Env) : Op → Medium → Medium
  | .writeLba lba n _ buf, m => { m with lba := m.lba.copy (512 * lba) buf 0 (512 * n) }
  | .writePba pba n buf, m => { m with pba := m.pba.copy (528 * pba) buf 0 (528 * n) }
  | .eraseBlock i n mode, m => match env.erase with | some f => f i n mode m | none => m
  | .eraseData lba n, m => match env.eraseData with | some f => f lba n m | none => m
  | .lowFormat, m => match env.lowFormat with | some f => f m | none => m
  | .sysDataStore i buf, m =>
    match m.sysLba i with
    | some k => { m with lba := m.lba.copy (512 * k) buf 0 512 }
    | none => { m with sys := fun j => if j = i then (m.sys i).copy 0 buf 0 512 else m.sys j }

/-! ## The command block -/

inductive Command where
  | testUnitReady
  | readFlashId
  | testBadBlock
  | read10
  | write10
  | erase10
  | erase10Force
  | lbaRead10
  | lbaWrite10
  | eraseSysDisk
  | readFlashInfo
  | getChipVer
  | lowFormat
  | setResetFlag
  | eraseData
  | reset
  | unknown
  deriving DecidableEq, Repr

/-- The `K_FW_` codes. -/
def Command.ofByte : Nat → Command
  | 0x00 => .testUnitReady
  | 0x01 => .readFlashId
  | 0x03 => .testBadBlock
  | 0x04 => .read10
  | 0x05 => .write10
  | 0x06 => .erase10
  | 0x0b => .erase10Force
  | 0x14 => .lbaRead10
  | 0x15 => .lbaWrite10
  | 0x16 => .eraseSysDisk
  | 0x1A => .readFlashInfo
  | 0x1B => .getChipVer
  | 0x1C => .lowFormat
  | 0x1E => .setResetFlag
  | 0x25 => .eraseData
  | 0xff => .reset
  | _ => .unknown

/-- The length of a `fsg_bulk_cb_wrap`. -/
def usbBulkCbWrapLen : Nat := 31

def cbwTag (cbw : Mem) : Nat := cbw.u32 4

def dataTransferLength (cbw : Mem) : Nat := cbw.u32 8

/-- Byte `i` of `cbw.CDB`. -/
def cdb (cbw : Mem) (i : Nat) : Nat := (cbw (15 + i)).toNat

/-- `get_unaligned_be32(&cbw.CDB[2])` -/
def cdbLba (cbw : Mem) : Nat :=
  cdb cbw 2 * 2 ^ 24 + cdb cbw 3 * 2 ^ 16 + cdb cbw 4 * 2 ^ 8 + cdb cbw 5

/-- `get_unaligned_be16(&cbw.CDB[7])` -/
def cdbCount (cbw : Mem) : Nat := cdb cbw 7 * 2 ^ 8 + cdb cbw 8

def commandOf (cbw : Mem) : Command := .ofByte (cdb cbw 0)

/-! ## State -/

inductive Status where
  | idle
  | cmd
  | rxdata
  | txdata
  | csw
  | rxdataPrepare
  | txdataPrepare
  deriving DecidableEq, Repr

def cswGood : Nat := 0

def cswFail : Nat := 1

/-- `RKUSB_BUFFER_BLOCK_MAX` -/
def rkusbBufferBlockMax : Nat := 0x80

inductive Event where
  /-- A command block was taken. -/
  | command
  /-- The controller has sent data to the host. -/
  | tx (data : List UInt8)
  | csw (tag residue status : Nat)
  /-- A call of `StorageReadLba` or `StorageReadPba`. -/
  | read (space : Space) (addr n : Nat)
  | op (op : Op)
  | vendorWrite (id : Nat)
  /-- `ISetLoaderFlag` -/
  | loaderFlag (flag : Nat)
  | resetCpu

/-- `usbcmd.pre_read`; the buffer is a `tx_buffer`, given by its number. -/
structure PreRead where
  buffer : Nat
  lba : Nat
  blocks : Nat
  deriving DecidableEq, Repr

/-- `usbcmd` with the globals of the storage and of secure boot. -/
structure State where
  status : Status
  cbw : Mem
  cmnd : Command
  lba : Nat
  imgwrMode : Nat
  dSize : Nat
  dBytes : Nat
  uSize : Nat
  uBytes : Nat
  resetFlag : Nat
  cswResidue : Nat
  cswStatus : Nat
  txbufNum : Nat
  txBuffer : Nat → Mem
  preRead : PreRead
  /-- `rcv_urb->buffer_length` -/
  bufferLength : Nat
  /-- `tx_urb->actual_length` -/
  txLength : Nat
  /-- The buffer and the length of the transfer to the host that is under way. -/
  inFlight : Option (Nat × Nat)
  /-- `SecureBootLock != 0` -/
  secureBootLock : Bool
  drmKeyInfo : Mem
  secureBootCheckBuf : Mem
  lowFormatEn : Bool
  medium : Medium
  vendor : Vendor.State
  /-- Reset, or caught in a loop. -/
  halted : Bool
  /-- What has happened, the latest first. -/
  log : List Event

/-- `do_rockusb` clears `usbcmd`; the rest is as boot left it. -/
def State.start (secureBootLock : Bool) (drmKeyInfo secureBootCheckBuf : Mem) (medium : Medium)
    (vendor : Vendor.State) : State where
  status := .idle
  cbw := Mem.zero
  cmnd := .testUnitReady
  lba := 0
  imgwrMode := 0
  dSize := 0
  dBytes := 0
  uSize := 0
  uBytes := 0
  resetFlag := 0
  cswResidue := 0
  cswStatus := 0
  txbufNum := 0
  txBuffer := fun _ => Mem.zero
  preRead := ⟨0, 0, 0⟩
  bufferLength := usbBulkCbWrapLen
  txLength := 0
  inFlight := none
  secureBootLock := secureBootLock
  drmKeyInfo := drmKeyInfo
  secureBootCheckBuf := secureBootCheckBuf
  lowFormatEn := false
  medium := medium
  vendor := vendor
  halted := false
  log := []

namespace State

def emit (s : State) (e : Event) : State := { s with log := e :: s.log }

/-- Call the driver. -/
def issue (env : Env) (s : State) (op : Op) : State :=
  { s with medium := env.apply op s.medium, log := .op op :: s.log }

def setTxBuffer (s : State) (i : Nat) (buf : Mem) : State :=
  { s with txBuffer := fun j => if j = i then buf else s.txBuffer j }

/-- Set the status block, which holds the residue in big-endian, and go to the next phase. -/
def answer (s : State) (residue status : Nat) (next : Status) : State :=
  { s with cswResidue := residue, cswStatus := status, status := next }

/-- The transfer under way is over. -/
def completeTx (s : State) : State :=
  match s.inFlight with
  | none => s
  | some (buffer, len) =>
    { s with inFlight := none, log := .tx ((s.txBuffer buffer).bytes 0 len) :: s.log }

/-- `rkusb_send_csw`: wait for the last transfer, send the status block and expect a command. -/
def sendCsw (s : State) : State :=
  let s := s.completeTx
  { s with
    bufferLength := usbBulkCbWrapLen
    status := .idle
    log := .csw (cbwTag s.cbw) s.cswResidue s.cswStatus :: s.log }

end State

/-! ## Commands -/

/-- The data of a command with a fixed answer goes to the transmit buffer. -/
def fwSendData (s : State) (data : List UInt8) (length : Nat) : State :=
  let i := s.txbufNum % 2
  { (s.setTxBuffer i ((s.txBuffer i).store 0 data)).answer (dataTransferLength s.cbw) cswGood .txdata
    with txLength := length }

/-- `FW_TestUnitReady` -/
def fwTestUnitReady (env : Env) (s : State) : State :=
  if ¬ env.valid then
    s.answer (env.getTotleBlk * 2 ^ 16 % 2 ^ 32 ||| env.getCurEraseBlock) cswFail .csw
  else if cdb s.cbw 1 = 0xFD then
    { s.answer (env.getTotleBlk * 2 ^ 16 % 2 ^ 32) cswFail .csw with lowFormatEn := true }
  else if cdb s.cbw 1 = 0xFA then
    { s.answer (dataTransferLength s.cbw) cswGood .csw with resetFlag := 0x10 }
  else if cdb s.cbw 1 = 0xF9 then s.answer env.getCapacity cswGood .csw
  else if s.secureBootLock then s.answer (dataTransferLength s.cbw) cswFail .csw
  else s.answer 6 cswGood .csw

/-- `FW_ReadID` -/
def fwReadID (env : Env) (s : State) : State := fwSendData s env.readId 5

/-- `FW_TestBadBlock` -/
def fwTestBadBlock (s : State) : State := fwSendData s (List.replicate 64 0) 64

/-- `FW_GetFlashInfo` -/
def fwGetFlashInfo (env : Env) (s : State) : State := fwSendData s env.readInfo 11

/-- `FW_GetChipVer` -/
def fwGetChipVer (env : Env) (s : State) : State := fwSendData s env.chipInfo 16

/-- Start of a read of blocks of the given length. -/
def startRead (s : State) (blockLength : Nat) : State :=
  { s with
    uSize := cdbCount s.cbw * blockLength
    uBytes := 0
    lba := cdbLba s.cbw
    status := .txdataPrepare }

/-- `FW_Read10` -/
def fwRead10 (s : State) : State := startRead s 528

/-- `FW_LBARead10` -/
def fwLBARead10 (s : State) : State := startRead s 512

/-- Forget the pre-read if the blocks to be written touch it. The sums are `uint32_t`. -/
def dropPreRead (p : PreRead) (lba blocks : Nat) : PreRead :=
  if ¬ ((lba + blocks) % 2 ^ 32 < p.lba ∨ lba > (p.lba + p.blocks) % 2 ^ 32) then
    { p with lba := 0, blocks := 0 }
  else p

/-- Start of a write of blocks of the given length. -/
def startWrite (s : State) (blockLength : Nat) : State :=
  { s with
    dSize := cdbCount s.cbw * blockLength
    dBytes := 0
    lba := cdbLba s.cbw
    preRead := dropPreRead s.preRead (cdbLba s.cbw) (cdbCount s.cbw * blockLength / blockLength)
    status := .rxdataPrepare }

/-- `FW_Write10` -/
def fwWrite10 (s : State) : State := startWrite s 528

/-- `FW_LBAWrite10` -/
def fwLBAWrite10 (s : State) : State := { startWrite s 512 with imgwrMode := cdb s.cbw 1 }

/-- `StorageEraseBlock` -/
def storageEraseBlock (env : Env) (s : State) (blkIndex nblk mode : Nat) : State :=
  if env.erase.isSome ∧ ¬ s.secureBootLock then s.issue env (.eraseBlock blkIndex nblk mode) else s

/-- `FW_Erase10` and `FW_Erase10Force`, which differ in the mode. -/
def eraseBlocks (env : Env) (s : State) (mode : Nat) : State :=
  let s :=
    if ¬ s.secureBootLock then storageEraseBlock env s (cdbLba s.cbw) (cdbCount s.cbw) mode else s
  s.answer (dataTransferLength s.cbw) cswGood .csw

/-- `FW_Erase10` -/
def fwErase10 (env : Env) (s : State) : State := eraseBlocks env s 0

/-- `FW_Erase10Force` -/
def fwErase10Force (env : Env) (s : State) : State := eraseBlocks env s 1

/-- `StorageEraseData`. Unlike `StorageEraseBlock` it does not ask for the lock. -/
def storageEraseData (env : Env) (s : State) (lba nSec : Nat) : State :=
  if env.eraseData.isSome then s.issue env (.eraseData lba nSec) else s

/-- `FW_EraseData` -/
def fwEraseData (env : Env) (s : State) : State :=
  let s := storageEraseData env s (cdbLba s.cbw) (cdbCount s.cbw)
  s.answer (dataTransferLength s.cbw) cswGood .csw

/-- `FW_LowFormatSysDisk` -/
def fwLowFormatSysDisk (s : State) : State := s.answer (dataTransferLength s.cbw) cswGood .csw

/-- `FW_LowFormat` -/
def fwLowFormat (s : State) : State :=
  { s.answer (dataTransferLength s.cbw) cswGood .csw with lowFormatEn := true }

/-- `FW_SetResetFlag` -/
def fwSetResetFlag (s : State) : State :=
  { s.answer (dataTransferLength s.cbw) cswGood .csw with resetFlag := 1 }

/-- `FW_Reset` -/
def fwReset (s : State) : State :=
  { s.answer (dataTransferLength s.cbw) cswGood .csw with
    resetFlag := if cdb s.cbw 1 ≠ 0 then cdb s.cbw 1 else 0xff }

/-- `FW_HandleUnknownCmd` -/
def fwHandleUnknownCmd (s : State) : State := s.answer (dataTransferLength s.cbw) cswFail .csw

/-- The `switch` of `do_rockusb_cmd`. -/
def dispatch (env : Env) (s : State) : State :=
  match s.cmnd with
  | .testUnitReady => fwTestUnitReady env s
  | .readFlashId => fwReadID env s
  | .testBadBlock => fwTestBadBlock s
  | .read10 => fwRead10 s
  | .write10 => fwWrite10 s
  | .erase10 => fwErase10 env s
  | .erase10Force => fwErase10Force env s
  | .lbaRead10 => fwLBARead10 s
  | .lbaWrite10 => fwLBAWrite10 s
  | .eraseSysDisk => fwLowFormatSysDisk s
  | .readFlashInfo => fwGetFlashInfo env s
  | .getChipVer => fwGetChipVer env s
  | .lowFormat => fwLowFormat s
  | .setResetFlag => fwSetResetFlag s
  | .eraseData => fwEraseData env s
  | .reset => fwReset s
  | .unknown => fwHandleUnknownCmd s

/-- `do_rockusb_cmd` -/
def doRockusbCmd (env : Env) (s : State) : State := dispatch env { s with cmnd := commandOf s.cbw }

/-! ## Data from the host -/

/-- `SYS_LOADER_ERR_FLAG` -/
def sysLoaderErrFlag : Nat := 0x1888AAFF

/-- `StorageVendorSysDataStore`, from sector `i` on with `left` sectors to go. Each sector gets its tag
and length in place. -/
def storageVendorSysDataStore (env : Env) (offset : Nat) (buf : Mem) : Nat → Nat → State → State
  | _, 0, s => s
  | i, left + 1, s =>
    let sector := (Mem.copy Mem.zero 0 buf (512 * i) 512).set32 0 0x444E4556
    let sector := sector.set32 4 504
    storageVendorSysDataStore env offset buf (i + 1) left
      (s.issue env (.sysDataStore (offset + 2 + i) sector))

/-- `SecureBootUnlock` -/
def secureBootUnlock (env : Env) (s : State) (key : Mem) : State :=
  let check := (s.secureBootCheckBuf.set8 0 0).set8 256 0xFF
  match env.rsaKeyCheck key with
  | some key => { s with secureBootCheckBuf := check.copy 0 key 0 512, secureBootLock := false }
  | none => { s with secureBootCheckBuf := check }

/-- The number of blocks is added to `usbcmd.lba`, a `uint32_t`. -/
def State.advance (s : State) (blocks : Nat) : State := { s with lba := (s.lba + blocks) % 2 ^ 32 }

/-- The end of `rkusb_handle_datarx`: what was received goes to the medium, or to one of the special
places that stand behind the highest addresses. -/
def writeMedia (env : Env) (s : State) (buf : Mem) (blocks : Nat) : State :=
  if blocks = 0 then s
  else
    match s.cmnd with
    | .write10 =>
      let s := s.emit (.loaderFlag sysLoaderErrFlag)
      if ¬ s.secureBootLock then (s.issue env (.writePba s.lba blocks buf)).advance blocks else s
    | .lbaWrite10 =>
      if 0xFFFFFF00 ≤ s.lba then
        (storageVendorSysDataStore env (s.lba - 0xFFFFFF00) buf 0 blocks s).advance blocks
      else if s.lba = 0xFFFFF000 then secureBootUnlock env s buf
      else if s.lba / 2 ^ 16 = 0xFFF0 then
        let id := buf.u16 0
        let (_, vendor) :=
          Vendor.vendorStorageWrite env.vendorLayout s.vendor id (fun x => buf (8 + x)) (buf.u16 4)
        ({ s with vendor := vendor }.emit (.vendorWrite id)).advance blocks
      else if ¬ s.secureBootLock then
        (s.issue env (.writeLba s.lba blocks s.imgwrMode buf)).advance blocks
      else s
    | _ => s

def rxBlockLength (cmnd : Command) : Nat := if cmnd = .write10 then 528 else 512

/-- The middle of `rkusb_handle_datarx`: ask for the next packet, or end the command. -/
def nextPacket (s : State) : State :=
  if s.dBytes < s.dSize then
    let blockLength := rxBlockLength s.cmnd
    { s with
      bufferLength := min ((s.dSize - s.dBytes) / blockLength) rkusbBufferBlockMax * blockLength
      status := .rxdata }
  else (s.answer (dataTransferLength s.cbw) cswGood s.status).sendCsw

/-- `rkusb_handle_datarx` on `len` received bytes. The status block goes out before the last packet is
written. -/
def rkusbHandleDatarx (env : Env) (s : State) (buf : Mem) (len : Nat) : State :=
  let blocks := len / rxBlockLength s.cmnd
  writeMedia env (nextPacket { s with dBytes := (s.dBytes + len) % 2 ^ 32 }) buf blocks

/-! ## Data to the host -/

def txBlockLength (cmnd : Command) : Nat := if cmnd = .read10 then 528 else 512

/-- `StorageVendorSysDataLoad`, from sector `i` on with `left` sectors to go. -/
def storageVendorSysDataLoad (m : Medium) (offset : Nat) : Nat → Nat → Mem → Mem
  | _, 0, buf => buf
  | i, left + 1, buf =>
    let buf := buf.copy (512 * i) (m.sysSector (offset + 2 + i)) 0 512
    let buf :=
      if offset + i < 2 then (buf.set32 (512 * i) 0x444E4556).set32 (512 * i + 4) 504 else buf
    storageVendorSysDataLoad m offset (i + 1) left buf

/-- The answer to a read of a vendor item: id and size, then the item. -/
def readVendorItem (s : State) (buf : Mem) : Mem :=
  let id := s.lba % 2 ^ 16
  let (ret, item) :=
    Vendor.vendorStorageRead s.vendor.ram id (fun x => buf (8 + x)) (s.uSize - 8)
  if ret = -1 then buf
  else
    let buf := buf.copy 8 item 0 (s.uSize - 8)
    let buf := (buf.set8 0 (UInt8.ofNat id)).set8 1 (UInt8.ofNat (id / 2 ^ 8))
    (buf.set8 4 (UInt8.ofNat ret.toNat)).set8 5 (UInt8.ofNat (ret.toNat / 2 ^ 8))

/-- The end of a pass of `rkusb_handle_datatx`: fill the pre-read buffer. -/
def readMedia (s : State) (blocks : Nat) : State :=
  let p := s.preRead
  let buf := s.txBuffer p.buffer
  match s.cmnd with
  | .read10 =>
    (s.setTxBuffer p.buffer (buf.copy 0 s.medium.pba (528 * p.lba) (528 * blocks))).emit
      (.read .pba p.lba blocks)
  | .lbaRead10 =>
    if 0xFFFFFF00 ≤ s.lba then
      s.setTxBuffer p.buffer
        (storageVendorSysDataLoad s.medium (p.lba - 0xFFFFFF00) 0 blocks buf)
    else if s.lba = 0xFFFFF000 then
      s.setTxBuffer p.buffer (buf.copy 0 s.secureBootCheckBuf 0 512)
    else if s.lba / 2 ^ 16 = 0xFFF0 then s.setTxBuffer p.buffer (readVendorItem s buf)
    else
      (s.setTxBuffer p.buffer (buf.copy 0 s.medium.lba (512 * p.lba) (512 * blocks))).emit
        (.read .lba p.lba blocks)
  | _ => s

/-- The blocks that the next transfer takes. -/
def txBlocks (s : State) : Nat :=
  min ((s.uSize - s.uBytes) / txBlockLength s.cmnd) rkusbBufferBlockMax

/-- The bytes that the next transfer takes. -/
def txdataSize (s : State) : Nat :=
  if (s.uSize - s.uBytes) / txBlockLength s.cmnd ≥ rkusbBufferBlockMax then
    rkusbBufferBlockMax * txBlockLength s.cmnd
  else s.uSize - s.uBytes

/-- The pre-read holds what is to be sent next. -/
def State.Hit (s : State) : Prop :=
  txBlocks s ≠ 0 ∧ txBlocks s ≤ s.preRead.blocks ∧ s.preRead.lba = s.lba
  deriving Decidable

/-- Send the pre-read if it is the right one. -/
def sendPreRead (s : State) : State :=
  if s.Hit then
    { s with
      uBytes := s.uBytes + txdataSize s
      lba := (s.lba + txBlocks s) % 2 ^ 32
      preRead := { s.preRead with blocks := s.preRead.blocks - txBlocks s }
      inFlight := some (s.preRead.buffer, txdataSize s) }
  else s

/-- Read ahead into the buffer that is not being sent. -/
def refill (s : State) (blocks : Nat) : State :=
  let s := { s with
    preRead := ⟨s.txbufNum % 2, s.lba, blocks⟩
    txbufNum := (s.txbufNum + 1) % 2 ^ 8 }
  if blocks ≠ 0 then readMedia s blocks else s

/-- One pass of `rkusb_handle_datatx` from its label `start`. -/
def datatxPass (s : State) : State :=
  let blocks := txBlocks s
  let s := sendPreRead s
  if s.uBytes = 0 ∨ blocks = rkusbBufferBlockMax then refill s blocks else s

/-- The passes of `rkusb_handle_datatx`. While nothing has been sent it goes back to `start`; the
    second pass sends what the first has read. -/
def datatxPasses (s : State) : State :=
  if (datatxPass s).uBytes = 0 then datatxPass (datatxPass s) else datatxPass s

/-- `rkusb_handle_datatx`. A read of no blocks sends nothing and never leaves the loop. -/
def rkusbHandleDatatx (s : State) : State :=
  let s := datatxPasses s
  if s.uBytes = 0 then { s with halted := true }
  else if s.uSize = s.uBytes then s.answer (dataTransferLength s.cbw) cswGood .csw
  else s

/-! ## The main loop -/

/-- What USB has delivered: `len` received bytes, and whether the last transfer has been completed. -/
structure Usb where
  buf : Mem
  len : Nat
  sent : Bool

/-- `rkusb_handle_response` -/
def rkusbHandleResponse (env : Env) (s : State) (u : Usb) : State :=
  match s.status with
  | .txdata =>
    { s with inFlight := some (s.txbufNum % 2, s.txLength) }.answer
      (dataTransferLength s.cbw) cswGood .csw
  | .rxdata =>
    let len := min u.len s.bufferLength
    if len ≠ 0 then rkusbHandleDatarx env s u.buf len else s
  | .rxdataPrepare => rkusbHandleDatarx env s u.buf 0
  | .txdataPrepare => if s.uBytes = 0 ∨ s.inFlight = none then rkusbHandleDatatx s else s
  | _ => s

/-- `gDrmKeyInfo.secureBootLock` -/
def drmLock (drmKeyInfo : Mem) : Nat := drmKeyInfo.u32 20

/-- `SecureBootLockLoader`, in either mode. -/
def secureBootLockLoader (env : Env) (s : State) : State :=
  if env.canLock ∧ drmLock s.drmKeyInfo = 0 then
    let drm := (s.drmKeyInfo.set32 20 1).set32 24 0
    { s with drmKeyInfo := drm }.issue env (.sysDataStore 1 drm)
  else s

/-- `SYS_LOADER_REBOOT_FLAG | BOOT_NORECOVER` -/
def rebootFlag : Nat := 0x5242C304

/-- `rkusb_reset_check` -/
def rkusbResetCheck (env : Env) (s : State) : State :=
  if s.resetFlag = 0x03 then
    { ({ s with resetFlag := 0 }.emit (.loaderFlag 0xEF08A53C)).emit .resetCpu with halted := true }
  else if s.resetFlag = 0x10 then secureBootLockLoader env { s with resetFlag := 0 }
  else if s.resetFlag = 0xFF then { { s with resetFlag := 0 }.emit .resetCpu with halted := true }
  else if s.resetFlag = 0x01 then
    { ({ s with resetFlag := 0 }.emit (.loaderFlag rebootFlag)).emit .resetCpu with halted := true }
  else s

/-- `rkusb_lowformat_check` -/
def rkusbLowformatCheck (env : Env) (s : State) : State :=
  if s.lowFormatEn then
    let s := if env.lowFormat.isSome ∧ ¬ s.secureBootLock then s.issue env .lowFormat else s
    { s with lowFormatEn := false }
  else s

/-- The main loop takes a command block in this pass. -/
def State.Takes (s : State) (u : Usb) : Prop := s.status = .idle ∧ u.len ≠ 0
  deriving Decidable

/-- The command block after a packet was received in its place. -/
def State.received (s : State) (u : Usb) : Mem := s.cbw.copy 0 u.buf 0 (min u.len usbBulkCbWrapLen)

/-- Take a command block if there is one. -/
def takeCommand (env : Env) (s : State) (u : Usb) : State :=
  if s.Takes u then
    doRockusbCmd env { s with cbw := s.received u, status := .cmd, log := .command :: s.log }
  else s

/-- Send the status block when it is due. -/
def State.sendStatus (s : State) : State := if s.status = .csw then s.sendCsw else s

/-- The tail of the main loop. -/
def finishPass (env : Env) (s : State) : State :=
  if s.halted then s
  else
    let s := rkusbResetCheck env s.sendStatus
    -- `reset_cpu` does not return
    if s.halted then s else rkusbLowformatCheck env s

/-- One pass through the main loop of `do_rockusb`. -/
def poll (env : Env) (s : State) (u : Usb) : State :=
  if s.halted then s
  else
    let s := if u.sent then s.completeTx else s
    finishPass env (rkusbHandleResponse env (takeCommand env s u) u)

/-! ## A sample device -/

/-- A driver that fills what it erases with ones. -/
def sampleEnv : Env where
  valid := true
  getTotleBlk := 1
  getCurEraseBlock := 0
  getCapacity := 0x1000
  erase := some (fun i n _ m => { m with pba := m.pba.fill (528 * i) 0xFF (528 * n) })
  eraseStatus := fun _ _ _ _ => 0
  eraseData := some (fun lba n m => { m with lba := m.lba.fill (512 * lba) 0xFF (512 * n) })
  lowFormat := none
  readId := []
  readInfo := []
  chipInfo := []
  rsaKeyCheck := fun _ => none
  canLock := true
  vendorLayout := Vendor.Layout.emmc

/-- An empty card. -/
def sampleMedium : Medium := ⟨Mem.zero, Mem.zero, fun _ => Mem.zero, sdSysLba⟩

abbrev sampleStart (secureBootLock : Bool) : State :=
  State.start secureBootLock Mem.zero Mem.zero sampleMedium ⟨Mem.zero, ⟨Mem.zero, []⟩⟩

/-- A command block with the given opcode, subcode, address and count. -/
def sampleCommand (opcode subcode : UInt8) (addr : Nat) (count : Nat) : Usb where
  buf := Mem.store Mem.zero 15
    [opcode, subcode, UInt8.ofNat (addr / 2 ^ 24), UInt8.ofNat (addr / 2 ^ 16),
      UInt8.ofNat (addr / 2 ^ 8), UInt8.ofNat addr, 0, UInt8.ofNat (count / 2 ^ 8),
      UInt8.ofNat count]
  len := 31
  sent := true

end Rockusb
