import RkUboot.Fastboot.Basic
import RkUboot.Lib.Bytes
import RkUboot.Net.Defrag

set_option autoImplicit false

/-! # TFTP

`net/tftp.c`, without multicast, `tsize`, the TFTP server and flash as the destination, and with
`tftpput`. The static variables are the state; a call of `TftpSend` returns the packet it sends.
`ulong` has 64 bits, `int` has 32, and a product that leaves `int` is undefined. -/

namespace Tftp

open Fastboot (ascii simpleStrtoul)
open Net (be16)

/-! ## State -/

/-- `TftpState` -/
inductive State where
  | sendRrq | data | tooLarge | badMagic | oack | recvWrq | sendWrq
  deriving DecidableEq, Repr

/-- What `net_set_state` was called with; `startAgain` stands for `NetStartAgain`. -/
inductive Loop where
  | running | startAgain | success | fail
  deriving DecidableEq, Repr

/-- `TIMEOUT_COUNT` -/
def timeoutCountDefault : Nat := 10

/-- `TFTP_SEQUENCE_SIZE` -/
def tftpSequenceSize : Nat := 65536

/-- The variables, and memory. -/
structure Client where
  tftpState : State
  tftpBlock : Nat
  tftpLastBlock : Nat
  tftpBlockWrap : Nat
  tftpBlockWrapOffset : Nat
  tftpBlkSize : Nat
  tftpBlkSizeOption : Nat
  tftpTimeoutMSecs : Nat
  tftpTimeoutCount : Nat
  tftpTimeoutCountMax : Nat
  tftpRemotePort : Nat
  tftpOurPort : Nat
  tftpWriting : Bool
  tftpFinalBlock : Bool
  tftpFilename : List UInt8
  netBootFileXferSize : Nat
  loadAddr : Nat
  saveAddr : Nat
  saveSize : Nat
  mem : Mem
  loop : Loop

/-! ## Blocks -/

/-- Model of `store_block`; `none` if the product leaves `int`. -/
def storeBlock (c : Client) (block : Int) (src : List UInt8) : Option Client :=
  let product := block * c.tftpBlkSize
  if product < -2 ^ 31 ∨ 2 ^ 31 ≤ product then none
  else
    let offset := ((product + c.tftpBlockWrapOffset) % 2 ^ 64).toNat
    let newsize := (offset + src.length) % 2 ^ 64
    some { c with
      mem := c.mem.copy ((c.loadAddr + offset) % 2 ^ 64) (Mem.ofList src) 0 src.length
      netBootFileXferSize := if c.netBootFileXferSize < newsize then newsize else c.netBootFileXferSize }

/-- Model of `new_transfer`. -/
def newTransfer (c : Client) : Client :=
  { c with tftpLastBlock := 0, tftpBlockWrap := 0, tftpBlockWrapOffset := 0, tftpFinalBlock := false }

/-- Model of `load_block`: `((int)block - 1) * len` is an `unsigned`. -/
def loadBlock (c : Client) (block len : Nat) : List UInt8 :=
  let offset := ((((block : Int) - 1) * len % 2 ^ 32).toNat + c.tftpBlockWrapOffset) % 2 ^ 64
  let tosend := min (((c.netBootFileXferSize : Int) - offset) % 2 ^ 64).toNat len
  c.mem.bytes ((c.saveAddr + offset) % 2 ^ 64) tosend

/-- Model of `update_block_number`. -/
def updateBlockNumber (c : Client) : Client :=
  if c.tftpBlock = 0 ∧ c.tftpLastBlock ≠ 0 then { c with
    tftpBlockWrap := (c.tftpBlockWrap + 1) % 2 ^ 64
    tftpBlockWrapOffset := (c.tftpBlockWrapOffset + c.tftpBlkSize * tftpSequenceSize) % 2 ^ 64
    tftpTimeoutCount := 0 }
  else c

/-- Model of `tftp_complete`. -/
def tftpComplete (c : Client) : Client := { c with loop := .success }

/-! ## Packets -/

/-- `htons`, the two bytes in their order. -/
def htons (n : Nat) : List UInt8 := [UInt8.ofNat (n / 256), UInt8.ofNat n]

/-- A string with its terminator. -/
def cstring (s : List UInt8) : List UInt8 := s ++ [0]

/-- Model of `TftpSend`. -/
def tftpSend (c : Client) : Client × List UInt8 :=
  match c.tftpState with
  | .sendRrq | .sendWrq =>
    (c, htons (if c.tftpState = .sendRrq then 1 else 2) ++ cstring c.tftpFilename ++ cstring (ascii "octet")
      ++ cstring (ascii "timeout") ++ cstring (ascii (toString (c.tftpTimeoutMSecs / 1000)))
      ++ cstring (ascii "blksize") ++ cstring (ascii (toString c.tftpBlkSizeOption)))
  | .oack | .recvWrq | .data =>
    if c.tftpWriting then
      let loaded := loadBlock c c.tftpBlock c.tftpBlkSize
      ({ c with tftpFinalBlock := decide (loaded.length < c.tftpBlkSize) }, htons 3 ++ htons c.tftpBlock ++ loaded)
    else (c, htons 4 ++ htons c.tftpBlock)
  | .tooLarge => (c, htons 5 ++ htons 3 ++ cstring (ascii "File too large"))
  | .badMagic => (c, htons 5 ++ htons 2 ++ cstring (ascii "File has bad magic"))

/-- A UDP packet in the receive buffer, with what is behind it. -/
structure Received where
  bytes : List UInt8
  behind : List UInt8

/-- All bytes that a pointer into the packet can read. -/
def Received.all (pkt : Received) : List UInt8 := pkt.bytes ++ pkt.behind

/-- The `blksize` options of an OACK, each of which replaces `TftpBlkSize`. -/
def blkSizeOption (options : List UInt8) (len blkSize : Nat) : Nat :=
  (List.range (len - 8)).foldl (fun size i =>
    if (options.drop i).take 8 = cstring (ascii "blksize") then
      (simpleStrtoul 10 (options.drop (i + 8))).1 % 65536
    else size) blkSize

/-- An OACK: `TftpHandler`, case `TFTP_OACK`. -/
def handleOack (c : Client) (src : Nat) (pkt : Received) : Client × List UInt8 :=
  let c := { c with
    tftpState := .oack
    tftpRemotePort := src
    tftpBlkSize := blkSizeOption (pkt.all.drop 2) (pkt.bytes.length - 2) c.tftpBlkSize }
  tftpSend (if c.tftpWriting then { c with tftpState := .data, tftpBlock := (c.tftpBlock + 1) % 2 ^ 64 } else c)

/-- An acknowledgement: `TftpHandler`, case `TFTP_ACK`. -/
def handleAck (c : Client) (pkt : Received) : Client × List (List UInt8) :=
  if c.tftpWriting = false then (c, [])
  else if c.tftpFinalBlock then (tftpComplete c, [])
  else
    let block := be16 pkt.all 2
    let c' := updateBlockNumber { c with tftpBlock := (block + 1) % 65536 }
    if c.tftpBlock = block then ((tftpSend c').1, [(tftpSend c').2]) else (c', [])

/-- The first block that arrives starts the transfer; `none` if it is not block 1. -/
def firstBlock (c : Client) (src : Nat) : Option Client :=
  if c.tftpState = .sendRrq ∨ c.tftpState = .oack ∨ c.tftpState = .recvWrq then
    if c.tftpBlock ≠ 1 then none else some (newTransfer { c with tftpState := .data, tftpRemotePort := src })
  else some c

/-- A block of data: `TftpHandler`, case `TFTP_DATA`. -/
def handleData (c : Client) (src : Nat) (pkt : Received) : Option (Client × List (List UInt8)) :=
  if pkt.bytes.length < 4 then some (c, [])
  else
    let block := be16 pkt.bytes 2
    let data := pkt.bytes.drop 4
    let c := updateBlockNumber { c with tftpBlock := block }
    match firstBlock c src with
    | none =>
      some ({ newTransfer { c with tftpState := .data, tftpRemotePort := src } with loop := .startAgain }, [])
    | some c =>
      -- the same block again is ignored
      if block = c.tftpLastBlock then some (c, [])
      else
        match storeBlock { c with tftpLastBlock := block, tftpTimeoutCountMax := timeoutCountDefault } (block - 1) data
        with
        | none => none
        | some c =>
          let (c, packet) := tftpSend c
          some (if data.length < c.tftpBlkSize then tftpComplete c else c, [packet])

/-- An error of the server: `TftpHandler`, case `TFTP_ERROR`. -/
def handleError (c : Client) (pkt : Received) : Client :=
  { c with loop := if be16 pkt.all 2 = 1 ∨ be16 pkt.all 2 = 2 then .fail else .startAgain }

/-- Model of `TftpHandler`, with the packets it sends. -/
def tftpHandler (c : Client) (pkt : Received) (dest src : Nat) : Option (Client × List (List UInt8)) :=
  if dest ≠ c.tftpOurPort then some (c, [])
  else if c.tftpState ≠ .sendRrq ∧ src ≠ c.tftpRemotePort ∧ c.tftpState ≠ .recvWrq ∧ c.tftpState ≠ .sendWrq then
    some (c, [])
  else if pkt.bytes.length < 2 then some (c, [])
  else
    match be16 pkt.bytes 0 with
    | 3 => handleData c src pkt
    | 4 => some (handleAck c pkt)
    | 5 => some (handleError c pkt, [])
    | 6 => some ((handleOack c src pkt).1, [(handleOack c src pkt).2])
    | _ => some (c, [])

/-- Model of `TftpTimeout`. -/
def tftpTimeout (c : Client) : Client × List (List UInt8) :=
  let c := { c with tftpTimeoutCount := c.tftpTimeoutCount + 1 }
  if c.tftpTimeoutCountMax < c.tftpTimeoutCount then ({ c with loop := .startAgain }, [])
  else if c.tftpState = .recvWrq then (c, [])
  else ((tftpSend c).1, [(tftpSend c).2])

/-- Model of `TftpStart`, as `NetLoop` calls it: `put` for `TFTPPUT`. The port and the number of
    retries are given. -/
def tftpStart (c : Client) (put : Bool) (ourPort rrqTimeoutCountMax : Nat) : Client × List UInt8 :=
  let c := { c with
    loop := .running
    tftpWriting := put
    netBootFileXferSize := if put then c.saveSize else 0
    tftpState := if put then .sendWrq else .sendRrq }
  let c := if put then newTransfer c else c
  tftpSend { c with
    tftpTimeoutCountMax := rrqTimeoutCountMax
    tftpRemotePort := 69
    tftpTimeoutCount := 0
    tftpOurPort := ourPort
    tftpBlock := 0
    tftpBlkSize := 512 }

end Tftp
