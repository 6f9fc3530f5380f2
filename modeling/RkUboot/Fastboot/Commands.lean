import RkUboot.Fastboot.Image

set_option autoImplicit false

/-! # The fastboot gadget (`common/cmd_fastboot.c`)

Every packet goes through `fbt_rx_process`. While `d_size` is not 0 it is data; otherwise it is a
command, whose text the handlers read from the buffer it landed in (`cmdbuf`). The texts behind the
terminator are still there to be read: `getvar:all` calls every variable's function with its own
argument. One iteration of the loop in `do_fastboot` is `doFastboot`. -/

namespace Fastboot

/-- The C string at offset `off` of the command buffer, which has 512 bytes. -/
def cstrAt (cmdbuf : Mem) (off : Nat) : List UInt8 := cmdbuf.cstr (512 - off) off

/-- `memcmp(cmdbuf + off, text, strlen(text)) == 0`, for a text without a terminator in it. -/
def startsWith (cmdbuf : Mem) (off : Nat) (text : String) : Prop :=
  cmdbuf.bytes off (ascii text).length = ascii text
  deriving Decidable

/-- Model of `fbt_read_bulk_ep`. -/
def fbtReadBulkEp (n : Nat) (p : Ptr) (s : State) : State :=
  { s with posted := s.posted ++ [(n, p)], giveback := none }

/-! ## Variables -/

/-- Model of `getvar_partition_type`, which also makes the partition the pending one. -/
def getvarPartitionType (cmdbuf : Mem) (args : Nat) (s : State) : Option (List UInt8) × State :=
  let name := cstrAt cmdbuf (args + 15)
  let ptn := getDiskPartition s.world name
  let s := { s with priv := { s.priv with pendingPtn := ptn, pendingPtnName := name.take 31 } }
  match ptn with
  | some i => (some (s.world.parts i).type, s)
  | none => (none, s.respond ((ascii "FAILunknown partition " ++ name ++ [10]).take 63))

/-- Common part of `getvar_partition_size` and `getvar_partition_offset`: the name of the variable
    has `skip` characters. -/
def getvarPartition (skip : Nat) (text : DiskPartition → List UInt8) (cmdbuf : Mem) (args : Nat)
    (s : State) : Option (List UInt8) × State :=
  let name := cstrAt cmdbuf (args + skip)
  match getDiskPartition s.world name with
  | some i => (none, s.respond (text (s.world.parts i)))
  | none => (none, s.respond ((ascii "FAILunknown partition " ++ name ++ [10]).take 63))

/-- Model of `getvar_partition_size`. -/
def getvarPartitionSize : Mem → Nat → State → Option (List UInt8) × State :=
  getvarPartition 15 (fun ptn => ascii "OKAY0x" ++ hex 16 ptn.size ++ ascii "(blk)")

/-- Model of `getvar_partition_offset`. -/
def getvarPartitionOffset : Mem → Nat → State → Option (List UInt8) × State :=
  getvarPartition 17 (fun ptn => ascii "OKAY0x" ++ hex 8 ptn.start)

/-- The sum of the 32-bit words of `n` blocks. -/
def sumWords (m : Mem) (n : Nat) : Nat :=
  (List.range (n * 128)).foldl (fun acc i => acc + m.u32 (4 * i)) 0

/-- The loop of `getvar_checksum`; `none` when a read failed. The blocks are read to the transfer
    buffer. -/
def checksumLoop (bufBlocks : Nat) : Nat → Nat → Nat → Nat → State → Option Nat × State
  | 0, _, _, checksum, s => (some checksum, s)
  | k + 1, offset, blocks, checksum, s =>
    if blocks = 0 then (some checksum, s)
    else
      let n := min blocks bufBlocks
      let r := s.world.dev.read offset n s.world.ram 0
      let s := { s with world := { s.world with dev := r.2.2, ram := r.2.1 } }
      if r.1 then
        checksumLoop bufBlocks k ((offset + n) % 2 ^ 32) (blocks - n)
          ((checksum + sumWords r.2.1 n) % 2 ^ 64) s
      else (none, s.respond (ascii "FAILread 0x" ++ hex 8 offset ++ ascii " failed!" ++ [10]))

/-- Model of `getvar_checksum`. -/
def getvarChecksum (cmdbuf : Mem) (args : Nat) (s : State) : Option (List UInt8) × State :=
  let text := cstrAt cmdbuf (args + 9)
  let r := simpleStrtoul 0 text
  -- one character is skipped, be it the terminator
  let r' := simpleStrtoul 0 (cstrAt cmdbuf (args + 9 + (text.length - r.2.length) + 1))
  let blocks := r'.1 % 2 ^ 32
  if blocks = 0 then (none, s.respond (ascii "FAILinvalidate params!" ++ [10]))
  else
    let c := checksumLoop (s.priv.transferBufferSize / 512 % 2 ^ 16) blocks (r.1 % 2 ^ 32) blocks 0 s
    match c.1 with
    | some checksum => (none, c.2.respond (ascii "OKAY0x" ++ hex 16 checksum ++ [10]))
    | none => (none, c.2)

/-- One entry of `getvar_table`. -/
structure GetvarEntry where
  variableName : String
  exactMatch : Bool
  getvarFunc : Mem → Nat → State → Option (List UInt8) × State

/-- A variable whose value does not depend on the argument. -/
def GetvarEntry.const (name : String) (value : State → List UInt8) : GetvarEntry :=
  ⟨name, true, fun _ _ s => (some (value s), s)⟩

def getvarTable (board : Board) : List GetvarEntry :=
  [.const "version" (fun _ => board.bootloaderVer),
    .const "version-baseband" (fun _ => ascii "n/a"),
    .const "version-bootloader" (fun _ => board.versionBootloader),
    .const "unlocked" (fun s => if s.priv.unlocked then ascii "yes" else ascii "no"),
    .const "secure" (fun s => if s.priv.unlocked then ascii "no" else ascii "yes"),
    .const "product" (fun _ => board.productName),
    .const "serialno" (fun _ => board.serialNo),
    ⟨"partition-type:", false, getvarPartitionType⟩,
    ⟨"partition-size:", false, getvarPartitionSize⟩,
    ⟨"partition-offset:", false, getvarPartitionOffset⟩,
    ⟨"checksum:", false, getvarChecksum⟩]

/-- Does the entry match the argument at `subcmd`? -/
def GetvarEntry.Matches (e : GetvarEntry) (cmdbuf : Mem) (subcmd : Nat) : Bool :=
  if e.exactMatch then decide (cstrAt cmdbuf subcmd = ascii e.variableName)
  else decide (startsWith cmdbuf subcmd e.variableName)

/-- Model of `fbt_handle_getvar`. -/
def fbtHandleGetvar (board : Board) (cmdbuf : Mem) (s : State) : State :=
  if cstrAt cmdbuf 7 = ascii "all" then
    let s := (getvarTable board).foldl (fun s e => (e.getvarFunc cmdbuf 7 s).2) s
    s.respond (ascii "OKAY")
  else
    match (getvarTable board).find? (fun e => e.Matches cmdbuf 7) with
    | none => s.respond (ascii "FAILunknown variable")
    | some e =>
      let r := e.getvarFunc cmdbuf 7 s
      match r.1 with
      | none => r.2
      | some value => r.2.respond (ascii "OKAY" ++ value.take 60)

/-- What reading a variable leaves alone: the contents of the storage, the lock and the download, and
    under `p` the pending partition. -/
structure State.ReadOnly (p : Prop) (s s' : State) : Prop where
  events : s'.events = s.events
  disk : s'.world.dev.disk = s.world.dev.disk
  unlocked : s'.priv.unlocked = s.priv.unlocked
  unlockPendingStartTime : s'.priv.unlockPendingStartTime = s.priv.unlockPendingStartTime
  dSize : s'.priv.dSize = s.priv.dSize
  pendingPtn : p → s'.priv.pendingPtn = s.priv.pendingPtn

section ReadOnly

variable {p : Prop} {s s' s'' : State}

variable (board : Board) (cmdbuf : Mem) (args : Nat)

theorem State.ReadOnly.refl : State.ReadOnly p s s := ⟨rfl, rfl, rfl, rfl, rfl, fun _ => rfl⟩

theorem State.ReadOnly.trans (h : State.ReadOnly p s s') (h' : State.ReadOnly p s' s'') :
    State.ReadOnly p s s'' :=
  ⟨h'.events.trans h.events, h'.disk.trans h.disk, h'.unlocked.trans h.unlocked,
    h'.unlockPendingStartTime.trans h.unlockPendingStartTime, h'.dSize.trans h.dSize,
    fun hp => (h'.pendingPtn hp).trans (h.pendingPtn hp)⟩

theorem State.ReadOnly.mono {q : Prop} (h : State.ReadOnly p s s') (hpq : q → p) :
    State.ReadOnly q s s' :=
  { h with pendingPtn := fun hq => h.pendingPtn (hpq hq) }

theorem State.ReadOnly.respond (h : State.ReadOnly p s s') (text : List UInt8) :
    State.ReadOnly p s (s'.respond text) :=
  h.trans ⟨rfl, rfl, rfl, rfl, rfl, fun _ => rfl⟩

theorem getvarPartitionType_readOnly :
    State.ReadOnly False s (getvarPartitionType cmdbuf args s).2 := by
  unfold getvarPartitionType
  simp only
  split <;> exact ⟨rfl, rfl, rfl, rfl, rfl, False.elim⟩

theorem getvarPartition_readOnly (skip : Nat) (text : DiskPartition → List UInt8) :
    State.ReadOnly p s (getvarPartition skip text cmdbuf args s).2 := by
  unfold getvarPartition
  simp only
  split <;> exact State.ReadOnly.refl.respond _

theorem checksumLoop_readOnly (bufBlocks k offset blocks checksum : Nat) :
    State.ReadOnly p s (checksumLoop bufBlocks k offset blocks checksum s).2 := by
  induction k generalizing offset blocks checksum s with
  | zero => exact .refl
  | succ k ih =>
    rw [checksumLoop]
    simp only
    split
    · exact .refl
    generalize hr : s.world.dev.read offset (min blocks bufBlocks) s.world.ram 0 = r
    have hstep : State.ReadOnly p s
        { s with world := { s.world with dev := r.2.2, ram := r.2.1 } } :=
      ⟨rfl, hr ▸ BlockDev.read_disk .., rfl, rfl, rfl, fun _ => rfl⟩
    split
    · exact hstep.trans (ih ..)
    · exact hstep.respond _

theorem getvarChecksum_readOnly : State.ReadOnly p s (getvarChecksum cmdbuf args s).2 := by
  unfold getvarChecksum
  simp only
  split
  · exact State.ReadOnly.refl.respond _
  · split
    · exact (checksumLoop_readOnly ..).respond _
    · exact checksumLoop_readOnly ..

/-- Every entry of the table but one leaves `pending_ptn` alone. -/
theorem getvarTable_readOnly {e : GetvarEntry} (he : e ∈ getvarTable board) :
    State.ReadOnly (e ≠ ⟨"partition-type:", false, getvarPartitionType⟩) s
      (e.getvarFunc cmdbuf args s).2 := by
  simp only [getvarTable, List.mem_cons, List.not_mem_nil, or_false] at he
  rcases he with rfl | rfl | rfl | rfl | rfl | rfl | rfl | rfl | rfl | rfl | rfl
  case inr.inr.inr.inr.inr.inr.inr.inl =>
    exact (getvarPartitionType_readOnly _ _).mono (fun hne => hne rfl)
  case inr.inr.inr.inr.inr.inr.inr.inr.inl => exact getvarPartition_readOnly ..
  case inr.inr.inr.inr.inr.inr.inr.inr.inr.inl => exact getvarPartition_readOnly ..
  case inr.inr.inr.inr.inr.inr.inr.inr.inr.inr => exact getvarChecksum_readOnly _ _
  all_goals exact .refl

theorem foldl_getvar_readOnly (es : List GetvarEntry) (hes : es ⊆ getvarTable board) :
    State.ReadOnly False s (es.foldl (fun s e => (e.getvarFunc cmdbuf args s).2) s) := by
  induction es generalizing s with
  | nil => exact .refl
  | cons e es ih =>
    exact ((getvarTable_readOnly board cmdbuf args (hes (.head _))).mono False.elim).trans
      (ih (fun x hx => hes (.tail _ hx)))

/-- "getvar:all" calls every entry, so it queries a type as well. -/
theorem fbtHandleGetvar_readOnly (s : State) :
    State.ReadOnly (¬ (cstrAt cmdbuf 7 = ascii "all" ∨ startsWith cmdbuf 7 "partition-type:")) s
      (fbtHandleGetvar board cmdbuf s) := by
  unfold fbtHandleGetvar
  split
  · next hall =>
    exact ((foldl_getvar_readOnly board cmdbuf 7 _ (List.Subset.refl _)).mono
      (fun hne => hne (.inl hall))).respond _
  split
  · exact State.ReadOnly.refl.respond _
  next e hfind =>
  have he := (getvarTable_readOnly (s := s) board cmdbuf 7 (List.mem_of_find?_eq_some hfind)).mono
    (q := ¬ (cstrAt cmdbuf 7 = ascii "all" ∨ startsWith cmdbuf 7 "partition-type:")) (by
      rintro hne rfl
      have hmatch := List.find?_some hfind
      exact hne (.inr (of_decide_eq_true hmatch)))
  simp only
  split
  · exact he
  · exact he.respond _

end ReadOnly

/-! ## Commands that touch the storage -/

/-- Model of `fbt_handle_erase` for the partition name at offset `off`. -/
def fbtHandleErase (board : Board) (cmdbuf : Mem) (off : Nat) (s : State) : State :=
  match getDiskPartition s.world (cstrAt cmdbuf off) with
  | none => s.respond (ascii "FAILpartition does not exist")
  | some i =>
    let r := rkimagePartitionErase board (s.world.parts i) s.io
    let s := s.setIo r.2
    if r.1 = 0 then s.respond (ascii "OKAY")
    else s.respond (ascii "FAILfailed to erase partition (" ++ ascii (toString r.1) ++ ascii ")")

/-- The partition table is read again after a flash. -/
def reloadPartitions (board : Board) (s : State) : State :=
  { s with world := board.loadDiskPartitions s.world }

/-- Model of `fbt_handle_flash` with `check_unlock` set. -/
def fbtHandleFlash (board : Board) (cmdbuf : Mem) (s : State) : State :=
  let name := cstrAt cmdbuf 6
  if s.priv.unlocked = false then s.respond (ascii "FAILdevice is locked")
  else if s.priv.dBytes = 0 then s.respond (ascii "FAILno image downloaded")
  else
    let r := rkimageStoreImage board name ((getDiskPartition s.world name).map s.world.parts) s
    match r.1 with
    | .ok => reloadPartitions board (r.2.respond (ascii "OKAY"))
    | .fail => r.2.respond (ascii "FAILWrite partition:" ++ name)
    | .fault => { r.2 with fault := true }

/-! ## The other commands -/

/-- Model of `fbt_handle_reboot`, by the text behind "reboot". -/
def fbtHandleReboot (text : List UInt8) (s : State) : State :=
  let s :=
    if text = ascii "-bootloader" then s.log (.setRebootType .bootloader)
    else if text = ascii "-recovery" then s.log (.setRebootType .recovery)
    else if text = ascii "-recovery:wipe_data" then s.log (.setRebootType .recoveryWipeData)
    else s
  { s.respond (ascii "OKAY") with reset := true }

/-- Model of `fbt_set_unlocked`. -/
def fbtSetUnlocked (board : Board) (unlocked : Bool) (s : State) : State :=
  { s with
    priv := { s.priv with unlocked := unlocked }
    world := { s.world with dev := board.saveEnv unlocked s.world.dev }
    events := .saveEnv unlocked :: s.events }

/-- The erase of "oem unlock_accept"; without a userdata partition there is no error. -/
def eraseUserdata (board : Board) (s : State) : Int × State :=
  match getDiskPartition s.world (ascii "userdata") with
  | none => (0, s)
  | some i =>
    let r := rkimagePartitionErase board (s.world.parts i) s.io
    (r.1, s.setIo r.2)

/-- The end of "oem unlock_accept". -/
def acceptUnlock (board : Board) (s : State) : State :=
  let s := (fbtSetUnlocked board true s).respond (ascii "OKAY")
  { s with
    world := board.boardFbtRunRecoveryWipeData s.world
    events := .recoveryWipeData :: s.events }

/-- The branch "unlock_accept" of `fbt_handle_oem`. -/
def oemUnlockAccept (board : Board) (s : State) : State :=
  if s.priv.unlockPendingStartTime = 0 then s.respond (ascii "FAILoem unlock not requested")
  else
    let r := eraseUserdata board { s with priv := { s.priv with unlockPendingStartTime := 0 } }
    if r.1 = 0 then acceptUnlock board r.2
    else r.2.respond (ascii "FAILErasing userdata failed")

/-- The branch "ucmd" of `fbt_handle_oem`. -/
def oemUcmd (board : Board) (cmd : List UInt8) (s : State) : State :=
  let r := board.runCommand cmd s.world
  let s := { s with world := r.2, events := .runCommand cmd :: s.events }
  s.respond (if r.1 < 0 then ascii "FAILcommand failed" else ascii "OKAY")

/-- Model of `fbt_handle_oem`; `now` is the timer. `board_fbt_oem` knows no command in this
    configuration. -/
def fbtHandleOem (board : Board) (now : Nat) (cmdbuf : Mem) (s : State) : State :=
  let cmd := cstrAt cmdbuf 4
  if cmd = ascii "log" then s.respond (ascii "OKAY")
  else if cmd = ascii "recovery" then fbtHandleReboot (ascii "-recovery") s
  else if cmd = ascii "recovery:wipe_data" then fbtHandleReboot (ascii "-recovery:wipe_data") s
  else if cmd = ascii "unlock" then
    if s.priv.unlocked then s.respond (ascii "FAILalready unlocked")
    else { s with priv := { s.priv with unlockPendingStartTime := now, response := ascii "OKAY" } }
  else if cmd = ascii "unlock_accept" then oemUnlockAccept board s
  else if cmd = ascii "lock" then
    if s.priv.unlocked = false then s.respond (ascii "FAILalready locked")
    else (fbtSetUnlocked board false s).respond (ascii "OKAY")
  else if startsWith cmdbuf 4 "erase " then fbtHandleErase board cmdbuf 10 s
  else if s.priv.unlocked = false then s.respond (ascii "FAILdevice is locked")
  else if startsWith cmdbuf 4 "ucmd " then oemUcmd board (cstrAt cmdbuf 9) s
  else s.respond (ascii "FAILinvalid command")

/-- Model of `fbt_handle_boot`; `do_go` does not return when it finds a program. -/
def fbtHandleBoot (board : Board) (s : State) : State :=
  if s.priv.unlocked = false then s.respond (ascii "FAILdevice is locked")
  else if 2048 < s.priv.dBytes then
    { s with world := board.bootImage s.world, events := .bootImage :: s.events }.respond
      (ascii "FAILinvalid boot image")
  else s.respond (ascii "FAILinvalid boot image")

/-- Is the download kept in the transfer buffer, by the name last asked for? -/
def legacyName (name : List UInt8) : Bool :=
  name = [] ∨ name = recoveryName ∨ name = bootName ∨ name = loaderName ∨ name = parameterName ∨
    name = ubootName

/-- The part of "download:" that accepts `dSize` bytes. -/
def acceptDownload (dSize : Int) (s : State) : State :=
  let s := { s with priv := { s.priv with
    dSize := toU64 dSize
    response := ascii "DATA" ++ hex 8 (toU64 dSize)
    transferBufferSize := usbMaxTransSize } }
  fbtReadBulkEp (min usbMaxTransSize (toU64 dSize)) ⟨.transfer, 0⟩ s

/-- The branch "download:" of `fbt_rx_process`, with its `clear_cmd_buf`. The size is an `int`. -/
def fbtHandleDownload (cmdbuf : Mem) (s : State) : Bool × State :=
  let dSize := toInt (simpleStrtoul 16 (cstrAt cmdbuf 9)).1
  let legacy := legacyName s.priv.pendingPtnName
  let s := { s with priv := { s.priv with dBytes := 0, dStatus := 0, dLegacy := legacy } }
  if s.priv.unlocked = false then (true, s.respond (ascii "FAILdevice is locked"))
  else if transferBufferSizeEach < dSize ∧ s.priv.pendingPtn = none then
    (true, s.respond (ascii "FAILnot support \"-u\" option"))
  else if transferBufferSizeAll ≤ dSize ∧ legacy = true then
    (true, s.respond (ascii "FAILdata too large"))
  else if dSize = 0 then (true, s.respond (ascii "FAILdata invalid size"))
  else (false, acceptDownload dSize s)

/-! ## Packets -/

/-- Ask for the next packet of a download: behind this one, or in the other half of the buffer. -/
def requestData (p : Ptr) (length : Nat) (s : State) : State :=
  let want := toInt (s.priv.dSize - s.priv.dBytes - length)
  let n := if s.priv.transferBufferSize < toU64 want then s.priv.transferBufferSize else toU64 want
  let next : Ptr :=
    if s.priv.dLegacy then ⟨p.base, p.off + length⟩
    else if p = ⟨.transfer, 0⟩ then ⟨.transfer, transferBufferSizeEach⟩
    else ⟨.transfer, 0⟩
  fbtReadBulkEp n next s

/-- Model of `board_fbt_handle_download`. -/
def boardFbtHandleDownload (p : Ptr) (length : Nat) (s : State) : State :=
  let r := rkimageHandleDownload s.world.parts (s.mem p.base) p.off length s.priv s.io
  { s with priv := r.1 }.setIo r.2

/-- The start of the data part of `fbt_rx_process`: ask for more, then pass a streamed packet on. -/
def rxPacket (p : Ptr) (length : Nat) (s : State) : State :=
  let s := if (s.priv.dBytes + length) % 2 ^ 64 < s.priv.dSize then requestData p length s else s
  if s.priv.dLegacy then s else boardFbtHandleDownload p length s

def addBytes (length : Nat) (s : State) : State :=
  { s with priv := { s.priv with dBytes := (s.priv.dBytes + length) % 2 ^ 64 } }

/-- The rest of the data part: is the download over? -/
def rxFinish (length : Nat) (s : State) : Bool × State :=
  if s.priv.dBytes < s.priv.dSize ∧ s.priv.dStatus = 0 then (false, s)
  else if s.priv.dStatus < 0 ∧ s.priv.dBytes < s.priv.dSize then
    -- the packet is counted a second time
    (false, addBytes length s)
  else
    (true, { s with priv := { s.priv with
      dSize := 0
      response := if s.priv.dStatus < 0 then ascii "FAILDownload error" else ascii "OKAY" } })

/-- The data part of `fbt_rx_process`. -/
def rxData (p : Ptr) (length : Nat) (s : State) : Bool × State :=
  let length := min length s.priv.transferBufferSize
  rxFinish length (addBytes length (rxPacket p length s))

/-- The commands, by what `fbt_rx_process` compares the text with, in its order. -/
inductive Command where
  | getvar
  | oem
  | erase
  | flash
  | reboot
  | continue
  | boot
  | download
  | unknown
  deriving DecidableEq, Repr

def commandOf (cmdbuf : Mem) : Command :=
  if startsWith cmdbuf 0 "getvar:" then .getvar
  else if startsWith cmdbuf 0 "oem " then .oem
  else if startsWith cmdbuf 0 "erase:" then .erase
  else if startsWith cmdbuf 0 "flash:" then .flash
  else if startsWith cmdbuf 0 "reboot" then .reboot
  else if cstrAt cmdbuf 0 = ascii "continue" then .continue
  else if startsWith cmdbuf 0 "boot" then .boot
  else if startsWith cmdbuf 0 "download:" then .download
  else .unknown

/-- Run the command in `cmdbuf`, with the value of `clear_cmd_buf`. -/
def runCommand (board : Board) (now : Nat) (cmdbuf : Mem) (s : State) : Bool × State :=
  let s := s.respond (ascii "FAIL")
  match commandOf cmdbuf with
  | .getvar => (true, fbtHandleGetvar board cmdbuf s)
  | .oem => (true, fbtHandleOem board now cmdbuf s)
  | .erase => (true, fbtHandleErase board cmdbuf 6 s)
  | .flash =>
    let s := fbtHandleFlash board cmdbuf s
    (true, { s with priv := { s.priv with pendingPtn := none } })
  | .reboot => (true, fbtHandleReboot (cstrAt cmdbuf 6) s)
  | .continue => (true, { s with priv := { s.priv with response := ascii "OKAY", exit := true } })
  | .boot => (true, fbtHandleBoot board s)
  | .download => fbtHandleDownload cmdbuf s
  | .unknown => (true, s)

/-- The buffer of a command of `length` bytes once its terminators are set. -/
def terminated (m : Mem) (off length : Nat) : Mem :=
  let m := m.set8 (off + (commandSize - 1)) 0
  if length < commandSize then m.set8 (off + length) 0 else m

/-- The text of the command at `p`. -/
def commandAt (p : Ptr) (length : Nat) (s : State) : Mem :=
  fun i => terminated (s.mem p.base) p.off length (p.off + i)

/-- Model of `fbt_rx_process`. -/
def fbtRxProcess (board : Board) (now : Nat) (p : Ptr) (length : Nat) (s : State) : Bool × State :=
  if s.priv.dSize ≠ 0 then rxData p length s
  else
    runCommand board now (commandAt p length s)
      (s.setMem p.base (terminated (s.mem p.base) p.off length))

/-- Clear the buffer of a command. After a read was posted `rx_giveback.buf` is the null pointer, and
    `memset` goes to memory that is not part of the model. -/
def clearGiveback (s : State) : State :=
  match s.giveback with
  | none => s
  | some p => s.setMem p.base ((s.mem p.base).fill p.off 0 commandSize)

/-- Model of `fbt_handle_rx` for a packet of `length` bytes that landed at `p`. -/
def fbtHandleRx (board : Board) (now : Nat) (p : Ptr) (length : Nat) (s : State) : State :=
  if length = 0 then s
  else
    let r := fbtRxProcess board now p length s
    if r.1 then fbtReadBulkEp commandSize ⟨.rx, 0⟩ (clearGiveback r.2) else r.2

/-! ## The loop -/

/-- What happens in one iteration: at most one packet arrives, and the timer has a value. -/
structure Tick where
  packet : Option (List UInt8)
  now : Nat
  deriving DecidableEq, Repr

/-- Where a packet lands, and the state then; without a posted read none is taken. -/
def deliver (packet : List UInt8) (s : State) : Option (Ptr × Nat × State) :=
  match s.posted with
  | [] => none
  | (n, p) :: rest =>
    let data := packet.take n
    some (p, data.length,
      { s.setMem p.base ((s.mem p.base).store p.off data) with
        posted := rest, giveback := some p })

/-- The unlock request expires. -/
def expireUnlock (now : Nat) (s : State) : State :=
  if s.priv.unlockPendingStartTime ≠ 0 ∧
      5000 < toU64 (now - s.priv.unlockPendingStartTime) then
    { s with priv := { s.priv with unlockPendingStartTime := 0 } }
  else s

/-- The gadget has stopped. -/
def State.halted (s : State) : Bool := s.priv.exit || s.reset || s.fault

/-- One iteration of the loop of `do_fastboot`. -/
def doFastboot (board : Board) (s : State) (t : Tick) : State :=
  if s.halted then s
  else
    match t.packet.bind (fun packet => deliver packet s) with
    | none => expireUnlock t.now s
    | some (p, length, s) => expireUnlock t.now (fbtHandleRx board t.now p length s)

/-- The state in which `do_fastboot` enters its loop, once the host has configured the gadget. -/
def start (unlocked : Bool) (w : World) : State where
  priv := {
    pendingPtn := none, pendingPtnName := [], dLegacy := false
    transferBufferSize := transferBufferSizeEach
    dSize := 0, dBytes := 0, dStatus := 0, dDirectSize := 0, dDirectOffset := 0
    dCache := Mem.zero, dCachePos := 0, flagSparse := false, sparseHeader := Mem.zero
    sparseCurChunk := 0, response := [], exit := false, unlocked := unlocked
    unlockPendingStartTime := 0 }
  world := w
  rx := Mem.zero
  posted := [(commandSize, ⟨.rx, 0⟩)]
  giveback := none
  reset := false
  fault := false
  events := []

end Fastboot
