import RkUboot.Lib.BlockDev

set_option autoImplicit false

/-! # Fastboot: the interface state

The fastboot gadget (`common/cmd_fastboot.c` in its DWC3 configuration, with the board hooks of
`rkboot/fastboot.c` and `rkloader/rkimage.c`) is driven by USB packets. This file has the data it
works on: C texts and integer conversions, the partition table, the fields of
`struct cmd_fastboot_interface`, the memory the packets land in, and the list of events by which the
model records what a packet did to the storage.

`pending_ptn` points into the partition table, so the model keeps it as an index of that table. What
is outside of the gadget and its image code (the secure boot checks, the loader update, the console
and the parameter parser) is a field of `Board`, and no property of it is assumed. -/

namespace Fastboot

/-! ## C integers and texts -/

/-- Conversion to `int`. -/
def toInt (x : Int) : Int := Int.bmod x (2 ^ 32)

/-- Conversion to `uint32_t`. -/
def toU32 (x : Int) : Nat := (x % 2 ^ 32).toNat

/-- Conversion to `u64`. -/
def toU64 (x : Int) : Nat := (x % 2 ^ 64).toNat

/-- The characters of a C string literal. -/
def ascii (s : String) : List UInt8 := s.toList.map (fun c => UInt8.ofNat c.toNat)

/-- `%0<width>llx`. -/
def hex (width n : Nat) : List UInt8 :=
  ((Nat.toDigits 16 n).map (fun c => UInt8.ofNat c.toNat)).leftpad width 48

/-- Value of a character that passes `isxdigit`. -/
def digitValue (c : UInt8) : Option Nat :=
  if 48 ≤ c ∧ c ≤ 57 then some (c.toNat - 48)
  else if 97 ≤ c ∧ c ≤ 102 then some (c.toNat - 97 + 10)
  else if 65 ≤ c ∧ c ≤ 70 then some (c.toNat - 65 + 10)
  else none

/-- The digit loop of `simple_strtoul`: the value, and the text that is left. -/
def strtoulDigits (base : Nat) : Nat → List UInt8 → Nat × List UInt8
  | acc, [] => (acc, [])
  | acc, c :: cs =>
    match digitValue c with
    | some v => if v < base then strtoulDigits base ((acc * base + v) % 2 ^ 64) cs else (acc, c :: cs)
    | none => (acc, c :: cs)

/-- Model of `simple_strtoul` and `simple_strtoull` (`unsigned long` has 64 bits). -/
def simpleStrtoul (base : Nat) : List UInt8 → Nat × List UInt8
  | [] => (0, [])
  | c :: cs =>
    if c = 48 then
      -- a leading "0x" needs a digit behind it
      if cs.head? = some 120 ∧ (cs[1]?.bind digitValue).isSome then strtoulDigits 16 0 cs.tail
      else strtoulDigits (if base = 0 then 8 else base) 0 cs
    else strtoulDigits (if base = 0 then 10 else base) 0 (c :: cs)

/-! ## Constants -/

/-- `USB_MAX_TRANS_SIZE`. -/
def usbMaxTransSize : Nat := 0x20000

/-- `CONFIG_FASTBOOT_TRANSFER_BUFFER_SIZE`: 48 MiB. -/
def transferBufferSizeAll : Nat := 0x3000000

/-- `CONFIG_FASTBOOT_TRANSFER_BUFFER_SIZE_EACH`. -/
def transferBufferSizeEach : Nat := transferBufferSizeAll / 2

/-- `FASTBOOT_COMMAND_SIZE`. -/
def commandSize : Nat := 64

def parameterName : List UInt8 := ascii "parameter"
def loaderName : List UInt8 := ascii "loader"
def ubootName : List UInt8 := ascii "uboot"
def bootName : List UInt8 := ascii "boot"
def recoveryName : List UInt8 := ascii "recovery"

/-! ## Storage -/

/-- The fields of `disk_partition_t` that are used; `start` and `size` count blocks. -/
structure DiskPartition where
  start : Nat
  size : Nat
  blksz : Nat
  name : List UInt8
  type : List UInt8
  deriving DecidableEq, Repr

/-- What a write to the storage is for. -/
inductive Target where
  /-- The partition a flash command names. -/
  | partition (ptn : DiskPartition)
  /-- The copies of the parameter file. -/
  | parameter
  /-- The partition a download is streamed to. -/
  | stream (ptn : DiskPartition)
  deriving DecidableEq, Repr

/-- The reboot types the gadget asks for (`enum fbt_reboot_type`). -/
inductive RebootType where
  | bootloader
  | recovery
  | recoveryWipeData
  deriving DecidableEq, Repr

/-- What the processing of a packet did besides changing the interface state. An image is the
    memory from `transfer_buffer` (or the cache of a streamed download) on. -/
inductive Event where
  /-- `SecureModeVerifyBootImage` was called on `image`. -/
  | verifyBoot (image : Mem) (accepted : Bool)
  /-- `SecureModeVerifyUbootImage` was called on `image`. -/
  | verifyUboot (image : Mem) (accepted : Bool)
  /-- `StorageWriteLba` of `n` blocks to `lba`, from offset `off` of `image`. -/
  | write (target : Target) (lba n : Nat) (image : Mem) (off : Nat) (ok : Bool)
  /-- The storage driver's `Erase` was called on `n` blocks from `lba`. -/
  | erase (lba n : Nat) (status : Int)
  /-- `rkidb_update_loader`. -/
  | updateLoader (ok : Bool)
  /-- `saveenv` with this value of the lock. -/
  | saveEnv (unlocked : Bool)
  | runCommand (cmd : List UInt8)
  | bootImage
  | setRebootType (type : RebootType)
  | recoveryWipeData

/-- The storage, with the events so far (the newest first). -/
structure Io where
  dev : BlockDev
  events : List Event

/-- Model of `StorageWriteLba`: block number and count are `uint32`. -/
def storageWriteLba (target : Target) (lba n : Nat) (image : Mem) (off : Nat) (io : Io) :
    Bool × Io :=
  let r := io.dev.write (lba % 2 ^ 32) (n % 2 ^ 32) image off
  (r.1, ⟨r.2, .write target (lba % 2 ^ 32) (n % 2 ^ 32) image off r.1 :: io.events⟩)

/-- Without scripted failures a write succeeds. -/
theorem storageWriteLba_of_nil {target : Target} {lba n : Nat} {image : Mem} {off : Nat} {io : Io}
    (h : io.dev.script = []) :
    storageWriteLba target lba n image off io
      = (true, ⟨⟨io.dev.disk.copy (512 * (lba % 2 ^ 32)) image off (512 * (n % 2 ^ 32)), []⟩,
          .write target (lba % 2 ^ 32) (n % 2 ^ 32) image off true :: io.events⟩) := by
  unfold storageWriteLba
  rw [BlockDev.write_of_nil _ _ _ _ h, h]

/-! ## The partition table -/

/-- What the gadget shares with the rest of the boot loader. -/
structure World where
  dev : BlockDev
  /-- `gBootInfo.cmd_mtd.parts`. -/
  parts : Nat → DiskPartition
  numParts : Nat
  /-- The memory from `transfer_buffer` on. -/
  ram : Mem

/-- The loop of `find_mtd_part`, `n` entries to go from entry `i`. -/
def findMtdPart (parts : Nat → DiskPartition) (name : List UInt8) : Nat → Nat → Option Nat
  | 0, _ => none
  | n + 1, i => if (parts i).name = name then some i else findMtdPart parts name n (i + 1)

/-- Model of `get_disk_partition`. -/
def getDiskPartition (w : World) (name : List UInt8) : Option Nat :=
  findMtdPart w.parts name w.numParts 0

theorem findMtdPart_name {parts : Nat → DiskPartition} {name : List UInt8} {n i j : Nat}
    (h : findMtdPart parts name n i = some j) : (parts j).name = name := by
  induction n generalizing i with
  | zero => exact absurd h (by simp [findMtdPart])
  | succ n ih =>
    unfold findMtdPart at h
    split at h
    · next heq =>
      rw [← Option.some.inj h]
      exact heq
    · exact ih h

/-- The partition found has the name that was looked for. -/
theorem getDiskPartition_name {w : World} {name : List UInt8} {i : Nat}
    (h : getDiskPartition w name = some i) : (w.parts i).name = name :=
  findMtdPart_name h

/-! ## The interface -/

/-- What is outside of the model. -/
structure Board where
  secureModeVerifyBootImage : Mem → Bool
  secureModeVerifyUbootImage : Mem → Bool
  /-- `rkimg_make_loader_data`, which ends in `SecureModeVerifyLoader`. -/
  makeLoaderData : Mem → Bool
  rkidbUpdateLoader : BlockDev → Bool × BlockDev
  loadDiskPartitions : World → World
  runCommand : List UInt8 → World → Int × World
  /-- `do_bootrk` followed by `do_go`, when both return. -/
  bootImage : World → World
  boardFbtRunRecoveryWipeData : World → World
  saveEnv : Bool → BlockDev → BlockDev
  crc32Rk : List UInt8 → Nat
  /-- `gpMemFun->Erase`, which a storage driver may leave out. -/
  erase : Option (Nat → Nat → BlockDev → Int × BlockDev)
  secureBootLock : Bool
  bootloaderVer : List UInt8
  versionBootloader : List UInt8
  productName : List UInt8
  serialNo : List UInt8

/-- The fields of `struct cmd_fastboot_interface` that the packets change. -/
structure Interface where
  pendingPtn : Option Nat
  pendingPtnName : List UInt8
  dLegacy : Bool
  transferBufferSize : Nat
  dSize : Nat
  dBytes : Nat
  dStatus : Int
  dDirectSize : Nat
  dDirectOffset : Nat
  dCache : Mem
  dCachePos : Int
  flagSparse : Bool
  sparseHeader : Mem
  sparseCurChunk : Int
  response : List UInt8
  exit : Bool
  unlocked : Bool
  unlockPendingStartTime : Nat

/-- The two buffers a packet can land in. -/
inductive Buffer where
  /-- `priv.rx_buffer`, for commands. -/
  | rx
  /-- The transfer buffer; `priv.buffer[1]` is its second half. -/
  | transfer
  deriving DecidableEq, Repr

structure Ptr where
  base : Buffer
  off : Nat
  deriving DecidableEq, Repr

structure State where
  priv : Interface
  world : World
  /-- `priv.rx_buffer`. -/
  rx : Mem
  /-- The reads handed to the USB controller, in order: length and address. -/
  posted : List (Nat × Ptr)
  /-- `priv.rx_giveback.buf`. -/
  giveback : Option Ptr
  /-- `do_reset` was called. -/
  reset : Bool
  /-- The null pointer was dereferenced. -/
  fault : Bool
  /-- Events of the packet in process, the newest first. -/
  events : List Event

namespace State

/-- The memory behind a pointer. -/
def mem (s : State) (b : Buffer) : Mem :=
  match b with
  | .rx => s.rx
  | .transfer => s.world.ram

def setMem (s : State) (b : Buffer) (m : Mem) : State :=
  match b with
  | .rx => { s with rx := m }
  | .transfer => { s with world := { s.world with ram := m } }

def io (s : State) : Io := ⟨s.world.dev, s.events⟩

def setIo (s : State) (io : Io) : State :=
  { s with world := { s.world with dev := io.dev }, events := io.events }

def respond (s : State) (text : List UInt8) : State :=
  { s with priv := { s.priv with response := text } }

def log (s : State) (e : Event) : State := { s with events := e :: s.events }

/-- The partition `pending_ptn` points to. -/
def pending (s : State) : Option DiskPartition := s.priv.pendingPtn.map s.world.parts

@[simp] theorem log_events (s : State) (e : Event) : (s.log e).events = e :: s.events := rfl

end State

/-! ## Appended events -/

/-- The events `new` are the events `old` and more, all with the property `P`. -/
def Appends (P : Event → Prop) (old new : List Event) : Prop :=
  ∃ es, new = es ++ old ∧ ∀ e ∈ es, P e

section Appends

variable {P Q : Event → Prop} {a b c : List Event}

theorem Appends.refl : Appends P a a := ⟨[], rfl, fun _ h => absurd h List.not_mem_nil⟩

theorem Appends.of_eq (h : b = a) : Appends P a b := h ▸ Appends.refl

theorem Appends.cons {e : Event} (h : P e) : Appends P a (e :: a) :=
  ⟨[e], rfl, fun _ he => List.mem_singleton.1 he ▸ h⟩

theorem Appends.trans (hab : Appends P a b) (hbc : Appends P b c) : Appends P a c := by
  obtain ⟨es, rfl, hes⟩ := hab
  obtain ⟨es', rfl, hes'⟩ := hbc
  refine ⟨es' ++ es, (List.append_assoc ..).symm, ?_⟩
  intro e he
  rcases List.mem_append.1 he with h | h
  · exact hes' e h
  · exact hes e h

theorem Appends.mono (h : Appends P a b) (hPQ : ∀ e, P e → Q e) : Appends Q a b := by
  obtain ⟨es, heq, hes⟩ := h
  exact ⟨es, heq, fun e he => hPQ e (hes e he)⟩

theorem Appends.mem (h : Appends P a b) {e : Event} (he : e ∈ b) : P e ∨ e ∈ a := by
  obtain ⟨es, rfl, hes⟩ := h
  exact (List.mem_append.1 he).imp (hes e) id

theorem Appends.subset (h : Appends P a b) {e : Event} (he : e ∈ a) : e ∈ b := by
  obtain ⟨es, rfl, -⟩ := h
  exact List.mem_append_right es he

end Appends

end Fastboot
