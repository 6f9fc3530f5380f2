import RkUboot.Lib.BlockDev
import RkUboot.Lib.Bytes
import RkUboot.Fastboot.Basic

set_option autoImplicit false

/-! # GUID partition tables of `disk/part_efi.c`

The device has 512-byte blocks. `gpt_restore` builds a header and 128 entries, and writes the
protective MBR, the header at block 1, the entries from block 2 on, the entries again behind the
last usable block, and the backup header in the last block. `get_partition_info_efi` reads the table
back, from the backup if `is_gpt_valid` rejects the one at block 1.

`lbaint_t` is `unsigned long`, with 64 bits. What the memory of a buffer holds before a read and
behind its end (`before`), for which sizes `memalign` has memory, and `crc32` are parameters. -/

namespace Gpt

open Fastboot (ascii digitValue hex simpleStrtoul)

/-- `efi_guid_t` -/
structure Guid where
  b : List UInt8
  length_b : b.length = 16
  deriving DecidableEq

/-! ## `lib/uuid.c` -/

/-- `uuid_str_valid` -/
def uuidStrValid (uuid : List UInt8) : Bool :=
  uuid.length == 36 && uuid.zipIdx.all fun (c, i) =>
    if i ∈ [8, 13, 18, 23] then c == 45 else (digitValue c).isSome

/-- Model of `uuid_str_to_bin`; `std` is the format `UUID_STR_FORMAT_STD`, otherwise it is the one
    of a GUID. -/
def uuidStrToBin (uuid : List UInt8) (std : Bool) : Option Guid :=
  if uuidStrValid uuid then
    let field := fun k => (simpleStrtoul 16 (uuid.drop k)).1
    let head := if std then (Mem.le32 (field 0)).reverse ++ (Mem.le16 (field 9)).reverse ++
        (Mem.le16 (field 14)).reverse
      else Mem.le32 (field 0) ++ Mem.le16 (field 9) ++ Mem.le16 (field 14)
    some ⟨head ++ (Mem.le16 (field 19)).reverse ++ (Mem.le64 (field 24)).reverse.drop 2, by
      simp only [head]
      split <;> rfl⟩
  else none

/-- `guid_char_order` -/
def guidCharOrder : List Nat := [3, 2, 1, 0, 5, 4, 7, 6, 8, 9, 10, 11, 12, 13, 14, 15]

/-- `uuid_bin_to_str` with the format of a GUID. -/
def uuidBinToStr (uuid : Guid) : List UInt8 :=
  guidCharOrder.zipIdx.flatMap fun (k, i) =>
    hex 2 (uuid.b.getD k 0).toNat ++ if i ∈ [3, 5, 7, 9] then [45] else []

/-! ## The table -/

def gptHeaderSignature : UInt64 := 0x5452415020494645

def gptHeaderRevisionV1 : UInt32 := 0x00010000

def gptEntryNumbers : Nat := 128

/-- `PARTNAME_SZ` -/
def partnameSz : Nat := 36

/-- `PARTITION_SYSTEM_GUID` -/
def partitionSystemGuid : Guid :=
  ⟨[0x28, 0x73, 0x2A, 0xC1, 0x1F, 0xF8, 0xd2, 0x11, 0xBA, 0x4B, 0x00, 0xA0, 0xC9, 0x3E, 0xC9, 0x3B], rfl⟩

/-- `PARTITION_BASIC_DATA_GUID` -/
def partitionBasicDataGuid : Guid :=
  ⟨[0xA2, 0xA0, 0xD0, 0xEB, 0xE5, 0xB9, 0x33, 0x44, 0x87, 0xC0, 0x68, 0xB6, 0xB7, 0x26, 0x99, 0xC7], rfl⟩

/-- `gpt_header` -/
structure GptHeader where
  signature : UInt64
  revision : UInt32
  headerSize : UInt32
  headerCrc32 : UInt32
  reserved1 : UInt32
  myLba : UInt64
  alternateLba : UInt64
  firstUsableLba : UInt64
  lastUsableLba : UInt64
  diskGuid : Guid
  partitionEntryLba : UInt64
  numPartitionEntries : UInt32
  sizeofPartitionEntry : UInt32
  partitionEntryArrayCrc32 : UInt32

/-- The fields before the checksum. -/
def GptHeader.front (h : GptHeader) : List UInt8 :=
  Mem.le64 h.signature.toNat ++ Mem.le32 h.revision.toNat ++ Mem.le32 h.headerSize.toNat

/-- The fields behind the checksum. -/
def GptHeader.back (h : GptHeader) : List UInt8 :=
  Mem.le32 h.reserved1.toNat ++ Mem.le64 h.myLba.toNat ++ Mem.le64 h.alternateLba.toNat ++
  Mem.le64 h.firstUsableLba.toNat ++ Mem.le64 h.lastUsableLba.toNat ++ h.diskGuid.b ++
  Mem.le64 h.partitionEntryLba.toNat ++ Mem.le32 h.numPartitionEntries.toNat ++
  Mem.le32 h.sizeofPartitionEntry.toNat ++ Mem.le32 h.partitionEntryArrayCrc32.toNat

/-- The packed structure, 92 bytes. -/
def GptHeader.bytes (h : GptHeader) : List UInt8 := h.front ++ Mem.le32 h.headerCrc32.toNat ++ h.back

/-- The structure in memory. -/
def GptHeader.ofMem (m : Mem) : GptHeader where
  signature := .ofNat (m.u64 0)
  revision := .ofNat (m.u32 8)
  headerSize := .ofNat (m.u32 12)
  headerCrc32 := .ofNat (m.u32 16)
  reserved1 := .ofNat (m.u32 20)
  myLba := .ofNat (m.u64 24)
  alternateLba := .ofNat (m.u64 32)
  firstUsableLba := .ofNat (m.u64 40)
  lastUsableLba := .ofNat (m.u64 48)
  diskGuid := ⟨m.bytes 56 16, Mem.length_bytes _⟩
  partitionEntryLba := .ofNat (m.u64 72)
  numPartitionEntries := .ofNat (m.u32 80)
  sizeofPartitionEntry := .ofNat (m.u32 84)
  partitionEntryArrayCrc32 := .ofNat (m.u32 88)

/-- `gpt_entry` -/
structure GptEntry where
  partitionTypeGuid : Guid
  uniquePartitionGuid : Guid
  startingLba : UInt64
  endingLba : UInt64
  attributes : UInt64
  partitionName : List UInt16
  length_name : partitionName.length = partnameSz

/-- The packed structure, 128 bytes. -/
def GptEntry.bytes (e : GptEntry) : List UInt8 :=
  e.partitionTypeGuid.b ++ e.uniquePartitionGuid.b ++ Mem.le64 e.startingLba.toNat ++ Mem.le64 e.endingLba.toNat ++
  Mem.le64 e.attributes.toNat ++ e.partitionName.flatMap fun c => Mem.le16 c.toNat

/-- The entry at address `a`. -/
def GptEntry.ofMem (m : Mem) (a : Nat) : GptEntry where
  partitionTypeGuid := ⟨m.bytes a 16, Mem.length_bytes _⟩
  uniquePartitionGuid := ⟨m.bytes (a + 16) 16, Mem.length_bytes _⟩
  startingLba := .ofNat (m.u64 (a + 32))
  endingLba := .ofNat (m.u64 (a + 40))
  attributes := .ofNat (m.u64 (a + 48))
  partitionName := (List.range partnameSz).map fun k => .ofNat (m.u16 (a + 56 + 2 * k))
  length_name := by rw [List.length_map, List.length_range]

/-- An entry that `calloc` has cleared. -/
def GptEntry.unused : GptEntry where
  partitionTypeGuid := ⟨List.replicate 16 0, rfl⟩
  uniquePartitionGuid := ⟨List.replicate 16 0, rfl⟩
  startingLba := 0
  endingLba := 0
  attributes := 0
  partitionName := List.replicate partnameSz 0
  length_name := rfl

/-! ## The device -/

/-- `block_dev_desc_t`; `lba` is the number of blocks. -/
structure BlockDevDesc where
  lba : UInt64
  dev : BlockDev

/-- `block_read`: the transfer is complete or it fails. -/
def BlockDevDesc.blockRead (d : BlockDevDesc) (start n : Nat) (buf : Mem) :
    Bool × Mem × BlockDevDesc :=
  if start + n ≤ d.lba.toNat then
    let r := d.dev.read start n buf 0
    (r.1, r.2.1, { d with dev := r.2.2 })
  else (false, buf, d)

/-- `block_write` -/
def BlockDevDesc.blockWrite (d : BlockDevDesc) (start n : Nat) (buf : Mem) : Bool × BlockDevDesc :=
  if start + n ≤ d.lba.toNat then
    let r := d.dev.write start n buf 0
    (r.1, { d with dev := r.2 })
  else (false, d)

/-- `BLOCK_CNT`, of a size that is not 0. -/
def blockCnt (size : Nat) : Nat := (size - 1) / 512 + 1

/-! ## Writing -/

/-- `disk_partition_t`, as far as the writer reads it: the name is an array, the uuid a string. -/
structure DiskPartition where
  start : UInt64
  size : UInt64
  name : List UInt8
  bootable : Bool
  uuid : List UInt8
  length_name : name.length = 32

/-- The block that `set_protective_mbr` writes. -/
def protectiveMbr (d : BlockDevDesc) : List UInt8 :=
  List.replicate 446 0 ++
  ([0, 0, 0, 0, 0xEE, 0, 0, 0] ++ Mem.le32 1 ++ Mem.le32 (d.lba - 1).toNat) ++ List.replicate 48 0 ++
  Mem.le16 0xAA55

/-- Writes (block, number of blocks, buffer) one after the other, up to the first that fails. -/
def writeAll (d : BlockDevDesc) : List (Nat × Nat × Mem) → Int × BlockDevDesc
  | [] => (0, d)
  | (start, n, buf) :: ws =>
    match d.blockWrite start n buf with
    | (true, d) => writeAll d ws
    | (false, d) => (-1, d)

section Writing

variable (crc32 : List UInt8 → UInt32)

/-- `header_crc32` is set; the checksum covers `header_size` bytes of the zeroed buffer that the
    header is in. -/
def GptHeader.sign (h : GptHeader) : GptHeader :=
  { h with headerCrc32 := crc32 ((Mem.ofList h.bytes).bytes 0 h.headerSize.toNat) }

/-- `prepare_backup_gpt_header` -/
def prepareBackupGptHeader (h : GptHeader) : GptHeader :=
  GptHeader.sign crc32 { h with
    myLba := h.alternateLba
    alternateLba := h.myLba
    partitionEntryLba := h.lastUsableLba + 1
    headerCrc32 := 0 }

/-- The array of entries. -/
def entryBytes (es : List GptEntry) : List UInt8 := es.flatMap GptEntry.bytes

/-- The header at block 1, with the checksum of the entries and its own. -/
def primaryGptHeader (h : GptHeader) (es : List GptEntry) : GptHeader :=
  let gptE := Mem.ofList (entryBytes es)
  let calcCrc32 := crc32 (gptE.bytes 0 (h.numPartitionEntries * h.sizeofPartitionEntry).toNat)
  GptHeader.sign crc32 { h with partitionEntryArrayCrc32 := calcCrc32 }

/-- Model of `write_gpt_table`. -/
def writeGptTable (d : BlockDevDesc) (h : GptHeader) (es : List GptEntry) : Int × BlockDevDesc :=
  let pteBlkCnt := blockCnt (h.numPartitionEntries.toNat * 128)
  let gptE := Mem.ofList (entryBytes es)
  let primary := primaryGptHeader crc32 h es
  let backup := prepareBackupGptHeader crc32 primary
  writeAll d [(0, 1, Mem.ofList (protectiveMbr d)), (1, 1, Mem.ofList primary.bytes), (2, pteBlkCnt, gptE),
    ((backup.lastUsableLba + 1).toNat, pteBlkCnt, gptE), (backup.myLba.toNat, 1, Mem.ofList backup.bytes)]

/-- The entry of a partition from `start` to `ending`. -/
def fillEntry (p : DiskPartition) (start ending : UInt64) (uuid : Guid) : GptEntry where
  partitionTypeGuid := partitionBasicDataGuid
  uniquePartitionGuid := uuid
  startingLba := start
  endingLba := ending
  attributes := if p.bootable then 4 else 0
  partitionName := p.name.map (fun c => c.toUInt16) ++ List.replicate 4 0
  length_name := by rw [List.length_append, List.length_map, p.length_name]; rfl

/-- Model of `gpt_fill_pte`, from `offset` on. -/
def gptFillPte (lastUsableLba : UInt64) : UInt64 → List DiskPartition → Option (List GptEntry)
  | _, [] => some []
  | offset, p :: ps =>
    if p.start ≠ 0 ∧ p.start < offset then none  -- "Partition overlap"
    else
      let start := if p.start ≠ 0 then p.start else offset
      let offset := start + p.size
      if lastUsableLba ≤ offset then none  -- "Partitions layout exceds disk size"
      else
        let ending := if ps.isEmpty ∧ p.size = 0 then lastUsableLba else offset - 1
        match uuidStrToBin p.uuid true with
        | none => none
        | some uuid => (gptFillPte lastUsableLba offset ps).map (fillEntry p start ending uuid :: ·)

/-- `gpt_fill_header` -/
def gptFillHeader (d : BlockDevDesc) (strGuid : List UInt8) : Option GptHeader :=
  (uuidStrToBin strGuid false).map fun diskGuid =>
    { signature := gptHeaderSignature
      revision := gptHeaderRevisionV1
      headerSize := 92
      headerCrc32 := 0
      reserved1 := 0
      myLba := 1
      alternateLba := d.lba - 1
      firstUsableLba := 34
      lastUsableLba := d.lba - 34
      diskGuid := diskGuid
      partitionEntryLba := 2
      numPartitionEntries := .ofNat gptEntryNumbers
      sizeofPartitionEntry := 128
      partitionEntryArrayCrc32 := 0 }

/-- The array `gpt_e`, of which the first entries were filled. -/
def fillArray (es : List GptEntry) : List GptEntry :=
  es ++ List.replicate (gptEntryNumbers - es.length) GptEntry.unused

/-- Model of `gpt_restore`, for no more partitions than there are entries. -/
def gptRestore (d : BlockDevDesc) (strDiskGuid : List UInt8) (partitions : List DiskPartition) :
    Int × BlockDevDesc :=
  match gptFillHeader d strDiskGuid with
  | none => (-1, d)
  | some h =>
    match gptFillPte h.lastUsableLba h.firstUsableLba partitions with
    | none => (-1, d)
    | some es => writeGptTable crc32 d h (fillArray es)

end Writing

/-! ## Reading -/

section Reading

variable (crc32 : List UInt8 → UInt32) (memalign : Nat → Bool) (before : Mem)

/-- `validate_gpt_header`, of a header in memory. -/
def validateGptHeader (head : Mem) (lba lastlba : UInt64) : Bool :=
  let h := GptHeader.ofMem head
  decide (h.signature = gptHeaderSignature ∧
    -- the checksum is taken with its own field zeroed
    crc32 ((head.set32 16 0).bytes 0 h.headerSize.toNat) = h.headerCrc32 ∧
    h.myLba = lba ∧ h.firstUsableLba ≤ lastlba ∧ h.lastUsableLba ≤ lastlba)

/-- `validate_gpt_entries` -/
def validateGptEntries (h : GptHeader) (pte : Mem) : Bool :=
  decide (crc32 (pte.bytes 0 (h.numPartitionEntries * h.sizeofPartitionEntry).toNat) = h.partitionEntryArrayCrc32)

/-- Model of `alloc_read_gpt_entries`. -/
def allocReadGptEntries (d : BlockDevDesc) (h : GptHeader) : Option Mem × BlockDevDesc :=
  let count := (h.numPartitionEntries * h.sizeofPartitionEntry).toNat
  if count = 0 ∨ memalign (blockCnt count * 512) = false then (none, d)
  else
    match d.blockRead h.partitionEntryLba.toNat (blockCnt count) before with
    | (true, pte, d) => (some pte, d)
    | (false, _, d) => (none, d)

/-- Model of `is_gpt_valid`: the header and the entries if it returns 1. -/
def isGptValid (d : BlockDevDesc) (lba : UInt64) : Option (GptHeader × Mem) × BlockDevDesc :=
  match d.blockRead lba.toNat 1 before with
  | (false, _, d) => (none, d)
  | (true, head, d) =>
    if validateGptHeader crc32 head lba d.lba then
      match allocReadGptEntries memalign before d (GptHeader.ofMem head) with
      | (none, d) => (none, d)
      | (some pte, d) =>
        if validateGptEntries crc32 (GptHeader.ofMem head) pte then (some (GptHeader.ofMem head, pte), d)
        else (none, d)
    else (none, d)

/-- `is_pte_valid` -/
def isPteValid (e : GptEntry) : Bool := decide (e.partitionTypeGuid.b ≠ List.replicate 16 0)

/-- `isprint` of `lib/ctype.c` -/
def isprint (c : UInt8) : Bool := decide (32 ≤ c ∧ c ≤ 126 ∨ 160 ≤ c)

/-- The string in an array. -/
def cString (s : List UInt8) : List UInt8 := s.takeWhile (· ≠ 0)

/-- `print_efiname` -/
def printEfiname (e : GptEntry) : List UInt8 :=
  cString (e.partitionName.map fun w => let c := w.toUInt8; if c ≠ 0 ∧ isprint c = false then 46 else c)

/-- `is_bootable` -/
def isBootable (e : GptEntry) : Bool :=
  decide (e.attributes &&& 4 ≠ 0 ∨ e.partitionTypeGuid = partitionSystemGuid)

/-- `disk_partition_t`, as `get_partition_info_efi` fills it. -/
structure PartitionInfo where
  start : UInt64
  size : UInt64
  blksz : Nat
  name : List UInt8
  type : List UInt8
  bootable : Bool
  uuid : List UInt8

/-- What `get_partition_info_efi` takes from an entry. -/
def PartitionInfo.ofEntry (e : GptEntry) : PartitionInfo where
  start := e.startingLba
  -- the ending LBA is inclusive
  size := e.endingLba + 1 - e.startingLba
  blksz := 512
  name := printEfiname e
  type := ascii "U-Boot"
  bootable := isBootable e
  uuid := uuidBinToStr e.uniquePartitionGuid

/-- The table that is read: the primary one, or else the backup. -/
def readTable (d : BlockDevDesc) : Option (GptHeader × Mem) :=
  match isGptValid crc32 memalign before d 1 with
  | (some t, _) => some t
  | (none, d) => (isGptValid crc32 memalign before d (d.lba - 1)).1

/-- Model of `get_partition_info_efi`. -/
def getPartitionInfoEfi (d : BlockDevDesc) (part : Nat) : Option PartitionInfo :=
  if part < 1 then none
  else
    match readTable crc32 memalign before d with
    | none => none
    | some (h, pte) =>
      let e := GptEntry.ofMem pte (128 * (part - 1))
      if h.numPartitionEntries.toNat < part ∨ isPteValid e = false then none else some (.ofEntry e)

end Reading

end Gpt
