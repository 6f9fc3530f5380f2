import RkUboot.Platform.Rc4
import RkUboot.Platform.Crc32Rk

set_option autoImplicit false

/-! # The loader image (`tools/boot_merger.c`)

`boot_merger` packs binaries into the image that the download tools and the fastboot gadget take. The
image is a header of 102 bytes, one entry of 57 bytes for each binary, the binaries, and a checksum:

```
header: tag 0, size 4, version 6, mergerVersion 10, releaseTime 14, chipType 21,
        471: num 25, offset 26, size 30; 472: 31, 32, 36; loader: 37, 38, 42; signFlag 43, rc4Flag 44
entry:  size 0, type 1, name 5 (20 characters of 16 bits), dataOffset 45, dataSize 49, dataDelay 53
```

Binaries are padded to 2048 bytes and encrypted, those of the loader in pieces of 512 bytes. The tool
writes all entries before the first binary, with offsets that it computes from the file sizes.

A function of the model has no value where the tool gives up, or where it writes behind the end of its
buffer `gBuf`. -/

open Platform

namespace BootMerger

/-! ## Data -/

/-- `MAX_MERGE_SIZE`, the size of `gBuf`. -/
def maxMergeSize : Nat := 512 * 1024

/-- `rk_entry_type`. -/
inductive EntryType where
  | code471
  | code472
  | loader
  deriving DecidableEq, Repr

def EntryType.code : EntryType → Nat
  | .code471 => 1
  | .code472 => 2
  | .loader => 4

/-- A file to pack: the text that names its entry, and its contents. The text is the path of the file,
    or for a loader file the name that the configuration gives to it. -/
structure Source where
  text : List UInt8
  file : List UInt8

/-- `rk_time`. -/
structure RkTime where
  year : Nat
  month : Nat
  day : Nat
  hour : Nat
  minute : Nat
  second : Nat

/-- `gOpts`, with the files it names. -/
structure Options where
  major : Nat
  minor : Nat
  /-- `getChipType(gOpts.chip)`. -/
  chipType : Nat
  code471Sleep : Nat
  code472Sleep : Nat
  code471 : List Source
  code472 : List Source
  loader : List Source
  /-- `getTime()`. -/
  releaseTime : RkTime

/-- A call of `saveEntry` and of `writeFile`; `fix` is set for the loader files. -/
structure Item where
  type : EntryType
  delay : Nat
  source : Source

def Item.fix (item : Item) : Bool := decide (item.type = .loader)

/-- The files in the order in which the three loops of `mergeBoot` take them. -/
def Options.items (opts : Options) : List Item :=
  opts.code471.map (fun s => ⟨.code471, opts.code471Sleep, s⟩) ++
    opts.code472.map (fun s => ⟨.code472, opts.code472Sleep, s⟩) ++
    opts.loader.map (fun s => ⟨.loader, 0, s⟩)

/-! ## Entries -/

/-- Model of `strrchr`: the index of the last `c`. -/
def strrchr (c : UInt8) : List UInt8 → Option Nat
  | [] => none
  | x :: xs =>
    match strrchr c xs with
    | some i => some (i + 1)
    | none => if x = c then some 0 else none

/-- Model of `getName`: what is behind the last slash and before the last dot, 19 characters at most.
    If the last dot is before the last slash, the length is negative. -/
def getName (path : List UInt8) : Option (List UInt8) :=
  let start := ((strrchr 47 path).map (· + 1)).getD 0
  let stop := (strrchr 46 path).getD path.length
  if stop < start then none else some ((path.drop start).take (min (stop - start) 19))

/-- A character as `uint16_t`; `char` is signed. -/
def wide (c : UInt8) : List UInt8 := [c, if 128 ≤ c then 255 else 0]

/-- `name` of an entry, with the zeros behind it. -/
def wideName (name : List UInt8) : List UInt8 :=
  name.flatMap wide ++ List.replicate (40 - 2 * name.length) 0

/-- `rk_boot_entry`; its first field is its size. -/
structure Entry where
  type : Nat
  name : List UInt8
  dataOffset : Nat
  dataSize : Nat
  dataDelay : Nat
  deriving DecidableEq, Repr

def Entry.encode (e : Entry) : List UInt8 :=
  [57] ++ Mem.le32 e.type ++ wideName e.name ++ Mem.le32 e.dataOffset ++ Mem.le32 e.dataSize ++
    Mem.le32 e.dataDelay

/-- The name at `a` in the table: the low bytes of `n` characters, as a C string. -/
def nameAt (m : Mem) (a n : Nat) : List UInt8 :=
  ((List.range n).map (fun k => m (a + 5 + 2 * k))).takeWhile (· ≠ 0)

/-- The entry at `a`. -/
def entryAt (m : Mem) (a : Nat) : Entry :=
  ⟨m.u32 (a + 1), nameAt m a 20, m.u32 (a + 45), m.u32 (a + 49), m.u32 (a + 53)⟩

/-! ## Packing -/

/-- `size` in whole packets of 512 bytes. -/
def packetSize (size : Nat) : Nat := ((size + (2 ^ 32 - 1)) % 2 ^ 32 / 512 + 1) * 512 % 2 ^ 32

/-- `size` in units of `ENTRY_ALIGN`. -/
def alignSize (size : Nat) : Nat :=
  let tmp := size % 2048
  (size + if tmp ≠ 0 then 2048 - tmp else 0) % 2 ^ 32

/-- The size of an entry for a file of `size` bytes. -/
def entrySize (fix : Bool) (size : Nat) : Nat := alignSize (if fix then packetSize size else size)

/-- Model of `getFileSize`, into a `uint32_t`. -/
def getFileSize (file : List UInt8) : Nat := file.length % 2 ^ 32

/-- Model of `saveEntry`: the entry, and where the next file goes. -/
def saveEntry (item : Item) (offset : Nat) : Option (Entry × Nat) :=
  let size := entrySize item.fix (getFileSize item.source.file)
  (getName item.source.text).map (fun name =>
    (⟨item.type.code, name, offset, size, item.delay % 2 ^ 16⟩, (offset + size) % 2 ^ 32))

/-- The loops that save the entries. -/
def saveEntries : List Item → Nat → Option (List Entry)
  | [], _ => some []
  | item :: items, offset =>
    match saveEntry item offset with
    | none => none
    | some (e, offset) => (saveEntries items offset).map (e :: ·)

/-- Model of `writeFile`: what is appended to the image. -/
def writeFile (fix : Bool) (file : List UInt8) : Option (List UInt8) :=
  let size := getFileSize file
  let padded := entrySize fix size
  let cleared := if fix then padded else size + 2048
  if maxMergeSize < max cleared size then none
  -- `fread` of one element of size 0 does not return 1
  else if size = 0 then none
  else
    let buf := file.take size ++ List.replicate (padded - size) 0
    some (if fix then Cipher.pieces pRc4 512 ((padded + 511) / 512) buf else pRc4 buf)

/-- The loops that write the files. -/
def writeFiles : List Item → Option (List UInt8)
  | [] => some []
  | item :: items =>
    match writeFile item.fix item.source.file with
    | none => none
    | some data => (writeFiles items).map (data ++ ·)

/-- Model of `getBCD`, which keeps two digits. -/
def getBCD (value : Nat) : Nat := value % 2 ^ 16 / 10 % 10 * 16 + value % 2 ^ 16 % 10

def RkTime.encode (t : RkTime) : List UInt8 :=
  Mem.le16 t.year ++ [UInt8.ofNat t.month, UInt8.ofNat t.day, UInt8.ofNat t.hour,
    UInt8.ofNat t.minute, UInt8.ofNat t.second]

/-- The fields of the header for one kind of entries. -/
def encodeTable (num offset : Nat) : List UInt8 :=
  [UInt8.ofNat num] ++ Mem.le32 offset ++ [57]

/-- Model of `getBoothdr`. -/
def getBoothdr (opts : Options) : List UInt8 :=
  let offset472 := 102 + opts.code471.length * 57
  let offsetLoader := offset472 + opts.code472.length * 57
  Mem.le32 0x544F4F42 ++ Mem.le16 102 ++ Mem.le32 (getBCD opts.major * 256 + getBCD opts.minor) ++
    Mem.le32 0x01030000 ++ opts.releaseTime.encode ++ Mem.le32 opts.chipType ++
    encodeTable opts.code471.length 102 ++ encodeTable opts.code472.length offset472 ++
    encodeTable opts.loader.length offsetLoader ++ [0, 1] ++ List.replicate 57 0

/-- Model of `mergeBoot` from the parsed options on: the image. The checksum is computed from the file
    read back into `gBuf`; `CRC_32` has the table of `crc32_rk`. -/
def mergeBoot (opts : Options) : Option (List UInt8) :=
  match saveEntries opts.items ((102 + opts.items.length * 57) % 2 ^ 32), writeFiles opts.items with
  | some entries, some data =>
    let image := getBoothdr opts ++ entries.flatMap Entry.encode ++ data
    if maxMergeSize < image.length then none else some (image ++ Mem.le32 (crc32Rk image))
  | _, _ => none

/-! ## Unpacking -/

/-- The files in a directory. -/
abbrev Dir := List UInt8 → Option (List UInt8)

def Dir.set (dir : Dir) (name contents : List UInt8) : Dir :=
  fun n => if n = name then some contents else dir n

/-- `fread` of one element of `n` bytes at `off`. -/
def freadAt (file : List UInt8) (off n : Nat) : Option (List UInt8) :=
  if n ≠ 0 ∧ off + n ≤ file.length then some ((Mem.ofList file).bytes off n) else none

/-- The loop of `unpackEntry` for the loader files. A size that is not a multiple of 512 does not
    occur; the source has a wrong length for the last piece then. -/
def decryptLoader (buf : List UInt8) : Option (List UInt8) :=
  let done := Cipher.pieces pRc4 512 (buf.length / 512) buf
  if buf.length % 512 = 0 then some done
  else
    let i := buf.length / 512
    let len := buf.length - 512 * 512
    if buf.length < 512 * 512 ∨ maxMergeSize < i * 512 + len then none
    else
      let last := done.drop (i * 512)
      some (done.take (i * 512) ++ (pRc4 (last.take len) ++ last.drop len))

/-- Model of `unpackEntry`. `opens` says for which names `fopen` makes a file. -/
def unpackEntry (opens : List UInt8 → Bool) (file : List UInt8) (e : Entry) (dir : Dir) :
    Option (Bool × Dir) :=
  if opens e.name = false then some (false, dir)
  else if maxMergeSize < min e.dataSize (file.length - e.dataOffset) then none
  else
    match freadAt file e.dataOffset e.dataSize with
    | none => some (false, dir.set e.name [])
    | some buf =>
      (if e.type = EntryType.loader.code then decryptLoader buf else some (pRc4 buf)).map
        (fun out => (true, dir.set e.name out))

/-- The loop of `unpackBoot`. -/
def unpackEntries (opens : List UInt8 → Bool) (file : List UInt8) :
    List Entry → Dir → Option (Bool × Dir)
  | [], dir => some (true, dir)
  | e :: es, dir =>
    match unpackEntry opens file e dir with
    | some (true, dir) => unpackEntries opens file es dir
    | r => r

/-- The entry tables of an image. -/
def entries (file : List UInt8) : List Entry :=
  let m := Mem.ofList file
  (List.range ((m 25).toNat + (m 31).toNat + (m 37).toNat)).map (fun i => entryAt m (102 + 57 * i))

/-- Model of `unpackBoot`: its result, and the directory it unpacks to. -/
def unpackBoot (opens : List UInt8 → Bool) (file : List UInt8) (dir : Dir) : Option (Bool × Dir) :=
  match freadAt file 0 102, freadAt file 102 (57 * (entries file).length) with
  | some _, some _ => unpackEntries opens file (entries file) dir
  | _, _ => some (false, dir)

end BootMerger
