import RkUboot.Lib.Bytes

set_option autoImplicit false

/-! # The trust image (`tools/trust_merger.c`)

`trust_merger` packs the firmware of the secure world, up to four files. A raw binary is one component,
an ELF file one for each `PT_LOAD` segment. The image starts with 2048 bytes for

```
TRUST_HEADER 0:      tag 0, version 4, flags 8, size 12 (number of components, SignOffset / 4)
COMPONENT_DATA 800:  for each component 48 bytes: HashData 0, LoadAddr 32
SignOffset:          256 bytes for the signature
TRUST_COMPONENT:     for each component 16 bytes: ComponentID 0, StorageAddr 4, ImageSize 8
```

and then has the components, each padded to 2048 bytes. Everything is written twice. The fields of the
header have 32 bits, and so have those of the tool; what it reads from an ELF file has up to 64.

A function of the model has no value where the tool gives up, or where it writes behind the end of a
buffer. -/

namespace TrustMerger

/-! ## Input -/

/-- `BL30_SEC` to `BL33_SEC`. -/
inductive Bl3x where
  | bl30
  | bl31
  | bl32
  | bl33
  deriving DecidableEq, Repr

/-- `gBl3xID`, as the number that is copied from it. -/
def Bl3x.id : Bl3x → UInt32
  | .bl30 => 0x30334c42
  | .bl31 => 0x31334c42
  | .bl32 => 0x32334c42
  | .bl33 => 0x33334c42

/-- `gOpts.bl3x[i]`, with the file if there is one at `path`. -/
structure Section where
  sec : Bool
  addr : UInt32
  file : Option (List UInt8)

/-- `gOpts`, `gSHAmode` and `gRSAmode`. -/
structure Options where
  major : Nat
  minor : Nat
  bl3x : Bl3x → Section
  shaMode : Nat
  rsaMode : Nat

/-- `BL3X_FILESIZE_MAX`, the size of `gBuf`. -/
def bl3xFilesizeMax : Nat := 512 * 1024

/-- `TRUSTIMAGE_MAX_SIZE` -/
def trustimageMaxSize : Nat := 2 * 1024 * 1024

/-- The entries of `pMetaBuf`. -/
def metaMax : Nat := 32

/-! ## ELF files -/

def u64 (m : Mem) (a : Nat) : Nat := m.u32 a + 2 ^ 32 * m.u32 (a + 4)

/-- The fields of a program header that are used. -/
structure Phdr where
  offset : Nat
  vaddr : Nat
  filesz : Nat

/-- What differs between ELF32 and ELF64: fields of the file header, and how far the fields of a
    program header that are used reach. -/
structure ElfClass where
  ehdrEnd : Nat
  phoff : Mem → Nat
  phentsize : Mem → Nat
  phnum : Mem → Nat
  phdrEnd : Nat
  phdr : Mem → Nat → Phdr

/-- `Elf64_Ehdr` and `Elf64_Phdr` -/
def elf64 : ElfClass where
  ehdrEnd := 58
  phoff buf := u64 buf 32
  phentsize buf := buf.u16 54
  phnum buf := buf.u16 56
  phdrEnd := 40
  phdr buf a := ⟨u64 buf (a + 8), u64 buf (a + 16), u64 buf (a + 32)⟩

/-- `Elf32_Ehdr` and `Elf32_Phdr` -/
def elf32 : ElfClass where
  ehdrEnd := 46
  phoff buf := buf.u32 28
  phentsize buf := buf.u16 42
  phnum buf := buf.u16 44
  phdrEnd := 20
  phdr buf a := ⟨buf.u32 (a + 4), buf.u32 (a + 8), buf.u32 (a + 16)⟩

def elfClass (buf : Mem) : ElfClass := if buf 4 = 2 then elf64 else elf32

/-- Where program header `i` is. -/
def ElfClass.phdrAt (k : ElfClass) (buf : Mem) (i : Nat) : Nat :=
  (k.phoff buf + i * k.phentsize buf) % 2 ^ 64

/-- Program header `i` if it is one for a `PT_LOAD` segment. -/
def ElfClass.segment (k : ElfClass) (buf : Mem) (i : Nat) : Option Phdr :=
  if buf.u32 (k.phdrAt buf i) = 1 then some (k.phdr buf (k.phdrAt buf i)) else none

/-- The segments of an ELF file. -/
def segments (buf : Mem) : List Phdr :=
  (List.range ((elfClass buf).phnum buf)).filterMap ((elfClass buf).segment buf)

/-- All that is looked at is in the first `size` bytes. -/
def headersInside (buf : Mem) (size : Nat) : Bool :=
  let k := elfClass buf
  decide (k.ehdrEnd ≤ size) && (List.range (k.phnum buf)).all (fun i =>
    decide (k.phdrAt buf i + 4 ≤ size) &&
      (!decide (buf.u32 (k.phdrAt buf i) = 1) || decide (k.phdrAt buf i + k.phdrEnd ≤ size)))

/-- `ELF_MAGIC` -/
def elfMagic : Nat := 0x464c457f

/-- Model of `getFileSize`, into a `uint32_t`. -/
def getFileSize (file : List UInt8) : Nat := file.length % 2 ^ 32

/-- `file_buffer`: the file, and behind it what the heap holds. -/
def fileBuffer (file : List UInt8) (heap : Mem) : Mem :=
  fun i => if i < getFileSize file then file.getD i 0 else heap i

/-! ## Entries -/

/-- `bl_entry_t`, with the file at `path`. -/
structure BlEntry where
  id : UInt32
  file : List UInt8
  addr : UInt32
  offset : UInt32
  size : UInt32

/-- `DO_ALIGN` on `uint32_t`. -/
def doAlign (a b : Nat) : Nat := if 0 < a then ((a - 1) / b + 1) * b % 2 ^ 32 else a

def BlEntry.alignSize (e : BlEntry) : Nat := doAlign e.size.toNat 2048

/-- The entry for a segment. -/
def segmentEntry (id : UInt32) (file : List UInt8) (p : Phdr) : BlEntry :=
  ⟨id, file, UInt32.ofNat p.vaddr, UInt32.ofNat p.offset, UInt32.ofNat p.filesz⟩

/-- The loop over the segments. -/
def segmentEntries (id : UInt32) (file : List UInt8) : List Phdr → Option (List BlEntry)
  | [] => some []
  | p :: ps =>
    let e := segmentEntry id file p
    if bl3xFilesizeMax < e.alignSize then none else (segmentEntries id file ps).map (e :: ·)

/-- Model of `filter_elf`: the new entries, or that the file is not an ELF file. The magic is compared
    without a look at the size of the file; further reads outside of it are left undefined. -/
def filterElf (heap : Mem) (id : UInt32) (file : List UInt8) : Option (Option (List BlEntry)) :=
  let buf := fileBuffer file heap
  if buf.u32 0 ≠ elfMagic then some none
  else if headersInside buf (getFileSize file) = false then none
  else if buf 5 ≠ 1 then none
  else if buf.u16 16 ≠ 2 then none
  else (segmentEntries id file (segments buf)).map some

/-- One round of the loop over the files. -/
def fileEntries (heap : Mem) (id : UInt32) (s : Section) : Option (List BlEntry) :=
  if s.sec = false then some []
  else
    match s.file with
    | none => none
    | some file =>
      match filterElf heap id file with
      | none => none
      | some (some entries) => some entries
      | some none =>
        let e : BlEntry := ⟨id, file, s.addr, 0, UInt32.ofNat file.length⟩
        if bl3xFilesizeMax < e.alignSize then none else some [e]

/-- The files in the order of the loop. -/
def sections : List Bl3x := [.bl30, .bl31, .bl32, .bl33]

/-- The loop over the files. -/
def collect (heap : Mem) (opts : Options) : List Bl3x → Option (List BlEntry)
  | [] => some []
  | b :: bs =>
    match fileEntries heap b.id (opts.bl3x b), collect heap opts bs with
    | some es, some rest => some (es ++ rest)
    | _, _ => none

/-! ## Output -/

/-- Model of `getBCD`. -/
def getBCD (value : Nat) : Nat := value % 2 ^ 16 / 10 % 10 * 16 + value % 2 ^ 16 % 10

/-- The header in `gBuf` without the components. -/
def trustHeader (opts : Options) (n : Nat) : Mem :=
  let signOffset := 800 + n * 48
  (((Mem.zero.store 0 [66, 76, 51, 88]).set32 4 (getBCD opts.major * 256 + getBCD opts.minor)).set32 8
    (opts.shaMode ||| opts.rsaMode * 16)).set32 12 (n * 65536 ||| signOffset / 4)

/-- The loop that enters the components, from component `i` on; `outFileSize` is where it goes. -/
def putComponents (signOffset : Nat) : List BlEntry → Nat → Nat → Mem → Mem
  | [], _, _, gBuf => gBuf
  | e :: es, i, outFileSize, gBuf =>
    let data := 800 + 48 * i
    let component := signOffset + 256 + 16 * i
    let gBuf := ((gBuf.set32 (data + 32) e.addr.toNat).set32 component e.id.toNat).set32 (component + 4)
      (outFileSize / 512)
    let gBuf := gBuf.set32 (component + 8) (e.alignSize / 512)
    putComponents signOffset es (i + 1) (outFileSize + e.alignSize) gBuf

/-- The component as it is read into `gBuf`. -/
def readComponent (e : BlEntry) : Option (List UInt8) :=
  -- `fread` of one element writes as much as there is
  if bl3xFilesizeMax < min e.size.toNat (e.file.length - e.offset.toNat) then none
  else if e.size.toNat = 0 ∨ e.file.length < e.offset.toNat + e.size.toNat then none
  else some ((Mem.ofList e.file).bytes e.offset.toNat e.size.toNat ++
    List.replicate (e.alignSize - e.size.toNat) 0)

/-- The loop that saves the components, from component `i` on and to `pbuf`. The SHA-256 of a component
    is computed in pieces of 256 KiB. -/
def saveComponents (sha256 : List UInt8 → Mem) : List BlEntry → Nat → Nat → Mem → Option Mem
  | [], _, _, outBuf => some outBuf
  | e :: es, i, pbuf, outBuf =>
    match readComponent e with
    | none => none
    | some data =>
      let outBuf := (outBuf.copy (800 + 48 * i) (sha256 data) 0 32).store pbuf data
      saveComponents sha256 es (i + 1) (pbuf + e.alignSize) outBuf

/-- The size of one copy of the image. -/
def outFileSize (entries : List BlEntry) : Nat := 2048 + (entries.map BlEntry.alignSize).sum

/-- Model of `mergetrust` from the parsed options on: what is written to the output file, which has
    `TRUSTIMAGE_MAX_SIZE * TRUSTIMAGE_MAX_NUM` bytes. `sha256` is the function that `gSHAmode`
    selects. -/
def mergetrust (sha256 : Nat → List UInt8 → Mem) (heap : Mem) (opts : Options) : Option Mem :=
  match collect heap opts sections with
  | none => none
  | some entries =>
    let n := entries.length
    if metaMax < n then none
    else if trustimageMaxSize < outFileSize entries then none
    else
      let gBuf := putComponents (800 + n * 48) entries 0 2048 (trustHeader opts n)
      let outBuf := Mem.zero.copy 0 gBuf 0 2048
      (saveComponents (sha256 opts.shaMode) entries 0 2048 outBuf).map
        (fun outBuf => outBuf.copy trustimageMaxSize outBuf 0 trustimageMaxSize)

/-! ## What the image should be -/

/-- A component of the input, with the numbers that the file gives for it. -/
structure Component where
  id : UInt32
  addr : Nat
  file : List UInt8
  offset : Nat
  size : Nat

/-- An ELF file, as far as the tool reads it. -/
def isElf (file : List UInt8) : Bool :=
  decide (4 ≤ getFileSize file ∧ (Mem.ofList file).u32 0 = elfMagic)

/-- The components of a file. -/
def components (id : UInt32) (s : Section) : List Component :=
  match s.sec, s.file with
  | true, some file =>
    if isElf file then
      (segments (Mem.ofList file)).map (fun p => ⟨id, p.vaddr, file, p.offset, p.filesz⟩)
    else [⟨id, s.addr.toNat, file, 0, file.length⟩]
  | _, _ => []

def allComponents (opts : Options) : List Component :=
  sections.flatMap (fun b => components b.id (opts.bl3x b))

/-- The component with its padding. -/
def Component.image (c : Component) : List UInt8 :=
  Mem.padTo 2048 ((Mem.ofList c.file).bytes c.offset c.size)

/-- The number of components that the header gives. -/
def componentNum (out : Mem) : Nat := out.u32 12 / 65536

/-- `SignOffset` as the header gives it. -/
def signOffset (out : Mem) : Nat := out.u32 12 % 65536 * 4

/-- The header describes `c` as component `i`. -/
structure Describes (sha256 : List UInt8 → Mem) (out : Mem) (i : Nat) (c : Component) : Prop where
  inFile : c.offset + c.size ≤ c.file.length
  id : out.u32 (signOffset out + 256 + 16 * i) = c.id.toNat
  loadAddr : out.u32 (800 + 48 * i + 32) = c.addr
  imageSize : 512 * out.u32 (signOffset out + 256 + 16 * i + 8) = c.image.length
  storageAddr : out.Has (512 * out.u32 (signOffset out + 256 + 16 * i + 4)) c.image
  hash : out.bytes (800 + 48 * i) 32 = (sha256 c.image).bytes 0 32

/-- The image is right for these components. -/
structure Correct (sha256 : List UInt8 → Mem) (cs : List Component) (out : Mem) : Prop where
  num : componentNum out = cs.length
  inside : signOffset out + 256 + 16 * cs.length ≤ 2048
  described : ∀ i (h : i < cs.length), Describes sha256 out i cs[i]
  copies : ∀ x < trustimageMaxSize, out (trustimageMaxSize + x) = out x

end TrustMerger
