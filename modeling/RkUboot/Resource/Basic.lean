import RkUboot.Lib.Bytes
import RkUboot.Lib.BlockDev

set_option autoImplicit false

/-! # The resource image (`tools/resource_tool`, `common/resource.c`)

`resource_tool` packs files into an image of 512-byte blocks, and the boot loader looks them up by
path, on the storage or in memory:

```
block 0:     "RSCE", versions 4 and 6, header_size 8, tbl_offset 9, tbl_entry_size 10,
             tbl_entry_num 12
block 1 + i: "ENTR", path 4 (256 bytes), content_offset 260 (in blocks), content_size 264
then:        the files, each in whole blocks
```

The tool writes a file before its entry. It positions with an `int` in bytes, so it cannot write a
block from 2^22 on. -/

namespace Resource

/-! ## Files -/

/-- A file on the command line. The tool looks at the last four characters of the name, and an `int`
    holds the size. -/
structure SrcFile where
  name : List UInt8
  data : List UInt8
  named : 4 ≤ name.length
  chars : 0 ∉ name
  small : data.length < 2 ^ 31

/-- `FDT_PATH` -/
def fdtPath : List UInt8 := [114, 107, 45, 107, 101, 114, 110, 101, 108, 46, 100, 116, 98]

/-- The test for `DTD_SUBFIX`. -/
def isDtb (name : List UInt8) : Bool := decide (name.drop (name.length - 4) = [46, 100, 116, 98])

/-- `fix_path` -/
def fixPath : List UInt8 → List UInt8
  | 46 :: 47 :: rest => rest
  | path => path

/-- The path without `root_path`. -/
def stripRoot (root path : List UInt8) : List UInt8 :=
  if root ≠ [] ∧ root.isPrefixOf path then
    match path.drop root.length with
    | 47 :: rest => rest
    | rest => rest
  else path

/-- The path in the entry; the first device tree gets its own. -/
def storedPath (root : List UInt8) (foundFdt : Bool) (f : SrcFile) : List UInt8 :=
  if isDtb f.name ∧ foundFdt = false then fdtPath else fixPath (stripRoot root f.name)

/-- The loop of `pack_image` that moves the device trees to the front and the image itself to the end,
    `k` rounds at most. -/
def prepareLoop (imagePath : List UInt8) : Nat → Array SrcFile → Nat → Nat → Nat → Array SrcFile × Nat
  | 0, files, _, _, num => (files, num)
  | k + 1, files, i, pos, num =>
    match files[i]? with
    | none => (files, num)
    | some f =>
      if num ≤ i then (files, num)
      else if isDtb f.name then
        prepareLoop imagePath k (files.swapIfInBounds pos i) (i + 1) (pos + 1) num
      else if fixPath imagePath = fixPath f.name then
        prepareLoop imagePath k (files.swapIfInBounds (num - 1) i) (i + 1) pos (num - 1)
      else prepareLoop imagePath k files (i + 1) pos num

/-- The files that are packed, in order. -/
def prepare (imagePath : List UInt8) (files : Array SrcFile) : List SrcFile :=
  let r := prepareLoop imagePath files.size files 0 0 files.size
  r.1.toList.take r.2

/-! ## Writing -/

/-- The image file; what was not written yet reads as zero. -/
structure Image where
  bytes : Mem
  size : Nat

/-- `StorageWriteLba` of the tool, for whole blocks. The offset is an `int`, and `fseek` does not
    take a negative one. -/
def storageWriteLba (block : Nat) (data : List UInt8) (img : Image) : Bool × Image :=
  let offset := block * 512 % 2 ^ 32
  if 2 ^ 31 ≤ offset then (false, img)
  else (true, ⟨img.bytes.store offset data, max img.size (offset + data.length)⟩)

/-- `write_data` -/
def writeData (block : Nat) (data : List UInt8) (img : Image) : Bool × Image :=
  let blocks := data.length / 512
  let r := if blocks = 0 then (true, img) else storageWriteLba block (data.take (512 * blocks)) img
  if r.1 = false then r
  else if data.length % 512 = 0 then r
  else storageWriteLba (block + blocks) (Mem.padTo 512 (data.drop (512 * blocks))) r.2

/-- `fix_blocks` -/
def fixBlocks (size : Nat) : Nat := (size + 511) / 512

/-- The loop of `write_file`, `k` blocks to go from block `i`. -/
def writeBlocks (data : List UInt8) (off : Nat) : Nat → Nat → Image → Bool × Image
  | 0, _, img => (true, img)
  | k + 1, i, img =>
    match writeData (off + i) (Mem.padTo 512 ((data.drop (512 * i)).take 512)) img with
    | (false, img) => (false, img)
    | (true, img) => writeBlocks data off k (i + 1) img

/-- `write_file` -/
def writeFile (off : Nat) (data : List UInt8) (img : Image) : Bool × Image :=
  writeBlocks data off (fixBlocks data.length) 0 img

/-- `resource_ptn_header` for `num` files. -/
def encodeHeader (num : Nat) : List UInt8 :=
  [82, 83, 67, 69] ++ Mem.le16 0 ++ Mem.le16 0 ++ [1, 1, 1, 0] ++ Mem.le32 num

/-- `index_tbl_entry` -/
def encodeEntry (path : List UInt8) (offset size : Nat) : List UInt8 :=
  [69, 78, 84, 82] ++ (path.take 255 ++ List.replicate (256 - (path.take 255).length) 0) ++
    Mem.le32 offset ++ Mem.le32 size

/-- The loop of `write_index_tbl`, from entry `i` on. -/
def writeIndexTbl (root : List UInt8) : List SrcFile → Nat → Bool → Nat → Image → Bool × Image
  | [], _, _, _, img => (true, img)
  | f :: fs, i, foundFdt, offset, img =>
    match writeFile offset f.data img with
    | (false, img) => (false, img)
    | (true, img) =>
      match writeData (1 + i) (encodeEntry (storedPath root foundFdt f) offset f.data.length) img with
      | (false, img) => (false, img)
      | (true, img) =>
        writeIndexTbl root fs (i + 1) (foundFdt || isDtb f.name) (offset + fixBlocks f.data.length) img

/-- Model of `pack_image`: whether it succeeds, and the image file. -/
def packImage (imagePath root : List UInt8) (files : Array SrcFile) : Bool × Image :=
  let fs := prepare imagePath files
  match writeData 0 (encodeHeader fs.length) ⟨Mem.zero, 0⟩ with
  | (false, img) => (false, img)
  | (true, img) => writeIndexTbl root fs 0 false (1 + fs.length) img

/-! ## Looking up -/

/-- C `strncmp(m + a, s, n) == 0`. -/
def strncmpEq (m : Mem) : Nat → List UInt8 → Nat → Bool
  | _, _, 0 => true
  | a, [], _ + 1 => m a == 0
  | a, c :: s, n + 1 => m a == c && strncmpEq m (a + 1) s n

/-- The header is one that is supported. -/
def headerOk (header : Mem) : Bool :=
  decide (header.bytes 0 4 = [82, 83, 67, 69] ∧ header.u16 4 = 0 ∧ header 8 = 1 ∧ header.u16 6 = 0 ∧
    header 10 = 1)

def tblEntryNum (header : Mem) : Nat := header.u32 12

/-- The loop of `get_entry_ram`, `k` entries to go from entry `i`: offset and size of the content. -/
def findEntry (table : Mem) (a : Nat) (path : List UInt8) : Nat → Nat → Option (Nat × Nat)
  | 0, _ => none
  | k + 1, i =>
    let entry := a + 512 * i
    if table.bytes entry 4 ≠ [69, 78, 84, 82] then none
    else if strncmpEq table (entry + 4) path 256 then
      some (table.u32 (entry + 260), table.u32 (entry + 264))
    else findEntry table a path k (i + 1)

/-- `get_entry_ram`, for a table at `a` in `table`. -/
def getEntryRam (header table : Mem) (a tableLen : Nat) (path : List UInt8) : Option (Nat × Nat) :=
  if headerOk header = false then none
  else if tblEntryNum header ≤ 0xFFFF ∧ tableLen < tblEntryNum header * 512 then none
  else findEntry table a path (tblEntryNum header) 0

/-- `get_content_ram`: `load_addr` from the start of `buf`, and `content_size`. -/
def getContentRam (buf : Mem) (len : Nat) (path : List UInt8) : Option (Nat × Nat) :=
  let headerSize := (buf 8).toNat * 512
  (getEntryRam buf buf headerSize ((len + 2 ^ 64 - headerSize) % 2 ^ 64) path).map
    (fun e => (e.1 * 512 % 2 ^ 32, e.2))

/-- `get_entry`. The index table is read into memory that `memalign` has to give. More entries than fit
    in a `uint16_t` are looked for behind a null pointer. -/
def getEntry (memalign : Nat → Bool) (base : Nat) (dev : BlockDev) (path : List UInt8) :
    Option (Nat × Nat) :=
  match dev.read base 1 Mem.zero 0 with
  | (false, _) => none
  | (true, header, dev) =>
    if headerOk header = false then none
    else if 0xFFFF < tblEntryNum header then none
    else if memalign (tblEntryNum header * 512) = false then none
    else
      match dev.read (base + (header 8).toNat) (tblEntryNum header) Mem.zero 0 with
      | (false, _) => none
      | (true, table, _) => getEntryRam header table 0 (tblEntryNum header * 512) path

/-- `get_content`: `content_offset` on the storage, and `content_size`. `ptnBase` is what
    `get_base_offset` finds. -/
def getContent (memalign : Nat → Bool) (ptnBase baseOffset : Nat) (dev : BlockDev)
    (path : List UInt8) : Option (Nat × Nat) :=
  let base := if baseOffset = 0 then ptnBase else baseOffset
  if base = 0 then none
  else (getEntry memalign base dev path).map (fun e => ((e.1 + base) % 2 ^ 32, e.2))

end Resource
