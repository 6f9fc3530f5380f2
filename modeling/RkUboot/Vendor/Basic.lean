import RkUboot.Lib.BlockDev

set_option autoImplicit false

/-! # The vendor storage (`board/rockchip/common/storage/storage.c`)

`g_vendor` is modelled byte for byte: the state's `ram` is the memory from `&g_vendor` on, so an
access past the end of `item[]` or `data[]` hits the bytes the C program hits. Offsets of the
fields of `struct vendor_info`:

```
tag 0, version 4, next_index 8, item_num 10, free_offset 12, free_size 14,
item[i] 16 + 8 * i (id 0, offset 2, size 4, flag 6), data 1024, hash 65528, version2 65532
```
-/

namespace Vendor

/-! ## `struct vendor_info` -/

/-- The source's `VENDOR_TAG`. -/
def vendorTag : Nat := 0x524B5644

/-- Sectors of one image, `VENDOR_PART_SIZE`. -/
def vendorPartSize : Nat := 128

/-- Bytes of one image, `sizeof(g_vendor)`. -/
def imageSize : Nat := 65536

/-- Bytes of the item area, `sizeof(g_vendor.data)`. -/
def dataSize : Nat := 64504

def tag (g : Mem) : Nat := g.u32 0

def version (g : Mem) : Nat := g.u32 4

def nextIndex (g : Mem) : Nat := g.u16 8

def itemNum (g : Mem) : Nat := g.u16 10

def freeOffset (g : Mem) : Nat := g.u16 12

def freeSize (g : Mem) : Nat := g.u16 14

/-- Offset of `item[i]`. -/
def itemAt (i : Nat) : Nat := 16 + 8 * i

def itemId (g : Mem) (i : Nat) : Nat := g.u16 (itemAt i)

def itemOffset (g : Mem) (i : Nat) : Nat := g.u16 (itemAt i + 2)

def itemSize (g : Mem) (i : Nat) : Nat := g.u16 (itemAt i + 4)

/-- Offset of `data[o]`. -/
def dataAt (o : Nat) : Nat := 1024 + o

def version2 (g : Mem) : Nat := g.u32 65532

/-! ## The medium -/

/-- Where the medium keeps the images. `emmc` and `nand` are the two layouts of the source; the
    theorems are about every number of slots. -/
structure Layout where
  start : Nat
  /-- Slots never straddle the 32-bit end of the sector numbers. -/
  start_aligned : start % vendorPartSize = 0
  vendorPartNum : Nat
  vendorPartNum_lt : vendorPartNum < 2 ^ 32

/-- eMMC: `EMMC_VENDOR_PART_START`, `VENDOR_PART_NUM`. -/
def Layout.emmc : Layout := ⟨1024 * 7, by decide, 4, by decide⟩

/-- `g_vendor` with the memory behind it, and the medium. -/
structure State where
  ram : Mem
  dev : BlockDev

/-- Model of `vendor_ops`: transfer `nSec` sectors between `g_vendor + p` and sector `addr` of the
    vendor partition. Sector numbers are `u32`. The first component is `ret == 0`. -/
def vendorOps (L : Layout) (s : State) (p addr nSec : Nat) (write : Bool) : Bool × State :=
  let lba := (addr + L.start) % 2 ^ 32
  if write then
    let (ok, dev) := s.dev.write lba nSec s.ram p
    (ok, { s with dev := dev })
  else
    let (ok, ram, dev) := s.dev.read lba nSec s.ram p
    (ok, { ram := ram, dev := dev })

/-! ## `vendor_storage_init` -/

/-- The search loop of `vendor_storage_init` from slot `i` on, `n` slots to go. Returns `max_ver`
    and `max_index`, or `none` when a transfer fails (the source returns -1). -/
def scanSlots (L : Layout) : Nat → Nat → State → Nat → Nat → Option (Nat × Nat) × State
  | 0, _, s, maxVer, maxIndex => (some (maxVer, maxIndex), s)
  | n + 1, i, s, maxVer, maxIndex =>
    -- first 512 bytes of the slot
    match vendorOps L s 0 (vendorPartSize * i % 2 ^ 32) 1 false with
    | (false, s) => (none, s)
    | (true, s) =>
      -- last 512 bytes
      match vendorOps L s ((vendorPartSize - 1) * 512)
          ((vendorPartSize * (i + 1) + (2 ^ 32 - 1)) % 2 ^ 32) 1 false with
      | (false, s) => (none, s)
      | (true, s) =>
        if tag s.ram = vendorTag ∧ version2 s.ram = version s.ram ∧ maxVer < version s.ram then
          scanSlots L n (i + 1) s (version s.ram) i
        else
          scanSlots L n (i + 1) s maxVer maxIndex

/-- The empty store: `memset`, then the five assignments of the source. -/
def emptyStore (g : Mem) : Mem :=
  let g := g.fill 0 0 imageSize
  let g := g.set32 4 1
  let g := g.set32 0 vendorTag
  let g := g.set32 65532 (version g)
  let g := g.set16 12 0
  g.set16 14 dataSize

/-- Model of `vendor_storage_init`. -/
def vendorStorageInit (L : Layout) (s : State) : Int × State :=
  match scanSlots L L.vendorPartNum 0 s 0 0 with
  | (none, s) => (-1, s)
  | (some (maxVer, maxIndex), s) =>
    if maxVer ≠ 0 then
      match vendorOps L s 0 (vendorPartSize * maxIndex % 2 ^ 32) vendorPartSize false with
      | (false, s) => (-1, s)
      | (true, s) => (0, s)
    else
      (0, { s with ram := emptyStore s.ram })

/-! ## `vendor_storage_read` and `vendor_storage_write` -/

/-- The loop both functions share: the first of the items `i .. i + n` whose id is `id`. -/
def findItem (g : Mem) (id : Nat) : Nat → Nat → Option Nat
  | 0, _ => none
  | n + 1, i => if itemId g i = id then some i else findItem g id n (i + 1)

/-- Model of `vendor_storage_read`: the return value and the caller's buffer. -/
def vendorStorageRead (g : Mem) (id : Nat) (pbuf : Mem) (size : Nat) : Int × Mem :=
  match findItem g id (itemNum g) 0 with
  | some i =>
    let size := if size > itemSize g i then itemSize g i else size
    ((size : Int), pbuf.copy 0 g (dataAt (itemOffset g i)) size)
  | none => (-1, pbuf)

/-- The source's `algin_size`: `(size + 0x3F) & (~0x3F)` on `u32`. -/
def alginSize (size : Nat) : Nat := (size + 0x3F) % 2 ^ 32 / 64 * 64

/-- What both branches of `vendor_storage_write` do to the header before they write the image:
    `version++`, `version2 = version`, `next_index++` with its wrap. -/
def bumpHeader (L : Layout) (g : Mem) : Mem :=
  let g := g.set32 4 (version g + 1)
  let g := g.set32 65532 (version g)
  let g := g.set16 8 (nextIndex g + 1)
  if nextIndex g ≥ L.vendorPartNum then g.set16 8 0 else g

/-- Write the image to slot `nextIndex`. The source ignores the result. -/
def writeImage (L : Layout) (s : State) (nextIndex : Nat) : State :=
  (vendorOps L s 0 (vendorPartSize * nextIndex % 2 ^ 32) vendorPartSize true).2

/-- The item of `vendor_storage_write` is rewritten in place. -/
def updateItem (g : Mem) (i : Nat) (pbuf : Mem) (size : Nat) : Mem :=
  let g := g.copy (dataAt (itemOffset g i)) pbuf 0 size
  g.set16 (itemAt i + 4) size

/-- A new item is appended at `item[item_num]`. -/
def appendItem (g : Mem) (id : Nat) (pbuf : Mem) (size : Nat) : Mem :=
  let i := itemNum g
  let g := g.set16 (itemAt i) id
  let g := g.set16 (itemAt i + 2) (freeOffset g)
  let g := g.set16 (itemAt i + 4) size
  let g := g.set16 12 (freeOffset g + alginSize size)
  let g := g.set16 14 (freeSize g - alginSize size)
  let g := g.copy (dataAt (itemOffset g i)) pbuf 0 size
  g.set16 10 (itemNum g + 1)

/-- Model of `vendor_storage_write`. -/
def vendorStorageWrite (L : Layout) (s : State) (id : Nat) (pbuf : Mem) (size : Nat) :
    Int × State :=
  let next := nextIndex s.ram
  match findItem s.ram id (itemNum s.ram) 0 with
  | some i =>
    if size > alginSize size then (-1, s)
    else (0, writeImage L { s with ram := bumpHeader L (updateItem s.ram i pbuf size) } next)
  | none =>
    if freeSize s.ram ≥ alginSize size then
      (0, writeImage L { s with ram := bumpHeader L (appendItem s.ram id pbuf size) } next)
    else (-1, s)

/-! ## The three outcomes of a write -/

theorem alginSize_of_lt {size : Nat} (h : size < 65536) :
    alginSize size = (size + 63) / 64 * 64 := by
  simp only [alginSize]
  rw [Nat.mod_eq_of_lt (by omega)]

theorem le_alginSize {size : Nat} (h : size < 65536) : size ≤ alginSize size := by
  rw [alginSize_of_lt h]
  omega

variable (L : Layout) {s : State} {id size i : Nat} (pbuf : Mem)

theorem vendorStorageWrite_found (h : findItem s.ram id (itemNum s.ram) 0 = some i)
    (hsize : size < 65536) :
    vendorStorageWrite L s id pbuf size
      = (0, writeImage L { s with ram := bumpHeader L (updateItem s.ram i pbuf size) }
          (nextIndex s.ram)) := by
  -- the guard compares `size` with itself rounded up, so it never fires
  have hguard : ¬ size > alginSize size := Nat.not_lt.2 (le_alginSize hsize)
  simp only [vendorStorageWrite, h, if_neg hguard]

theorem vendorStorageWrite_append (h : findItem s.ram id (itemNum s.ram) 0 = none)
    (hspace : alginSize size ≤ freeSize s.ram) :
    vendorStorageWrite L s id pbuf size
      = (0, writeImage L { s with ram := bumpHeader L (appendItem s.ram id pbuf size) }
          (nextIndex s.ram)) := by
  simp only [vendorStorageWrite, h, ge_iff_le, if_pos hspace]

theorem vendorStorageWrite_full (h : findItem s.ram id (itemNum s.ram) 0 = none)
    (hspace : ¬ alginSize size ≤ freeSize s.ram) :
    vendorStorageWrite L s id pbuf size = (-1, s) := by
  simp only [vendorStorageWrite, h, ge_iff_le, if_neg hspace]

/-! ## What the header update does -/

variable (g : Mem)

/-- The slot after `i`: `next_index` is a `u16` that wraps at the number of slots. -/
def nextSlot (i : Nat) : Nat :=
  if L.vendorPartNum ≤ (i + 1) % 65536 then 0 else (i + 1) % 65536

/-- The three fields that `bumpHeader` stores. -/
theorem bumpHeader_eq :
    bumpHeader L g = ((g.set32 4 (version g + 1)).set32 65532
      (version (g.set32 4 (version g + 1)))).set16 8 (nextSlot L (nextIndex g)) := by
  have hold : nextIndex ((g.set32 4 (version g + 1)).set32 65532
      (version (g.set32 4 (version g + 1)))) = nextIndex g := by
    rfl
  have hset : ∀ (m : Mem) w, nextIndex (m.set16 8 w) = w % 65536 := fun m w =>
    Mem.u16_set16_same m 8 w
  simp only [bumpHeader, nextSlot, hold, hset, ge_iff_le]
  split
  · rw [Mem.set16_set16]
  · rw [Mem.set16_mod]

/-- `bumpHeader` writes `version`, `next_index` and `version2` and nothing else. -/
theorem bumpHeader_apply_ne (x : Nat) (h : x < 4 ∨ 10 ≤ x ∧ x < 65532 ∨ 65536 ≤ x) :
    bumpHeader L g x = g x := by
  rw [bumpHeader_eq]
  simp (disch := omega) only [Mem.set16_apply_ne, Mem.set32_apply_ne]

theorem version_bumpHeader : version (bumpHeader L g) = (version g + 1) % 4294967296 := by
  rw [bumpHeader_eq]
  simp (disch := omega) only [version, Mem.u32_set16_ne, Mem.u32_set32_ne, Mem.u32_set32_same]

theorem version2_bumpHeader : version2 (bumpHeader L g) = (version g + 1) % 4294967296 := by
  rw [bumpHeader_eq]
  simp (disch := omega) only [version, version2, Mem.u32_set16_ne, Mem.u32_set32_same, Nat.mod_mod]

theorem nextIndex_bumpHeader : nextIndex (bumpHeader L g) = nextSlot L (nextIndex g) := by
  rw [bumpHeader_eq, nextIndex, Mem.u16_set16_same]
  unfold nextSlot
  split
  · rfl
  · exact Nat.mod_mod _ _

end Vendor
