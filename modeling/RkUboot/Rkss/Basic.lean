import RkUboot.Lib.BlockDev
import RkUboot.Lib.Nibbles

set_option autoImplicit false

/-! # The secure-storage file system (`lib/optee_clientApi/OpteeClientRkFs.c`)

The `security` partition is a flat disk of 512-byte sections (`RKSS_DATA_LEN`). Sections 0..127
(`RKSS_PARTITION_TABLE_COUNT`) hold the file table, four 126-byte `rkss_file_info` records and an
8-byte trailer each; section 128 (`RKSS_USEDFLAGS_INDEX`) holds a 4-bit reference count for each of
the 1024 sections (`RKSS_DATA_SECTION_COUNT`); the others hold file data. A section buffer and a
record on the stack are memories of their own that start at 0, so the offsets are those of the C
structs:

```
used 0, name 1..117, index 118, size 120, father 122, id 124, flags 125; trailer: version 504,
checkstr 508
```

A C string is the list of its characters before the terminator. -/

namespace Rkss

/-! ## Sections -/

/-- Model of `rkss_read_section`, into a section buffer that was zero; `none` is the result -1. -/
def rkssReadSection (dev : BlockDev) (index : Nat) : Option Mem × BlockDev :=
  match dev.read index 1 Mem.zero 0 with
  | (true, data, dev) => (some data, dev)
  | (false, _, dev) => (none, dev)

/-- Model of `rkss_write_section`. -/
def rkssWriteSection (dev : BlockDev) (index : Nat) (data : Mem) : Bool × BlockDev :=
  dev.write index 1 data 0

/-! ## `struct rkss_file_info` -/

def infoUsed (p : Mem) : UInt8 := p 0

def infoIndex (p : Mem) : Nat := p.u16 118

def infoSize (p : Mem) : Nat := p.u16 120

def infoFlags (p : Mem) : UInt8 := p 125

/-- Record `n` of a table section, copied to a record on the stack. -/
def loadInfo (data : Mem) (n : Nat) : Mem := Mem.zero.copy 0 data (126 * n) 126

/-! ## The file table -/

/-- Model of `rkss_get_fileinfo_by_index`; `none` is the result -1. -/
def rkssGetFileinfoByIndex (dev : BlockDev) (fd : Nat) : Option Mem × BlockDev :=
  match rkssReadSection dev (fd / 4) with
  | (none, dev) => (none, dev)
  | (some data, dev) =>
    if data (126 * (fd - 4 * (fd / 4))) ≠ 1 then (none, dev)
    else (some (loadInfo data (fd - 4 * (fd / 4))), dev)

/-- The path component a string starts with: everything before the first `/`. -/
def component (s : List UInt8) : List UInt8 := s.takeWhile (· ≠ 47)

/-- What follows the first `/` of a string; `none` when `strstr` finds no `/`. -/
def afterSlash (s : List UInt8) : Option (List UInt8) :=
  match s.dropWhile (· ≠ 47) with
  | [] => none
  | _ :: rest => some rest

/-- The folder matching loop: compare component by component while both strings have a `/` left.
    Every round takes a `/` off the name looked for, so its length bounds the rounds. -/
def matchFolder : Nat → List UInt8 → List UInt8 → Bool
  | 0, _, _ => false
  | fuel + 1, inpos, svpos =>
    if component inpos ≠ component svpos then false
    else
      match afterSlash inpos, afterSlash svpos with
      | some inpos, some svpos => matchFolder fuel inpos svpos
      | _, _ => true

/-- What the lookup finds at record `n` of table section `i`: the file (its descriptor and record),
    a folder (-100, record untouched), or nothing. -/
def lookupEntry (data : Mem) (filename : List UInt8) (i n : Nat) : Option (Int × Mem) :=
  if data (126 * n) = 0 then none
  else if data.strcmpEq (126 * n + 1) filename then some ((i * 4 + n : Nat), loadInfo data n)
  else if matchFolder (filename.length + 1) filename (data.cstr 512 (126 * n + 1)) then
    some (-100, Mem.zero)
  else none

/-- The section loop of `rkss_get_fileinfo_by_name`, `k` sections to go from `i`. -/
def lookupSections (filename : List UInt8) : Nat → Nat → BlockDev → Int × Mem × BlockDev
  | 0, _, dev => (-1, Mem.zero, dev)
  | k + 1, i, dev =>
    match rkssReadSection dev i with
    | (none, dev) => (-1, Mem.zero, dev)
    | (some data, dev) =>
      match (List.range 4).findSome? (lookupEntry data filename i) with
      | some (ret, p) => (ret, p, dev)
      | none => lookupSections filename k (i + 1) dev

/-- Model of `rkss_get_fileinfo_by_name` with a record that was zero: the descriptor of the file,
    -100 for a folder, -1 for neither. -/
def rkssGetFileinfoByName (dev : BlockDev) (filename : List UInt8) : Int × Mem × BlockDev :=
  if filename.length > 117 - 1 then (-1, Mem.zero, dev)
  else lookupSections filename 128 0 dev

/-- The record `rkss_write_empty_ptable` stores at record `n` of a section. -/
def stampInfo (p : Mem) (n : Nat) : Mem := (p.set8 0 1).set8 124 (UInt8.ofNat n)

/-- The section loop of `rkss_write_empty_ptable`, `k` sections to go from `i`. -/
def writeEmptySections (p : Mem) : Nat → Nat → BlockDev → Int × BlockDev
  | 0, _, dev => (-1, dev)
  | k + 1, i, dev =>
    match rkssReadSection dev i with
    | (none, dev) => (-1, dev)
    | (some data, dev) =>
      match (List.range 4).find? (fun n => data (126 * n) = 0) with
      | some n =>
        match rkssWriteSection dev i (data.copy (126 * n) (stampInfo p n) 0 126) with
        | (true, dev) => ((i * 4 + n : Nat), dev)
        | (false, dev) => (-1, dev)
      | none => writeEmptySections p k (i + 1) dev

/-- Model of `rkss_write_empty_ptable`: the descriptor of the record written, or -1. -/
def rkssWriteEmptyPtable (dev : BlockDev) (p : Mem) : Int × BlockDev :=
  writeEmptySections p 128 0 dev

/-- Model of `rkss_write_back_ptable`. -/
def rkssWriteBackPtable (dev : BlockDev) (fd : Nat) (p : Mem) : Bool × BlockDev :=
  match rkssReadSection dev (fd / 4) with
  | (none, dev) => (false, dev)
  | (some data, dev) =>
    rkssWriteSection dev (fd / 4) (data.copy (126 * (fd - 4 * (fd / 4))) p 0 126)

/-! ## The used flags -/

/-- The search loop of `rkss_get_empty_section_from_usedflags`, `k` flags to go from `i`. -/
def emptyRun (data : Mem) (sectionSize : Nat) : Nat → Nat → Nat → Option Nat
  | 0, _, _ => none
  | k + 1, i, count0 =>
    if data.nib 0 i = 0 then
      if count0 + 1 = sectionSize then some (i + 1 - sectionSize)
      else emptyRun data sectionSize k (i + 1) (count0 + 1)
    else emptyRun data sectionSize k (i + 1) 0

/-- Model of `rkss_get_empty_section_from_usedflags`: a section number, -1 or -10. -/
def rkssGetEmptySectionFromUsedflags (dev : BlockDev) (sectionSize : Nat) : Int × BlockDev :=
  match rkssReadSection dev 128 with
  | (none, dev) => (-1, dev)
  | (some data, dev) =>
    match emptyRun data sectionSize 1024 0 0 with
    | some i => ((i : Nat), dev)
    | none => (-10, dev)

/-- The common body of the two reference-count updates: `f` is applied to the flag of `index`. -/
def updateUsedflag (f : Nat → Nat) (dev : BlockDev) (index : Nat) : Bool × BlockDev :=
  if index ≥ 1024 then (false, dev)
  else
    match rkssReadSection dev 128 with
    | (none, dev) => (false, dev)
    | (some data, dev) => rkssWriteSection dev 128 (data.setNib 0 index (f (data.nib 0 index)))

/-- One reference more, at most 15. -/
def incref (value : Nat) : Nat := if value + 1 > 0xF then 0xF else value + 1

/-- One reference less, at least 0. -/
def decref (value : Nat) : Nat := value - 1

/-- Model of `rkss_incref_usedflags_section`. -/
def rkssIncrefUsedflagsSection : BlockDev → Nat → Bool × BlockDev := updateUsedflag incref

/-- Model of `rkss_decref_usedflags_section`. -/
def rkssDecrefUsedflagsSection : BlockDev → Nat → Bool × BlockDev := updateUsedflag decref

/-- The loops over an extent: `update` on `num` sections from `index`, up to the first failure. -/
def updateExtent (update : BlockDev → Nat → Bool × BlockDev) :
    Nat → Nat → BlockDev → Bool × BlockDev
  | 0, _, dev => (true, dev)
  | num + 1, index, dev =>
    match update dev index with
    | (false, dev) => (false, dev)
    | (true, dev) => updateExtent update num (index + 1) dev

/-! ## Requests -/

/-- What the requests act on: the partition and `file_seek`. `filled` records, for the statements
    only, the sections `tee_fs_write` has filled with file data. -/
structure State where
  dev : BlockDev
  fileSeek : Int
  filled : List Nat

/-- Model of `tee_fs_open`. -/
def teeFsOpen (s : State) (filename : List UInt8) (flags len : Nat) : Int × State :=
  if filename.length > 117 then (-1, s)
  else
    match rkssGetFileinfoByName s.dev filename with
    | (ret, p, dev) =>
      if ret < 0 then
        if flags &&& 0x8 ≠ 0 then
          let p := p.strcpy 1 filename
          let p := p.set16 118 0
          let p := p.set16 120 len
          let p := p.set8 0 1
          let p := p.set8 125 (0x1 ||| 0x2)
          match rkssWriteEmptyPtable dev p with
          | (ret, dev) =>
            if ret < 0 then (-1, { s with dev := dev })
            else (ret, { s with dev := dev, fileSeek := 0 })
        else (-1, { s with dev := dev })
      else
        (ret, { s with dev := dev, fileSeek := if flags &&& 0x20 ≠ 0 then infoSize p else 0 })

/-- The copy loop of `tee_fs_read`: `num` sections to go from `index`. -/
def readSections : Nat → Nat → Nat → Nat → Mem → BlockDev → Int × Mem × BlockDev
  | 0, _, _, di, data, dev => (di, data, dev)
  | num + 1, index, left, di, data, dev =>
    match rkssReadSection dev index with
    | (none, dev) => (-1, data, dev)
    | (some rkss, dev) =>
      let read := if left > 512 then 512 else left
      readSections num (index + 1) (left - read) (di + read) (data.copy di rkss 0 read) dev

/-- Model of `tee_fs_read` of an opened descriptor: the result, the request's buffer and the state. -/
def teeFsRead (s : State) (fd len : Nat) (data : Mem) : Int × Mem × State :=
  match rkssGetFileinfoByIndex s.dev fd with
  | (none, dev) => (-1, data, { s with dev := dev })
  | (some p, dev) =>
    match readSections (len / 512 + 1) (infoIndex p)
        (if len > infoSize p then infoSize p else len) 0 data dev with
    | (ret, data, dev) => (ret, data, { s with dev := dev })

/-- The data loop of `tee_fs_write`: `num` sections to go from `index`. -/
def writeSections (data : Mem) : Nat → Nat → Nat → Nat → State → Bool × State
  | 0, _, _, _, s => (true, s)
  | num + 1, index, lastw, left, s =>
    let ws := if left > 512 then 512 else left
    match rkssWriteSection s.dev index (Mem.zero.copy 0 data lastw ws) with
    | (false, dev) => (false, { s with dev := dev, filled := index :: s.filled })
    | (true, dev) =>
      writeSections data num (index + 1) (lastw + ws) (left - 512)
        { s with dev := dev, filled := index :: s.filled }

/-- The record `tee_fs_write` writes back: the new size, and the result of the search for free
    sections converted to `uint16_t`. -/
def writtenInfo (p : Mem) (len : Nat) (empty : Int) : Mem :=
  ((p.set16 120 len).set16 118 (empty % 65536).toNat).set8 0 1

/-- Model of `tee_fs_write`. -/
def teeFsWrite (s : State) (fd : Int) (len : Nat) (data : Mem) : Int × State :=
  if fd < 0 then (-1, s)
  else
    match rkssGetFileinfoByIndex s.dev fd.toNat with
    | (none, dev) => (-1, { s with dev := dev })
    | (some p, dev) =>
      let num := len / 512 + 1
      match rkssGetEmptySectionFromUsedflags dev num with
      | (empty, dev) =>
        let p := writtenInfo p len empty
        match updateExtent rkssIncrefUsedflagsSection num (infoIndex p) dev with
        | (false, dev) => (-1, { s with dev := dev })
        | (true, dev) =>
          match rkssWriteBackPtable dev fd.toNat p with
          | (false, dev) => (-1, { s with dev := dev })
          | (true, dev) =>
            match writeSections data num (infoIndex p) 0 (infoSize p) { s with dev := dev } with
            | (false, s) => (-1, s)
            | (true, s) => (len, s)

/-- Model of `tee_fs_unlink`. -/
def teeFsUnlink (s : State) (filename : List UInt8) : Int × State :=
  match rkssGetFileinfoByName s.dev filename with
  | (ret, p, dev) =>
    if ret < 0 then (0, { s with dev := dev })
    else
      match updateExtent rkssDecrefUsedflagsSection (infoSize p / 512 + 1) (infoIndex p) dev with
      | (false, dev) => (-1, { s with dev := dev })
      | (true, dev) =>
        match rkssWriteBackPtable dev ret.toNat Mem.zero with
        | (false, dev) => (-1, { s with dev := dev })
        | (true, dev) => (0, { s with dev := dev })

/-- A `strcpy` to the name of a record on the stack; `none` when it runs past the end of the
    record, where the behaviour of the C program is undefined. -/
def copyName (p : Mem) (filename : List UInt8) : Option Mem :=
  if 1 + filename.length < 126 then some (p.strcpy 1 filename) else none

/-- Model of `tee_fs_link`. -/
def teeFsLink (s : State) (filename newfilename : List UInt8) : Option (Int × State) :=
  match rkssGetFileinfoByName s.dev filename with
  | (ret, pOld, dev) =>
    if ret < 0 then some (-1, { s with dev := dev })
    else
      match rkssGetFileinfoByName dev newfilename with
      | (ret, _, dev) =>
        if ret = 0 then some (-1, { s with dev := dev })
        else
          match copyName pOld newfilename with
          | none => none
          | some pNew =>
            match rkssWriteEmptyPtable dev pNew with
            | (ret, dev) =>
              if ret < 0 then some (-1, { s with dev := dev })
              else
                match updateExtent rkssIncrefUsedflagsSection (infoSize pNew / 512 + 1)
                    (infoIndex pNew) dev with
                | (false, dev) => some (-1, { s with dev := dev })
                | (true, dev) => some (0, { s with dev := dev })

/-- Model of `tee_fs_rename`. -/
def teeFsRename (s : State) (filenames newnames : List UInt8) : Option (Int × State) :=
  match rkssGetFileinfoByName s.dev filenames with
  | (ret, p, dev) =>
    if ret < 0 then some (-1, { s with dev := dev })
    else
      match copyName p newnames with
      | none => none
      | some p =>
        match rkssWriteBackPtable dev ret.toNat p with
        | (false, dev) => some (-1, { s with dev := dev })
        | (true, dev) => some (0, { s with dev := dev })

/-- Model of `tee_fs_truncate`; the `int` argument is converted to `uint16_t`. -/
def teeFsTruncate (s : State) (fd arg : Int) : Int × State :=
  if fd < 0 then (-1, s)
  else
    match rkssGetFileinfoByIndex s.dev fd.toNat with
    | (none, dev) => (-1, { s with dev := dev })
    | (some p, dev) =>
      match rkssWriteBackPtable dev fd.toNat (p.set16 120 (arg % 65536).toNat) with
      | (false, dev) => (-1, { s with dev := dev })
      | (true, dev) => (0, { s with dev := dev })

/-- A NUL-terminated string: its characters are not NUL. -/
structure CName where
  chars : List UInt8
  nul_free : 0 ∉ chars
  deriving DecidableEq

/-- The requests that change the file system (`TEE_FS_OPEN` and so on), with what they read from
    the message. -/
inductive Request where
  | fsOpen (filename : CName) (flags len : Nat)
  | fsWrite (fd : Int) (len : Nat) (data : Mem)
  | fsUnlink (filename : CName)
  | fsLink (filename newfilename : CName)
  | fsRename (filenames newnames : CName)
  | fsTrunc (fd arg : Int)

/-- The dispatch of `tee_supp_rk_fs_process`: the result and the next state, `none` when the
    behaviour is undefined. -/
def process (s : State) : Request → Option (Int × State)
  | .fsOpen filename flags len => some (teeFsOpen s filename.chars flags len)
  | .fsWrite fd len data => some (teeFsWrite s fd len data)
  | .fsUnlink filename => some (teeFsUnlink s filename.chars)
  | .fsLink filename newfilename => teeFsLink s filename.chars newfilename.chars
  | .fsRename filenames newnames => teeFsRename s filenames.chars newnames.chars
  | .fsTrunc fd arg => some (teeFsTruncate s fd arg)

/-! ## Formatting -/

/-- The trailer of a table section is the one `rkss_verify_ptable` looks for. -/
def validTrailer (data : Mem) : Bool := data.u32 504 == 0x1 && data.u32 508 == 0x12345678

/-- Model of `rkss_verify_ptable` on section `index`. The `memset` is of `sizeof(RKSS_DATA_LEN)`,
    the size of an `int`. -/
def rkssVerifyPtable (dev : BlockDev) (index : Nat) (data : Mem) : Bool × BlockDev :=
  if index > 128 then (true, dev)
  else if validTrailer data then (true, dev)
  else
    rkssWriteSection dev index (((data.fill 0 0 4).set32 508 0x12345678).set32 504 0x1)

/-- `value` stored in the flags `n .. n + k - 1`. -/
def initUsedflags (data : Mem) : Nat → Nat → Mem
  | 0, _ => data
  | k + 1, n => initUsedflags (data.setNib 0 n 0x1) k (n + 1)

/-- Model of `rkss_verify_usedflags`. -/
def rkssVerifyUsedflags (dev : BlockDev) (index : Nat) (data : Mem) : Bool × BlockDev :=
  if (List.range (128 + 1)).all (fun i => data.nib 0 i == 0x1) then (true, dev)
  else rkssWriteSection dev index (initUsedflags (data.fill 0 0x00 512) (128 + 1) 0)

/-- The table loop of `tee_supp_rk_fs_init`, `k` sections to go from `i`. -/
def verifySections : Nat → Nat → BlockDev → Bool × BlockDev
  | 0, _, dev => (true, dev)
  | k + 1, i, dev =>
    match rkssReadSection dev i with
    | (none, dev) => (false, dev)
    | (some data, dev) =>
      match rkssVerifyPtable dev i data with
      | (false, dev) => (false, dev)
      | (true, dev) => verifySections k (i + 1) dev

/-- Model of `tee_supp_rk_fs_init`. -/
def teeSuppRkFsInit (dev : BlockDev) : Int × BlockDev :=
  match verifySections 128 0 dev with
  | (false, dev) => (-1, dev)
  | (true, dev) =>
    match rkssReadSection dev 128 with
    | (none, dev) => (-1, dev)
    | (some data, dev) =>
      match rkssVerifyUsedflags dev 128 data with
      | (false, dev) => (-1, dev)
      | (true, dev) => (0, dev)

end Rkss
