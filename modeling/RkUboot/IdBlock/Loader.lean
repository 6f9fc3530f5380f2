import RkUboot.Tools.BootLayout

set_option autoImplicit false

/-! # From the loader image to the ID block (`rkloader/rkimage.c`, `rkloader/idblock.c`)

When the gadget flashes a loader, `rkimg_make_loader_data` takes the binaries FlashData and FlashBoot
out of the image of `boot_merger` and puts them behind a header of its own, and `GenericIDBData` builds
the ID block from that: four sectors of administrative data, based on those of the old ID block, then
FlashData, then FlashBoot. A sector takes 528 bytes in the buffer, of which 512 are data.

```
RK28BOOT_HEAD: szSign 0, tmCreateTime 48, uiMajorVersion 60, uiMinorVersion 64,
               uiFlashDataOffset 84, uiFlashDataLen 88, uiFlashBootOffset 92, uiFlashBootLen 96,
               ucRc4Flag 100
Sector0Info:   uiRc4Flag 8, usFlashDataSize 506, ucFlashBootSize 508
Sector1Info:   usLoaderYear 18, usLoaderDate 20, usLoaderVer 22, usFlashDataOffset 96,
               usFlashDataLen 98
``` -/

open Platform

namespace IdBlock

/-! ## `rkimg_make_loader_data` -/

/-- The characters of a C string literal. -/
def chars (s : String) : List UInt8 := s.toList.map (fun c => UInt8.ofNat c.toNat)

/-- `BOOTSIGN`. -/
def bootSign : List UInt8 := chars "RK28@Copyright2008Rockchip"

/-- `BCD2INT`. -/
def bcd2int (num : Nat) : Nat := num / 16 % 16 * 10 + num % 16

/-- The loop over the entries, `k` to go from entry `i`: the last FlashData and the last FlashBoot. -/
def findEntries (old : Mem) : Nat → Nat → Option Nat → Option Nat → Option Nat × Option Nat
  | 0, _, data, boot => (data, boot)
  | k + 1, i, data, boot =>
    let entry := old.u32 38 + (old 42).toNat * i
    let name := BootMerger.nameAt old entry 10
    if name = chars "FlashData" then findEntries old k (i + 1) (some entry) boot
    else if name = chars "FlashBoot" then findEntries old k (i + 1) data (some entry)
    else findEntries old k (i + 1) data boot

/-- The header of the new loader data, for entries at `data` and `boot`. -/
def makeHeader (old : Mem) (data boot : Nat) (new : Mem) : Mem :=
  let dataLen := old.u32 (data + 49)
  ((((((((((((((((new.fill 0 0 512).strcpy 0 bootSign).set16 48 (old.u16 14)).set16 50
    (old 16).toNat).set16 52 (old 17).toNat).set16 54 (old 18).toNat).set16 56 (old 19).toNat).set16 58
    (old 20).toNat).set32 60 (bcd2int (old.u32 6 / 256 % 256))).set32 64
    (bcd2int (old.u32 6 % 256))).set32 84 512).set32 88 dataLen).set32 92
    ((512 + dataLen) % 2 ^ 32)).set32 96 (old.u32 (boot + 49))).set8 100 (old 44)))

/-- Model of `rkimg_make_loader_data`: the new loader data, if there is any and it is accepted. -/
def rkimgMakeLoaderData (secureModeVerifyLoader : Mem → Bool) (old new : Mem) : Option Mem :=
  match findEntries old (old 37).toNat 0 none none with
  | (some data, some boot) =>
    let new := makeHeader old data boot new
    let new := new.copy (new.u32 84) old (old.u32 (data + 45)) (old.u32 (data + 49))
    let new := new.copy (new.u32 92) old (old.u32 (boot + 45)) (old.u32 (boot + 49))
    if secureModeVerifyLoader new then some new else none
  | _ => none

/-! ## `GenericIDBData` -/

/-- `P_RC4` in place. -/
def pRc4At (m : Mem) (a len : Nat) : Mem := m.store a (pRc4 (m.bytes a len))

/-- `CALC_UNIT`. -/
def calcUnit (a b : Nat) : Nat := if 0 < a then (a - 1) / b + 1 else a

/-- `PAGEALIGN(BYTE2SECTOR(x)) * 4` as `USHORT`. -/
def pageSectors (x : Nat) : Nat := calcUnit (calcUnit x 512) 4 * 4 % 2 ^ 16

/-- `INT2BCD`. -/
def int2bcd (num : Nat) : Nat :=
  num % 10 + num / 10 % 10 * 16 + num / 100 % 10 * 256 + num / 1000 % 10 * 4096

/-- The loops that put the binaries into the ID block, `k` sectors to go from sector `i`. -/
def loadSectors (rc4 : Bool) (off base : Nat) : Nat → Nat → Mem → Mem → Mem × Mem
  | 0, _, loader, idb => (loader, idb)
  | k + 1, i, loader, idb =>
    let loader := if rc4 then pRc4At loader (off + i * 512) 512 else loader
    loadSectors rc4 off base k (i + 1) loader (idb.copy (528 * (base + i)) loader (off + i * 512) 512)

/-- `P_RC4` of sectors 0, 2 and 3. -/
def cryptAdmin (idb : Mem) : Mem := pRc4At (pRc4At (pRc4At idb 0 512) 1056 512) 1584 512

/-- The copy loop for the flash information, `k` sectors to go. -/
def putFlashInfo (info : Mem) (base : Nat) : Nat → Nat → Mem → Mem
  | 0, _, idb => idb
  | k + 1, i, idb => putFlashInfo info base k (i + 1) (idb.copy (528 * (base + i)) info 0 512)

/-- Model of `GenericIDBData`: the ID block and the number of its sectors. `read` is what
    `StorageReadPba` leaves in the first four sectors, and `flashInfo` what `ReadInfo` delivers if the
    code for it is compiled in. -/
def genericIDBData (read flashInfo : Option Mem) (loader idb : Mem) : Option (Mem × Nat) :=
  match read with
  | none => none
  | some r =>
    let idb := (idb.fill 0 0 (4 * 528)).copy 0 r 0 (4 * 528)
    let idb := (cryptAdmin idb).fill 1056 0 528
    let hasFlashInfo := flashInfo.isSome ∧ idb.u16 (528 + 96) ≠ 0 ∧ idb.u16 (528 + 98) ≠ 0
    let idb := idb.set32 8 (loader 100).toNat
    let dataSize := pageSectors (loader.u32 88)
    let bootSize := pageSectors (loader.u32 96)
    let idb := (idb.set16 506 dataSize).set16 508 bootSize
    let rc4 := decide (loader 100 ≠ 0)
    let s := loadSectors rc4 (loader.u32 92) (4 + dataSize) bootSize 0 loader idb
    let s := loadSectors rc4 (loader.u32 84) 4 dataSize 0 s.1 s.2
    let total := (bootSize + dataSize) % 2 ^ 16
    let idb := s.2.set16 508 total
    let idb := idb.set16 (528 + 18) (int2bcd (loader.u16 48))
    let idb := idb.set16 (528 + 20) (int2bcd (loader.u16 50) * 256 ||| int2bcd (loader.u16 52))
    let idb := idb.set16 (528 + 22) (int2bcd (loader.u32 60) * 256 ||| int2bcd (loader.u32 64))
    let infoLen := idb.u16 (528 + 98)
    if hasFlashInfo then
      let idb := cryptAdmin (idb.set16 (528 + 96) (4 + total))
      some (putFlashInfo (flashInfo.getD Mem.zero) (4 + total) infoLen 0 idb,
        4 + total + calcUnit infoLen 4 * 4)
    else some (cryptAdmin idb, 4 + total)

/-! ## In-place encryption -/

section Crypt

variable {m : Mem} {a len x : Nat}

theorem pRc4At_out (h : x < a ∨ a + len ≤ x) : pRc4At m a len x = m x :=
  Mem.store_apply_out (by rw [length_pRc4, Mem.length_bytes]; exact h)

theorem pRc4At_has (m : Mem) (a len : Nat) : (pRc4At m a len).Has a (pRc4 (m.bytes a len)) := by
  rw [Mem.has_iff]
  intro i hi
  exact Mem.store_apply_in _ _ _ _ hi

/-- The second time gives the bytes back. -/
theorem pRc4At_twice {m' : Mem} (h : ∀ i < len, m' (a + i) = pRc4At m a len (a + i)) (i : Nat)
    (hi : i < len) : pRc4At m' a len (a + i) = m (a + i) := by
  have hbytes : m'.bytes a len = pRc4 (m.bytes a len) := by
    have hhas := pRc4At_has m a len
    unfold Mem.Has at hhas
    rw [length_pRc4, Mem.length_bytes] at hhas
    rw [← hhas]
    exact Mem.bytes_congr _ _ _ _ _ h
  have hhas := pRc4At_has m' a len
  rw [hbytes, pRc4_pRc4, Mem.has_iff] at hhas
  rw [hhas i (by rw [Mem.length_bytes]; exact hi)]
  simp [Mem.bytes]

/-- Only sectors 0, 2 and 3 change. -/
theorem cryptAdmin_out (h : 2112 ≤ x ∨ 528 ≤ x ∧ x < 1056) : cryptAdmin m x = m x := by
  unfold cryptAdmin
  rw [pRc4At_out (by omega), pRc4At_out (by omega), pRc4At_out (by omega)]

/-- Sector 0 decrypted. -/
theorem cryptAdmin_sector0 (hx : x < 512) : pRc4At (cryptAdmin m) 0 512 x = m x := by
  have hfirst : ∀ i < 512, cryptAdmin m (0 + i) = pRc4At m 0 512 (0 + i) := by
    intro i hi
    unfold cryptAdmin
    rw [pRc4At_out (by omega), pRc4At_out (by omega)]
  have htwice := pRc4At_twice hfirst x hx
  rwa [Nat.zero_add] at htwice

theorem u16_cryptAdmin_sector0 (m : Mem) {a : Nat} (ha : a + 2 ≤ 512) :
    (pRc4At (cryptAdmin m) 0 512).u16 a = m.u16 a :=
  Mem.AgreeOn.u16 (fun _ _ hx => cryptAdmin_sector0 (by omega))

end Crypt

/-! ## The sectors of the binaries -/

section Sectors

/-- The loop decrypts sector after sector into the ID block, and leaves the rest alone. -/
theorem loadSectors_spec (off base k i : Nat) (loader idb : Mem) :
    (∀ j, i ≤ j → j < i + k → (loadSectors true off base k i loader idb).2.Has (528 * (base + j))
        (pRc4 (loader.bytes (off + j * 512) 512))) ∧
      (∀ x, x < 528 * (base + i) ∨ 528 * (base + i + k) ≤ x →
        (loadSectors true off base k i loader idb).2 x = idb x) ∧
      ∀ x, x < off + 512 * i ∨ off + 512 * (i + k) ≤ x →
        (loadSectors true off base k i loader idb).1 x = loader x := by
  induction k generalizing i loader idb with
  | zero => exact ⟨fun j hlo hhi => absurd hhi (by omega), fun _ _ => rfl, fun _ _ => rfl⟩
  | succ k ih =>
    rw [loadSectors]
    simp only [if_true]
    generalize hloader : pRc4At loader (off + i * 512) 512 = loader'
    generalize hidb : idb.copy (528 * (base + i)) loader' (off + i * 512) 512 = idb'
    obtain ⟨hsectors, hout, hloaderOut⟩ := ih (i + 1) loader' idb'
    have hframe : ∀ x, x < off + i * 512 ∨ off + i * 512 + 512 ≤ x → loader' x = loader x := by
      intro x hx
      rw [← hloader]
      exact pRc4At_out hx
    refine ⟨fun j hlo hhi => ?_, fun x hx => ?_, fun x hx => ?_⟩
    · rcases Nat.eq_or_lt_of_le hlo with rfl | hlt
      · have hhas := pRc4At_has loader (off + i * 512) 512
        rw [hloader, Mem.has_iff] at hhas
        rw [Mem.has_iff]
        intro b hb
        have hb' : b < 512 := by simpa [Mem.length_bytes] using hb
        rw [hout _ (by omega), ← hidb, Mem.copy_apply_in (by omega) (by omega),
          Nat.add_sub_cancel_left]
        exact hhas b hb
      · have hbytes : loader'.bytes (off + j * 512) 512 = loader.bytes (off + j * 512) 512 :=
          Mem.bytes_congr _ _ _ _ _ (fun b hb => hframe _ (by omega))
        rw [← hbytes]
        exact hsectors j hlt (by omega)
    · rw [hout x (by omega), ← hidb]
      exact Mem.copy_apply_out (by omega)
    · rw [hloaderOut x (by omega)]
      exact hframe x (by omega)

/-- A binary that was encrypted in pieces of 512 bytes arrives in plain. -/
theorem loadSectors_plain {off k : Nat} {loader : Mem} {plain : List UInt8} (base : Nat) (idb : Mem)
    (hlen : plain.length = 512 * k) (h : loader.Has off (Cipher.pieces pRc4 512 k plain)) {j : Nat}
    (hj : j < k) :
    (loadSectors true off base k 0 loader idb).2.Has (528 * (base + j))
      ((plain.drop (512 * j)).take 512) := by
  have hsector := (loadSectors_spec off base k 0 loader idb).1 j (Nat.zero_le j) (by omega)
  have hslice : loader.bytes (off + j * 512) 512 = pRc4 ((plain.drop (512 * j)).take 512) := by
    rw [← Cipher.pieces_slice length_pRc4 k (by omega) hj, Nat.mul_comm j]
    exact h.slice (by rw [Cipher.length_pieces length_pRc4]; omega)
  rw [hslice, pRc4_pRc4] at hsector
  exact hsector

end Sectors

/-! ## The entries of the two binaries -/

section Entries

/-- The last entry named `name`, `k` to go from entry `i`. -/
def lastNamed (old : Mem) (name : List UInt8) : Nat → Nat → Option Nat → Option Nat
  | 0, _, found => found
  | k + 1, i, found =>
    let entry := old.u32 38 + (old 42).toNat * i
    lastNamed old name k (i + 1) (if BootMerger.nameAt old entry 10 = name then some entry else found)

/-- The two searches do not disturb each other. -/
theorem findEntries_eq (old : Mem) (k i : Nat) (data boot : Option Nat) :
    findEntries old k i data boot
      = (lastNamed old (chars "FlashData") k i data, lastNamed old (chars "FlashBoot") k i boot) := by
  induction k generalizing i data boot with
  | zero => rfl
  | succ k ih =>
    simp only [findEntries, lastNamed]
    split
    next hdata =>
      have hboot : chars "FlashData" ≠ chars "FlashBoot" := by decide
      rw [ih, hdata, if_neg hboot]
    next hdata =>
      split
      next hboot => rw [ih]
      next hboot => rw [ih]

variable {old : Mem} {name : List UInt8}

theorem lastNamed_none {k i : Nat} {found : Option Nat}
    (h : ∀ j, i ≤ j → j < i + k → BootMerger.nameAt old (old.u32 38 + (old 42).toNat * j) 10 ≠ name) :
    lastNamed old name k i found = found := by
  induction k generalizing i found with
  | zero => rfl
  | succ k ih =>
    rw [lastNamed]
    rw [if_neg (h i le_rfl (by omega))]
    exact ih (fun j hlo hhi => h j (by omega) (by omega))

theorem lastNamed_eq {d k i : Nat} {found : Option Nat} (hlo : i ≤ d) (hhi : d < i + k)
    (hd : BootMerger.nameAt old (old.u32 38 + (old 42).toNat * d) 10 = name)
    (hlast : ∀ j, d < j → j < i + k →
      BootMerger.nameAt old (old.u32 38 + (old 42).toNat * j) 10 ≠ name) :
    lastNamed old name k i found = some (old.u32 38 + (old 42).toNat * d) := by
  induction k generalizing i found with
  | zero => omega
  | succ k ih =>
    rw [lastNamed]
    rcases Nat.eq_or_lt_of_le hlo with rfl | hlt
    · rw [if_pos hd]
      exact lastNamed_none (fun j hj hj' => hlast j hj (by omega))
    · exact ih hlt (by omega) (fun j hj hj' => hlast j hj (by omega))

end Entries

/-! ## What is found in an image of `boot_merger` -/

section Packed

open BootMerger

variable {opts : Options} {old : Mem}

/-- The item for a loader file. -/
def loaderItem (source : Source) : Item := ⟨.loader, 0, source⟩

theorem getElem_items {i : Nat} (hi : i < opts.loader.length) :
    opts.items[opts.code471.length + opts.code472.length + i]? = some (loaderItem opts.loader[i]) := by
  rw [Options.items, List.getElem?_append_right (by simp)]
  simp [hi, loaderItem]

/-- The entry of loader file `i`, and its binary. -/
theorem loader_entry (h : Packed opts old) (hopts : opts.Mergeable) {i : Nat}
    (hi : i < opts.loader.length) {entry : Nat} (hentry : entry = old.u32 38 + (old 42).toNat * i) :
    nameAt old entry 10 = (loaderItem opts.loader[i]).name.take 10 ∧
      old.u32 (entry + 49) = padLen opts.loader[i].file.length ∧
      old.Has (old.u32 (entry + 45)) (sealed true opts.loader[i].file) := by
  obtain ⟨-, -, -, htable, hwidth, -⟩ := h.header hopts
  obtain ⟨hheader, hencoded, hfiles⟩ := h.parts
  obtain ⟨e, he, hname, hsize, hhas⟩ := has_file hfiles (getElem_items hi)
  obtain ⟨hlt, rfl⟩ := List.getElem?_eq_some_iff.1 he
  have hplace : entry = 102 + 57 * (opts.code471.length + opts.code472.length + i) := by
    rw [hentry, htable, hwidth, show (57 : UInt8).toNat = 57 from rfl]
    omega
  have hread := h.entryAt hopts hlt
  rw [← hplace] at hread
  have hitem : loaderItem opts.loader[i] ∈ opts.items := List.mem_of_getElem? (getElem_items hi)
  refine ⟨?_, ?_, ?_⟩
  · rw [hplace, nameAt_encode (hencoded _ hlt) (by rw [hname]; exact (hopts.ok _ hitem).name_chars)
      (by decide), hname]
  · exact (congrArg Entry.dataSize hread).trans hsize
  · have hoffset : old.u32 (entry + 45) = _ := congrArg Entry.dataOffset hread
    rw [hoffset]
    exact hhas

/-- Loader data with these two binaries. -/
structure LoaderData (loader : Mem) (data boot : List UInt8) : Prop where
  dataOffset : loader.u32 84 = 512
  dataLen : loader.u32 88 = padLen data.length
  bootOffset : loader.u32 92 = 512 + padLen data.length
  bootLen : loader.u32 96 = padLen boot.length
  rc4Flag : loader 100 = 1
  hasData : loader.Has 512 (sealed true data)
  hasBoot : loader.Has (512 + padLen data.length) (sealed true boot)

theorem makeHeader_fields (old new : Mem) (data boot : Nat) :
    (makeHeader old data boot new).u32 84 = 512 ∧
      (makeHeader old data boot new).u32 88 = old.u32 (data + 49) ∧
      (makeHeader old data boot new).u32 92 = (512 + old.u32 (data + 49)) % 2 ^ 32 ∧
      (makeHeader old data boot new).u32 96 = old.u32 (boot + 49) ∧
      makeHeader old data boot new 100 = old 44 := by
  have hflag : ∀ (m : Mem) (c : UInt8) (a : Nat), a + 4 ≤ 100 → (m.set8 100 c).u32 a = m.u32 a :=
    fun m c a ha => Mem.AgreeOn.u32 (fun x _ _ => by rw [Mem.set8_apply, if_neg (by omega)])
  have hdata := Mem.u32_lt old (data + 49)
  have hboot := Mem.u32_lt old (boot + 49)
  unfold makeHeader
  refine ⟨?_, ?_, ?_, ?_, rfl⟩
  · rfl
  · simp (disch := omega) only [hflag, Mem.u32_set32_ne, Mem.u32_set32_same, Nat.mod_eq_of_lt]
  · simp (disch := omega) only [hflag, Mem.u32_set32_ne, Mem.u32_set32_same]
    omega
  · simp (disch := omega) only [hflag, Mem.u32_set32_same, Nat.mod_eq_of_lt]

/-- The loader file that counts for `name`: the last one with it. -/
def PackedAs (opts : Options) (name : List UInt8) (source : Source) : Prop :=
  ∃ d, ∃ h : d < opts.loader.length, opts.loader[d] = source ∧ (loaderItem source).name = name ∧
    ∀ j (hj : j < opts.loader.length), d < j → (loaderItem opts.loader[j]).name ≠ name

/-- A name of nine characters is recognised by its first ten. -/
theorem take_eq_iff {name s : List UInt8} (hs : s.length = 9) :
    s.take 10 = name.take 10 ↔ s = name := by
  constructor
  · intro h
    have hlen := congrArg List.length h
    simp only [List.length_take] at hlen
    rwa [List.take_of_length_le (by omega), List.take_of_length_le (by omega)] at h
  · rintro rfl
    rfl

/-- The search finds the entry of the file that counts. -/
theorem lastNamed_packed (h : Packed opts old) (hopts : opts.Mergeable) {name : List UInt8}
    (hname : name.length = 9) {source : Source} (hlast : PackedAs opts name source) :
    ∃ entry, lastNamed old name (old 37).toNat 0 none = some entry ∧
      old.u32 (entry + 49) = padLen source.file.length ∧
      old.Has (old.u32 (entry + 45)) (sealed true source.file) := by
  obtain ⟨d, hd, rfl, hdname, hafter⟩ := hlast
  obtain ⟨-, -, hcount, -⟩ := h.header hopts
  have htake : name.take 10 = name := List.take_of_length_le (by omega)
  obtain ⟨hfound, hsize, hhas⟩ := loader_entry h hopts hd rfl
  refine ⟨_, lastNamed_eq (Nat.zero_le d) (by omega) ?_ (fun j hj hj' => ?_), hsize, hhas⟩
  · rw [hfound, hdname, htake]
  · have hjl : j < opts.loader.length := by omega
    rw [(loader_entry h hopts hjl rfl).1]
    intro heq
    exact hafter j hjl hj ((take_eq_iff hname).1 (htake.trans heq.symm)).symm

theorem PackedAs.padLen_le {name : List UInt8} {source : Source} (h : PackedAs opts name source)
    (hopts : opts.Mergeable) : padLen source.file.length ≤ maxMergeSize := by
  obtain ⟨d, hd, rfl, -⟩ := h
  have hle := padLen_le_dataLen (List.mem_of_getElem? (getElem_items hd))
  have hfits := hopts.size
  exact Nat.le_trans hle (by omega)

/-- The binaries do not reach into the header, nor FlashBoot into FlashData. -/
theorem loaderData_of_copies {header : Mem} {data boot : List UInt8} {a b : Nat}
    (hdataOffset : header.u32 84 = 512) (hdataLen : header.u32 88 = padLen data.length)
    (hbootOffset : header.u32 92 = 512 + padLen data.length)
    (hbootLen : header.u32 96 = padLen boot.length) (hflag : header 100 = 1)
    (hdata : old.Has a (sealed true data)) (hboot : old.Has b (sealed true boot)) :
    LoaderData ((header.copy 512 old a (padLen data.length)).copy (512 + padLen data.length) old b
      (padLen boot.length)) data boot := by
  have hheader : ∀ x < 512, ((header.copy 512 old a (padLen data.length)).copy
      (512 + padLen data.length) old b (padLen boot.length)) x = header x := by
    intro x hx
    rw [Mem.copy_apply_out (by omega), Mem.copy_apply_out (by omega)]
  have hfield : ∀ x, x + 4 ≤ 512 → ((header.copy 512 old a (padLen data.length)).copy
      (512 + padLen data.length) old b (padLen boot.length)).u32 x = header.u32 x :=
    fun x hx => Mem.AgreeOn.u32 (fun y _ _ => hheader y (by omega))
  refine ⟨?_, ?_, ?_, ?_, ?_, ?_, ?_⟩
  · rw [hfield _ (by decide), hdataOffset]
  · rw [hfield _ (by decide), hdataLen]
  · rw [hfield _ (by decide), hbootOffset]
  · rw [hfield _ (by decide), hbootLen]
  · rw [hheader _ (by decide), hflag]
  · have hcopied : (header.copy 512 old a (padLen data.length)).Has 512 (sealed true data) :=
      hdata.copy (Nat.le_of_eq (length_sealed true data))
    refine hcopied.congr (fun i hi => ?_)
    rw [length_sealed] at hi
    exact Mem.copy_apply_out (by omega)
  · exact hboot.copy (Nat.le_of_eq (length_sealed true boot))

/-- The repacking, once the entries are found. -/
theorem rkimgMakeLoaderData_eq {verify : Mem → Bool} {new : Mem} {d b : Nat}
    (hd : lastNamed old (chars "FlashData") (old 37).toNat 0 none = some d)
    (hb : lastNamed old (chars "FlashBoot") (old 37).toNat 0 none = some b) :
    rkimgMakeLoaderData verify old new =
      let new := makeHeader old d b new
      let new := new.copy (new.u32 84) old (old.u32 (d + 45)) (old.u32 (d + 49))
      let new := new.copy (new.u32 92) old (old.u32 (b + 45)) (old.u32 (b + 49))
      if verify new then some new else none := by
  rw [rkimgMakeLoaderData, findEntries_eq, hd, hb]

/-- **The repacked data has both binaries.** -/
theorem rkimgMakeLoaderData_packed (h : Packed opts old) (hopts : opts.Mergeable)
    {data boot : Source} (hdata : PackedAs opts (chars "FlashData") data)
    (hboot : PackedAs opts (chars "FlashBoot") boot) (new : Mem) :
    ∃ loader, LoaderData loader data.file boot.file ∧ ∀ verify : Mem → Bool,
      rkimgMakeLoaderData verify old new = if verify loader then some loader else none := by
  obtain ⟨d, hd, hdsize, hdhas⟩ := lastNamed_packed h hopts (by decide) hdata
  obtain ⟨b, hb, hbsize, hbhas⟩ := lastNamed_packed h hopts (by decide) hboot
  have hdlen := hdata.padLen_le hopts
  simp only [maxMergeSize] at hdlen
  obtain ⟨-, -, -, -, -, hrc4⟩ := h.header hopts
  obtain ⟨hdataOffset, hdataLen, hbootOffset, hbootLen, hflag⟩ := makeHeader_fields old new d b
  generalize hheader : makeHeader old d b new = header at hdataOffset hdataLen hbootOffset hbootLen hflag
  rw [hdsize] at hdataLen hbootOffset
  rw [hbsize] at hbootLen
  rw [Nat.mod_eq_of_lt (by omega)] at hbootOffset
  refine ⟨_, loaderData_of_copies hdataOffset hdataLen hbootOffset hbootLen (hflag.trans hrc4) hdhas
    hbhas, fun verify => ?_⟩
  have hnext : (header.copy 512 old (old.u32 (d + 45)) (padLen data.file.length)).u32 92
      = 512 + padLen data.file.length := by
    rw [← hbootOffset]
    exact Mem.AgreeOn.u32 (fun x _ _ => Mem.copy_apply_out (by omega))
  rw [rkimgMakeLoaderData_eq hd hb]
  simp only [hheader, hdataOffset, hdsize, hbsize, hnext]

end Packed

/-! ## The new ID block -/

section Generic

open BootMerger

variable {loader : Mem} {data boot : List UInt8}

theorem mul_padLen_div (n : Nat) : 512 * (padLen n / 512) = padLen n := by
  rw [padLen_eq]
  omega

/-- The count of sectors is not rounded any more. -/
theorem pageSectors_padLen {n : Nat} (h : padLen n ≤ maxMergeSize) :
    pageSectors (padLen n) = padLen n / 512 := by
  simp only [maxMergeSize, padLen_eq] at h
  rw [padLen_eq, pageSectors, calcUnit, calcUnit]
  split
  · split <;> omega
  · omega

/-- One binary, from its place in the loader data to the sectors from `base` on. -/
theorem loadSectors_sealed {off : Nat} {file : List UInt8} (h : loader.Has off (sealed true file))
    (base : Nat) (idb : Mem) {j : Nat} (hj : j < padLen file.length / 512) :
    (loadSectors true off base (padLen file.length / 512) 0 loader idb).2.bytes (528 * (base + j)) 512
      = ((pad file).drop (512 * j)).take 512 := by
  have hmul := mul_padLen_div file.length
  rw [sealed, if_pos rfl] at h
  have hplain := loadSectors_plain base idb (by rw [length_pad, hmul]) h hj
  unfold Mem.Has at hplain
  have hlen : (((pad file).drop (512 * j)).take 512).length = 512 := by
    rw [List.length_take, List.length_drop, length_pad]
    omega
  rw [hlen] at hplain
  exact hplain

/-- Both loops together. -/
theorem loadSectors_both (h : LoaderData loader data boot) (idb : Mem) {s s' : Mem × Mem}
    (hs : s = loadSectors true (512 + padLen data.length) (4 + padLen data.length / 512)
      (padLen boot.length / 512) 0 loader idb)
    (hs' : s' = loadSectors true 512 4 (padLen data.length / 512) 0 s.1 s.2) :
    (∀ i < padLen data.length / 512 + padLen boot.length / 512,
      s'.2.bytes (528 * (4 + i)) 512 = ((pad data ++ pad boot).drop (512 * i)).take 512) ∧
      ∀ x < 2112, s'.2 x = idb x := by
  have hmul := mul_padLen_div data.length
  obtain ⟨-, hbootOut, hloaderOut⟩ := loadSectors_spec (512 + padLen data.length)
    (4 + padLen data.length / 512) (padLen boot.length / 512) 0 loader idb
  obtain ⟨-, hdataOut, -⟩ := loadSectors_spec 512 4 (padLen data.length / 512) 0 s.1 s.2
  rw [← hs] at hbootOut hloaderOut
  rw [← hs'] at hdataOut
  refine ⟨fun i hi => ?_, fun x hx => ?_⟩
  · by_cases hlt : i < padLen data.length / 512
    · -- the first loop has not touched FlashData in the loader data
      have hdata : s.1.Has 512 (sealed true data) := by
        refine h.hasData.congr (fun b hb => hloaderOut _ ?_)
        rw [length_sealed] at hb
        omega
      rw [hs', loadSectors_sealed hdata 4 s.2 hlt,
        List.drop_append_of_le_length (by rw [length_pad]; omega),
        List.take_append_of_le_length (by rw [List.length_drop, length_pad]; omega)]
    · -- the second loop ends before the sectors of FlashBoot
      obtain ⟨j, rfl⟩ := Nat.exists_eq_add_of_le (Nat.le_of_not_lt hlt)
      have hkeep : s'.2.bytes (528 * (4 + (padLen data.length / 512 + j))) 512
          = s.2.bytes (528 * (4 + padLen data.length / 512 + j)) 512 := by
        rw [← Nat.add_assoc]
        exact Mem.bytes_congr _ _ _ _ _ (fun b _ => hdataOut _ (by omega))
      rw [hkeep, hs, loadSectors_sealed h.hasBoot _ idb (by omega), Nat.mul_add, hmul,
        ← length_pad data, List.drop_length_add_append]
  · rw [hdataOut x (by omega), hbootOut x (by omega)]

/-- The old sector 1 is taken over. -/
theorem admin_sector1 (idb r : Mem) {a : Nat} (hlo : 528 ≤ a) (hhi : a + 2 ≤ 1056) :
    ((cryptAdmin ((idb.fill 0 0 (4 * 528)).copy 0 r 0 (4 * 528))).fill 1056 0 528).u16 a = r.u16 a := by
  refine Mem.AgreeOn.u16 (fun x hx hx' => ?_)
  rw [Mem.fill_apply_out (by omega), cryptAdmin_out (by omega),
    Mem.copy_apply_in (by omega) (by omega), Nat.sub_zero, Nat.zero_add]

/-- Without flash information, FlashData and FlashBoot are in the sectors behind the administrative
    ones, in plain, and sector 0 has the matching counts. -/
theorem genericIDBData_loaderData (h : LoaderData loader data boot)
    (hdata : padLen data.length ≤ maxMergeSize) (hboot : padLen boot.length ≤ maxMergeSize) {r : Mem}
    {flashInfo : Option Mem} (hinfo : flashInfo = none ∨ r.u16 624 = 0 ∨ r.u16 626 = 0) (idb : Mem) :
    ∃ idb', genericIDBData (some r) flashInfo loader idb
        = some (idb', 4 + (padLen data.length / 512 + padLen boot.length / 512)) ∧
      (∀ i < padLen data.length / 512 + padLen boot.length / 512,
        idb'.bytes (528 * (4 + i)) 512 = ((pad data ++ pad boot).drop (512 * i)).take 512) ∧
      (pRc4At idb' 0 512).u16 506 = padLen data.length / 512 ∧
      (pRc4At idb' 0 512).u16 508 = padLen data.length / 512 + padLen boot.length / 512 := by
  have hdsize := pageSectors_padLen hdata
  have hbsize := pageSectors_padLen hboot
  simp only [maxMergeSize] at hdata hboot
  have htotal : (padLen boot.length / 512 + padLen data.length / 512) % 2 ^ 16
      = padLen data.length / 512 + padLen boot.length / 512 := by
    omega
  unfold genericIDBData
  simp only [h.dataLen, h.bootLen, hdsize, hbsize, h.bootOffset, h.dataOffset, h.rc4Flag,
    admin_sector1 idb r (show 528 ≤ 528 + 96 by decide) (by decide),
    admin_sector1 idb r (show 528 ≤ 528 + 98 by decide) (by decide), htotal]
  rw [if_neg (by
    rintro ⟨hsome, hoff, hlen⟩
    rcases hinfo with rfl | hzero | hzero
    · cases hsome
    · exact hoff hzero
    · exact hlen hzero)]
  simp only [show decide ((1 : UInt8) ≠ 0) = true from rfl]
  generalize (cryptAdmin ((idb.fill 0 0 (4 * 528)).copy 0 r 0 (4 * 528))).fill 1056 0 528 = admin
  generalize hs : loadSectors true (512 + padLen data.length) (4 + padLen data.length / 512)
    (padLen boot.length / 512) 0 loader (((admin.set32 8 (UInt8.toNat 1)).set16 506
      (padLen data.length / 512)).set16 508 (padLen boot.length / 512)) = s
  generalize hs' : loadSectors true 512 4 (padLen data.length / 512) 0 s.1 s.2 = s'
  obtain ⟨hsectors, hrest⟩ := loadSectors_both h _ hs.symm hs'.symm
  refine ⟨_, rfl, fun i hi => ?_, ?_, ?_⟩
  · rw [← hsectors i hi]
    refine Mem.bytes_congr _ _ _ _ _ (fun b _ => ?_)
    simp (disch := omega) only [cryptAdmin_out, Mem.set16_apply_ne]
  · have hkept : s'.2.u16 506 = padLen data.length / 512 := by
      rw [Mem.AgreeOn.u16 (fun x _ hx => hrest x (by omega)), Mem.u16_set16_ne _ _ _ _ (by decide),
        Mem.u16_set16_same]
      omega
    simp (disch := omega) only [u16_cryptAdmin_sector0, Mem.u16_set16_ne, hkept]
  · simp (disch := omega) only [u16_cryptAdmin_sector0, Mem.u16_set16_ne, Mem.u16_set16_same]
    omega

/-- **The loader pipeline.** What `boot_merger` packs as FlashData and FlashBoot arrives in the
    sectors of the ID block from sector 4 on, with its padding and in plain. The second count of
    sector 0 is for both binaries together. -/
theorem genericIDBData_mergeBoot {opts : Options} (hopts : opts.Mergeable) {data boot : Source}
    (hdata : PackedAs opts (chars "FlashData") data)
    (hboot : PackedAs opts (chars "FlashBoot") boot) {r : Mem} {flashInfo : Option Mem}
    (hinfo : flashInfo = none ∨ r.u16 624 = 0 ∨ r.u16 626 = 0) (new idb : Mem) :
    ∃ image, mergeBoot opts = some image ∧ ∀ old : Mem, old.Has 0 image →
      ∃ loader, (∀ verify : Mem → Bool, verify loader = true →
        rkimgMakeLoaderData verify old new = some loader) ∧
      ∃ idb', genericIDBData (some r) flashInfo loader idb = some (idb',
          4 + (padLen data.file.length / 512 + padLen boot.file.length / 512)) ∧
        (∀ i < padLen data.file.length / 512 + padLen boot.file.length / 512,
          idb'.bytes (528 * (4 + i)) 512
            = ((pad data.file ++ pad boot.file).drop (512 * i)).take 512) ∧
        (pRc4At idb' 0 512).u16 506 = padLen data.file.length / 512 ∧
        (pRc4At idb' 0 512).u16 508
          = padLen data.file.length / 512 + padLen boot.file.length / 512 := by
  refine ⟨_, hopts.mergeBoot_eq, fun old hold => ?_⟩
  have hpacked : Packed opts old := (Mem.has_append.1 hold).1
  obtain ⟨loader, hloader, hmake⟩ := rkimgMakeLoaderData_packed hpacked hopts hdata hboot new
  refine ⟨loader, fun verify hverify => ?_, ?_⟩
  · rw [hmake verify, if_pos hverify]
  · exact genericIDBData_loaderData hloader (hdata.padLen_le hopts) (hboot.padLen_le hopts) hinfo idb

/-- Two small binaries, and the configuration that packs them. -/
def flashData : Source := ⟨chars "FlashData", [1, 2, 3]⟩

def flashBoot : Source := ⟨chars "FlashBoot", List.replicate 3000 7⟩

def twoBinaries : Options where
  major := 2
  minor := 32
  chipType := 0x80
  code471Sleep := 0
  code472Sleep := 0
  code471 := []
  code472 := []
  loader := [flashData, flashBoot]
  releaseTime := ⟨2016, 1, 2, 3, 4, 5⟩

theorem twoBinaries_mergeable : twoBinaries.Mergeable := by
  refine ⟨by decide, fun item hitem => ⟨?_, ?_, ?_⟩, by decide, by decide, by decide, ?_⟩
  · revert item
    decide +kernel
  · revert item
    decide +kernel
  · revert item
    decide +kernel
  · decide +kernel

theorem genericIDBData_mergeBoot_twoBinaries :
    ∃ image, mergeBoot twoBinaries = some image ∧ ∀ old : Mem, old.Has 0 image →
      ∃ loader, (∀ verify : Mem → Bool, verify loader = true →
        rkimgMakeLoaderData verify old Mem.zero = some loader) ∧
      ∃ idb', genericIDBData (some Mem.zero) (some Mem.zero) loader Mem.zero = some (idb',
          4 + (padLen flashData.file.length / 512 + padLen flashBoot.file.length / 512)) ∧
        (∀ i < padLen flashData.file.length / 512 + padLen flashBoot.file.length / 512,
          idb'.bytes (528 * (4 + i)) 512
            = ((pad flashData.file ++ pad flashBoot.file).drop (512 * i)).take 512) ∧
        (pRc4At idb' 0 512).u16 506 = padLen flashData.file.length / 512 ∧
        (pRc4At idb' 0 512).u16 508
          = padLen flashData.file.length / 512 + padLen flashBoot.file.length / 512 :=
  genericIDBData_mergeBoot twoBinaries_mergeable ⟨0, by decide, rfl, by decide, by decide⟩
    ⟨1, by decide, rfl, by decide, by decide⟩ (.inr (.inl rfl)) Mem.zero Mem.zero

end Generic

end IdBlock
