import RkUboot.Tools.BootMerger

set_option autoImplicit false

/-! # Layout of the loader image, and its round trip

`saveEntries` computes the offsets of the binaries from the file sizes, long before they are written.
`layout` is the table that results, and `Packed` says that a memory holds an image of this form: each
entry at its place in the table, and behind the tables each binary at the offset of its entry. Both
readers of the image, `unpackBoot` here and the boot loader, start from that. -/

open Platform

namespace BootMerger

/-! ## Sizes -/

/-- A size in units of 2048 bytes. -/
def padLen (n : Nat) : Nat := Mem.alignUp 2048 n

/-- A file with the zeros behind it. -/
def pad (file : List UInt8) : List UInt8 := Mem.padTo 2048 file

/-- A binary as it is in the image. -/
def sealed (fix : Bool) (file : List UInt8) : List UInt8 :=
  if fix then Cipher.pieces pRc4 512 (padLen file.length / 512) (pad file) else pRc4 (pad file)

theorem padLen_eq (n : Nat) : padLen n = (n + 2047) / 2048 * 2048 := rfl

theorem pad_eq (file : List UInt8) :
    pad file = file ++ List.replicate (padLen file.length - file.length) 0 := rfl

theorem le_padLen (n : Nat) : n ≤ padLen n := Mem.le_alignUp (by decide) n

@[simp] theorem length_pad (file : List UInt8) : (pad file).length = padLen file.length :=
  Mem.length_padTo (by decide) file

@[simp] theorem length_sealed (fix : Bool) (file : List UInt8) :
    (sealed fix file).length = padLen file.length := by
  unfold sealed
  split
  · rw [Cipher.length_pieces length_pRc4, length_pad]
  · rw [length_pRc4, length_pad]

variable {i n off : Nat}

/-- Both ways to compute the size of an entry round up to 2048 bytes. -/
theorem entrySize_eq (fix : Bool) (hpos : 0 < n) (hn : n ≤ 2 ^ 31) :
    entrySize fix n = padLen n := by
  cases fix with
  | false =>
    simp only [entrySize, alignSize, padLen_eq, Bool.false_eq_true, if_false]
    split <;> omega
  | true =>
    have hpacket : packetSize n = (n + 511) / 512 * 512 := by
      unfold packetSize
      omega
    simp only [entrySize, alignSize, padLen_eq, if_true, hpacket]
    split <;> omega

theorem writeFile_eq (fix : Bool) {file : List UInt8} (hpos : 0 < file.length)
    (hfits : padLen file.length + 2048 ≤ maxMergeSize) :
    writeFile fix file = some (sealed fix file) := by
  have hle := le_padLen file.length
  simp only [maxMergeSize] at hfits
  have hsize : getFileSize file = file.length := by
    unfold getFileSize
    omega
  simp only [writeFile, hsize]
  rw [entrySize_eq fix hpos (by omega), List.take_length, ← pad_eq]
  have hcleared : max (if fix then padLen file.length else file.length + 2048) file.length
      ≤ maxMergeSize := by
    simp only [maxMergeSize]
    split <;> omega
  have hcount : (padLen file.length + 511) / 512 = padLen file.length / 512 := by
    rw [padLen_eq]
    omega
  rw [if_neg (by omega), if_neg (by omega), hcount]
  rfl

/-! ## The table -/

/-- The name of an entry, for a text that has one. -/
def Item.name (item : Item) : List UInt8 := (getName item.source.text).getD []

/-- The entries for the files, from offset `off` on. -/
def layout : List Item → Nat → List Entry
  | [], _ => []
  | item :: items, off =>
    ⟨item.type.code, item.name, off, padLen item.source.file.length, item.delay % 2 ^ 16⟩ ::
      layout items (off + padLen item.source.file.length)

/-- The size of all files in the image. -/
def dataLen (items : List Item) : Nat := (items.map (fun i => padLen i.source.file.length)).sum

/-- What one file needs to be packed. -/
structure Item.Ok (item : Item) : Prop where
  file_pos : 0 < item.source.file.length
  named : (getName item.source.text).isSome
  /-- The text is a C string. -/
  text : 0 ∉ item.source.text

theorem dataLen_cons (item : Item) (items : List Item) :
    dataLen (item :: items) = padLen item.source.file.length + dataLen items := by
  simp [dataLen]

variable {item : Item} {items : List Item}

theorem padLen_le_dataLen (h : item ∈ items) :
    padLen item.source.file.length ≤ dataLen items :=
  List.single_le_sum (fun _ _ => Nat.zero_le _) _ (List.mem_map_of_mem h)

theorem saveEntries_eq (items : List Item) (hok : ∀ item ∈ items, item.Ok)
    (hfits : off + dataLen items ≤ 2 ^ 31) : saveEntries items off = some (layout items off) := by
  induction items generalizing off with
  | nil => rfl
  | cons item items ih =>
    have hitem := hok item (.head _)
    obtain ⟨name, hname⟩ := Option.isSome_iff_exists.1 hitem.named
    have hle := le_padLen item.source.file.length
    rw [dataLen_cons] at hfits
    have hsize : getFileSize item.source.file = item.source.file.length := by
      unfold getFileSize
      omega
    have hsaved : saveEntry item off
        = some (⟨item.type.code, item.name, off, padLen item.source.file.length,
            item.delay % 2 ^ 16⟩, off + padLen item.source.file.length) := by
      simp only [saveEntry, hname, Option.map_some, hsize, Item.name, Option.getD_some]
      have hend : (off + padLen item.source.file.length) % 2 ^ 32
          = off + padLen item.source.file.length := Nat.mod_eq_of_lt (by omega)
      rw [entrySize_eq _ hitem.file_pos (by omega), hend]
    rw [saveEntries, hsaved]
    simp only
    rw [ih (fun i hi => hok i (.tail _ hi)) (by omega)]
    rfl

theorem writeFiles_eq (items : List Item) (hok : ∀ item ∈ items, item.Ok)
    (hfits : dataLen items + 2048 ≤ maxMergeSize) :
    writeFiles items = some (items.flatMap (fun i => sealed i.fix i.source.file)) := by
  induction items with
  | nil => rfl
  | cons item items ih =>
    rw [dataLen_cons] at hfits
    rw [writeFiles, writeFile_eq _ (hok item (.head _)).file_pos (by omega)]
    rw [ih (fun i hi => hok i (.tail _ hi)) (by omega)]
    rfl

/-- What `mergeBoot` can pack. -/
structure Options.Mergeable (opts : Options) : Prop where
  nonempty : opts.items ≠ []
  ok : ∀ item ∈ opts.items, item.Ok
  num471 : opts.code471.length ≤ 255
  num472 : opts.code472.length ≤ 255
  numLoader : opts.loader.length ≤ 255
  /-- Header, entries, files and checksum. -/
  size : 102 + 57 * opts.items.length + dataLen opts.items + 4 ≤ maxMergeSize

/-- The image without its checksum. -/
def body (opts : Options) : List UInt8 :=
  getBoothdr opts ++ (layout opts.items (102 + 57 * opts.items.length)).flatMap Entry.encode ++
    opts.items.flatMap (fun i => sealed i.fix i.source.file)

theorem Item.length_name_le (item : Item) : item.name.length ≤ 19 := by
  unfold Item.name getName
  simp only
  split
  · simp
  · simp

theorem Item.Ok.name_chars (h : item.Ok) : 0 ∉ item.name := by
  obtain ⟨name, hname⟩ := Option.isSome_iff_exists.1 h.named
  intro hmem
  apply h.text
  unfold Item.name getName at hmem
  simp only at hmem
  split at hmem
  · cases hmem
  · exact List.mem_of_mem_drop (List.mem_of_mem_take hmem)

variable {name : List UInt8}

theorem length_wideName (h : name.length ≤ 20) : (wideName name).length = 40 := by
  rw [wideName, List.length_append, Mem.length_flatMap_of_length (w := 2) (fun _ _ => rfl),
    List.length_replicate]
  omega

variable {e : Entry}

theorem length_encode (h : e.name.length ≤ 20) : e.encode.length = 57 := by
  simp only [Entry.encode, List.length_append, Mem.length_le32, length_wideName h, List.length_cons,
    List.length_nil]

theorem length_layout (items : List Item) (off : Nat) : (layout items off).length = items.length := by
  induction items generalizing off with
  | nil => rfl
  | cons item items ih => rw [layout, List.length_cons, List.length_cons, ih]

/-- The entries of a table, and what they are for. -/
theorem mem_layout (h : e ∈ layout items off) :
    ∃ item ∈ items, e.type = item.type.code ∧ e.name = item.name ∧
      e.dataSize = padLen item.source.file.length ∧ e.dataDelay < 2 ^ 16 ∧ off ≤ e.dataOffset ∧
      e.dataOffset + e.dataSize ≤ off + dataLen items := by
  induction items generalizing off with
  | nil => cases h
  | cons item items ih =>
    rw [dataLen_cons]
    rcases List.mem_cons.1 h with rfl | h
    · exact ⟨item, .head _, rfl, rfl, rfl, Nat.mod_lt _ (by decide), Nat.le_refl _,
        by simp only; omega⟩
    · obtain ⟨item', hmem, htype, hname, hsize, hdelay, hlo, hhi⟩ := ih h
      exact ⟨item', .tail _ hmem, htype, hname, hsize, hdelay, by omega, by omega⟩

/-- **The recorded ranges are in order.** -/
theorem layout_pairwise (items : List Item) (off : Nat) :
    (layout items off).Pairwise (fun e e' => e.dataOffset + e.dataSize ≤ e'.dataOffset) := by
  induction items generalizing off with
  | nil => exact List.Pairwise.nil
  | cons item items ih =>
    refine List.Pairwise.cons (fun e he => ?_) (ih _)
    obtain ⟨-, -, -, -, -, -, hlo, -⟩ := mem_layout he
    exact hlo

@[simp] theorem length_getBoothdr (opts : Options) : (getBoothdr opts).length = 102 := by
  simp [getBoothdr, encodeTable, RkTime.encode]

theorem length_encode_layout :
    ∀ e ∈ layout items off, e.encode.length = 57 := by
  intro e he
  obtain ⟨item, -, -, hname, -⟩ := mem_layout he
  have := item.length_name_le
  exact length_encode (by rw [hname]; omega)

theorem length_sealed_flatMap (items : List Item) :
    (items.flatMap (fun i => sealed i.fix i.source.file)).length = dataLen items := by
  rw [List.length_flatMap, dataLen]
  congr 1
  exact List.map_congr_left (fun i _ => length_sealed _ _)

theorem length_body (opts : Options) :
    (body opts).length = 102 + 57 * opts.items.length + dataLen opts.items := by
  rw [body, List.length_append, List.length_append, length_getBoothdr,
    Mem.length_flatMap_of_length length_encode_layout, length_layout, length_sealed_flatMap]

variable {opts : Options}

/-- Everything that can be packed is packed. -/
theorem Options.Mergeable.mergeBoot_eq (h : opts.Mergeable) :
    mergeBoot opts = some (body opts ++ Mem.le32 (crc32Rk (body opts))) := by
  have hsize := h.size
  simp only [maxMergeSize] at hsize
  have hstart : (102 + opts.items.length * 57) % 2 ^ 32 = 102 + 57 * opts.items.length := by
    omega
  have hdata : dataLen opts.items + 2048 ≤ maxMergeSize := by
    -- sizes are multiples of 2048, and there is more in the image than the files
    have hdvd : 2048 ∣ dataLen opts.items := by
      refine List.dvd_sum (fun n hn => ?_)
      obtain ⟨item, -, rfl⟩ := List.mem_map.1 hn
      exact Nat.dvd_mul_left _ _
    simp only [maxMergeSize]
    omega
  unfold mergeBoot
  rw [hstart, saveEntries_eq _ h.ok (by omega), writeFiles_eq _ h.ok hdata]
  simp only
  rw [← body, if_neg (by rw [length_body]; simp only [maxMergeSize]; omega)]

/-! ## Reading an image -/

/-- A memory with the image of `opts`. -/
def Packed (opts : Options) (m : Mem) : Prop := m.Has 0 (body opts)

section Read

variable {m : Mem} {a : Nat}

theorem byte_of_wideName (h : m.Has a (wideName name)) {k : Nat} (hk : k < 20) :
    m (a + 2 * k) = name.getD k 0 := by
  rw [wideName, Mem.has_append, Mem.length_flatMap_of_length (w := 2) (fun _ _ => rfl),
    Mem.has_flatMap (w := 2) (fun _ _ => rfl), Mem.has_replicate] at h
  by_cases hin : k < name.length
  · have := h.1 k hin
    rw [wide, Mem.has_cons] at this
    rw [this.1]
    simp [hin]
  · have := h.2 (2 * k - 2 * name.length) (by omega)
    rw [show a + 2 * name.length + (2 * k - 2 * name.length) = a + 2 * k by omega] at this
    rw [this]
    simp [Nat.le_of_not_lt hin]

/-- The name of an entry is read back, as far as it is looked at. -/
theorem nameAt_encode (h : m.Has a e.encode) (h0 : 0 ∉ e.name) (hn : n ≤ 20) :
    nameAt m a n = e.name.take n := by
  have hwide : m.Has (a + 5) (wideName e.name) := by
    simp only [Entry.encode, Mem.has_append] at h
    exact h.1.1.1.2
  have hchars : (List.range n).map (fun k => m (a + 5 + 2 * k))
      = e.name.take n ++ List.replicate (n - e.name.length) 0 := by
    apply List.ext_getElem
    · simp
      omega
    intro k hk hk'
    simp only [List.length_map, List.length_range] at hk
    rw [List.getElem_map, List.getElem_range, byte_of_wideName hwide (by omega)]
    by_cases hin : k < e.name.length
    · rw [List.getElem_append_left (by simp; omega), List.getElem_take]
      simp [hin]
    · rw [List.getElem_append_right (by simp; omega), List.getElem_replicate]
      simp [Nat.le_of_not_lt hin]
  have hne : ∀ c ∈ e.name.take n, decide (c ≠ 0) = true := fun c hc =>
    decide_eq_true (fun heq => h0 (heq ▸ List.mem_of_mem_take hc))
  rw [nameAt, hchars, List.takeWhile_append_of_pos hne]
  cases n - e.name.length with
  | zero => simp
  | succ k => simp [List.replicate_succ]

/-- An entry is read back. -/
theorem entryAt_encode (h : m.Has a e.encode) (hlen : e.name.length ≤ 20)
    (h0 : 0 ∉ e.name) (htype : e.type < 2 ^ 32) (hoff : e.dataOffset < 2 ^ 32)
    (hsize : e.dataSize < 2 ^ 32) (hdelay : e.dataDelay < 2 ^ 32) : entryAt m a = e := by
  have hname := nameAt_encode h h0 le_rfl
  rw [List.take_of_length_le hlen] at hname
  simp only [Entry.encode, Mem.has_append, List.length_append, List.length_cons, List.length_nil,
    Mem.length_le32, length_wideName hlen] at h
  obtain ⟨⟨⟨⟨⟨-, hT⟩, -⟩, hO⟩, hS⟩, hD⟩ := h
  have hT' : m.u32 (a + 1) = e.type := hT.u32_of_lt htype
  have hO' : m.u32 (a + 45) = e.dataOffset := hO.u32_of_lt hoff
  have hS' : m.u32 (a + 49) = e.dataSize := hS.u32_of_lt hsize
  have hD' : m.u32 (a + 53) = e.dataDelay := hD.u32_of_lt hdelay
  rw [entryAt, hname, hT', hO', hS', hD']

/-- Each file of a table is at the offset of its entry. -/
theorem has_file
    (h : m.Has off (items.flatMap (fun i => sealed i.fix i.source.file)))
    (hi : items[i]? = some item) :
    ∃ e, (layout items off)[i]? = some e ∧ e.name = item.name ∧
      e.dataSize = padLen item.source.file.length ∧
      m.Has e.dataOffset (sealed item.fix item.source.file) := by
  induction items generalizing off i with
  | nil => simp at hi
  | cons item' items ih =>
    rw [List.flatMap_cons, Mem.has_append, length_sealed] at h
    cases i with
    | zero =>
      obtain rfl : item' = item := by simpa using hi
      exact ⟨_, rfl, rfl, rfl, h.1⟩
    | succ i => exact ih h.2 (by simpa using hi)

end Read

section Image

variable {opts : Options} {m : Mem}

/-- The tables, and the files behind them. -/
theorem Packed.parts (h : Packed opts m) :
    m.Has 0 (getBoothdr opts) ∧
      (∀ i (hi : i < (layout opts.items (102 + 57 * opts.items.length)).length),
        m.Has (102 + 57 * i) (layout opts.items (102 + 57 * opts.items.length))[i].encode) ∧
      m.Has (102 + 57 * opts.items.length)
        (opts.items.flatMap (fun i => sealed i.fix i.source.file)) := by
  unfold Packed body at h
  rw [Mem.has_append, Mem.has_append, List.length_append, length_getBoothdr,
    Mem.length_flatMap_of_length length_encode_layout, length_layout, Nat.zero_add,
    Mem.has_flatMap length_encode_layout, Nat.zero_add] at h
  exact ⟨h.1.1, h.1.2, h.2⟩

/-- The entry `i` of the table is read back. -/
theorem Packed.entryAt (h : Packed opts m) (hopts : opts.Mergeable)
    (hi : i < (layout opts.items (102 + 57 * opts.items.length)).length) :
    entryAt m (102 + 57 * i) = (layout opts.items (102 + 57 * opts.items.length))[i] := by
  obtain ⟨item, hitem, htype, hname, hsize, hdelay, hlo, hhi⟩ := mem_layout (List.getElem_mem hi)
  have hok := hopts.ok item hitem
  have hfits := hopts.size
  simp only [maxMergeSize] at hfits
  have hlen := item.length_name_le
  refine entryAt_encode (h.parts.2.1 i hi) (by rw [hname]; omega) (by rw [hname]; exact hok.name_chars)
    ?_ (by omega) (by omega) (by omega)
  rw [htype]
  cases item.type with
  | code471 => decide
  | code472 => decide
  | loader => decide

/-- The fields of the header that the readers use. -/
theorem Packed.header (h : Packed opts m) (hopts : opts.Mergeable) :
    (m 25).toNat = opts.code471.length ∧ (m 31).toNat = opts.code472.length ∧
      (m 37).toNat = opts.loader.length ∧
      m.u32 38 = 102 + 57 * (opts.code471.length + opts.code472.length) ∧ m 42 = 57 ∧ m 44 = 1 := by
  have hheader := h.parts.1
  simp only [getBoothdr, encodeTable, RkTime.encode, Mem.has_append, List.length_append,
    Mem.length_le32, Mem.length_le16, List.length_cons, List.length_nil, Mem.has_cons, Nat.zero_add,
    Nat.reduceAdd] at hheader
  obtain ⟨⟨⟨⟨⟨-, h471, -⟩, h472, -⟩, ⟨⟨hloader, -⟩, hoffset⟩, hsize, -⟩, -, hrc4, -⟩, -⟩ := hheader
  have hn471 := hopts.num471
  have hn472 := hopts.num472
  have hnloader := hopts.numLoader
  refine ⟨?_, ?_, ?_, ?_, hsize, hrc4⟩
  · rw [h471.1.1, UInt8.toNat_ofNat']
    omega
  · rw [h472.1.1, UInt8.toNat_ofNat']
    omega
  · rw [hloader, UInt8.toNat_ofNat']
    omega
  · rw [hoffset.u32_of_lt (by omega)]
    omega

theorem length_items (opts : Options) :
    opts.items.length = opts.code471.length + opts.code472.length + opts.loader.length := by
  simp [Options.items, Nat.add_assoc]

end Image

/-! ## Round trip -/

theorem packed_ofList (opts : Options) (rest : List UInt8) :
    Packed opts (Mem.ofList (body opts ++ rest)) :=
  (Mem.has_append.1 (Mem.has_ofList (body opts ++ rest))).1

theorem entries_body (h : opts.Mergeable) (rest : List UInt8) :
    entries (body opts ++ rest) = layout opts.items (102 + 57 * opts.items.length) := by
  have hpacked := packed_ofList opts rest
  obtain ⟨h471, h472, hloader, -⟩ := hpacked.header h
  have hcount : ((Mem.ofList (body opts ++ rest)) 25).toNat
      + ((Mem.ofList (body opts ++ rest)) 31).toNat
      + ((Mem.ofList (body opts ++ rest)) 37).toNat
      = (layout opts.items (102 + 57 * opts.items.length)).length := by
    rw [h471, h472, hloader, length_layout, length_items]
  unfold entries
  simp only [hcount]
  apply List.ext_getElem
  · simp
  · intro i hi hi'
    rw [List.getElem_map, List.getElem_range]
    exact hpacked.entryAt h hi'

variable {dir : Dir}

section Unpack

variable {opens : List UInt8 → Bool} {file : List UInt8} {item : Item}

/-- What is packed in pieces is unpacked in pieces. -/
theorem decryptLoader_sealed (data : List UInt8) :
    decryptLoader (sealed true data) = some (pad data) := by
  have hmod : padLen data.length % 512 = 0 := by
    rw [padLen_eq]
    omega
  simp only [decryptLoader, length_sealed, hmod, if_true]
  rw [sealed, if_pos rfl, Cipher.pieces_pieces length_pRc4 pRc4_pRc4]

theorem unpackEntry_sealed (hopens : opens item.name = true)
    (hpos : 0 < item.source.file.length)
    (hhas : (Mem.ofList file).Has e.dataOffset (sealed item.fix item.source.file))
    (htype : e.type = item.type.code) (hname : e.name = item.name)
    (hsize : e.dataSize = padLen item.source.file.length)
    (hend : e.dataOffset + e.dataSize ≤ file.length) (hmax : e.dataSize ≤ maxMergeSize) (dir : Dir) :
    unpackEntry opens file e dir = some (true, dir.set item.name (pad item.source.file)) := by
  have hle := le_padLen item.source.file.length
  have hread : freadAt file e.dataOffset e.dataSize = some (sealed item.fix item.source.file) := by
    unfold Mem.Has at hhas
    rw [length_sealed, ← hsize] at hhas
    rw [freadAt, if_pos ⟨by omega, hend⟩, hhas]
  have hdecrypt : (if e.type = EntryType.loader.code
      then decryptLoader (sealed item.fix item.source.file)
      else some (pRc4 (sealed item.fix item.source.file))) = some (pad item.source.file) := by
    rw [htype]
    by_cases hloader : item.type = .loader
    · have hfix : item.fix = true := decide_eq_true hloader
      rw [hloader, if_pos rfl, hfix, decryptLoader_sealed]
    have hfix : item.fix = false := decide_eq_false hloader
    have hcode : item.type.code ≠ EntryType.loader.code := by
      revert hloader
      cases item.type with
      | code471 => decide
      | code472 => decide
      | loader => exact fun h => absurd rfl h
    rw [if_neg hcode, hfix, sealed, if_neg (by decide), pRc4_pRc4]
  unfold unpackEntry
  simp only [hread]
  rw [hname, hopens, if_neg (by decide), if_neg (by omega), hdecrypt, Option.map_some]

/-- The directory with all files of `items`. -/
def Dir.setAll (dir : Dir) (items : List Item) : Dir :=
  items.foldl (fun dir item => dir.set item.name (pad item.source.file)) dir

theorem unpackEntries_layout (items : List Item) (hok : ∀ i ∈ items, i.Ok)
    (hopens : ∀ i ∈ items, opens i.name = true)
    (hhas : (Mem.ofList file).Has off (items.flatMap (fun i => sealed i.fix i.source.file)))
    (hend : off + dataLen items ≤ file.length) (hmax : dataLen items ≤ maxMergeSize) (dir : Dir) :
    unpackEntries opens file (layout items off) dir = some (true, dir.setAll items) := by
  induction items generalizing off dir with
  | nil => rfl
  | cons item items ih =>
    rw [List.flatMap_cons, Mem.has_append, length_sealed] at hhas
    rw [dataLen_cons] at hend hmax
    have hitem := hok item (.head _)
    rw [layout, unpackEntries, unpackEntry_sealed (hopens item (.head _)) hitem.file_pos
      hhas.1 rfl rfl rfl (by simp only; omega) (by simp only; omega)]
    exact ih (fun i hi => hok i (.tail _ hi))
      (fun i hi => hopens i (.tail _ hi)) hhas.2 (by omega) (by omega) _

theorem Dir.setAll_of_not_mem (items : List Item)
    (h : name ∉ items.map Item.name) : dir.setAll items name = dir name := by
  induction items generalizing dir with
  | nil => rfl
  | cons item items ih =>
    rw [List.map_cons, List.mem_cons, not_or] at h
    rw [Dir.setAll, List.foldl_cons, ← Dir.setAll, ih h.2, Dir.set, if_neg h.1]

/-- With different names no file replaces another. -/
theorem Dir.setAll_of_mem (items : List Item) (hnames : (items.map Item.name).Nodup) (h : item ∈ items) :
    dir.setAll items item.name = some (pad item.source.file) := by
  induction items generalizing dir with
  | nil => cases h
  | cons item' items ih =>
    rw [List.map_cons, List.nodup_cons] at hnames
    rw [Dir.setAll, List.foldl_cons, ← Dir.setAll]
    rcases List.mem_cons.1 h with rfl | h
    · rw [Dir.setAll_of_not_mem items hnames.1, Dir.set, if_pos rfl]
    · exact ih hnames.2 h

end Unpack

/-- **Pack, then unpack.** Every file comes back with its padding, and the recorded ranges are in order
    and behind the tables. -/
theorem unpackBoot_mergeBoot {opts : Options} {opens : List UInt8 → Bool} (h : opts.Mergeable)
    (hnames : (opts.items.map Item.name).Nodup)
    (hopens : ∀ item ∈ opts.items, opens item.name = true) (dir : Dir) :
    ∃ image dir', mergeBoot opts = some image ∧ image.length ≤ maxMergeSize ∧
      unpackBoot opens image dir = some (true, dir') ∧
      (∀ item ∈ opts.items, dir' item.name = some (pad item.source.file)) ∧
      (entries image).length = opts.items.length ∧
      (entries image).Pairwise (fun e e' => e.dataOffset + e.dataSize ≤ e'.dataOffset) ∧
      ∀ e ∈ entries image, 102 + 57 * opts.items.length ≤ e.dataOffset := by
  have hsize := h.size
  have hpos : 0 < opts.items.length := List.length_pos_of_ne_nil h.nonempty
  have hentries := entries_body h (Mem.le32 (crc32Rk (body opts)))
  have hlength : (body opts ++ Mem.le32 (crc32Rk (body opts))).length
      = 102 + 57 * opts.items.length + dataLen opts.items + 4 := by
    rw [List.length_append, length_body, Mem.length_le32]
  have hunpack : unpackBoot opens (body opts ++ Mem.le32 (crc32Rk (body opts))) dir
      = some (true, dir.setAll opts.items) := by
    have hfiles := (packed_ofList opts (Mem.le32 (crc32Rk (body opts)))).parts.2.2
    unfold unpackBoot
    rw [hentries, length_layout, freadAt, freadAt, if_pos ⟨by decide, by omega⟩,
      if_pos ⟨by omega, by omega⟩]
    exact unpackEntries_layout _ h.ok hopens hfiles (by omega) (by omega) dir
  refine ⟨_, _, h.mergeBoot_eq, by omega, hunpack, fun item hitem => ?_, ?_, ?_, fun e he => ?_⟩
  · exact Dir.setAll_of_mem _ hnames hitem
  · rw [hentries, length_layout]
  · rw [hentries]
    exact layout_pairwise _ _
  · rw [hentries] at he
    obtain ⟨-, -, -, -, -, -, hlo, -⟩ := mem_layout he
    exact hlo

/-- A configuration with one file of each kind. -/
def threeFiles : Options where
  major := 2
  minor := 32
  chipType := 0x80
  code471Sleep := 0
  code472Sleep := 0
  code471 := [⟨[97, 47, 98, 46, 99], [1, 2, 3]⟩]
  code472 := [⟨[117], List.replicate 3000 7⟩]
  loader := [⟨[70, 68], [5]⟩]
  releaseTime := ⟨2016, 1, 2, 3, 4, 5⟩

theorem threeFiles_mergeable : threeFiles.Mergeable := by
  refine ⟨by decide, fun item hitem => ⟨?_, ?_, ?_⟩, by decide, by decide, by decide, ?_⟩
  · revert item
    decide +kernel
  · revert item
    decide +kernel
  · revert item
    decide +kernel
  · decide +kernel

theorem unpackBoot_mergeBoot_threeFiles :
    ∃ image dir', mergeBoot threeFiles = some image ∧ image.length ≤ maxMergeSize ∧
      unpackBoot (fun name => name ≠ []) image (fun _ => none) = some (true, dir') ∧
      (∀ item ∈ threeFiles.items, dir' item.name = some (pad item.source.file)) ∧
      (entries image).length = threeFiles.items.length ∧
      (entries image).Pairwise (fun e e' => e.dataOffset + e.dataSize ≤ e'.dataOffset) ∧
      ∀ e ∈ entries image, 102 + 57 * threeFiles.items.length ≤ e.dataOffset :=
  unpackBoot_mergeBoot threeFiles_mergeable (by decide +kernel) (by decide +kernel) (fun _ => none)

end BootMerger
