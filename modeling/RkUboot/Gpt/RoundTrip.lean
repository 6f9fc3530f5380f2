import RkUboot.Gpt.Fill

set_option autoImplicit false

/-! # A written partition table is read back

`Sound` says that the blocks of a device hold a table: a header that passes its checks and, where
the header points, the entries. `is_gpt_valid` accepts a sound table. After `gpt_restore` there are
two of them, at block 1 and in the last block, and the second one has no block in common with the
first. -/

namespace Gpt

/-! ## Records in memory -/

variable {e : GptEntry} {h : GptHeader}

section Fields

variable {m : Mem} {a : Nat}

theorem u16_field {x : UInt16} (h : m.Has a (Mem.le16 x.toNat)) : UInt16.ofNat (m.u16 a) = x := by
  rw [h.u16, Nat.mod_eq_of_lt x.toNat_lt, UInt16.ofNat_toNat]

theorem u32_field {x : UInt32} (h : m.Has a (Mem.le32 x.toNat)) : UInt32.ofNat (m.u32 a) = x := by
  rw [h.u32, Nat.mod_eq_of_lt x.toNat_lt, UInt32.ofNat_toNat]

theorem u64_field {x : UInt64} (h : m.Has a (Mem.le64 x.toNat)) : UInt64.ofNat (m.u64 a) = x := by
  rw [h.u64, Nat.mod_eq_of_lt x.toNat_lt, UInt64.ofNat_toNat]

theorem guid_field {g : Guid} (h : m.Has a g.b) : (⟨m.bytes a 16, Mem.length_bytes _⟩ : Guid) = g := by
  obtain ⟨b, hb⟩ := g
  unfold Mem.Has at h
  simp only [hb] at h
  simp only [h]

@[simp] theorem GptHeader.length_front (h : GptHeader) : h.front.length = 16 := rfl

@[simp] theorem GptHeader.length_back (h : GptHeader) : h.back.length = 72 := by
  simp [GptHeader.back, h.diskGuid.length_b]

@[simp] theorem GptHeader.length_bytes (h : GptHeader) : h.bytes.length = 92 := by
  simp [GptHeader.bytes]

theorem GptHeader.ofMem_eq (hm : m.Has 0 h.bytes) : GptHeader.ofMem m = h := by
  simp only [GptHeader.bytes, GptHeader.front, GptHeader.back, Mem.has_append, List.length_append,
    Mem.length_le32, Mem.length_le64, h.diskGuid.length_b, Nat.zero_add, Nat.reduceAdd] at hm
  obtain ⟨⟨⟨⟨h0, h8⟩, h12⟩, h16⟩, ⟨⟨⟨⟨⟨⟨⟨⟨h20, h24⟩, h32⟩, h40⟩, h48⟩, h56⟩, h72⟩, h80⟩, h84⟩, h88⟩ := hm
  obtain ⟨signature, revision, headerSize, headerCrc32, reserved1, myLba, alternateLba, firstUsableLba,
    lastUsableLba, diskGuid, partitionEntryLba, numPartitionEntries, sizeofPartitionEntry, crc⟩ := h
  simp only [GptHeader.ofMem, GptHeader.mk.injEq]
  exact ⟨u64_field h0, u32_field h8, u32_field h12, u32_field h16, u32_field h20, u64_field h24,
    u64_field h32,
    u64_field h40, u64_field h48, guid_field h56, u64_field h72, u32_field h80, u32_field h84, u32_field h88⟩

/-- The header with its checksum zeroed. -/
theorem GptHeader.has_zeroed (hm : m.Has 0 h.bytes) :
    (m.set32 16 0).Has 0 { h with headerCrc32 := 0 }.bytes := by
  unfold GptHeader.bytes at hm ⊢
  simp only [Mem.has_append, List.length_append, GptHeader.length_front, Mem.length_le32, Nat.zero_add,
    Nat.reduceAdd] at hm ⊢
  obtain ⟨⟨hfront, -⟩, hback⟩ := hm
  refine ⟨⟨?_, ?_⟩, ?_⟩
  · refine hfront.congr fun i hi => ?_
    rw [GptHeader.length_front] at hi
    exact Mem.set32_apply_ne (by omega)
  · rfl
  · refine hback.congr fun i hi => ?_
    exact Mem.set32_apply_ne (by omega)

theorem GptEntry.length_bytes (e : GptEntry) : e.bytes.length = 128 := by
  have hname : (e.partitionName.flatMap fun c => Mem.le16 c.toNat).length = 2 * e.partitionName.length :=
    Mem.length_flatMap_of_length fun _ _ => Mem.length_le16 _
  rw [GptEntry.bytes]
  simp only [List.length_append, hname, e.partitionTypeGuid.length_b, e.uniquePartitionGuid.length_b,
    Mem.length_le64, e.length_name, partnameSz]

theorem GptEntry.ofMem_eq (hm : m.Has a e.bytes) : GptEntry.ofMem m a = e := by
  obtain ⟨typeGuid, uniqueGuid, startingLba, endingLba, attributes, name, hname⟩ := e
  simp only [GptEntry.bytes, Mem.has_append, List.length_append, Mem.length_le64, typeGuid.length_b,
    uniqueGuid.length_b, Nat.reduceAdd] at hm
  obtain ⟨⟨⟨⟨⟨h0, h16⟩, h32⟩, h40⟩, h48⟩, h56⟩ := hm
  simp only [GptEntry.ofMem, GptEntry.mk.injEq]
  refine ⟨guid_field h0, guid_field h16, u64_field h32, u64_field h40, u64_field h48, ?_⟩
  rw [Mem.has_flatMap (fun _ _ => Mem.length_le16 _)] at h56
  apply List.ext_getElem
  · rw [List.length_map, List.length_range, hname]
  · intro k hk hk'
    rw [List.getElem_map, List.getElem_range]
    exact u16_field (h56 k hk')

end Fields

/-! ## Reading a sound table -/

variable {m pte : Mem} {a i n start : Nat}

section Reading

variable (crc32 : List UInt8 → UInt32)

/-- The device has a table with its header at block `lba`. -/
structure Sound (d : BlockDevDesc) (lba : UInt64) (h : GptHeader) (es : List GptEntry) : Prop where
  signature : h.signature = gptHeaderSignature
  headerSize : h.headerSize = 92
  headerCrc32 : h.headerCrc32 = crc32 { h with headerCrc32 := 0 }.bytes
  myLba : h.myLba = lba
  firstUsableLba : h.firstUsableLba ≤ d.lba
  lastUsableLba : h.lastUsableLba ≤ d.lba
  numEntries : h.numPartitionEntries = 128
  sizeofEntry : h.sizeofPartitionEntry = 128
  entryCrc32 : h.partitionEntryArrayCrc32 = crc32 (entryBytes es)
  length_es : es.length = 128
  lba_lt : lba.toNat + 1 ≤ d.lba.toNat
  entryLba_le : h.partitionEntryLba.toNat + 32 ≤ d.lba.toNat
  head : d.dev.disk.Has (512 * lba.toNat) h.bytes
  entries : d.dev.disk.Has (512 * h.partitionEntryLba.toNat) (entryBytes es)

/-- The device has a header at block `lba` that passes its checks, with entries on the device. -/
structure Headed (d : BlockDevDesc) (lba : UInt64) (h : GptHeader) : Prop where
  signature : h.signature = gptHeaderSignature
  headerSize : h.headerSize = 92
  headerCrc32 : h.headerCrc32 = crc32 { h with headerCrc32 := 0 }.bytes
  myLba : h.myLba = lba
  firstUsableLba : h.firstUsableLba ≤ d.lba
  lastUsableLba : h.lastUsableLba ≤ d.lba
  numEntries : h.numPartitionEntries = 128
  sizeofEntry : h.sizeofPartitionEntry = 128
  lba_lt : lba.toNat + 1 ≤ d.lba.toNat
  entryLba_le : h.partitionEntryLba.toNat + 32 ≤ d.lba.toNat
  head : d.dev.disk.Has (512 * lba.toNat) h.bytes

variable {crc32} {memalign : Nat → Bool} {before : Mem} {d : BlockDevDesc} {lba : UInt64}
  {h : GptHeader} {es : List GptEntry}

theorem blockRead_of_nil (hscript : d.dev.script = [])
    (hle : start + n ≤ d.lba.toNat) :
    d.blockRead start n before = (true, before.copy 0 d.dev.disk (512 * start) (512 * n), d) := by
  rw [BlockDevDesc.blockRead, if_pos hle, BlockDev.read_of_nil _ _ _ _ hscript]

/-- Reading without errors leaves the device as it is. -/
theorem blockRead_dev (before : Mem) (hscript : d.dev.script = []) (start n : Nat) :
    (d.blockRead start n before).2.2 = d := by
  by_cases hle : start + n ≤ d.lba.toNat
  · rw [blockRead_of_nil hscript hle]
  · rw [BlockDevDesc.blockRead, if_neg hle]

theorem allocReadGptEntries_dev (memalign : Nat → Bool) (before : Mem) (h : GptHeader)
    (hscript : d.dev.script = []) :
    (allocReadGptEntries memalign before d h).2 = d := by
  simp only [allocReadGptEntries]
  split
  · rfl
  have hread := blockRead_dev before hscript
  split
  · next heq =>
      rw [← hread, heq]
  · next heq =>
      rw [← hread, heq]

theorem isGptValid_dev (hscript : d.dev.script = []) :
    (isGptValid crc32 memalign before d lba).2 = d := by
  have hread := blockRead_dev before hscript lba.toNat 1
  rw [isGptValid]
  split
  · next heq =>
      rw [← hread, heq]
  next head d' heq =>
  obtain rfl : d' = d := by rw [← hread, heq]
  split
  · have halloc := allocReadGptEntries_dev memalign before (GptHeader.ofMem head) hscript
    split
    · next heq' => rw [← halloc, heq']
    · next heq' =>
        rw [heq'] at halloc
        split <;> exact halloc
  · rfl

theorem length_entryBytes (hes : es.length = 128) : (entryBytes es).length = 16384 := by
  rw [entryBytes, Mem.length_flatMap_of_length fun e _ => e.length_bytes, hes]

theorem Sound.headed (hs : Sound crc32 d lba h es) : Headed crc32 d lba h := { hs with }

theorem Headed.sound (hs : Headed crc32 d lba h)
    (hcrc : h.partitionEntryArrayCrc32 = crc32 (entryBytes es)) (hes : es.length = 128)
    (hentries : d.dev.disk.Has (512 * h.partitionEntryLba.toNat) (entryBytes es)) :
    Sound crc32 d lba h es :=
  { hs with entryCrc32 := hcrc, length_es := hes, entries := hentries }

theorem Headed.validateGptHeader_eq (hs : Headed crc32 d lba h) {head : Mem}
    (hhead : head.Has 0 h.bytes) :
    validateGptHeader crc32 head lba d.lba = true := by
  have hzeroed := (GptHeader.has_zeroed hhead).bytes_eq (GptHeader.length_bytes _)
  rw [validateGptHeader]
  simp only [GptHeader.ofMem_eq hhead, decide_eq_true_eq]
  refine ⟨hs.signature, ?_, hs.myLba, hs.firstUsableLba, hs.lastUsableLba⟩
  rw [hs.headerSize, show (92 : UInt32).toNat = 92 from rfl, hzeroed, ← hs.headerCrc32]

/-- With a good header it is the checksum of the entries that decides. -/
theorem Headed.isGptValid_eq (hs : Headed crc32 d lba h) (hscript : d.dev.script = [])
    (hmem : memalign 16384 = true) :
    isGptValid crc32 memalign before d lba
      = (if crc32 (d.dev.disk.bytes (512 * h.partitionEntryLba.toNat) 16384) = h.partitionEntryArrayCrc32 then
          some (h, before.copy 0 d.dev.disk (512 * h.partitionEntryLba.toNat) 16384)
        else none, d) := by
  have hcount : (h.numPartitionEntries * h.sizeofPartitionEntry).toNat = 16384 := by
    rw [hs.numEntries, hs.sizeofEntry]
    rfl
  have hhead : (before.copy 0 d.dev.disk (512 * lba.toNat) (512 * 1)).Has 0 h.bytes :=
    hs.head.copy (by rw [GptHeader.length_bytes]; decide)
  have halloc : allocReadGptEntries memalign before d h
      = (some (before.copy 0 d.dev.disk (512 * h.partitionEntryLba.toNat) 16384), d) := by
    simp only [allocReadGptEntries, hcount]
    rw [show blockCnt 16384 = 32 from rfl, if_neg (by simp [hmem]),
      blockRead_of_nil hscript hs.entryLba_le]
  have hpte := ((Mem.has_bytes 16384).copy (Mem.length_bytes _).le : (before.copy 0 d.dev.disk
    (512 * h.partitionEntryLba.toNat) 16384).Has 0 _).bytes_eq (Mem.length_bytes _)
  rw [isGptValid, blockRead_of_nil hscript hs.lba_lt]
  simp only [hs.validateGptHeader_eq hhead, GptHeader.ofMem_eq hhead, halloc, validateGptEntries, hcount,
    hpte, if_true, decide_eq_true_eq]
  split <;> rfl

/-- `is_gpt_valid` accepts a sound table. -/
theorem Sound.isGptValid_eq (hs : Sound crc32 d lba h es) (hscript : d.dev.script = [])
    (hmem : memalign 16384 = true) :
    ∃ pte, isGptValid crc32 memalign before d lba = (some (h, pte), d) ∧ pte.Has 0 (entryBytes es) := by
  have hlength := length_entryBytes hs.length_es
  refine ⟨_, ?_, hs.entries.copy (m := before) hlength.le⟩
  rw [hs.headed.isGptValid_eq hscript hmem, hs.entries.bytes_eq hlength, if_pos hs.entryCrc32.symm]

theorem has_entry (hpte : pte.Has 0 (entryBytes es))
    (he : es[i]? = some e) : pte.Has (128 * i) e.bytes := by
  obtain ⟨hi, rfl⟩ := List.getElem?_eq_some_iff.mp he
  rw [entryBytes, Mem.has_flatMap fun e _ => e.length_bytes] at hpte
  rw [← Nat.zero_add (128 * i)]
  exact hpte i hi

theorem fillArray_getElem? (he : es[i]? = some e) : (fillArray es)[i]? = some e := by
  rw [fillArray, List.getElem?_append_left (List.getElem?_eq_some_iff.mp he).1, he]

/-- The information about an entry of a sound table that `get_partition_info_efi` has read. -/
theorem getPartitionInfoEfi_eq (hnum : h.numPartitionEntries = 128) (hes : es.length = 128)
    (hread : readTable crc32 memalign before d = some (h, pte)) (hpte : pte.Has 0 (entryBytes es))
    (he : es[i]? = some e) (hvalid : isPteValid e = true) :
    getPartitionInfoEfi crc32 memalign before d (i + 1) = some (.ofEntry e) := by
  have hi := (List.getElem?_eq_some_iff.mp he).1
  have hentry : GptEntry.ofMem pte (128 * (i + 1 - 1)) = e := GptEntry.ofMem_eq (has_entry hpte he)
  rw [getPartitionInfoEfi, if_neg (by omega), hread]
  simp only [hentry]
  rw [if_neg]
  rw [hnum, hvalid, show (128 : UInt32).toNat = 128 from rfl]
  simp only [Bool.true_eq_false, or_false]
  omega

end Reading

/-! ## The entries that are written -/

/-- The characters before the terminator are `n`. -/
def HasName (e : GptEntry) (n : List UInt8) : Prop :=
  e.partitionName.takeWhile (· ≠ 0) = n.map UInt8.toUInt16
  deriving Decidable

/-- A printable name is printed as it is. -/
theorem printEfiname_of_hasName {n : List UInt8} (hname : HasName e n)
    (hprint : ∀ c ∈ n, isprint c = true) : printEfiname e = n := by
  unfold HasName at hname
  unfold printEfiname
  generalize e.partitionName = ws at hname
  induction ws generalizing n with
  | nil => exact (List.map_eq_nil_iff.mp hname.symm).symm
  | cons w ws ih =>
    by_cases hw : w = 0
    · subst hw
      exact (List.map_eq_nil_iff.mp hname.symm).symm
    rw [List.takeWhile_cons_of_pos (by simpa using hw)] at hname
    obtain ⟨c, n, rfl, rfl, hrest⟩ := List.map_eq_cons_iff.mp hname.symm
    have hc := hprint c (.head _)
    have hback : c.toUInt16.toUInt8 = c := by simp
    have hne : c ≠ 0 := fun h0 => nomatch (h0 ▸ hc)
    rw [List.map_cons, hback, if_neg (by simp [hc]), cString,
      List.takeWhile_cons_of_pos (by simpa using hne)]
    exact congrArg _ (ih (fun d hd => hprint d (.tail _ hd)) hrest.symm)

theorem hasName_fillEntry (p : DiskPartition) (start ending : UInt64) (uuid : Guid) :
    HasName (fillEntry p start ending uuid) (cString p.name) := by
  show (p.name.map UInt8.toUInt16 ++ List.replicate 4 0).takeWhile _ = (p.name.takeWhile _).map _
  generalize p.name = name
  induction name with
  | nil => rfl
  | cons c cs ih =>
    by_cases hc : c = 0
    · subst hc
      rfl
    · have hc' : c.toUInt16 ≠ 0 := fun h0 => hc (by simpa using congrArg UInt16.toUInt8 h0)
      rw [List.map_cons, List.cons_append, List.takeWhile_cons_of_pos (by simpa using hc'), ih,
        List.takeWhile_cons_of_pos (by simpa using hc), List.map_cons]

theorem isPteValid_fillEntry (p : DiskPartition) (start ending : UInt64) (uuid : Guid) :
    isPteValid (fillEntry p start ending uuid) = true := by
  show decide (partitionBasicDataGuid.b ≠ List.replicate 16 0) = true
  decide

/-- What is read of an entry that was filled. -/
theorem ofEntry_fillEntry (p : DiskPartition) (start : UInt64) (uuid : Guid)
    (hprint : ∀ c ∈ cString p.name, isprint c = true) :
    let info := PartitionInfo.ofEntry (fillEntry p start (start + p.size - 1) uuid)
    info.start = start ∧ info.size = p.size ∧ info.name = cString p.name := by
  refine ⟨rfl, ?_, printEfiname_of_hasName (hasName_fillEntry p _ _ uuid) hprint⟩
  show start + p.size - 1 + 1 - start = p.size
  rw [UInt64.sub_add_cancel, UInt64.add_comm, UInt64.add_sub_cancel]

/-! ## The device after `gpt_restore` -/

variable {bs entries : List UInt8} {lba : UInt64}

section Writing

variable {crc32 : List UInt8 → UInt32} {d : BlockDevDesc}

theorem blockWrite_ok {buf : Mem} {d' : BlockDevDesc}
    (h : d.blockWrite start n buf = (true, d')) :
    d'.dev.disk = d.dev.disk.copy (512 * start) buf 0 (512 * n) := by
  rw [BlockDevDesc.blockWrite] at h
  split at h
  · obtain ⟨hok, rfl⟩ := Prod.mk.inj h
    have hnext : d.dev.next = .ok := of_decide_eq_true hok
    show d.dev.disk.copy _ _ _ (512 * d.dev.landed n) = _
    rw [BlockDev.landed, hnext]
  · exact absurd (Prod.mk.inj h).1 Bool.false_ne_true

/-- Complete writes put every buffer on the disk. -/
theorem writeAll_ok (ws : List (Nat × Nat × Mem)) (hok : (writeAll d ws).1 = 0) :
    (writeAll d ws).2.dev.disk
      = ws.foldl (fun disk w => disk.copy (512 * w.1) w.2.2 0 (512 * w.2.1)) d.dev.disk := by
  induction ws generalizing d with
  | nil => rfl
  | cons w ws ih =>
    obtain ⟨start, n, buf⟩ := w
    rw [writeAll] at hok ⊢
    split at hok
    · next d' hwrite =>
        rw [ih hok, blockWrite_ok hwrite]
        rfl
    · omega

/-- A buffer that was written stays where it is, as long as the later writes are elsewhere. -/
theorem has_copy_out {src : Mem} {b c len : Nat} (h : m.Has a bs)
    (hout : a + bs.length ≤ b ∨ b + len ≤ a) : (m.copy b src c len).Has a bs :=
  h.congr fun i hi => Mem.copy_apply_out (by omega)

theorem GptHeader.sign_crc (hsize : h.headerSize = 92) (hcrc : h.headerCrc32 = 0) :
    (h.sign crc32).headerCrc32 = crc32 { h.sign crc32 with headerCrc32 := 0 }.bytes := by
  have hbytes := (Mem.has_ofList h.bytes).bytes_eq (GptHeader.length_bytes h)
  have hzero : { h.sign crc32 with headerCrc32 := 0 } = h := by
    rw [← hcrc]
    rfl
  rw [hzero]
  show crc32 _ = _
  rw [hsize, show (92 : UInt32).toNat = 92 from rfl, hbytes]

/-- The entries at block 2, of which the backup overwrites a part if the device is too small. -/
def primaryEntries (n : Nat) (entries : List UInt8) : List UInt8 :=
  entries.take (512 * (n - 35)) ++ entries.take (512 * (67 - n))

theorem primaryEntries_eq (hn : 67 ≤ n) (hlength : entries.length = 16384) :
    primaryEntries n entries = entries := by
  rw [primaryEntries, show 67 - n = 0 by omega, List.take_of_length_le (by omega), List.take_zero,
    List.append_nil]

theorem has_take {k : Nat} (h : m.Has a bs) : m.Has a (bs.take k) := by
  rw [← List.take_append_drop k bs, Mem.has_append] at h
  exact h.1

/-- The disk after the writes of `write_gpt_table`. -/
theorem has_of_writes (disk mbr : Mem) (primary backup : GptHeader)
    (hn : 35 ≤ n) (hlength : entries.length = 16384) :
    let disk' := [(0, 1, mbr), (1, 1, Mem.ofList primary.bytes), (2, 32, Mem.ofList entries),
      (n - 33, 32, Mem.ofList entries), (n - 1, 1, Mem.ofList backup.bytes)].foldl
      (fun disk w => disk.copy (512 * w.1) w.2.2 0 (512 * w.2.1)) disk
    disk'.Has (512 * 1) primary.bytes ∧ disk'.Has (512 * 2) (primaryEntries n entries) ∧
    disk'.Has (512 * (n - 33)) entries ∧ disk'.Has (512 * (n - 1)) backup.bytes := by
  have hprimary := primary.length_bytes
  have hbackup := backup.length_bytes
  have hentries := Mem.has_ofList entries
  simp only [List.foldl_cons, List.foldl_nil]
  refine ⟨?_, ?_, ?_, ?_⟩
  · refine has_copy_out (has_copy_out (has_copy_out (Mem.Has.copy (Mem.has_ofList _) ?_) ?_) ?_) ?_ <;> omega
  · rw [primaryEntries, Mem.has_append, List.length_take]
    refine ⟨has_copy_out (has_copy_out (Mem.Has.copy (has_take hentries) ?_) ?_) ?_, ?_⟩
    · simp
      omega
    · simp
      omega
    · simp
      omega
    -- the part that is behind the start of the backup is the beginning of the array again
    rcases Nat.lt_or_ge n 67 with hlt | hge
    · rw [show 512 * 2 + min (512 * (n - 35)) entries.length = 512 * (n - 33) by omega]
      refine has_copy_out (Mem.Has.copy (has_take hentries) ?_) ?_
      · simp
        omega
      · simp
        omega
    · rw [show 67 - n = 0 by omega]
      exact Mem.has_nil
  · refine has_copy_out (Mem.Has.copy hentries ?_) ?_ <;> omega
  · exact Mem.Has.copy (Mem.has_ofList _) (by omega)

/-- What `gpt_fill_header` sets. -/
structure Filled (d : BlockDevDesc) (h : GptHeader) : Prop where
  signature : h.signature = gptHeaderSignature
  headerSize : h.headerSize = 92
  headerCrc32 : h.headerCrc32 = 0
  myLba : h.myLba = 1
  alternateLba : h.alternateLba = d.lba - 1
  firstUsableLba : h.firstUsableLba = 34
  lastUsableLba : h.lastUsableLba = d.lba - 34
  partitionEntryLba : h.partitionEntryLba = 2
  numEntries : h.numPartitionEntries = 128
  sizeofEntry : h.sizeofPartitionEntry = 128

theorem gptFillHeader_filled {strGuid : List UInt8}
    (hh : gptFillHeader d strGuid = some h) :
    Filled d h := by
  obtain ⟨diskGuid, -, rfl⟩ := Option.map_eq_some_iff.mp hh
  exact ⟨rfl, rfl, rfl, rfl, rfl, rfl, rfl, rfl, rfl, rfl⟩

section Placement

variable {h : GptHeader} {es : List GptEntry} {d' : BlockDevDesc}

theorem toNat_lastLba (hlba : 34 ≤ d.lba.toNat) : (d.lba - 1).toNat = d.lba.toNat - 1 :=
  UInt64.toNat_sub_of_le _ _ (UInt64.le_iff_toNat_le.mpr (Nat.le_trans (by decide) hlba))

theorem Filled.toNat_lastUsable (hh : Filled d h) (hlba : 34 ≤ d.lba.toNat) :
    h.lastUsableLba.toNat = d.lba.toNat - 34 := by
  rw [hh.lastUsableLba]
  exact UInt64.toNat_sub_of_le _ _ (UInt64.le_iff_toNat_le.mpr hlba)

theorem Filled.toNat_entryLba (hh : Filled d h) (hlba : 34 ≤ d.lba.toNat) :
    (h.lastUsableLba + 1).toNat = d.lba.toNat - 33 := by
  have hlt := d.lba.toNat_lt
  rw [UInt64.toNat_add, UInt64.toNat_one, hh.toNat_lastUsable hlba]
  omega

theorem Filled.entryCrc32 (hh : Filled d h) (hes : es.length = 128) :
    (primaryGptHeader crc32 h es).partitionEntryArrayCrc32 = crc32 (entryBytes es) := by
  have hbytes := (Mem.has_ofList (entryBytes es)).bytes_eq (length_entryBytes hes)
  show crc32 _ = _
  rw [hh.numEntries, hh.sizeofEntry, show ((128 : UInt32) * 128).toNat = 16384 from rfl, hbytes]

theorem writeGptTable_eq (hlba : 34 ≤ d.lba.toNat) (hh : Filled d h) :
    writeGptTable crc32 d h es
      = writeAll d [(0, 1, Mem.ofList (protectiveMbr d)),
        (1, 1, Mem.ofList (primaryGptHeader crc32 h es).bytes), (2, 32, Mem.ofList (entryBytes es)),
        (d.lba.toNat - 33, 32, Mem.ofList (entryBytes es)), (d.lba.toNat - 1, 1,
          Mem.ofList (prepareBackupGptHeader crc32 (primaryGptHeader crc32 h es)).bytes)] := by
  have hentry : ((prepareBackupGptHeader crc32 (primaryGptHeader crc32 h es)).lastUsableLba + 1).toNat
      = d.lba.toNat - 33 := hh.toNat_entryLba hlba
  have hlast : (prepareBackupGptHeader crc32 (primaryGptHeader crc32 h es)).myLba.toNat = d.lba.toNat - 1 := by
    show h.alternateLba.toNat = _
    rw [hh.alternateLba, toNat_lastLba hlba]
  simp only [writeGptTable, hentry, hlast, hh.numEntries]
  rfl

/-- A header that was signed, with the fields that both copies have. -/
theorem Filled.headed {g : GptHeader} (hh : Filled d h) (hlba : 34 ≤ d.lba.toNat)
    (hd' : d'.lba = d.lba) (hcrc : g.headerCrc32 = 0) (hmy : g.myLba = lba)
    (hg : g = { h with
      headerCrc32 := g.headerCrc32
      myLba := g.myLba
      alternateLba := g.alternateLba
      partitionEntryLba := g.partitionEntryLba
      partitionEntryArrayCrc32 := g.partitionEntryArrayCrc32 })
    (hlt : lba.toNat + 1 ≤ d.lba.toNat) (hentry : g.partitionEntryLba.toNat + 32 ≤ d.lba.toNat)
    (hhead : d'.dev.disk.Has (512 * lba.toNat) (g.sign crc32).bytes) :
    Headed crc32 d' lba (g.sign crc32) := by
  have hsize : g.headerSize = 92 := by
    rw [hg]
    exact hh.headerSize
  have hfirst : h.firstUsableLba ≤ d'.lba := by
    rw [hh.firstUsableLba, hd']
    exact UInt64.le_iff_toNat_le.mpr hlba
  have hlast : h.lastUsableLba ≤ d'.lba := by
    rw [UInt64.le_iff_toNat_le, hh.toNat_lastUsable hlba, hd']
    exact Nat.sub_le _ _
  rw [← hd'] at hlt hentry
  refine ⟨?_, hsize, GptHeader.sign_crc hsize hcrc, hmy, ?_, ?_, ?_, ?_, hlt, hentry, hhead⟩
  all_goals rw [GptHeader.sign, hg]
  exacts [hh.signature, hfirst, hlast, hh.numEntries, hh.sizeofEntry]

/-- Both headers and the backup of the entries are on the device. -/
theorem writeGptTable_headed (d' : BlockDevDesc) (hlba : 35 ≤ d.lba.toNat) (hh : Filled d h) (hes : es.length = 128)
    (hok : (writeGptTable crc32 d h es).1 = 0) (hd' : d'.lba = d.lba)
    (hdisk : d'.dev.disk = (writeGptTable crc32 d h es).2.dev.disk) :
    Headed crc32 d' 1 (primaryGptHeader crc32 h es) ∧
    d'.dev.disk.Has (512 * 2) (primaryEntries d.lba.toNat (entryBytes es)) ∧
    Headed crc32 d' (d.lba - 1) (prepareBackupGptHeader crc32 (primaryGptHeader crc32 h es)) ∧
    d'.dev.disk.Has (512 * (d.lba.toNat - 33)) (entryBytes es) := by
  have hlba' : 34 ≤ d.lba.toNat := Nat.le_of_succ_le hlba
  rw [writeGptTable_eq hlba' hh] at hok hdisk
  rw [writeAll_ok _ hok] at hdisk
  obtain ⟨hhead, hentries, hentries', hhead'⟩ := has_of_writes d.dev.disk (Mem.ofList (protectiveMbr d))
    (primaryGptHeader crc32 h es) (prepareBackupGptHeader crc32 (primaryGptHeader crc32 h es)) hlba
    (length_entryBytes hes)
  rw [← hdisk] at hhead hentries hentries' hhead'
  rw [← toNat_lastLba hlba'] at hhead'
  refine ⟨hh.headed hlba' hd' hh.headerCrc32 hh.myLba rfl (show 1 + 1 ≤ _ by omega) ?_ hhead, hentries,
    hh.headed hlba' hd' rfl hh.alternateLba rfl ?_ ?_ hhead', hentries'⟩
  · show h.partitionEntryLba.toNat + 32 ≤ _
    rw [hh.partitionEntryLba]
    show 2 + 32 ≤ _
    omega
  · rw [toNat_lastLba hlba']
    omega
  · show (h.lastUsableLba + 1).toNat + 32 ≤ _
    rw [hh.toNat_entryLba hlba']
    omega

/-- A table does not depend on what is below its blocks. -/
theorem Sound.congr {low : Nat} (hs : Sound crc32 d lba h es) (hlba : low ≤ lba.toNat)
    (hentry : low ≤ h.partitionEntryLba.toNat) (hd' : d'.lba = d.lba)
    (hdisk : ∀ x, 512 * low ≤ x → d'.dev.disk x = d.dev.disk x) : Sound crc32 d' lba h es :=
  { hs with
    firstUsableLba := by rw [hd']; exact hs.firstUsableLba
    lastUsableLba := by rw [hd']; exact hs.lastUsableLba
    lba_lt := by rw [hd']; exact hs.lba_lt
    entryLba_le := by rw [hd']; exact hs.entryLba_le
    head := hs.head.congr fun i _ => hdisk _ (by omega)
    entries := hs.entries.congr fun i _ => hdisk _ (by omega) }

/-- Both tables are on the device, and the backup has nothing below block 34. -/
theorem writeGptTable_sound (d' : BlockDevDesc) (hlba : 67 ≤ d.lba.toNat) (hh : Filled d h) (hes : es.length = 128)
    (hok : (writeGptTable crc32 d h es).1 = 0) (hd' : d'.lba = d.lba)
    (hdisk : d'.dev.disk = (writeGptTable crc32 d h es).2.dev.disk) :
    (∃ primary, Sound crc32 d' 1 primary es) ∧
    ∃ backup, Sound crc32 d' (d.lba - 1) backup es ∧ 34 ≤ backup.partitionEntryLba.toNat := by
  obtain ⟨hprimary, hentries, hbackup, hentries'⟩ :=
    writeGptTable_headed d' (by omega) hh hes hok hd' hdisk
  have hentryLba : (h.lastUsableLba + 1).toNat = d.lba.toNat - 33 := hh.toNat_entryLba (by omega)
  rw [primaryEntries_eq hlba (length_entryBytes hes)] at hentries
  refine ⟨⟨_, hprimary.sound (hh.entryCrc32 hes) hes ?_⟩, _, hbackup.sound ?_ hes ?_, ?_⟩
  · show d'.dev.disk.Has (512 * h.partitionEntryLba.toNat) _
    rw [hh.partitionEntryLba]
    exact hentries
  · show (primaryGptHeader crc32 h es).partitionEntryArrayCrc32 = _
    exact hh.entryCrc32 hes
  · show d'.dev.disk.Has (512 * (h.lastUsableLba + 1).toNat) _
    rw [hentryLba]
    exact hentries'
  · show 34 ≤ (h.lastUsableLba + 1).toNat
    omega

end Placement

end Writing

/-! ## The round trip -/

/-- The device without read errors. -/
def BlockDevDesc.quiet (d : BlockDevDesc) (disk : Mem) : BlockDevDesc := ⟨d.lba, ⟨disk, []⟩⟩

/-- A size of at least 1 and a printable name of 1 to 31 characters. -/
def DiskPartition.Proper (p : DiskPartition) : Prop :=
  1 ≤ p.size ∧ 1 ≤ (cString p.name).length ∧ (cString p.name).length ≤ 31 ∧ ∀ c ∈ cString p.name, isprint c = true
  deriving Decidable

theorem DiskPartition.Proper.size_ne_zero {p : DiskPartition} (hp : p.Proper) : p.size ≠ 0 := by
  intro hzero
  have hsize := hp.1
  rw [hzero] at hsize
  cases hsize

/-- The start, the size and the name of partition `i` are reported. -/
def Reports (info : Option PartitionInfo) (partitions : List DiskPartition) (i : Nat) : Prop :=
  ∃ out p, info = some out ∧ partitions[i]? = some p ∧ (starts 34 partitions)[i]? = some out.start ∧
    out.size = p.size ∧ out.name = cString p.name

section RoundTrip

variable (crc32 : List UInt8 → UInt32) (memalign : Nat → Bool) (before : Mem)

variable {crc32 memalign before} in
/-- A table with the entries of the partitions reports them. -/
theorem reports_of_table {d : BlockDevDesc} {last : UInt64} {partitions : List DiskPartition}
    {es : List GptEntry}
    (hfill : gptFillPte last 34 partitions = some es) (hproper : ∀ p ∈ partitions, p.Proper)
    (hlength : (fillArray es).length = 128) (hnum : h.numPartitionEntries = 128)
    (hread : readTable crc32 memalign before d = some (h, pte))
    (hpte : pte.Has 0 (entryBytes (fillArray es))) (hi : i < partitions.length) :
    Reports (getPartitionInfoEfi crc32 memalign before d (i + 1)) partitions i := by
  have hp : partitions[i]? = some partitions[i] := List.getElem?_eq_getElem hi
  obtain ⟨-, hentries⟩ := gptFillPte_entries hfill
  obtain ⟨start, uuid, hstart, -, -, hentry⟩ := hentries i _ hp
  rw [if_neg fun hrest => (hproper _ (List.getElem_mem hi)).size_ne_zero hrest.2] at hentry
  obtain ⟨hinfo, hinfoSize, hinfoName⟩ := ofEntry_fillEntry partitions[i] start uuid
    (hproper _ (List.getElem_mem hi)).2.2.2
  refine ⟨_, partitions[i], getPartitionInfoEfi_eq hnum hlength hread hpte
    (fillArray_getElem? hentry) (isPteValid_fillEntry ..), hp, ?_, hinfoSize, hinfoName⟩
  rw [hinfo]
  exact hstart

/-- **A table that `gpt_restore` has written is read back**, also after the blocks 1 to 33 were
    overwritten with anything that `is_gpt_valid` rejects. -/
theorem getPartitionInfoEfi_gptRestore (d : BlockDevDesc) (strDiskGuid : List UInt8)
    (partitions : List DiskPartition) (hlba : 67 < d.lba)
    (hcount : partitions.length ≤ gptEntryNumbers)
    (hproper : ∀ p ∈ partitions, p.Proper) (hmem : memalign 16384 = true)
    (hok : (gptRestore crc32 d strDiskGuid partitions).1 = 0) (i : Nat) (hi : i < partitions.length) :
    let disk := (gptRestore crc32 d strDiskGuid partitions).2.dev.disk
    Reports (getPartitionInfoEfi crc32 memalign before (d.quiet disk) (i + 1)) partitions i ∧
    ∀ disk' : Mem, (∀ x, x < 512 * 1 ∨ 512 * 34 ≤ x → disk' x = disk x) →
      (isGptValid crc32 memalign before (d.quiet disk') 1).1 = none →
      Reports (getPartitionInfoEfi crc32 memalign before (d.quiet disk') (i + 1)) partitions i := by
  rw [gptRestore] at hok ⊢
  split at hok
  · omega
  next h hheader =>
  have hfilled := gptFillHeader_filled hheader
  split at hok
  · omega
  next es hfill =>
  rw [hfilled.firstUsableLba] at hfill
  have hlength : (fillArray es).length = 128 := by
    rw [fillArray, List.length_append, List.length_replicate, (gptFillPte_entries hfill).1]
    unfold gptEntryNumbers at *
    omega
  have hlba' : 67 < d.lba.toNat := UInt64.lt_iff_toNat_lt.mp hlba
  obtain ⟨⟨primary, hprimary⟩, backup, hbackup, hentryLba⟩ := writeGptTable_sound
    (d.quiet (writeGptTable crc32 d h (fillArray es)).2.dev.disk) hlba'.le hfilled hlength hok
    rfl rfl
  refine ⟨?_, fun disk' hdisk' hinvalid => ?_⟩
  · obtain ⟨pte, hvalid, hpte⟩ := hprimary.isGptValid_eq rfl hmem
    refine reports_of_table hfill hproper hlength hprimary.numEntries ?_ hpte hi
    rw [readTable, hvalid]
  -- The backup is not touched, and it is read because the table at block 1 is rejected.
  have hquiet : Sound crc32 (d.quiet disk') (d.lba - 1) backup (fillArray es) := by
    refine hbackup.congr ?_ hentryLba rfl fun x hx => hdisk' x (.inr hx)
    rw [toNat_lastLba (by omega)]
    omega
  obtain ⟨pte, hvalid, hpte⟩ := hquiet.isGptValid_eq rfl hmem
  refine reports_of_table hfill hproper hlength hquiet.numEntries ?_ hpte hi
  have hdev : (isGptValid crc32 memalign before (d.quiet disk') 1).2 = d.quiet disk' :=
    isGptValid_dev rfl
  rw [readTable]
  split
  · next heq =>
      rw [heq] at hinvalid
      exact absurd hinvalid (Option.some_ne_none _)
  next heq =>
  rw [heq] at hdev
  subst hdev
  show (isGptValid crc32 memalign before (d.quiet disk') (d.lba - 1)).1 = _
  rw [hvalid]

/-- A device of 100 empty blocks. -/
def emptyDevice : BlockDevDesc := ⟨100, ⟨Mem.zero, []⟩⟩

/-- The first partition is placed at block 40, the second one behind it. -/
def bootAndData : List DiskPartition :=
  [{ start := 40, size := 4, name := Fastboot.ascii "boot" ++ List.replicate 28 0, bootable := true,
      uuid := sampleUuid, length_name := rfl },
    { start := 0, size := 8, name := Fastboot.ascii "data" ++ List.replicate 28 0, bootable := false,
      uuid := sampleUuid, length_name := rfl }]

/-- The disk after `gpt_restore`. -/
def restoredDisk : Mem := (gptRestore (fun _ => 7) emptyDevice sampleUuid bootAndData).2.dev.disk

/-- The blocks 1 to 33 are wiped. -/
def wipedDisk : Mem := fun x => if 512 * 1 ≤ x ∧ x < 512 * 34 then 0 else restoredDisk x

theorem getPartitionInfoEfi_gptRestore_data :
    (starts 34 bootAndData)[1]? = some 44 ∧
    Reports (getPartitionInfoEfi (fun _ => 7) (fun _ => true) Mem.zero (emptyDevice.quiet restoredDisk) 2)
      bootAndData 1 ∧
    Reports (getPartitionInfoEfi (fun _ => 7) (fun _ => true) Mem.zero (emptyDevice.quiet wipedDisk) 2)
      bootAndData 1 := by
  obtain ⟨hprimary, hbackup⟩ := getPartitionInfoEfi_gptRestore (fun _ => 7) (fun _ => true) Mem.zero emptyDevice
    sampleUuid bootAndData (by decide) (by decide) (by decide +kernel) rfl (by decide +kernel) 1 (by decide)
  refine ⟨by decide, hprimary, hbackup wipedDisk (fun x hx => ?_) ?_⟩
  · exact if_neg (by omega)
  · exact Option.isNone_iff_eq_none.mp (by decide +kernel)

end RoundTrip

end Gpt
