import RkUboot.Rkss.Basic

set_option autoImplicit false

/-! # What the requests do to the disk

On a device without I/O errors every function of the model either leaves the disk as it is or
changes it by three primitives: a record of the table is stored (`putEntry`), the flags of an
extent are updated (`updateFlags`), the sections of an extent are filled (`storeData`). One lemma a
request says which of these it does (`teeFsOpen_cases` and so on); every invariant is then proved
about the primitives only. -/

namespace Rkss

/-- A device on which no I/O error occurs. -/
abbrev reliable (disk : Mem) : BlockDev := ⟨disk, []⟩

/-! ## Sections and records -/

/-- What a read of section `i` delivers. -/
def sectionOf (disk : Mem) (i : Nat) : Mem := Mem.zero.copy 0 disk (512 * i) 512

/-- Where the record of descriptor `fd` starts. -/
def entryAt (fd : Nat) : Nat := 512 * (fd / 4) + 126 * (fd - 4 * (fd / 4))

/-- The record of descriptor `fd`. -/
def entry (disk : Mem) (fd : Nat) : Mem := Mem.zero.copy 0 disk (entryAt fd) 126

/-- Store a record. -/
def putEntry (disk : Mem) (fd : Nat) (p : Mem) : Mem := disk.copy (entryAt fd) p 0 126

/-- The reference count of section `i`. -/
def flag (disk : Mem) (i : Nat) : Nat := disk.nib 65536 i

/-- The bytes of a record that are stored. -/
def trim (p : Mem) : Mem := Mem.zero.copy 0 p 0 126

variable (disk : Mem) (i n fd : Nat) (p : Mem)

theorem sectionOf_apply (x : Nat) (h : x < 512) : sectionOf disk i x = disk (512 * i + x) := by
  unfold sectionOf
  rw [Mem.copy_apply_in (Nat.zero_le x) (by omega), Nat.sub_zero]

theorem apply_eq_section (x : Nat) : disk x = sectionOf disk (x / 512) (x % 512) := by
  rw [sectionOf_apply _ _ _ (Nat.mod_lt x (by decide)), Nat.div_add_mod]

theorem entryAt_eq (h : n < 4) : entryAt (i * 4 + n) = 512 * i + 126 * n := by
  have hi : (i * 4 + n) / 4 = i := by omega
  unfold entryAt
  rw [hi]
  omega

theorem entryAt_le (h : fd < 512) : entryAt fd + 126 ≤ 65536 := by
  unfold entryAt
  omega

theorem entryAt_disjoint (fd' : Nat) (h : fd ≠ fd') :
    entryAt fd + 126 ≤ entryAt fd' ∨ entryAt fd' + 126 ≤ entryAt fd := by
  unfold entryAt
  rcases Nat.lt_trichotomy (fd / 4) (fd' / 4) with hlt | heq | hgt
  · left; omega
  · omega
  · right; omega

theorem loadInfo_section (h : n < 4) : loadInfo (sectionOf disk i) n = entry disk (i * 4 + n) := by
  funext x
  unfold loadInfo entry
  rw [entryAt_eq _ _ h]
  by_cases hx : x < 126
  · simp (disch := omega) only [Mem.copy_apply_in, sectionOf_apply]
    exact congrArg disk (by omega)
  · simp (disch := omega) only [Mem.copy_apply_out]

/-- A section that was read, changed in one record and written back. -/
theorem copy_section_entry (h : n < 4) :
    disk.copy (512 * i) ((sectionOf disk i).copy (126 * n) p 0 126) 0 512
      = putEntry disk (i * 4 + n) p := by
  funext x
  unfold putEntry
  rw [entryAt_eq _ _ h]
  by_cases hx : 512 * i ≤ x ∧ x < 512 * i + 512
  · rw [Mem.copy_apply_in hx.1 hx.2]
    by_cases hn : 512 * i + 126 * n ≤ x ∧ x < 512 * i + 126 * n + 126
    · simp (disch := omega) only [Mem.copy_apply_in]
      exact congrArg p (by omega)
    · simp (disch := omega) only [Mem.copy_apply_out, sectionOf_apply]
      exact congrArg disk (by omega)
  · simp (disch := omega) only [Mem.copy_apply_out]

theorem nib_section (s : Nat) (h : s < 1024) : (sectionOf disk 128).nib 0 s = flag disk s := by
  unfold flag
  rw [Mem.nib_eq, Mem.nib_eq, sectionOf_apply _ _ _ (by omega), Nat.zero_add]

/-- The used-flags section read, changed in one flag and written back. -/
theorem copy_section_flag (s v : Nat) (h : s < 1024) :
    disk.copy (512 * 128) ((sectionOf disk 128).setNib 0 s v) 0 512 = disk.setNib 65536 s v := by
  funext x
  unfold Mem.setNib
  simp only [Nat.zero_add, sectionOf_apply disk 128 (s / 2) (by omega), Mem.set8_apply]
  by_cases hx : 512 * 128 ≤ x ∧ x < 512 * 128 + 512
  · rw [Mem.copy_apply_in hx.1 hx.2, Mem.set8_apply]
    by_cases he : x = 65536 + s / 2
    · rw [if_pos he, if_pos (by omega)]
    · rw [if_neg he, if_neg (by omega), sectionOf_apply _ _ _ (by omega)]
      exact congrArg disk (by omega)
  · rw [Mem.copy_apply_out (by omega), if_neg (by omega)]

/-! ## Single transfers -/

/-- The outcome of the transfer number `k` to come. -/
def outcome (script : List IoResult) (k : Nat) : IoResult := script.getD k .ok

/-- A write of one section with this outcome reaches the medium. -/
def lands : IoResult → Bool
  | .ok => true
  | .fail => false
  | .torn k => k != 0

variable (script : List IoResult)

theorem outcome_tail (k : Nat) : outcome script.tail k = outcome script (k + 1) := by
  cases script <;> rfl

theorem next_eq_outcome : (BlockDev.mk disk script).next = outcome script 0 := by
  cases script <;> rfl

theorem rkssReadSection_scripted :
    rkssReadSection ⟨disk, script⟩ i
      = (if outcome script 0 = .ok then some (sectionOf disk i) else none, ⟨disk, script.tail⟩) := by
  unfold rkssReadSection BlockDev.read
  rw [next_eq_outcome]
  cases outcome script 0 <;> rfl

theorem rkssWriteSection_scripted (data : Mem) :
    rkssWriteSection ⟨disk, script⟩ i data
      = (decide (outcome script 0 = .ok),
          ⟨if lands (outcome script 0) then disk.copy (512 * i) data 0 512 else disk, script.tail⟩) := by
  have hzero : disk.copy (512 * i) data 0 (512 * 0) = disk := Mem.copy_zero ..
  unfold rkssWriteSection BlockDev.write BlockDev.landed
  rw [next_eq_outcome]
  cases outcome script 0 with
  | ok => rfl
  | fail =>
    simp only [hzero]
    rfl
  | torn k =>
    cases k with
    | zero =>
      simp only [Nat.zero_min, hzero]
      rfl
    | succ k =>
      simp only [show min (k + 1) 1 = 1 by omega]
      rfl

@[simp] theorem rkssReadSection_reliable :
    rkssReadSection (reliable disk) i = (some (sectionOf disk i), reliable disk) :=
  rkssReadSection_scripted disk i []

@[simp] theorem rkssWriteSection_reliable (data : Mem) :
    rkssWriteSection (reliable disk) i data
      = (true, reliable (disk.copy (512 * i) data 0 512)) :=
  rkssWriteSection_scripted disk i [] data

/-! ## Reading the primitives back -/

theorem entry_putEntry_same : entry (putEntry disk fd p) fd = trim p := by
  funext x
  unfold entry putEntry trim
  by_cases hx : x < 126
  · simp (disch := omega) only [Mem.copy_apply_in]
    exact congrArg p (by omega)
  · simp (disch := omega) only [Mem.copy_apply_out]

variable {disk' : Mem}

theorem entry_congr (h : disk.AgreeOn disk' (entryAt fd) (entryAt fd + 126)) :
    entry disk fd = entry disk' fd := by
  funext x
  unfold entry
  by_cases hx : x < 126
  · simp (disch := omega) only [Mem.copy_apply_in]
    exact h _ (by omega) (by omega)
  · simp (disch := omega) only [Mem.copy_apply_out]

theorem entry_putEntry_ne (fd' : Nat) (h : fd' ≠ fd) :
    entry (putEntry disk fd p) fd' = entry disk fd' := by
  apply entry_congr
  intro x hx hx'
  have hd := entryAt_disjoint fd fd' h.symm
  exact Mem.copy_apply_out (by omega)

theorem flag_congr (s : Nat) (hs : s < 1024) (h : disk.AgreeOn disk' 65536 66048) :
    flag disk s = flag disk' s :=
  Mem.AgreeOn.nib (n := 512) h (by omega)

theorem flag_putEntry (s : Nat) (hfd : fd < 512) (hs : s < 1024) :
    flag (putEntry disk fd p) s = flag disk s := by
  apply flag_congr _ _ hs
  intro x hx hx'
  have hle := entryAt_le fd hfd
  exact Mem.copy_apply_out (by omega)

theorem flag_lt (s : Nat) : flag disk s < 16 := Mem.nib_lt ..

theorem infoUsed_entry : infoUsed (entry disk fd) = disk (entryAt fd) := by
  unfold infoUsed entry
  rw [Mem.copy_apply_in (by omega) (by omega)]
  rfl

theorem infoUsed_section (h : n < 4) :
    infoUsed (entry disk (i * 4 + n)) = sectionOf disk i (126 * n) := by
  rw [infoUsed_entry, entryAt_eq _ _ h, sectionOf_apply _ _ _ (by omega)]

theorem trim_agree : (trim p).AgreeOn p 0 126 := by
  intro x hx hx'
  unfold trim
  rw [Mem.copy_apply_in hx (by omega)]
  exact congrArg p (by omega)

@[simp] theorem infoUsed_trim : infoUsed (trim p) = infoUsed p :=
  trim_agree p 0 (by omega) (by omega)

@[simp] theorem infoFlags_trim : infoFlags (trim p) = infoFlags p :=
  trim_agree p 125 (by omega) (by omega)

@[simp] theorem infoIndex_trim : infoIndex (trim p) = infoIndex p :=
  ((trim_agree p).mono (by omega) (by omega)).u16

@[simp] theorem infoSize_trim : infoSize (trim p) = infoSize p :=
  ((trim_agree p).mono (by omega) (by omega)).u16

/-! ## The table functions -/

theorem rkssGetFileinfoByIndex_scripted :
    rkssGetFileinfoByIndex ⟨disk, script⟩ fd
      = (if outcome script 0 = .ok ∧ infoUsed (entry disk fd) = 1 then some (entry disk fd) else none,
          ⟨disk, script.tail⟩) := by
  have hfd : fd / 4 * 4 + (fd - 4 * (fd / 4)) = fd := by omega
  have hn : fd - 4 * (fd / 4) < 4 := by omega
  unfold rkssGetFileinfoByIndex
  rw [rkssReadSection_scripted]
  by_cases hok : outcome script 0 = .ok
  · simp only [if_pos hok, loadInfo_section disk (fd / 4) _ hn, ← infoUsed_section disk (fd / 4) _ hn,
      hfd]
    by_cases hused : infoUsed (entry disk fd) = 1
    · rw [if_neg (not_not.2 hused), if_pos ⟨hok, hused⟩]
    · rw [if_pos hused, if_neg (fun h => hused h.2)]
  · simp only [if_neg hok]
    rw [if_neg (fun h => hok h.1)]

theorem rkssGetFileinfoByIndex_reliable :
    rkssGetFileinfoByIndex (reliable disk) fd
      = (if infoUsed (entry disk fd) = 1 then some (entry disk fd) else none, reliable disk) := by
  have hok : outcome [] 0 = .ok := rfl
  rw [rkssGetFileinfoByIndex_scripted, if_congr (and_iff_right hok) rfl rfl]
  rfl

theorem rkssWriteBackPtable_reliable :
    rkssWriteBackPtable (reliable disk) fd p = (true, reliable (putEntry disk fd p)) := by
  have hfd : fd / 4 * 4 + (fd - 4 * (fd / 4)) = fd := by omega
  unfold rkssWriteBackPtable
  simp only [rkssReadSection_reliable, rkssWriteSection_reliable,
    copy_section_entry disk (fd / 4) _ p (by omega : fd - 4 * (fd / 4) < 4), hfd]

/-- The answer of the lookup: nothing of that name, or a used record that carries it. -/
inductive Lookup (filename : List UInt8) : Int → Mem → Prop
  | absent (ret : Int) (h : ret < 0) : Lookup filename ret Mem.zero
  | found (fd : Nat) (hfd : fd < 512) (hused : infoUsed (entry disk fd) ≠ 0)
      (hname : (entry disk fd).strcmpEq 1 filename = true) : Lookup filename fd (entry disk fd)

theorem strcmpEq_section (filename : List UInt8) (hn : n < 4) (hlen : filename.length ≤ 116) :
    (sectionOf disk i).strcmpEq (126 * n + 1) filename
      = (entry disk (i * 4 + n)).strcmpEq 1 filename := by
  apply Mem.strcmpEq_congr
  intro k hk
  rw [← loadInfo_section _ _ _ hn, loadInfo,
    Mem.copy_apply_in (by omega) (by omega)]
  exact congrArg _ (by omega)

theorem lookupEntry_cases (filename : List UInt8) (hi : i < 128) (hn : n < 4)
    (hlen : filename.length ≤ 116) {ret : Int}
    (h : lookupEntry (sectionOf disk i) filename i n = some (ret, p)) :
    Lookup disk filename ret p := by
  unfold lookupEntry at h
  split at h
  · cases h
  next hused =>
  split at h
  · next hname =>
    obtain ⟨rfl, rfl⟩ := Prod.mk.inj (Option.some.inj h)
    rw [loadInfo_section _ _ _ hn]
    refine .found _ (by omega) ?_ ?_
    · rwa [infoUsed_section _ _ _ hn]
    · rwa [← strcmpEq_section _ _ _ _ hn hlen]
  · split at h
    · obtain ⟨rfl, rfl⟩ := Prod.mk.inj (Option.some.inj h)
      exact .absent _ (by decide)
    · cases h

theorem lookupSections_reliable (filename : List UInt8) (hlen : filename.length ≤ 116) (k : Nat)
    (hk : i + k ≤ 128) :
    ∃ ret p, lookupSections filename k i (reliable disk) = (ret, p, reliable disk) ∧
      Lookup disk filename ret p := by
  induction k generalizing i with
  | zero => exact ⟨_, _, rfl, .absent _ (by decide)⟩
  | succ k ih =>
    simp only [lookupSections, rkssReadSection_reliable]
    cases hfind : (List.range 4).findSome? (lookupEntry (sectionOf disk i) filename i) with
    | none => exact ih (i + 1) (by omega)
    | some r =>
      obtain ⟨ret, q⟩ := r
      obtain ⟨n, hn, hq⟩ := List.exists_of_findSome?_eq_some hfind
      rw [List.mem_range] at hn
      exact ⟨ret, q, rfl, lookupEntry_cases disk i n q filename (by omega) hn hlen hq⟩

theorem rkssGetFileinfoByName_reliable (filename : List UInt8) :
    ∃ ret p, rkssGetFileinfoByName (reliable disk) filename = (ret, p, reliable disk) ∧
      Lookup disk filename ret p := by
  unfold rkssGetFileinfoByName
  split
  · exact ⟨_, _, rfl, .absent _ (by decide)⟩
  · exact lookupSections_reliable disk 0 filename (by omega) 128 (by omega)

theorem writeEmptySections_reliable (k : Nat) (hk : i + k ≤ 128) :
    writeEmptySections p k i (reliable disk) = (-1, reliable disk) ∨
    ∃ fd, fd < 512 ∧ infoUsed (entry disk fd) = 0 ∧
      writeEmptySections p k i (reliable disk)
        = ((fd : Int), reliable (putEntry disk fd (stampInfo p (fd - 4 * (fd / 4))))) := by
  induction k generalizing i with
  | zero => exact .inl rfl
  | succ k ih =>
    simp only [writeEmptySections, rkssReadSection_reliable, rkssWriteSection_reliable]
    cases hfind : (List.range 4).find? (fun n => sectionOf disk i (126 * n) = 0) with
    | none => exact ih (i + 1) (by omega)
    | some n =>
      have hn : n < 4 := List.mem_range.1 (List.mem_of_find?_eq_some hfind)
      have hz : sectionOf disk i (126 * n) = 0 := by simpa using List.find?_some hfind
      have hmod : i * 4 + n - 4 * ((i * 4 + n) / 4) = n := by omega
      refine .inr ⟨i * 4 + n, by omega, ?_, ?_⟩
      · rwa [infoUsed_section _ _ _ hn]
      · rw [hmod]
        simp only [copy_section_entry disk i n _ hn]

theorem rkssWriteEmptyPtable_reliable :
    rkssWriteEmptyPtable (reliable disk) p = (-1, reliable disk) ∨
    ∃ fd, fd < 512 ∧ infoUsed (entry disk fd) = 0 ∧
      rkssWriteEmptyPtable (reliable disk) p
        = ((fd : Int), reliable (putEntry disk fd (stampInfo p (fd - 4 * (fd / 4))))) :=
  writeEmptySections_reliable disk 0 p 128 (by omega)

/-! ## The used flags -/

/-- A reference-count update keeps 4-bit values. -/
def Keeps4Bits (f : Nat → Nat) : Prop := ∀ v, v < 16 → f v < 16

theorem keeps4Bits_incref : Keeps4Bits incref := by
  intro v hv
  unfold incref
  split <;> omega

theorem keeps4Bits_decref : Keeps4Bits decref := by
  intro v hv
  unfold decref
  omega

/-- The flags of `num` sections from `index`, updated one after the other. -/
def updateFlags (f : Nat → Nat) : Nat → Nat → Mem → Mem
  | 0, _, disk => disk
  | num + 1, index, disk =>
    updateFlags f num (index + 1) (disk.setNib 65536 index (f (flag disk index)))

variable (f : Nat → Nat) (num index : Nat)

theorem updateUsedflag_scripted (h : index < 1024) :
    updateUsedflag f ⟨disk, script⟩ index
      = if outcome script 0 = .ok then
          (decide (outcome script 1 = .ok),
            ⟨if lands (outcome script 1) then disk.setNib 65536 index (f (flag disk index)) else disk,
              script.tail.tail⟩)
        else (false, ⟨disk, script.tail⟩) := by
  unfold updateUsedflag
  rw [if_neg (by omega), rkssReadSection_scripted]
  by_cases hok : outcome script 0 = .ok
  · simp only [if_pos hok, rkssWriteSection_scripted, outcome_tail, nib_section disk index h,
      copy_section_flag disk index _ h]
  · simp only [if_neg hok]

theorem updateUsedflag_reliable (h : index < 1024) :
    updateUsedflag f (reliable disk) index
      = (true, reliable (disk.setNib 65536 index (f (flag disk index)))) :=
  updateUsedflag_scripted disk [] f index h

/-- The loop over an extent stops where the partition ends. -/
theorem updateExtent_reliable (hnum : 0 < num) :
    updateExtent (updateUsedflag f) num index (reliable disk)
      = (decide (index + num ≤ 1024), reliable (updateFlags f (min num (1024 - index)) index disk)) := by
  induction num generalizing index disk with
  | zero => exact absurd hnum (Nat.lt_irrefl 0)
  | succ num ih =>
    by_cases hi : index < 1024
    · have hmin : min (num + 1) (1024 - index) = min num (1024 - (index + 1)) + 1 := by omega
      rw [hmin, updateExtent, updateUsedflag_reliable _ _ _ hi, updateFlags]
      cases num with
      | zero =>
        simp only [updateExtent, Nat.zero_min, updateFlags, Nat.zero_add]
        rw [decide_eq_true (by omega)]
      | succ num =>
        simp only
        rw [ih _ _ (Nat.succ_pos num)]
        exact congrArg (fun b => (b, _)) (decide_eq_decide.2 (by omega))
    · have hmin : min (num + 1) (1024 - index) = 0 := by omega
      rw [hmin, updateExtent, updateUsedflag, if_pos (by omega), decide_eq_false (by omega)]
      rfl

theorem flag_updateFlags (hf : Keeps4Bits f) (s : Nat) :
    flag (updateFlags f num index disk) s
      = if index ≤ s ∧ s < index + num then f (flag disk s) else flag disk s := by
  induction num generalizing index disk with
  | zero =>
    rw [if_neg (by omega)]
    rfl
  | succ num ih =>
    rw [updateFlags, ih]
    by_cases hs : s = index
    · subst hs
      rw [if_neg (by omega), if_pos (by omega)]
      exact Mem.nib_setNib_same _ _ _ _ (hf _ (flag_lt disk s))
    have hne : flag (disk.setNib 65536 index (f (flag disk index))) s = flag disk s :=
      Mem.nib_setNib_ne _ _ _ _ _ hs
    rw [hne]
    exact if_congr (by omega) rfl rfl

theorem updateFlags_apply_out (x : Nat) (h : index + num ≤ 1024 ∨ num = 0)
    (hx : x < 65536 ∨ 66048 ≤ x) :
    updateFlags f num index disk x = disk x := by
  induction num generalizing index disk with
  | zero => rfl
  | succ num ih =>
    rw [updateFlags, ih _ _ (by omega)]
    exact Mem.setNib_apply_ne _ _ _ _ _ (by omega)

theorem entry_updateFlags (h : index + num ≤ 1024 ∨ num = 0) (hfd : fd < 512) :
    entry (updateFlags f num index disk) fd = entry disk fd := by
  apply entry_congr
  intro x hx hx'
  have hle := entryAt_le fd hfd
  exact updateFlags_apply_out _ _ _ _ _ h (by omega)

/-! ## The search for free sections -/

/-- Sections `i .. i + num - 1` are in the partition and free. -/
def FreeRun (disk : Mem) (num i : Nat) : Prop :=
  i + num ≤ 1024 ∧ ∀ s, i ≤ s → s < i + num → flag disk s = 0

/-- The loop finds the first run of `size` zero flags that begins in the `count0` ones in front of
    `i`, or later. -/
theorem emptyRun_spec (data : Mem) (size k count0 : Nat) (hc : count0 < size) (hi : count0 ≤ i)
    (hzero : ∀ x, i - count0 ≤ x → x < i → data.nib 0 x = 0) :
    match emptyRun data size k i count0 with
    | some r => r + size ≤ i + k ∧ (∀ x, r ≤ x → x < r + size → data.nib 0 x = 0) ∧
        ∀ r', i - count0 ≤ r' → r' < r → ∃ x, r' ≤ x ∧ x < r' + size ∧ data.nib 0 x ≠ 0
    | none => ∀ r', i - count0 ≤ r' → r' + size ≤ i + k →
        ∃ x, r' ≤ x ∧ x < r' + size ∧ data.nib 0 x ≠ 0 := by
  induction k generalizing i count0 with
  | zero =>
    intro r' _ _
    omega
  | succ k ih =>
    unfold emptyRun
    by_cases hz : data.nib 0 i = 0
    · have hzero' : ∀ x, i - count0 ≤ x → x < i + 1 → data.nib 0 x = 0 := by
        intro x hx hx'
        by_cases hxi : x = i
        · rw [hxi, hz]
        · exact hzero x hx (by omega)
      rw [if_pos hz]
      by_cases hsize : count0 + 1 = size
      · rw [if_pos hsize]
        refine ⟨by omega, fun x _ _ => hzero' x (by omega) (by omega), fun r' _ _ => ?_⟩
        omega
      rw [if_neg hsize]
      have h := ih (i + 1) (count0 + 1) (by omega) (by omega)
        (fun x hx hx' => hzero' x (by omega) hx')
      rwa [Nat.add_sub_add_right, Nat.add_right_comm] at h
    · -- a run that begins at or before `i` would contain it
      have hfar : ∀ r', i - count0 ≤ r' → r' < i + 1 →
          ∃ x, r' ≤ x ∧ x < r' + size ∧ data.nib 0 x ≠ 0 :=
        fun r' _ _ => ⟨i, by omega, by omega, hz⟩
      rw [if_neg hz]
      have h := ih (i + 1) 0 (by omega) (Nat.zero_le _) (fun x hx hx' => by omega)
      split at h
      · obtain ⟨hr, hrun, hleast⟩ := h
        refine ⟨by omega, hrun, fun r' hr' hlt => ?_⟩
        by_cases hle : r' < i + 1
        · exact hfar r' hr' hle
        · exact hleast r' (by omega) hlt
      · intro r' hr' hend
        by_cases hle : r' < i + 1
        · exact hfar r' hr' hle
        · exact h r' (by omega) (by omega)

/-- The search answers the first run of free sections, or -10 if there is none. -/
theorem rkssGetEmptySection_reliable (hnum : 0 < num) :
    ((∀ i, ¬ FreeRun disk num i) ∧
      rkssGetEmptySectionFromUsedflags (reliable disk) num = (-10, reliable disk)) ∨
    ∃ i, FreeRun disk num i ∧ (∀ j < i, ¬ FreeRun disk num j) ∧
      rkssGetEmptySectionFromUsedflags (reliable disk) num = ((i : Int), reliable disk) := by
  have hused : ∀ j, (j + num ≤ 1024 →
      ∃ x, j ≤ x ∧ x < j + num ∧ (sectionOf disk 128).nib 0 x ≠ 0) → ¬ FreeRun disk num j := by
    rintro j h ⟨hj, hfree⟩
    obtain ⟨x, hx, hx', hne⟩ := h hj
    rw [nib_section _ _ (by omega)] at hne
    exact hne (hfree x hx hx')
  have hspec := emptyRun_spec 0 (sectionOf disk 128) num 1024 0 hnum le_rfl
    (fun x _ hx => nomatch hx)
  unfold rkssGetEmptySectionFromUsedflags
  simp only [rkssReadSection_reliable]
  cases h : emptyRun (sectionOf disk 128) num 1024 0 0 with
  | none =>
    rw [h] at hspec
    exact .inl ⟨fun i => hused i fun hi => hspec i (Nat.zero_le i) (by omega), rfl⟩
  | some r =>
    rw [h] at hspec
    obtain ⟨hr, hfree, hleast⟩ := hspec
    refine .inr ⟨r, ⟨by omega, fun s hs hs' => ?_⟩, fun j hj => hused j fun _ =>
      hleast j (Nat.zero_le j) hj, rfl⟩
    rw [← nib_section _ _ (by omega)]
    exact hfree s hs hs'

/-- `r` is the first of `num` free sections, -10 if there are none. -/
def FirstFree (disk : Mem) (num : Nat) (r : Int) : Prop :=
  (∃ i : Nat, r = i ∧ FreeRun disk num i ∧ ∀ j < i, ¬ FreeRun disk num j) ∨
  (r = -10 ∧ ∀ i, ¬ FreeRun disk num i)

/-- An update succeeded, section `index` has the flag `v`, and nothing else has changed. -/
def SetsFlag (disk : Mem) (index v : Nat) (r : Bool × BlockDev) : Prop :=
  r.1 = true ∧ flag r.2.disk index = v ∧ (∀ s ≠ index, flag r.2.disk s = flag disk s) ∧
    ∀ x, x < 65536 ∨ 66048 ≤ x → r.2.disk x = disk x

theorem updateUsedflag_setsFlag (hf : Keeps4Bits f) (h : index < 1024) :
    SetsFlag disk index (f (flag disk index)) (updateUsedflag f (reliable disk) index) := by
  have hflag := flag_updateFlags disk f 1 index hf
  rw [updateUsedflag_reliable _ _ _ h]
  refine ⟨rfl, ?_, fun s hs => ?_, fun x hx => ?_⟩
  · exact (hflag index).trans (if_pos (by omega))
  · exact (hflag s).trans (if_neg (by omega))
  · exact updateFlags_apply_out disk f 1 index x (by omega) hx

/-- **The used flags.** The search gives the first run of free sections, and the two updates change
    the flag of their section only, by one and within 0..15. -/
theorem usedflags_exact (hnum : 1 ≤ num) (hindex : index < 1024) :
    FirstFree disk num (rkssGetEmptySectionFromUsedflags (reliable disk) num).1 ∧
    SetsFlag disk index (min (flag disk index + 1) 15)
      (rkssIncrefUsedflagsSection (reliable disk) index) ∧
    SetsFlag disk index (flag disk index - 1)
      (rkssDecrefUsedflagsSection (reliable disk) index) := by
  refine ⟨?_, ?_, updateUsedflag_setsFlag disk decref index keeps4Bits_decref hindex⟩
  · rcases rkssGetEmptySection_reliable disk num hnum with ⟨hnone, he⟩ | ⟨i, hrun, hleast, he⟩
    · rw [he]
      exact .inr ⟨rfl, hnone⟩
    · rw [he]
      exact .inl ⟨i, rfl, hrun, hleast⟩
  · have hmin : min (flag disk index + 1) 15 = incref (flag disk index) := by
      unfold incref
      split <;> omega
    rw [hmin]
    exact updateUsedflag_setsFlag disk incref index keeps4Bits_incref hindex

/-- Sections 4 i and 4 i + 1 have the flags 15 and 2, the others are free. -/
def markedDisk : Mem := fun x => if x % 2 = 0 then 0xF2 else 0

theorem usedflags_exact_marked :
    FirstFree markedDisk 2 (rkssGetEmptySectionFromUsedflags (reliable markedDisk) 2).1 ∧
    SetsFlag markedDisk 4 15 (rkssIncrefUsedflagsSection (reliable markedDisk) 4) ∧
    SetsFlag markedDisk 4 14 (rkssDecrefUsedflagsSection (reliable markedDisk) 4) :=
  usedflags_exact markedDisk 2 4 (by decide) (by decide)

/-! ## The data of a file -/

/-- The data loop of `tee_fs_write` on the disk. -/
def storeData (data : Mem) : Nat → Nat → Nat → Nat → Mem → Mem
  | 0, _, _, _, disk => disk
  | num + 1, index, lastw, left, disk =>
    let ws := if left > 512 then 512 else left
    storeData data num (index + 1) (lastw + ws) (left - 512)
      (disk.copy (512 * index) (Mem.zero.copy 0 data lastw ws) 0 512)

variable (data : Mem) (lastw left : Nat)

theorem writeSections_reliable (seek : Int) (filled : List Nat) :
    writeSections data num index lastw left ⟨reliable disk, seek, filled⟩
      = (true, ⟨reliable (storeData data num index lastw left disk), seek,
          (List.range' index num).reverse ++ filled⟩) := by
  induction num generalizing index lastw left disk filled with
  | zero => rfl
  | succ num ih =>
    simp only [writeSections, rkssWriteSection_reliable, ih, storeData, List.range'_succ,
      List.reverse_cons, List.append_assoc, List.singleton_append]

theorem storeData_apply_out (x : Nat) (h : x < 512 * index ∨ 512 * (index + num) ≤ x) :
    storeData data num index lastw left disk x = disk x := by
  induction num generalizing index lastw left disk with
  | zero => rfl
  | succ num ih =>
    rw [storeData, ih _ _ _ _ (by omega)]
    exact Mem.copy_apply_out (by omega)

theorem entry_storeData (h : 129 ≤ index) (hfd : fd < 512) :
    entry (storeData data num index lastw left disk) fd = entry disk fd := by
  apply entry_congr
  intro x hx hx'
  have hle := entryAt_le fd hfd
  exact storeData_apply_out _ _ _ _ _ _ _ (by omega)

theorem flag_storeData (h : 129 ≤ index) (s : Nat) (hs : s < 1024) :
    flag (storeData data num index lastw left disk) s = flag disk s := by
  apply flag_congr _ _ hs
  intro x hx hx'
  exact storeData_apply_out _ _ _ _ _ _ _ (by omega)

/-! ## Replacing one record of the table -/

/-- `disk'` has the table of `disk`, but for record `fd`, which is `p`. -/
structure Replaces (disk disk' : Mem) (fd : Nat) (p : Mem) : Prop where
  same : entry disk' fd = trim p
  other : ∀ fd', fd' < 512 → fd' ≠ fd → entry disk' fd' = entry disk fd'

variable {index num : Nat} {f : Nat → Nat}

section Replaces

variable {disk disk' : Mem} {fd : Nat} {p : Mem}

theorem Replaces.putEntry (h : ∀ fd', fd' < 512 → entry disk' fd' = entry disk fd') (fd : Nat)
    (p : Mem) : Replaces disk (putEntry disk' fd p) fd p := by
  refine ⟨entry_putEntry_same .., ?_⟩
  intro fd' hfd' hne
  rw [entry_putEntry_ne _ _ _ _ hne, h fd' hfd']

/-- A record stored after the flags of an extent were moved. -/
theorem Replaces.putEntry_updateFlags (hrange : index + num ≤ 1024)
    (fd : Nat) (p : Mem) :
    Replaces disk (Rkss.putEntry (Rkss.updateFlags f num index disk) fd p) fd p :=
  .putEntry (fun _ hfd' => entry_updateFlags _ _ _ _ _ (.inl hrange) hfd') fd p

theorem Replaces.updateFlags (h : Replaces disk disk' fd p) (hfd : fd < 512)
    (hrange : index + num ≤ 1024 ∨ num = 0) :
    Replaces disk (updateFlags f num index disk') fd p := by
  refine ⟨?_, ?_⟩
  · rw [entry_updateFlags _ _ _ _ _ hrange hfd, h.same]
  · intro fd' hfd' hne
    rw [entry_updateFlags _ _ _ _ _ hrange hfd', h.other fd' hfd' hne]

theorem Replaces.storeData (h : Replaces disk disk' fd p) (hfd : fd < 512)
    (hi : 129 ≤ index) (data : Mem) (num lastw left : Nat) :
    Replaces disk (storeData data num index lastw left disk') fd p := by
  refine ⟨?_, ?_⟩
  · rw [entry_storeData _ _ _ _ _ _ _ hi hfd, h.same]
  · intro fd' hfd' hne
    rw [entry_storeData _ _ _ _ _ _ _ hi hfd', h.other fd' hfd' hne]

end Replaces

end Rkss
