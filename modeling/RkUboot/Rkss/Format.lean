import RkUboot.Rkss.Disk

set_option autoImplicit false

/-! # Formatting (`tee_supp_rk_fs_init`)

Without I/O errors the initialisation works section by section: `formatDisk` is the disk it leaves,
and a table section of that disk is `formatSection` of the one before. The `memset` in
`rkss_verify_ptable` clears the size of an `int` instead of a section, so of the four records of a
section without a valid trailer only the first is cleared; the others are free exactly when they
were free before. -/

namespace Rkss

/-! ## Section by section -/

/-- A table section after `rkss_verify_ptable` found no valid trailer. -/
def resetSection (data : Mem) : Mem := ((data.fill 0 0 4).set32 508 0x12345678).set32 504 0x1

/-- A table section after `rkss_verify_ptable`. -/
def formatSection (data : Mem) : Mem := if validTrailer data then data else resetSection data

/-- The flags of the metadata sections are all 1, as `rkss_verify_usedflags` wants them. -/
def flagsInitialised (data : Mem) : Bool :=
  (List.range (128 + 1)).all (fun i => data.nib 0 i == 0x1)

/-- The used-flags section after `rkss_verify_usedflags`. -/
def formatFlags (data : Mem) : Mem :=
  if flagsInitialised data then data else initUsedflags (data.fill 0 0x00 512) (128 + 1) 0

/-- The table loop on the disk. -/
def formatTable : Nat → Nat → Mem → Mem
  | 0, _, disk => disk
  | k + 1, i, disk =>
    formatTable k (i + 1) (disk.copy (512 * i) (formatSection (sectionOf disk i)) 0 512)

/-- The disk `tee_supp_rk_fs_init` leaves. -/
def formatDisk (disk : Mem) : Mem :=
  let table := formatTable 128 0 disk
  table.copy (512 * 128) (formatFlags (sectionOf table 128)) 0 512

variable (disk : Mem) (i j k : Nat)

variable (data : Mem) (x : Nat) (s : Nat) (n : Nat)

/-- Writing a section back as it was read changes nothing. -/
theorem copy_section_self : disk.copy (512 * i) (sectionOf disk i) 0 512 = disk := by
  funext x
  by_cases hx : 512 * i ≤ x ∧ x < 512 * i + 512
  · rw [Mem.copy_apply_in hx.1 hx.2, sectionOf_apply _ _ _ (by omega)]
    exact congrArg disk (by omega)
  · rw [Mem.copy_apply_out (by omega)]

theorem sectionOf_copy_ne (h : i ≠ j) :
    sectionOf (disk.copy (512 * j) data 0 512) i = sectionOf disk i := by
  funext x
  unfold sectionOf
  by_cases hx : x < 512
  · simp (disch := omega) only [Mem.copy_apply_in]
    exact Mem.copy_apply_out (by omega)
  · simp (disch := omega) only [Mem.copy_apply_out]

theorem sectionOf_copy_same (h : ∀ x, 512 ≤ x → data x = 0) :
    sectionOf (disk.copy (512 * i) data 0 512) i = data := by
  funext x
  by_cases hx : x < 512
  · rw [sectionOf_apply _ _ _ hx, Mem.copy_apply_in (by omega) (by omega)]
    exact congrArg data (by omega)
  · rw [sectionOf, Mem.copy_apply_out (by omega), h x (not_lt.1 hx)]
    rfl

theorem sectionOf_beyond (h : 512 ≤ x) : sectionOf disk i x = 0 :=
  Mem.copy_apply_out (by omega)

theorem formatSection_beyond (h : 512 ≤ x) : formatSection (sectionOf disk i) x = 0 := by
  unfold formatSection resetSection
  split
  · exact sectionOf_beyond disk i x h
  · rw [Mem.set32_apply_ne (by omega), Mem.set32_apply_ne (by omega),
      Mem.fill_apply_out (by omega), sectionOf_beyond disk i x h]

theorem initUsedflags_beyond (n x : Nat) (hn : n + k ≤ 1024) (h : 512 ≤ x) :
    initUsedflags data k n x = data x := by
  induction k generalizing data n with
  | zero => rfl
  | succ k ih =>
    rw [initUsedflags, ih _ _ (by omega)]
    exact Mem.setNib_apply_ne _ _ _ _ _ (by omega)

theorem formatFlags_beyond (h : 512 ≤ x) : formatFlags (sectionOf disk i) x = 0 := by
  unfold formatFlags
  split
  · exact sectionOf_beyond disk i x h
  · rw [initUsedflags_beyond _ _ _ _ (by omega) h, Mem.fill_apply_out (by omega),
      sectionOf_beyond disk i x h]

theorem verifySections_reliable (h : i + k ≤ 128) :
    verifySections k i (reliable disk) = (true, reliable (formatTable k i disk)) := by
  induction k generalizing i disk with
  | zero => rfl
  | succ k ih =>
    have hstep : rkssVerifyPtable (reliable disk) i (sectionOf disk i)
        = (true, reliable (disk.copy (512 * i) (formatSection (sectionOf disk i)) 0 512)) := by
      unfold rkssVerifyPtable formatSection
      rw [if_neg (by omega)]
      split
      · rw [copy_section_self]
      · exact rkssWriteSection_reliable ..
    simp only [verifySections, rkssReadSection_reliable, hstep, formatTable]
    exact ih _ _ (by omega)

/-- **Without I/O errors the initialisation succeeds and leaves `formatDisk`.** -/
theorem teeSuppRkFsInit_reliable :
    teeSuppRkFsInit (reliable disk) = (0, reliable (formatDisk disk)) := by
  have hflags : ∀ table : Mem, rkssVerifyUsedflags (reliable table) 128 (sectionOf table 128)
      = (true, reliable (table.copy (512 * 128) (formatFlags (sectionOf table 128)) 0 512)) := by
    intro table
    unfold rkssVerifyUsedflags formatFlags flagsInitialised
    split
    · rw [copy_section_self]
    · exact rkssWriteSection_reliable ..
  unfold teeSuppRkFsInit
  simp only [verifySections_reliable disk 0 128 (by omega), rkssReadSection_reliable, hflags]
  rfl

theorem sectionOf_formatTable :
    sectionOf (formatTable k i disk) j
      = if i ≤ j ∧ j < i + k then formatSection (sectionOf disk j) else sectionOf disk j := by
  induction k generalizing i disk with
  | zero =>
    rw [if_neg (by omega)]
    rfl
  | succ k ih =>
    rw [formatTable, ih]
    by_cases hj : j = i
    · subst hj
      rw [if_neg (by omega), if_pos (by omega)]
      exact sectionOf_copy_same _ _ _ (formatSection_beyond disk j)
    · rw [sectionOf_copy_ne _ _ _ _ hj]
      exact if_congr (by omega) rfl rfl

theorem sectionOf_formatDisk (h : i < 128) :
    sectionOf (formatDisk disk) i = formatSection (sectionOf disk i) := by
  unfold formatDisk
  rw [sectionOf_copy_ne _ _ _ _ (by omega), sectionOf_formatTable, if_pos (by omega)]

theorem flagsOf_formatDisk : sectionOf (formatDisk disk) 128 = formatFlags (sectionOf disk 128) := by
  unfold formatDisk
  rw [sectionOf_copy_same _ _ _ (formatFlags_beyond _ _), sectionOf_formatTable,
    if_neg (by omega)]

/-- The data sections are not touched. -/
theorem dataOf_formatDisk (h : 128 < i) : sectionOf (formatDisk disk) i = sectionOf disk i := by
  unfold formatDisk
  rw [sectionOf_copy_ne _ _ _ _ (by omega), sectionOf_formatTable, if_neg (by omega)]

/-! ## What formatting establishes -/

theorem validTrailer_resetSection : validTrailer (resetSection data) = true := by
  unfold validTrailer resetSection
  rw [Mem.u32_set32_same, Mem.u32_set32_ne _ _ _ _ (by omega), Mem.u32_set32_same]
  rfl

theorem validTrailer_formatSection : validTrailer (formatSection data) = true := by
  unfold formatSection
  split
  · assumption
  · exact validTrailer_resetSection data

/-- The byte that makes a record used survives the reset, except in the first record. -/
theorem resetSection_used (h : n < 4) :
    resetSection data (126 * n) = if n = 0 then 0 else data (126 * n) := by
  unfold resetSection
  rw [Mem.set32_apply_ne (by omega), Mem.set32_apply_ne (by omega)]
  split
  · exact Mem.fill_apply_in (by omega) (by omega)
  · exact Mem.fill_apply_out (by omega)

theorem nib_initUsedflags (n s : Nat) :
    (initUsedflags data k n).nib 0 s = if n ≤ s ∧ s < n + k then 1 else data.nib 0 s := by
  induction k generalizing data n with
  | zero =>
    rw [if_neg (by omega)]
    rfl
  | succ k ih =>
    rw [initUsedflags, ih]
    by_cases hs : s = n
    · subst hs
      rw [if_neg (by omega), if_pos (by omega), Mem.nib_setNib_same _ _ _ _ (by omega)]
    · rw [Mem.nib_setNib_ne _ _ _ _ _ hs]
      exact if_congr (by omega) rfl rfl

theorem nib_cleared (h : s < 1024) : (data.fill 0 0 512).nib 0 s = 0 := by
  rw [Mem.nib_eq, Mem.fill_apply_in (by omega) (by omega)]
  simp

theorem flagsInitialised_iff :
    flagsInitialised (sectionOf disk 128) = true ↔ ∀ s, s ≤ 128 → flag disk s = 1 := by
  unfold flagsInitialised
  simp only [List.all_eq_true, List.mem_range, beq_iff_eq]
  constructor
  · intro h s hs
    rw [← nib_section _ _ (by omega)]
    exact h s (by omega)
  · intro h s hs
    rw [nib_section _ _ (by omega)]
    exact h s (by omega)

/-- The flags after formatting: kept when the metadata flags were all 1, and otherwise 1 for the
    metadata sections and 0 for the others. -/
theorem flag_formatDisk (h : s < 1024) :
    flag (formatDisk disk) s
      = if flagsInitialised (sectionOf disk 128) then flag disk s else if s ≤ 128 then 1 else 0 := by
  rw [← nib_section _ _ h, flagsOf_formatDisk, formatFlags]
  split
  · exact nib_section _ _ h
  · rw [nib_initUsedflags, nib_cleared _ _ h]
    exact if_congr (by omega) rfl rfl

/-- What formatting `disk` to `disk'` is for. -/
structure Formatted (disk disk' : Mem) : Prop where
  trailer : ∀ i, i < 128 → validTrailer (sectionOf disk' i) = true
  unused : ∀ i, i < 128 → validTrailer (sectionOf disk i) = false →
    ∀ n, n < 4 → infoUsed (entry disk' (i * 4 + n)) = 0
  metaFlags : ∀ s, s ≤ 128 → flag disk' s = 1
  dataFlags : (∃ s, s ≤ 128 ∧ flag disk s ≠ 1) → ∀ s, 129 ≤ s → s < 1024 → flag disk' s = 0

theorem metaFlags_formatDisk (h : s ≤ 128) : flag (formatDisk disk) s = 1 := by
  rw [flag_formatDisk _ _ (by omega), if_pos h]
  split
  · next hf => exact (flagsInitialised_iff disk).1 hf s h
  · rfl

/-- The records of a section without a valid trailer, after formatting. -/
theorem infoUsed_formatDisk (hi : i < 128) (hn : n < 4)
    (hv : validTrailer (sectionOf disk i) = false) :
    infoUsed (entry (formatDisk disk) (i * 4 + n))
      = if n = 0 then 0 else infoUsed (entry disk (i * 4 + n)) := by
  rw [infoUsed_section _ _ _ hn, infoUsed_section _ _ _ hn, sectionOf_formatDisk _ _ hi,
    formatSection, hv]
  exact resetSection_used _ _ hn

/-- **The initialisation returns 0, and it formats the storage if and only if the second, third and
    fourth record of every table section without a valid trailer were free already.** -/
theorem init_formats_iff (disk : Mem) :
    (teeSuppRkFsInit (reliable disk)).1 = 0 ∧
    (Formatted disk (teeSuppRkFsInit (reliable disk)).2.disk ↔
      ∀ i, i < 128 → validTrailer (sectionOf disk i) = false →
        ∀ n, 1 ≤ n → n < 4 → infoUsed (entry disk (i * 4 + n)) = 0) := by
  rw [teeSuppRkFsInit_reliable]
  refine ⟨rfl, ?_, ?_⟩
  · intro hF i hi hv n hn hn'
    have hu := hF.unused i hi hv n hn'
    rwa [infoUsed_formatDisk disk i n hi hn' hv, if_neg (by omega)] at hu
  · intro hfree
    refine ⟨?_, ?_, metaFlags_formatDisk disk, ?_⟩
    · intro i hi
      rw [sectionOf_formatDisk _ _ hi]
      exact validTrailer_formatSection _
    · intro i hi hv n hn
      rw [infoUsed_formatDisk disk i n hi hn hv]
      split
      · rfl
      · exact hfree i hi hv n (by omega) hn
    · intro ⟨s₀, hs₀, hne⟩ s hs hs'
      have hf : flagsInitialised (sectionOf disk 128) ≠ true :=
        fun hf => hne ((flagsInitialised_iff disk).1 hf s₀ hs₀)
      rw [flag_formatDisk _ _ hs', if_neg hf, if_neg (by omega)]

/-- A storage of zeros but for one byte, the `used` byte of the second record of section 0: that
    section has no valid trailer, and after the initialisation its second record is used. -/
theorem stale_record_survives_init :
    ¬ Formatted (Mem.zero.set8 126 1)
      (teeSuppRkFsInit (reliable (Mem.zero.set8 126 1))).2.disk := by
  intro h
  have hused := h.unused 0 (by decide) (by decide) 1 (by decide)
  rw [teeSuppRkFsInit_reliable, infoUsed_formatDisk _ 0 1 (by decide) (by decide) (by decide)]
    at hused
  cases hused

end Rkss
