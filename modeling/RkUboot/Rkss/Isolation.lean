import RkUboot.Rkss.RefCount

set_option autoImplicit false

/-! # A write leaves the other files alone

`Protected` is the coverage condition: the metadata sections and every section of a written file
have a non-zero flag. A write takes sections with flag zero, so it meets none of them; and it covers
its own new extent, so the condition holds again afterwards. The states reached by runs that keep
the reference counts meet the condition. -/

namespace Rkss

/-- Every section that holds metadata or file data has a non-zero flag. -/
structure Protected (disk : Mem) : Prop where
  metaFlags : ∀ s, s ≤ 128 → flag disk s ≠ 0
  extent : ∀ fd, fd < 512 → infoUsed (entry disk fd) ≠ 0 → 129 ≤ infoIndex (entry disk fd) →
    infoIndex (entry disk fd) + infoSize (entry disk fd) / 512 ≤ 1023 ∧
      ∀ s, infoIndex (entry disk fd) ≤ s →
        s ≤ infoIndex (entry disk fd) + infoSize (entry disk fd) / 512 → flag disk s ≠ 0

theorem Counted.isProtected {disk : Mem} {filled : List Nat} (h : Counted disk filled) :
    Protected disk := by
  refine ⟨fun s hs => Nat.ne_of_gt (h.flags s hs), ?_⟩
  intro fd hfd hused hi
  have hext := h.extent fd hfd hused hi
  refine ⟨hext, fun s hs hs' => ?_⟩
  rw [h.count s (by omega) (by omega)]
  exact Nat.ne_of_gt (refs_pos hfd ⟨hused, hs, hs'⟩)

/-! ## Reading -/

/-- The copy loop of `tee_fs_read` appends bytes of the extent. -/
theorem readSections_reliable (disk : Mem) (num index left di : Nat) (data : Mem)
    (hleft : left ≤ 512 * num) :
    readSections num index left di data (reliable disk)
      = (((di + left : Nat) : Int), data.copy di disk (512 * index) left, reliable disk) := by
  induction num generalizing index left di data with
  | zero =>
    obtain rfl : left = 0 := by omega
    rw [Mem.copy_zero]
    rfl
  | succ num ih =>
    obtain ⟨read, hread⟩ : ∃ read, read = if left > 512 then 512 else left := ⟨_, rfl⟩
    obtain ⟨rest, hrest, hlast⟩ : ∃ rest, left = read + rest ∧ read ≤ 512 ∧
        (read = 512 ∨ rest = 0) := by
      refine ⟨left - read, ?_⟩
      rw [hread]
      split <;> omega
    have hfirst : data.copy di (sectionOf disk index) 0 read
        = data.copy di disk (512 * index) read := by
      refine Mem.copy_congr _ _ _ _ _ (fun x hx => ?_)
      rw [Nat.zero_add, sectionOf_apply _ _ _ (by omega)]
    simp only [readSections, rkssReadSection_reliable, ← hread, hfirst]
    have hbytes : ∀ x < rest, disk (512 * (index + 1) + x) = disk (512 * index + read + x) :=
      fun x hx => congrArg disk (by omega)
    have hnext := Mem.copy_congr (data.copy di disk (512 * index) read) disk (di + read) _ _ hbytes
    rw [ih _ _ _ _ (by omega), hrest, Nat.add_sub_cancel_left, Nat.add_assoc, hnext, Mem.copy_add]

/-- What a file reads. -/
theorem teeFsRead_reliable (disk : Mem) (seek : Int) (filled : List Nat) (fd len : Nat)
    (data : Mem) :
    let p := entry disk fd
    teeFsRead ⟨reliable disk, seek, filled⟩ fd len data
      = if infoUsed p = 1 then
          (((min len (infoSize p) : Nat) : Int),
            data.copy 0 disk (512 * infoIndex p) (min len (infoSize p)), ⟨reliable disk, seek, filled⟩)
        else (-1, data, ⟨reliable disk, seek, filled⟩) := by
  intro p
  have hleft : (if len > infoSize p then infoSize p else len) = min len (infoSize p) := by
    split <;> omega
  unfold teeFsRead
  rw [rkssGetFileinfoByIndex_reliable]
  by_cases hused : infoUsed p = 1
  · have hread := readSections_reliable disk (len / 512 + 1) (infoIndex p) (min len (infoSize p)) 0
      data (by omega)
    rw [Nat.zero_add] at hread
    rw [if_pos hused, if_pos hused]
    simp only [p] at hleft hread ⊢
    simp only [hleft, hread]
  · rw [if_neg hused, if_neg hused]

/-- A file reads the same on two disks that agree on its record and its bytes. -/
theorem teeFsRead_congr {disk disk' : Mem} (seek seek' : Int) (filled filled' : List Nat)
    (fd len : Nat) (data : Mem) (hentry : entry disk' fd = entry disk fd)
    (h : disk.AgreeOn disk' (512 * infoIndex (entry disk fd))
      (512 * infoIndex (entry disk fd) + infoSize (entry disk fd))) :
    (teeFsRead ⟨reliable disk', seek', filled'⟩ fd len data).1
        = (teeFsRead ⟨reliable disk, seek, filled⟩ fd len data).1 ∧
      (teeFsRead ⟨reliable disk', seek', filled'⟩ fd len data).2.1
        = (teeFsRead ⟨reliable disk, seek, filled⟩ fd len data).2.1 := by
  rw [teeFsRead_reliable, teeFsRead_reliable, hentry,
    Mem.copy_congr _ disk' _ _ _ (fun x hx => (h _ (by omega) (by omega)).symm)]
  split <;> exact ⟨rfl, rfl⟩

/-! ## Writing -/

section Written

variable {disk : Mem} {fd len index : Nat} {data : Mem}
  (hrun : FreeRun disk (len / 512 + 1) index) (hP : Protected disk)

include hrun

/-- The write touches no byte of a section with a non-zero flag behind the metadata. -/
theorem writtenDisk_apply (hfd : fd < 512) (x : Nat) (hx : 66048 ≤ x)
    (hflag : flag disk (x / 512) ≠ 0) :
    writtenDisk disk fd len index data x = disk x := by
  have hout : x < 512 * index ∨ 512 * (index + (len / 512 + 1)) ≤ x := by
    by_contra hin
    exact hflag (hrun.2 _ (by omega) (by omega))
  have hle := entryAt_le fd hfd
  unfold writtenDisk
  rw [storeData_apply_out _ _ _ _ _ _ _ hout, putEntry,
    Mem.copy_apply_out (by omega), updateFlags_apply_out _ _ _ _ _ (.inl hrun.1) (by omega)]

include hP

theorem Protected.free_index : 129 ≤ index :=
  free_run_behind_metadata hP.metaFlags (Nat.succ_pos _) hrun.2

theorem flag_writtenDisk (hfd : fd < 512) (s : Nat) (hs : s < 1024) :
    flag (writtenDisk disk fd len index data) s
      = if index ≤ s ∧ s < index + (len / 512 + 1) then 1 else flag disk s := by
  unfold writtenDisk
  rw [flag_storeData _ _ _ _ _ _ (Protected.free_index hrun hP) s hs, flag_putEntry _ _ _ _ hfd hs,
    flag_updateFlags _ _ _ _ keeps4Bits_incref]
  split
  · next hin =>
    rw [hrun.2 s hin.1 hin.2]
    rfl
  · rfl

theorem entry_writtenDisk (fd' : Nat) (hfd' : fd' < 512) :
    entry (writtenDisk disk fd len index data) fd'
      = if fd' = fd then trim (writtenInfo (entry disk fd) len index) else entry disk fd' := by
  unfold writtenDisk
  rw [entry_storeData _ _ _ _ _ _ _ (Protected.free_index hrun hP) hfd']
  split
  · next he =>
    rw [he, entry_putEntry_same]
  · next hne =>
    rw [entry_putEntry_ne _ _ _ _ hne, entry_updateFlags _ _ _ _ _ (.inl hrun.1) hfd']

/-- The coverage condition is inductive. -/
theorem Protected.written (hfd : fd < 512) (hlen : len < 65536) :
    Protected (writtenDisk disk fd len index data) := by
  have hi := Protected.free_index hrun hP
  have hrange := hrun.1
  have hflag : ∀ s, s < 1024 → flag (writtenDisk disk fd len index data) s
      = if index ≤ s ∧ s < index + (len / 512 + 1) then 1 else flag disk s :=
    flag_writtenDisk hrun hP hfd
  refine ⟨?_, ?_⟩
  · intro s hs
    rw [hflag s (by omega), if_neg (by omega)]
    exact hP.metaFlags s hs
  intro fd' hfd'
  rw [entry_writtenDisk hrun hP fd' hfd']
  by_cases he : fd' = fd
  · obtain ⟨-, hindex, hsize⟩ := writtenInfo_fields (entry disk fd) len index
    rw [Nat.mod_eq_of_lt (by omega)] at hindex hsize
    rw [if_pos he]
    simp only [infoIndex_trim, infoSize_trim, hindex, hsize]
    intro _ _
    refine ⟨by omega, fun s hs hs' => ?_⟩
    rw [hflag s (by omega), if_pos (by omega)]
    exact Nat.one_ne_zero
  · rw [if_neg he]
    intro hused hidx
    obtain ⟨hext, hne⟩ := hP.extent fd' hfd' hused hidx
    refine ⟨hext, fun s hs hs' => ?_⟩
    rw [hflag s (by omega)]
    split
    · exact Nat.one_ne_zero
    · exact hne s hs hs'

end Written

/-- **A write that returns its length leaves what every other written file reads as it was, for
    reads of any length into any buffer, and keeps the coverage condition.** -/
theorem write_isolated (s s' : State) (hio : s.dev.script = []) (hP : Protected s.dev.disk)
    (fd len : Nat) (hfd : fd < 512) (hlen : len < 65536) (data : Mem)
    (h : teeFsWrite s fd len data = ((len : Int), s')) :
    (∀ fd', fd' < 512 → fd' ≠ fd → infoUsed (entry s.dev.disk fd') ≠ 0 →
      129 ≤ infoIndex (entry s.dev.disk fd') → ∀ (n : Nat) (buf : Mem),
        (teeFsRead s' fd' n buf).1 = (teeFsRead s fd' n buf).1 ∧
        (teeFsRead s' fd' n buf).2.1 = (teeFsRead s fd' n buf).2.1) ∧
    Protected s'.dev.disk := by
  obtain ⟨⟨disk, script⟩, seek, filled⟩ := s
  obtain rfl : script = [] := hio
  simp only at hP
  rcases teeFsWrite_cases disk seek filled fd len data with
    hfail | ⟨n, index, hn, -, -, hrun, hw⟩
  · -- a failed write returns -1, not its length
    have hret := congrArg Prod.fst (h.symm.trans hfail)
    omega
  · obtain rfl : fd = n := by omega
    obtain rfl := congrArg Prod.snd (h.symm.trans hw)
    refine ⟨?_, Protected.written hrun hP hfd hlen⟩
    intro fd' hfd' hne hused hidx n buf
    simp only at hused hidx
    obtain ⟨hext, hflags⟩ := hP.extent fd' hfd' hused hidx
    apply teeFsRead_congr
    · exact (entry_writtenDisk hrun hP fd' hfd').trans (if_neg hne)
    · intro x hx hx'
      exact (writtenDisk_apply hrun hfd x (by omega)
        (hflags _ (by omega) (by omega))).symm

/-- A file of two sections is written, a second one is created and then written: the first one
    reads as before. -/
theorem write_isolated_second_file :
    ∃ s, Run.exec step start [.fsOpen fileA 8 0, .fsWrite 0 600 Mem.zero, .fsOpen fileB 8 0]
        = some s ∧
      infoUsed (entry s.dev.disk 0) ≠ 0 ∧ infoIndex (entry s.dev.disk 0) = 129 ∧
      (teeFsWrite s 1 5 Mem.zero).1 = 5 ∧
      (teeFsRead (teeFsWrite s 1 5 Mem.zero).2 0 600 Mem.zero).2.1
        = (teeFsRead s 0 600 Mem.zero).2.1 ∧
      Protected (teeFsWrite s 1 5 Mem.zero).2.dev.disk := by
  obtain ⟨disk, seek, filled, hexec, hI⟩ := run_counted
    [.fsOpen fileA 8 0, .fsWrite 0 600 Mem.zero, .fsOpen fileB 8 0]
    (by rw [start_eq]; decide +kernel)
  have heval : (Run.exec step start [.fsOpen fileA 8 0, .fsWrite 0 600 Mem.zero,
      .fsOpen fileB 8 0]).map (fun s => (infoUsed (entry s.dev.disk 0),
        infoIndex (entry s.dev.disk 0), (teeFsWrite s 1 5 Mem.zero).1)) = some (1, 129, 5) := by
    rw [start_eq]
    decide +kernel
  rw [hexec, Option.map_some] at heval
  obtain ⟨hused, hrest⟩ := Prod.mk.inj (Option.some.inj heval)
  obtain ⟨hindex, hret⟩ := Prod.mk.inj hrest
  have hused' : infoUsed (entry disk 0) ≠ 0 := by
    rw [hused]
    decide
  obtain ⟨hread, hP⟩ := write_isolated ⟨reliable disk, seek, filled⟩ _ rfl hI.isProtected 1 5
    (by decide) (by decide) Mem.zero (Prod.ext hret rfl)
  exact ⟨_, hexec, hused', hindex, hret,
    (hread 0 (by decide) (by decide) hused' (by rw [hindex]) 600 Mem.zero).2, hP⟩

end Rkss
