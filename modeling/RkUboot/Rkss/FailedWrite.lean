import RkUboot.Rkss.Isolation

set_option autoImplicit false

/-! # Writes that fail

`tee_fs_write` updates the used flags, then the table, then the data, and returns -1 at the first
transfer that fails, without taking anything back. So a failed write is invisible exactly when it
ends before its first write to the used-flags section has reached the medium (`StopsEarly`). -/

namespace Rkss

variable (disk : Mem) (script : List IoResult)

theorem rkssGetEmptySection_scripted (num : Nat) :
    rkssGetEmptySectionFromUsedflags ⟨disk, script⟩ num
      = (if outcome script 0 = .ok then (rkssGetEmptySectionFromUsedflags (reliable disk) num).1
          else -1, ⟨disk, script.tail⟩) := by
  unfold rkssGetEmptySectionFromUsedflags
  rw [rkssReadSection_scripted, rkssReadSection_reliable]
  by_cases hok : outcome script 0 = .ok
  · simp only [if_pos hok]
    cases emptyRun (sectionOf disk 128) num 1024 0 0 <;> rfl
  · simp only [if_neg hok]

/-! ## What later transfers cannot undo -/

/-- Whatever fails, the loop over an extent leaves the flags in front of the extent. -/
theorem flag_updateExtent (f : Nat → Nat) (num index : Nat) (dev : BlockDev) (s : Nat)
    (hs : s < index) :
    flag (updateExtent (updateUsedflag f) num index dev).2.disk s = flag dev.disk s := by
  induction num generalizing index dev with
  | zero => rfl
  | succ num ih =>
    have hstep : flag (updateUsedflag f dev index).2.disk s = flag dev.disk s := by
      obtain ⟨disk, script⟩ := dev
      by_cases hi : index < 1024
      · rw [updateUsedflag_scripted _ _ _ _ hi]
        split
        · split
          · exact Mem.nib_setNib_ne _ _ _ _ _ (by omega)
          · rfl
        · rfl
      · rw [updateUsedflag, if_pos (by omega)]
    rw [updateExtent]
    generalize updateUsedflag f dev index = r at hstep ⊢
    obtain ⟨ok, dev'⟩ := r
    cases ok with
    | false => exact hstep
    | true => exact (ih (index + 1) dev' (by omega)).trans hstep

theorem flag_rkssWriteSection (dev : BlockDev) {i : Nat} (hi : i ≠ 128) (data : Mem) {s : Nat}
    (hs : s < 1024) : flag (rkssWriteSection dev i data).2.disk s = flag dev.disk s := by
  obtain ⟨disk, script⟩ := dev
  rw [rkssWriteSection_scripted]
  split
  · apply flag_congr _ _ hs
    intro x hx hx'
    exact Mem.copy_apply_out (by omega)
  · rfl

theorem flag_rkssWriteBackPtable (dev : BlockDev) {fd : Nat} (p : Mem) (hfd : fd < 512) {s : Nat}
    (hs : s < 1024) : flag (rkssWriteBackPtable dev fd p).2.disk s = flag dev.disk s := by
  obtain ⟨disk, script⟩ := dev
  unfold rkssWriteBackPtable
  rw [rkssReadSection_scripted]
  by_cases hok : outcome script 0 = .ok
  · simp only [if_pos hok]
    exact flag_rkssWriteSection ⟨disk, script.tail⟩ (by omega) _ hs
  · simp only [if_neg hok]

theorem flag_writeSections (data : Mem) (num index lastw left : Nat) (st : State)
    (hi : 129 ≤ index) {s : Nat} (hs : s < 1024) :
    flag (writeSections data num index lastw left st).2.dev.disk s = flag st.dev.disk s := by
  induction num generalizing index lastw left st with
  | zero => rfl
  | succ num ih =>
    have hstep := flag_rkssWriteSection st.dev (i := index) (by omega)
      (Mem.zero.copy 0 data lastw (if left > 512 then 512 else left)) hs
    simp only [writeSections]
    generalize rkssWriteSection st.dev index _ = r at hstep ⊢
    obtain ⟨ok, dev⟩ := r
    cases ok with
    | false => exact hstep
    | true => exact (ih _ _ _ _ (by omega)).trans hstep

/-! ## The search -/

/-- There are `num` consecutive sections with flag zero. -/
def HasRoom (disk : Mem) (num : Nat) : Prop :=
  ∃ index, index + num ≤ 1024 ∧ ∀ s, index ≤ s → s < index + num → flag disk s = 0

theorem rkssGetEmptySection_of_room {num : Nat} (hnum : 0 < num) (h : HasRoom disk num) :
    ∃ index, FreeRun disk num index ∧
      (rkssGetEmptySectionFromUsedflags (reliable disk) num).1 = (index : Int) := by
  rcases rkssGetEmptySection_reliable disk num hnum with ⟨hnone, -⟩ | ⟨index, hidx, -, he⟩
  · obtain ⟨r, hr⟩ := h
    exact absurd hr (hnone r)
  · exact ⟨index, hidx, by rw [he]⟩

theorem rkssGetEmptySection_of_no_room {num : Nat} (hnum : 0 < num) (h : ¬ HasRoom disk num) :
    (rkssGetEmptySectionFromUsedflags (reliable disk) num).1 = -10 := by
  rcases rkssGetEmptySection_reliable disk num hnum with ⟨-, he⟩ | ⟨index, hidx, -⟩
  · rw [he]
  · exact absurd ⟨index, hidx⟩ h

/-! ## Failed writes -/

/-- The write of `len` bytes to `fd` ends before a change of the used flags reaches the medium: the
    descriptor is not that of a used file, there is no room, or one of the first four transfers (the
    table section, the used flags for the search, the used flags for the first update and their
    write) fails. -/
def StopsEarly (s : State) (fd : Int) (len : Nat) : Prop :=
  fd < 0 ∨ outcome s.dev.script 0 ≠ .ok ∨ infoUsed (entry s.dev.disk fd.toNat) ≠ 1 ∨
    outcome s.dev.script 1 ≠ .ok ∨ ¬ HasRoom s.dev.disk (len / 512 + 1) ∨
    outcome s.dev.script 2 ≠ .ok ∨ lands (outcome s.dev.script 3) = false

/-- A negative result of the search becomes a section number outside the partition. -/
theorem infoIndex_written_neg (p : Mem) (len : Nat) (empty : Int) (h : empty = -1 ∨ empty = -10) :
    1024 ≤ infoIndex (writtenInfo p len empty) := by
  unfold infoIndex writtenInfo
  rw [Mem.u16_set8_ne _ _ _ _ (by omega), Mem.u16_set16_same]
  rcases h with rfl | rfl <;> decide

section Scripted

variable (seek : Int) (filled : List Nat) (fd : Int) (len : Nat) (data : Mem)

/-- Without a section for the data nothing happens. -/
theorem teeFsWrite_nowhere
    (h : fd < 0 ∨ outcome script 0 ≠ .ok ∨ infoUsed (entry disk fd.toNat) ≠ 1 ∨
      outcome script 1 ≠ .ok ∨ ¬ HasRoom disk (len / 512 + 1)) :
    (teeFsWrite ⟨⟨disk, script⟩, seek, filled⟩ fd len data).2.dev.disk = disk := by
  unfold teeFsWrite
  split
  · rfl
  next hneg =>
  simp only [rkssGetFileinfoByIndex_scripted]
  by_cases hinfo : outcome script 0 = .ok ∧ infoUsed (entry disk fd.toNat) = 1
  · have hempty : (rkssGetEmptySectionFromUsedflags ⟨disk, script.tail⟩ (len / 512 + 1)).1 = -1 ∨
        (rkssGetEmptySectionFromUsedflags ⟨disk, script.tail⟩ (len / 512 + 1)).1 = -10 := by
      rw [rkssGetEmptySection_scripted, outcome_tail]
      by_cases hok : outcome script 1 = .ok
      · have hroom : ¬ HasRoom disk (len / 512 + 1) := by tauto
        rw [if_pos hok, rkssGetEmptySection_of_no_room disk (Nat.succ_pos _) hroom]
        exact .inr rfl
      · rw [if_neg hok]
        exact .inl rfl
    have hdev : (rkssGetEmptySectionFromUsedflags ⟨disk, script.tail⟩ (len / 512 + 1)).2.disk
        = disk := by
      rw [rkssGetEmptySection_scripted]
    have hindex := infoIndex_written_neg (entry disk fd.toNat) len _ hempty
    simp only [if_pos hinfo, updateExtent, rkssIncrefUsedflagsSection, updateUsedflag,
      if_pos hindex, hdev]
  · simp only [if_neg hinfo]

/-- With a section for the data, the used flags are updated first; the rest leaves them alone. -/
theorem teeFsWrite_somewhere (n : Nat) (hok : outcome script 0 = .ok)
    (hused : infoUsed (entry disk n) = 1) (hok' : outcome script 1 = .ok)
    (hroom : HasRoom disk (len / 512 + 1)) :
    ∃ index, FreeRun disk (len / 512 + 1) index ∧
      let u := updateExtent (updateUsedflag incref) (len / 512 + 1) index ⟨disk, script.tail.tail⟩
      let w := teeFsWrite ⟨⟨disk, script⟩, seek, filled⟩ n len data
      (u.1 = false → w.2.dev = u.2) ∧
        (n < 512 → 129 ≤ index → ∀ s < 1024, flag w.2.dev.disk s = flag u.2.disk s) := by
  obtain ⟨index, hrun, he⟩ := rkssGetEmptySection_of_room disk (Nat.succ_pos _) hroom
  have hrange := hrun.1
  obtain ⟨-, hindex, hsize⟩ := writtenInfo_fields (entry disk n) len index
  rw [Nat.mod_eq_of_lt (by omega)] at hindex
  refine ⟨index, hrun, ?_⟩
  unfold teeFsWrite
  rw [if_neg (by omega)]
  simp only [rkssGetFileinfoByIndex_scripted, Int.toNat_natCast, if_pos (And.intro hok hused),
    rkssGetEmptySection_scripted disk script.tail, outcome_tail, if_pos hok', he,
    rkssIncrefUsedflagsSection, hindex, hsize]
  generalize updateExtent _ _ index _ = u
  obtain ⟨ok, dev⟩ := u
  cases ok with
  | false => exact ⟨fun _ => rfl, fun _ _ _ _ => rfl⟩
  | true =>
    refine ⟨fun h => absurd h.symm Bool.false_ne_true, fun hn hi s hs => ?_⟩
    have htable := flag_rkssWriteBackPtable dev (writtenInfo (entry disk n) len index) hn hs
    simp only
    generalize rkssWriteBackPtable dev n _ = t at htable ⊢
    obtain ⟨ok, dev'⟩ := t
    cases ok with
    | false => exact htable
    | true =>
      have hdata := flag_writeSections data (len / 512 + 1) index 0 (len % 65536)
        ⟨dev', seek, filled⟩ hi hs
      simp only
      generalize writeSections data _ index _ _ _ = d at hdata ⊢
      obtain ⟨ok, s'⟩ := d
      cases ok <;> exact hdata.trans htable

end Scripted

theorem StopsEarly.disk_eq {s : State} {fd : Int} {len : Nat} (h : StopsEarly s fd len)
    (data : Mem) : (teeFsWrite s fd len data).2.dev.disk = s.dev.disk := by
  obtain ⟨⟨disk, script⟩, seek, filled⟩ := s
  by_cases hsome : fd < 0 ∨ outcome script 0 ≠ .ok ∨ infoUsed (entry disk fd.toNat) ≠ 1 ∨
      outcome script 1 ≠ .ok ∨ ¬ HasRoom disk (len / 512 + 1)
  · exact teeFsWrite_nowhere disk script seek filled fd len data hsome
  -- the first update of the used flags fails
  have hflags : outcome script 2 ≠ .ok ∨ lands (outcome script 3) = false := by
    unfold StopsEarly at h
    tauto
  obtain ⟨n, rfl⟩ : ∃ n : Nat, fd = n := ⟨fd.toNat, by omega⟩
  simp only [not_or, not_not, Int.toNat_natCast] at hsome
  obtain ⟨-, hok, hused, hok', hroom⟩ := hsome
  obtain ⟨index, ⟨hrange, -⟩, hstop, -⟩ :=
    teeFsWrite_somewhere disk script seek filled len data n hok hused hok' hroom
  rw [updateExtent, updateUsedflag_scripted _ _ _ _ (by omega)] at hstop
  simp only [outcome_tail] at hstop
  by_cases hread : outcome script 2 = .ok
  · have hland := hflags.resolve_left (not_not.2 hread)
    have hfail : outcome script 3 ≠ .ok := by
      intro hok3
      rw [hok3] at hland
      cases hland
    simp only [if_pos hread, hland, decide_eq_false hfail] at hstop
    rw [hstop trivial]
    rfl
  · simp only [if_neg hread] at hstop
    rw [hstop trivial]

/-- Otherwise the flag of a free section is set, and stays so. -/
theorem teeFsWrite_sets_flag {s : State} {fd : Int} {len : Nat} (h : ¬ StopsEarly s fd len)
    (hflags : ∀ i, i ≤ 128 → flag s.dev.disk i ≠ 0) (hfd : fd < 512) (data : Mem) :
    ∃ i, i < 1024 ∧ flag s.dev.disk i = 0 ∧
      flag (teeFsWrite s fd len data).2.dev.disk i = 1 := by
  obtain ⟨⟨disk, script⟩, seek, filled⟩ := s
  unfold StopsEarly at h
  simp only [not_or, not_not, Bool.not_eq_false] at h
  obtain ⟨hneg, hok, hused, hok', hroom, hread, hland⟩ := h
  obtain ⟨n, rfl⟩ : ∃ n : Nat, fd = n := ⟨fd.toNat, by omega⟩
  rw [Int.toNat_natCast] at hused
  obtain ⟨index, ⟨hrange, hfree⟩, -, hflag⟩ :=
    teeFsWrite_somewhere disk script seek filled len data n hok hused hok' hroom
  have hi : 129 ≤ index := free_run_behind_metadata hflags (Nat.succ_pos _) hfree
  have hzero := hfree index le_rfl (by omega)
  refine ⟨index, by omega, hzero, ?_⟩
  have hset : flag (disk.setNib 65536 index (incref (flag disk index))) index = 1 := by
    rw [hzero]
    exact Mem.nib_setNib_same _ _ _ _ (by decide)
  -- the loop over the extent sets the flag first and does not come back to it
  have hloop : flag (updateExtent (updateUsedflag incref) (len / 512 + 1) index
      ⟨disk, script.tail.tail⟩).2.disk index = 1 := by
    rw [updateExtent, updateUsedflag_scripted _ _ _ _ (by omega)]
    simp only [outcome_tail, if_pos hread, hland, if_true]
    by_cases hok3 : outcome script 3 = .ok
    · simp only [decide_eq_true hok3]
      rw [flag_updateExtent _ _ _ _ _ (Nat.lt_succ_self index)]
      exact hset
    · simp only [decide_eq_false hok3]
      exact hset
  exact (hflag (by omega) hi index (by omega)).trans hloop

/-- **Whichever transfers fail: a write, be its result -1 or not, leaves what every used file reads
    and the used-flags section as they were if and only if it ends before a change of the used flags
    reaches the medium.** The files are read on a device that works again. -/
theorem failed_write_invisible_iff (s : State) (hflags : ∀ i, i ≤ 128 → flag s.dev.disk i ≠ 0)
    (fd : Int) (hfd : fd < 512) (len : Nat) (data : Mem) :
    ((∀ fd', fd' < 512 → infoUsed (entry s.dev.disk fd') ≠ 0 → ∀ (n : Nat) (buf : Mem),
        (teeFsRead { (teeFsWrite s fd len data).2 with
            dev := reliable (teeFsWrite s fd len data).2.dev.disk } fd' n buf).1
          = (teeFsRead { s with dev := reliable s.dev.disk } fd' n buf).1 ∧
        (teeFsRead { (teeFsWrite s fd len data).2 with
            dev := reliable (teeFsWrite s fd len data).2.dev.disk } fd' n buf).2.1
          = (teeFsRead { s with dev := reliable s.dev.disk } fd' n buf).2.1) ∧
      sectionOf (teeFsWrite s fd len data).2.dev.disk 128 = sectionOf s.dev.disk 128) ↔
    StopsEarly s fd len := by
  constructor
  · rintro ⟨-, hsection⟩
    by_contra hnot
    obtain ⟨i, hi, hbefore, hafter⟩ := teeFsWrite_sets_flag hnot hflags hfd data
    rw [← nib_section _ _ hi, hsection, nib_section _ _ hi, hbefore] at hafter
    cases hafter
  · intro hstop
    rw [hstop.disk_eq data]
    refine ⟨?_, rfl⟩
    intro fd' _ _ n buf
    exact teeFsRead_congr _ _ _ _ fd' n buf rfl (fun _ _ _ => rfl)

/-- The write of the used flags fails: the result is -1, and nothing has changed. -/
theorem failed_write_invisible_iff_flags_write :
    ∃ disk seek filled, Run.exec step start [.fsOpen fileA 8 0]
        = some ⟨reliable disk, seek, filled⟩ ∧
      (teeFsWrite ⟨⟨disk, [.ok, .ok, .ok, .fail]⟩, seek, filled⟩ 0 5 Mem.zero).1 = -1 ∧
      sectionOf (teeFsWrite ⟨⟨disk, [.ok, .ok, .ok, .fail]⟩, seek, filled⟩ 0 5
        Mem.zero).2.dev.disk 128 = sectionOf disk 128 := by
  obtain ⟨disk, seek, filled, hexec, hI⟩ := run_counted [.fsOpen fileA 8 0]
    (by rw [start_eq]; decide +kernel)
  have heval : (Run.exec step start [.fsOpen fileA 8 0]).map (fun s =>
      (teeFsWrite { s with dev := ⟨s.dev.disk, [.ok, .ok, .ok, .fail]⟩ } 0 5 Mem.zero).1)
        = some (-1) := by
    rw [start_eq]
    decide +kernel
  rw [hexec, Option.map_some] at heval
  have hinvisible := (failed_write_invisible_iff ⟨⟨disk, [.ok, .ok, .ok, .fail]⟩, seek, filled⟩
    hI.isProtected.metaFlags 0 (by decide) 5 Mem.zero).2
      (.inr (.inr (.inr (.inr (.inr (.inr rfl))))))
  exact ⟨disk, seek, filled, hexec, Option.some.inj heval, hinvisible.2⟩

/-- The write of the data fails: the result is -1, section 130 is in use, and the file reads zeros
    instead of its five bytes. -/
theorem failed_write_replaces_file :
    ∃ disk seek filled, Run.exec step start [.fsOpen fileA 8 0, .fsWrite 0 5 (fun _ => 7)]
        = some ⟨reliable disk, seek, filled⟩ ∧ Protected disk ∧
      (teeFsRead ⟨reliable disk, seek, filled⟩ 0 5 Mem.zero).2.1.bytes 0 5 = [7, 7, 7, 7, 7] ∧
      (teeFsWrite ⟨⟨disk, List.replicate 6 .ok ++ [.fail]⟩, seek, filled⟩ 0 5 (fun _ => 9)).1 = -1 ∧
      flag disk 130 = 0 ∧
      flag (teeFsWrite ⟨⟨disk, List.replicate 6 .ok ++ [.fail]⟩, seek, filled⟩ 0 5
        (fun _ => 9)).2.dev.disk 130 = 1 ∧
      (teeFsRead (teeFsWrite ⟨⟨disk, List.replicate 6 .ok ++ [.fail]⟩, seek, filled⟩ 0 5
        (fun _ => 9)).2 0 5 Mem.zero).2.1.bytes 0 5 = [0, 0, 0, 0, 0] := by
  obtain ⟨disk, seek, filled, hexec, hI⟩ := run_counted
    [.fsOpen fileA 8 0, .fsWrite 0 5 (fun _ => 7)] (by rw [start_eq]; decide +kernel)
  have heval : (Run.exec step start [.fsOpen fileA 8 0, .fsWrite 0 5 (fun _ => 7)]).map (fun s =>
      let w := teeFsWrite { s with dev := ⟨s.dev.disk, List.replicate 6 .ok ++ [.fail]⟩ } 0 5
        (fun _ => 9)
      ((teeFsRead s 0 5 Mem.zero).2.1.bytes 0 5, w.1, flag s.dev.disk 130, flag w.2.dev.disk 130,
        (teeFsRead w.2 0 5 Mem.zero).2.1.bytes 0 5))
        = some ([7, 7, 7, 7, 7], -1, 0, 1, [0, 0, 0, 0, 0]) := by
    rw [start_eq]
    decide +kernel
  rw [hexec, Option.map_some] at heval
  simp only [Option.some.injEq, Prod.mk.injEq] at heval
  obtain ⟨hbefore, hret, hfree, hset, hafter⟩ := heval
  exact ⟨disk, seek, filled, hexec, hI.isProtected, hbefore, hret, hfree, hset, hafter⟩

end Rkss
