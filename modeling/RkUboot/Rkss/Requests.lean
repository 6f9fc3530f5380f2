import RkUboot.Rkss.Disk

set_option autoImplicit false

/-! # What one request can do

`Effect` lists everything a request can do to the disk when no I/O error occurs, with the guards
the code has checked on the way; `process_effect` says that the list is complete. -/

namespace Rkss

/-- The record `tee_fs_open` creates. -/
def createdInfo (filename : List UInt8) (len : Nat) : Mem :=
  ((((Mem.zero.strcpy 1 filename).set16 118 0).set16 120 len).set8 0 1).set8 125 (0x1 ||| 0x2)

/-- Number of sections of a record's extent. -/
def extentLen (p : Mem) : Nat := infoSize p / 512 + 1

/-- The part of an extent that lies on the partition, which is where a loop over it gets. -/
def reachedLen (p : Mem) : Nat := min (extentLen p) (1024 - infoIndex p)

theorem reachedLen_range (p : Mem) :
    infoIndex p + reachedLen p ≤ 1024 ∨ reachedLen p = 0 := by
  unfold reachedLen
  omega

/-- The record as `rkss_write_empty_ptable` stores it for descriptor `fd`. -/
def stamped (p : Mem) (fd : Nat) : Mem := stampInfo p (fd - 4 * (fd / 4))

/-! ## The fields of the records that are stored -/

section Fields

variable (p : Mem) (fd : Nat)

variable (filename : List UInt8) (v : Nat)

@[simp] theorem infoUsed_stamped : infoUsed (stamped p fd) = 1 := rfl

/-- The stamp is the used byte and the byte at 124. -/
theorem stamped_agree : (stamped p fd).AgreeOn p 1 124 := by
  intro x hx hx'
  unfold stamped stampInfo
  rw [Mem.set8_apply, if_neg (by omega), Mem.set8_apply, if_neg (by omega)]

@[simp] theorem infoIndex_stamped : infoIndex (stamped p fd) = infoIndex p :=
  ((stamped_agree p fd).mono (by omega) (by omega)).u16

@[simp] theorem infoSize_stamped : infoSize (stamped p fd) = infoSize p :=
  ((stamped_agree p fd).mono (by omega) (by omega)).u16

@[simp] theorem infoIndex_createdInfo (len : Nat) : infoIndex (createdInfo filename len) = 0 := by
  unfold infoIndex createdInfo
  rw [Mem.u16_set8_ne _ _ _ _ (by omega), Mem.u16_set8_ne _ _ _ _ (by omega),
    Mem.u16_set16_ne _ _ _ _ (by omega), Mem.u16_set16_same]

@[simp] theorem infoIndex_truncated : infoIndex (p.set16 120 v) = infoIndex p :=
  Mem.u16_set16_ne _ _ _ _ (by omega)

@[simp] theorem infoUsed_truncated : infoUsed (p.set16 120 v) = infoUsed p :=
  Mem.set16_apply_ne (by omega)

@[simp] theorem infoUsed_zero : infoUsed Mem.zero = 0 := rfl

/-- A name of at most 116 characters stays in its field. -/
theorem strcpy_agree (h : filename.length ≤ 116) : (p.strcpy 1 filename).AgreeOn p 118 126 :=
  fun x hx _ => Mem.strcpy_apply_out _ _ _ _ (by omega)

theorem infoUsed_strcpy : infoUsed (p.strcpy 1 filename) = infoUsed p :=
  Mem.strcpy_apply_out _ _ _ _ (by omega)

theorem infoIndex_strcpy (h : filename.length ≤ 116) :
    infoIndex (p.strcpy 1 filename) = infoIndex p :=
  ((strcpy_agree p filename h).mono (by omega) (by omega)).u16

theorem infoSize_strcpy (h : filename.length ≤ 116) : infoSize (p.strcpy 1 filename) = infoSize p :=
  ((strcpy_agree p filename h).mono (by omega) (by omega)).u16

theorem copyName_of_short (h : filename.length ≤ 116) :
    copyName p filename = some (p.strcpy 1 filename) :=
  if_pos (by omega)

theorem copyName_eq {p q : Mem} {filename : List UInt8} (h : copyName p filename = some q) :
    q = p.strcpy 1 filename :=
  (Option.some.inj (Option.ite_none_right_eq_some.1 h).2).symm

/-- A record's own view of what `tee_fs_write` puts in it. -/
theorem writtenInfo_fields (p : Mem) (len index : Nat) :
    infoUsed (writtenInfo p len index) = 1 ∧ infoIndex (writtenInfo p len index) = index % 65536 ∧
      infoSize (writtenInfo p len index) = len % 65536 := by
  have hindex : ((index : Int) % 65536).toNat = index % 65536 := by omega
  refine ⟨rfl, ?_, ?_⟩
  · unfold infoIndex writtenInfo
    rw [hindex, Mem.u16_set8_ne _ _ _ _ (by omega), Mem.u16_set16_same, Nat.mod_mod]
  · unfold infoSize writtenInfo
    rw [Mem.u16_set8_ne _ _ _ _ (by omega), Mem.u16_set16_ne _ _ _ _ (by omega),
      Mem.u16_set16_same]

end Fields

/-! ## Effects -/

/-- The disk after a write of `len` bytes to the sections from `index`. -/
def writtenDisk (disk : Mem) (fd len index : Nat) (data : Mem) : Mem :=
  storeData data (len / 512 + 1) index 0 (len % 65536)
    (putEntry (updateFlags incref (len / 512 + 1) index disk) fd
      (writtenInfo (entry disk fd) len index))

/-- The lookup of the name ends at record `fd`. -/
structure Found (disk : Mem) (filename : CName) (fd : Nat) : Prop where
  lt : fd < 512
  used : infoUsed (entry disk fd) ≠ 0
  lookup : rkssGetFileinfoByName (reliable disk) filename.chars
    = ((fd : Int), entry disk fd, reliable disk)

/-- What a request can do to the disk, and the sections it fills with file data. -/
inductive Effect (disk : Mem) : Request → Mem → List Nat → Prop
  | unchanged (r : Request) : Effect disk r disk []
  | create (filename : CName) (flags len fd : Nat) (hfd : fd < 512)
      (hfree : infoUsed (entry disk fd) = 0) (hlen : filename.chars.length ≤ 117)
      (habsent : (rkssGetFileinfoByName (reliable disk) filename.chars).1 < 0)
      (hcreat : flags &&& 0x8 ≠ 0) :
      Effect disk (.fsOpen filename flags len)
        (putEntry disk fd (stamped (createdInfo filename.chars len) fd)) []
  | write (fd len : Nat) (data : Mem) (index : Nat) (hused : infoUsed (entry disk fd) = 1)
      (hempty : (rkssGetEmptySectionFromUsedflags (reliable disk) (len / 512 + 1)).1 = index)
      (hrun : FreeRun disk (len / 512 + 1) index) :
      Effect disk (.fsWrite fd len data) (writtenDisk disk fd len index data)
        (List.range' index (len / 512 + 1)).reverse
  | unlink (filename : CName) (fd : Nat) (hfound : Found disk filename fd)
      (hrange : infoIndex (entry disk fd) + extentLen (entry disk fd) ≤ 1024) :
      Effect disk (.fsUnlink filename)
        (putEntry (updateFlags decref (extentLen (entry disk fd)) (infoIndex (entry disk fd)) disk)
          fd Mem.zero) []
  | unlinkStopped (filename : CName) (fd : Nat) (hfound : Found disk filename fd)
      (hrange : 1024 < infoIndex (entry disk fd) + extentLen (entry disk fd)) :
      Effect disk (.fsUnlink filename)
        (updateFlags decref (reachedLen (entry disk fd)) (infoIndex (entry disk fd)) disk) []
  | link (filename newfilename : CName) (fd fd' : Nat) (hfound : Found disk filename fd)
      (hexist : (rkssGetFileinfoByName (reliable disk) newfilename.chars).1 ≠ 0)
      (pNew : Mem) (hcopy : pNew = (entry disk fd).strcpy 1 newfilename.chars)
      (hfd' : fd' < 512) (hfree : infoUsed (entry disk fd') = 0) :
      Effect disk (.fsLink filename newfilename)
        (updateFlags incref (reachedLen pNew) (infoIndex pNew)
          (putEntry disk fd' (stamped pNew fd'))) []
  | rename (filenames newnames : CName) (fd : Nat) (hfound : Found disk filenames fd) :
      Effect disk (.fsRename filenames newnames)
        (putEntry disk fd ((entry disk fd).strcpy 1 newnames.chars)) []
  | truncate (fd : Nat) (arg : Int) (hused : infoUsed (entry disk fd) = 1) :
      Effect disk (.fsTrunc fd arg)
        (putEntry disk fd ((entry disk fd).set16 120 (arg % 65536).toNat)) []

/-- The state a request reaches from a reliable device, described by an effect. -/
def Reaches (s : State) (r : Request) (s' : State) : Prop :=
  ∃ disk' seek' new, s' = ⟨reliable disk', seek', new ++ s.filled⟩ ∧
    Effect s.dev.disk r disk' new

variable (disk : Mem) (seek : Int) (filled : List Nat)

theorem Reaches.unchanged (seek' : Int) (r : Request) :
    Reaches ⟨reliable disk, seek, filled⟩ r ⟨reliable disk, seek', filled⟩ :=
  ⟨disk, seek', [], rfl, .unchanged r⟩

theorem teeFsOpen_reaches (filename : CName) (flags len : Nat) :
    Reaches ⟨reliable disk, seek, filled⟩ (.fsOpen filename flags len)
      (teeFsOpen ⟨reliable disk, seek, filled⟩ filename.chars flags len).2 := by
  unfold teeFsOpen
  split
  · exact .unchanged ..
  next hlen =>
  obtain ⟨ret, p, hl, hcase⟩ := rkssGetFileinfoByName_reliable disk filename.chars
  simp only [hl]
  cases hcase with
  | found fd hfd hused hname =>
    rw [if_neg (by omega)]
    exact .unchanged ..
  | absent ret hneg =>
    rw [if_pos hneg]
    split
    · next hcreat =>
      rcases rkssWriteEmptyPtable_reliable disk (createdInfo filename.chars len) with
        hw | ⟨fd, hfd, hfree, hw⟩
      · simp only [createdInfo] at hw
        simp only [hw]
        exact .unchanged ..
      have he := Effect.create filename flags len fd hfd hfree (by omega)
        (by rw [hl]; exact hneg) hcreat
      simp only [createdInfo] at hw
      simp only [hw]
      rw [if_neg (by omega)]
      exact ⟨_, 0, [], rfl, he⟩
    · exact .unchanged ..

/-- A write either fails and changes nothing, or puts the data in a run of free sections. -/
theorem teeFsWrite_cases (fd : Int) (len : Nat) (data : Mem) :
    teeFsWrite ⟨reliable disk, seek, filled⟩ fd len data = (-1, ⟨reliable disk, seek, filled⟩) ∨
    ∃ n index : Nat, fd = n ∧ infoUsed (entry disk n) = 1 ∧
      (rkssGetEmptySectionFromUsedflags (reliable disk) (len / 512 + 1)).1 = index ∧
      FreeRun disk (len / 512 + 1) index ∧
      teeFsWrite ⟨reliable disk, seek, filled⟩ fd len data
        = ((len : Int), ⟨reliable (writtenDisk disk n len index data), seek,
            (List.range' index (len / 512 + 1)).reverse ++ filled⟩) := by
  unfold teeFsWrite
  split
  · exact .inl rfl
  next hneg =>
  rw [rkssGetFileinfoByIndex_reliable]
  by_cases hused : infoUsed (entry disk fd.toNat) = 1
  · rw [if_pos hused]
    rcases rkssGetEmptySection_reliable disk (len / 512 + 1) (Nat.succ_pos _) with
      ⟨-, he⟩ | ⟨index, hrun, -, he⟩
    · -- no run of free sections: -10 becomes index 65526, which is out of range
      have hindex : infoIndex (writtenInfo (entry disk fd.toNat) len (-10)) = 65526 := by
        unfold infoIndex writtenInfo
        rw [Mem.u16_set8_ne _ _ _ _ (by omega), Mem.u16_set16_same]
        rfl
      left
      simp only [he, hindex, rkssIncrefUsedflagsSection,
        updateExtent_reliable _ _ _ _ (Nat.succ_pos _)]
      rw [decide_eq_false (by omega), Nat.min_eq_right (by omega)]
      rfl
    · have hrange := hrun.1
      obtain ⟨-, hi, hs⟩ := writtenInfo_fields (entry disk fd.toNat) len index
      rw [Nat.mod_eq_of_lt (by omega)] at hi
      refine .inr ⟨fd.toNat, index, by omega, hused, by rw [he], hrun, ?_⟩
      simp only [he, hi, hs, rkssIncrefUsedflagsSection,
        updateExtent_reliable _ _ _ _ (Nat.succ_pos _), decide_eq_true hrange,
        rkssWriteBackPtable_reliable, writeSections_reliable]
      rw [Nat.min_eq_left (by omega), writtenDisk]
  · rw [if_neg hused]
    exact .inl rfl

theorem teeFsWrite_reaches (fd : Int) (len : Nat) (data : Mem) :
    Reaches ⟨reliable disk, seek, filled⟩ (.fsWrite fd len data)
      (teeFsWrite ⟨reliable disk, seek, filled⟩ fd len data).2 := by
  rcases teeFsWrite_cases disk seek filled fd len data with
    h | ⟨n, index, rfl, hused, hempty, hrun, h⟩
  · rw [h]
    exact .unchanged ..
  · rw [h]
    exact ⟨_, seek, _, rfl, .write n len data index hused hempty hrun⟩

theorem teeFsUnlink_reaches (filename : CName) :
    Reaches ⟨reliable disk, seek, filled⟩ (.fsUnlink filename)
      (teeFsUnlink ⟨reliable disk, seek, filled⟩ filename.chars).2 := by
  obtain ⟨ret, p, hl, hcase⟩ := rkssGetFileinfoByName_reliable disk filename.chars
  unfold teeFsUnlink
  simp only [hl]
  cases hcase with
  | absent ret hneg =>
    rw [if_pos hneg]
    exact .unchanged ..
  | found fd hfd hused hname =>
    rw [if_neg (by omega)]
    simp only [rkssDecrefUsedflagsSection, updateExtent_reliable _ _ _ _ (Nat.succ_pos _)]
    by_cases hrange : infoIndex (entry disk fd) + (infoSize (entry disk fd) / 512 + 1) ≤ 1024
    · simp only [decide_eq_true hrange, rkssWriteBackPtable_reliable]
      rw [Nat.min_eq_left (by omega)]
      exact ⟨_, seek, [], rfl, .unlink filename fd ⟨hfd, hused, hl⟩ hrange⟩
    · simp only [decide_eq_false hrange]
      exact ⟨_, seek, [], rfl, .unlinkStopped filename fd ⟨hfd, hused, hl⟩ (not_le.1 hrange)⟩

variable {out : Int × State}

theorem teeFsLink_reaches (filename newfilename : CName)
    (h : teeFsLink ⟨reliable disk, seek, filled⟩ filename.chars newfilename.chars
      = some out) :
    Reaches ⟨reliable disk, seek, filled⟩ (.fsLink filename newfilename) out.2 := by
  obtain ⟨old, p, hl, hcase⟩ := rkssGetFileinfoByName_reliable disk filename.chars
  obtain ⟨new, q, hl', -⟩ := rkssGetFileinfoByName_reliable disk newfilename.chars
  unfold teeFsLink at h
  simp only [hl, hl'] at h
  cases hcase with
  | absent old hneg =>
    rw [if_pos hneg] at h
    obtain rfl := Option.some.inj h
    exact .unchanged ..
  | found fd hfd hused hname =>
    rw [if_neg (by omega)] at h
    split at h
    · obtain rfl := Option.some.inj h
      exact .unchanged ..
    next hexist =>
    cases hcopy : copyName (entry disk fd) newfilename.chars with
    | none => exact absurd h (by simp [hcopy])
    | some pNew =>
      simp only [hcopy] at h
      rcases rkssWriteEmptyPtable_reliable disk pNew with hw | ⟨fd', hfd', hfree, hw⟩
      · simp only [hw] at h
        obtain rfl := Option.some.inj h
        exact .unchanged ..
      have he := Effect.link filename newfilename fd fd' ⟨hfd, hused, hl⟩
        (by rw [hl']; exact hexist) pNew (copyName_eq hcopy) hfd' hfree
      simp only [hw, rkssIncrefUsedflagsSection,
        updateExtent_reliable _ _ _ _ (Nat.succ_pos _)] at h
      rw [if_neg (by omega)] at h
      split at h
      all_goals
        next hu =>
        obtain rfl := Option.some.inj h
        obtain ⟨-, rfl⟩ := Prod.mk.inj hu
        exact ⟨_, seek, [], rfl, he⟩

theorem teeFsRename_reaches (filenames newnames : CName)
    (h : teeFsRename ⟨reliable disk, seek, filled⟩ filenames.chars newnames.chars
      = some out) :
    Reaches ⟨reliable disk, seek, filled⟩ (.fsRename filenames newnames) out.2 := by
  obtain ⟨old, p, hl, hcase⟩ := rkssGetFileinfoByName_reliable disk filenames.chars
  unfold teeFsRename at h
  simp only [hl] at h
  cases hcase with
  | absent old hneg =>
    rw [if_pos hneg] at h
    obtain rfl := Option.some.inj h
    exact .unchanged ..
  | found fd hfd hused hname =>
    rw [if_neg (by omega)] at h
    cases hcopy : copyName (entry disk fd) newnames.chars with
    | none => exact absurd h (by simp [hcopy])
    | some p =>
      simp only [hcopy, rkssWriteBackPtable_reliable] at h
      obtain rfl := Option.some.inj h
      obtain rfl := copyName_eq hcopy
      exact ⟨_, seek, [], rfl, .rename filenames newnames fd ⟨hfd, hused, hl⟩⟩

theorem teeFsTruncate_reaches (fd arg : Int) :
    Reaches ⟨reliable disk, seek, filled⟩ (.fsTrunc fd arg)
      (teeFsTruncate ⟨reliable disk, seek, filled⟩ fd arg).2 := by
  unfold teeFsTruncate
  split
  · exact .unchanged ..
  next hneg =>
  obtain ⟨n, rfl⟩ := Int.eq_ofNat_of_zero_le (not_lt.1 hneg)
  simp only [rkssGetFileinfoByIndex_reliable, Int.toNat_natCast]
  by_cases hused : infoUsed (entry disk n) = 1
  · simp only [if_pos hused, rkssWriteBackPtable_reliable]
    exact ⟨_, seek, [], rfl, .truncate n arg hused⟩
  · rw [if_neg hused]
    exact .unchanged ..

/-- **Everything a request can do.** -/
theorem process_effect (r : Request) (h : process ⟨reliable disk, seek, filled⟩ r = some out) :
    Reaches ⟨reliable disk, seek, filled⟩ r out.2 := by
  cases r with
  | fsOpen filename flags len =>
    obtain rfl := Option.some.inj h
    exact teeFsOpen_reaches disk seek filled filename flags len
  | fsWrite fd len data =>
    obtain rfl := Option.some.inj h
    exact teeFsWrite_reaches disk seek filled fd len data
  | fsUnlink filename =>
    obtain rfl := Option.some.inj h
    exact teeFsUnlink_reaches disk seek filled filename
  | fsLink filename newfilename => exact teeFsLink_reaches disk seek filled filename newfilename h
  | fsRename filenames newnames => exact teeFsRename_reaches disk seek filled filenames newnames h
  | fsTrunc fd arg =>
    obtain rfl := Option.some.inj h
    exact teeFsTruncate_reaches disk seek filled fd arg

end Rkss
