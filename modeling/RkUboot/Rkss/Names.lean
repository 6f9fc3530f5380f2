import RkUboot.Rkss.Metadata

set_option autoImplicit false

/-! # File names

Two invariants of the names in the table. They are unique as long as no request puts a name in the
table that another used record holds: `tee_fs_rename` does not look for the new name at all,
`tee_fs_link` rejects it only when it belongs to descriptor 0, and `tee_fs_open` takes a name it
finds shadowed by a folder for a new one. They are NUL-terminated inside their field as long as no
request stores more than 116 characters: `tee_fs_open` lets 117 through, the other two any number. -/

namespace Rkss

/-- The name a record holds. -/
def nameOf (p : Mem) : List UInt8 := p.cstr 117 1

/-- The name field of a record contains its terminator. -/
def Terminated (p : Mem) : Prop := ∃ k, k < 117 ∧ p (1 + k) = 0

/-- A used record of the table other than `fd` holds the name. -/
def HeldByOther (disk : Mem) (fd : Int) (filename : List UInt8) : Prop :=
  ∃ fd' : Nat, fd' < 512 ∧ (fd' : Int) ≠ fd ∧ infoUsed (entry disk fd') ≠ 0 ∧
    nameOf (entry disk fd') = filename

instance (disk : Mem) (fd : Int) (filename : List UInt8) :
    Decidable (HeldByOther disk fd filename) :=
  inferInstanceAs (Decidable (∃ fd' : Nat, fd' < 512 ∧ _))

/-- No two used records hold the same name. -/
def UniqueNames (disk : Mem) : Prop :=
  ∀ fd fd', fd < 512 → fd' < 512 → fd ≠ fd' → infoUsed (entry disk fd) ≠ 0 →
    infoUsed (entry disk fd') ≠ 0 → nameOf (entry disk fd) ≠ nameOf (entry disk fd')

/-- Every used record holds a NUL-terminated name. -/
def TerminatedNames (disk : Mem) : Prop :=
  ∀ fd, fd < 512 → infoUsed (entry disk fd) ≠ 0 → Terminated (entry disk fd)

variable {disk disk' : Mem} {filled new : List Nat} {r : Request} {fd : Nat} {p q : Mem}

/-! ## The name of a stored record -/

theorem nameOf_congr (h : p.AgreeOn q 1 118) : nameOf p = nameOf q :=
  Mem.AgreeOn.cstr h

@[simp] theorem nameOf_trim : nameOf (trim p) = nameOf p :=
  nameOf_congr ((trim_agree p).mono (by omega) (by omega))

theorem nameOf_strcpy (filename : CName) (h : filename.chars.length ≤ 116) :
    nameOf (p.strcpy 1 filename.chars) = filename.chars :=
  Mem.cstr_strcpy _ _ _ _ filename.nul_free (by omega)

@[simp] theorem nameOf_stamped : nameOf (stamped p fd) = nameOf p :=
  nameOf_congr ((stamped_agree p fd).mono (by omega) (by omega))

theorem createdInfo_agree (filename : List UInt8) (len : Nat) :
    (createdInfo filename len).AgreeOn (Mem.zero.strcpy 1 filename) 1 118 := by
  intro x hx hx'
  unfold createdInfo
  rw [Mem.set8_apply, if_neg (by omega), Mem.set8_apply, if_neg (by omega),
    Mem.set16_apply_ne (by omega), Mem.set16_apply_ne (by omega)]

theorem nameOf_written (len : Nat) (empty : Int) : nameOf (writtenInfo p len empty) = nameOf p := by
  apply nameOf_congr
  intro x hx hx'
  unfold writtenInfo
  rw [Mem.set8_apply, if_neg (by omega), Mem.set16_apply_ne (by omega),
    Mem.set16_apply_ne (by omega)]

theorem nameOf_truncated (v : Nat) : nameOf (p.set16 120 v) = nameOf p :=
  nameOf_congr (fun _ _ _ => Mem.set16_apply_ne (by omega))

/-! ## Unique names -/

theorem UniqueNames.replace (h : UniqueNames disk) (hrep : Replaces disk disk' fd p)
    (hnew : infoUsed p ≠ 0 → ¬ HeldByOther disk fd (nameOf p)) : UniqueNames disk' := by
  have hother : ∀ fd', fd' < 512 → fd' ≠ fd → infoUsed (entry disk' fd) ≠ 0 →
      infoUsed (entry disk' fd') ≠ 0 → nameOf (entry disk' fd) ≠ nameOf (entry disk' fd') := by
    intro fd' hfd' hne hu hu' heq
    rw [hrep.same] at hu heq
    rw [hrep.other fd' hfd' hne] at hu' heq
    exact hnew hu ⟨fd', hfd', by omega, hu', heq.symm⟩
  intro fd₁ fd₂ h₁ h₂ hne hu₁ hu₂
  by_cases he₁ : fd₁ = fd
  · subst he₁
    exact hother fd₂ h₂ hne.symm hu₁ hu₂
  · by_cases he₂ : fd₂ = fd
    · subst he₂
      exact (hother fd₁ h₁ hne hu₂ hu₁).symm
    · rw [hrep.other fd₁ h₁ he₁] at hu₁ ⊢
      rw [hrep.other fd₂ h₂ he₂] at hu₂ ⊢
      exact h fd₁ fd₂ h₁ h₂ hne hu₁ hu₂

theorem UniqueNames.not_held (h : UniqueNames disk) (hfd : fd < 512)
    (hused : infoUsed (entry disk fd) ≠ 0) : ¬ HeldByOther disk fd (nameOf (entry disk fd)) := by
  rintro ⟨fd', hfd', hne, hu, heq⟩
  exact h fd' fd hfd' hfd (by omega) hu hused heq

theorem UniqueNames.sameTable (h : UniqueNames disk)
    (hsame : ∀ fd, fd < 512 → entry disk' fd = entry disk fd) : UniqueNames disk' := by
  intro fd fd' hfd hfd'
  rw [hsame fd hfd, hsame fd' hfd']
  exact h fd fd' hfd hfd'

/-- What a request must meet in the state before it for the names to stay unique: it puts no name in
    the table that another used record holds. -/
def KeepsUnique (s : State) : Request → Prop
  | .fsOpen filename flags _ =>
    (rkssGetFileinfoByName s.dev filename.chars).1 < 0 → flags &&& 0x8 ≠ 0 →
      ¬ HeldByOther s.dev.disk (-1) filename.chars
  | .fsLink filename newfilename =>
    0 ≤ (rkssGetFileinfoByName s.dev filename.chars).1 →
      (rkssGetFileinfoByName s.dev newfilename.chars).1 ≠ 0 →
        ¬ HeldByOther s.dev.disk (-1) newfilename.chars
  | .fsRename filenames newnames =>
    0 ≤ (rkssGetFileinfoByName s.dev filenames.chars).1 →
      ¬ HeldByOther s.dev.disk (rkssGetFileinfoByName s.dev filenames.chars).1 newnames.chars
  | _ => True

instance (s : State) : (r : Request) → Decidable (KeepsUnique s r)
  | .fsOpen _ _ _ => inferInstanceAs (Decidable (_ → _ → ¬ HeldByOther _ _ _))
  | .fsWrite _ _ _ => .isTrue trivial
  | .fsUnlink _ => .isTrue trivial
  | .fsLink _ _ => inferInstanceAs (Decidable (_ → _ → ¬ HeldByOther _ _ _))
  | .fsRename _ _ => inferInstanceAs (Decidable (_ → ¬ HeldByOther _ _ _))
  | .fsTrunc _ _ => .isTrue trivial

theorem HeldByOther.mono {fd : Int} {filename : List UInt8} (h : HeldByOther disk fd filename) :
    HeldByOther disk (-1) filename := by
  obtain ⟨fd', hfd', -, hu, hn⟩ := h
  exact ⟨fd', hfd', by omega, hu, hn⟩

theorem UniqueNames.effect {seek : Int} (h : UniqueNames disk) (hM : MetaSafe disk filled)
    (hshort : ShortNames r) (hmeta : KeepsMetadata ⟨reliable disk, seek, filled⟩ r)
    (hkeep : KeepsUnique ⟨reliable disk, seek, filled⟩ r) (he : Effect disk r disk' new) :
    UniqueNames disk' := by
  cases he with
  | unchanged => exact h
  | create filename flags len fd hfd hfree hlen habsent hcreat =>
    have hlen' : filename.chars.length ≤ 116 := hshort filename (by simp [Request.names])
    have hname : nameOf (stamped (createdInfo filename.chars len) fd) = filename.chars := by
      rw [nameOf_stamped, nameOf_congr (createdInfo_agree _ _), nameOf_strcpy _ hlen']
    refine h.replace (.putEntry (fun _ _ => rfl) fd _) (fun _ hheld => ?_)
    rw [hname] at hheld
    exact hkeep habsent hcreat hheld.mono
  | write fd len data index hused hempty hrun =>
    have hfd := fd_lt_of_used hused hmeta
    have hi := hM.free_index (Nat.succ_pos _) hrun.2
    refine h.replace ((Replaces.putEntry_updateFlags hrun.1 fd _).storeData hfd hi ..)
      (fun _ => ?_)
    rw [nameOf_written]
    exact h.not_held hfd (by rw [hused]; decide)
  | unlink filename fd hfound hrange =>
    exact h.replace (.putEntry_updateFlags hrange fd _) (fun hz => absurd rfl hz)
  | unlinkStopped filename fd hfound hrange =>
    exact h.sameTable (fun fd' hfd' => entry_updateFlags _ _ _ _ _ (reachedLen_range _) hfd')
  | link filename newfilename fd fd' hfound hexist pNew hcopy hfd' hfree =>
    have hlen := hshort.link
    subst hcopy
    simp only [KeepsUnique, hfound.lookup] at hkeep
    refine h.replace ((Replaces.putEntry (fun _ _ => rfl) fd' _).updateFlags hfd'
      (reachedLen_range _)) (fun _ hheld => ?_)
    rw [nameOf_stamped, nameOf_strcpy _ hlen] at hheld
    exact hkeep (Int.natCast_nonneg fd) hexist hheld.mono
  | rename filenames newnames fd hfound =>
    have hlen := hshort.rename
    simp only [KeepsUnique, hfound.lookup] at hkeep
    refine h.replace (.putEntry (fun _ _ => rfl) fd _) (fun _ hheld => ?_)
    rw [nameOf_strcpy _ hlen] at hheld
    exact hkeep (Int.natCast_nonneg fd) hheld
  | truncate fd arg hused =>
    refine h.replace (.putEntry (fun _ _ => rfl) fd _) (fun _ => ?_)
    rw [nameOf_truncated]
    exact h.not_held (fd_lt_of_used hused hmeta) (by rw [hused]; decide)

theorem freshDisk_uniqueNames : UniqueNames freshDisk :=
  fun fd _ hfd _ _ hused => absurd (infoUsed_freshDisk fd hfd) hused

/-- **Along every run of requests with names of at most 116 characters that keep the metadata flags
    and put no name in the table that another used record holds, no two used records hold the same
    name.** -/
theorem names_stay_unique (rs : List Request)
    (h : Run.AlongExec step (fun s r => ShortNames r ∧ KeepsMetadata s r ∧ KeepsUnique s r)
      start rs) :
    ∃ s, Run.exec step start rs = some s ∧ UniqueNames s.dev.disk := by
  rw [start_eq] at h ⊢
  obtain ⟨disk, seek, filled, hexec, -, hU⟩ :=
    run_invariant (I := fun disk filled => MetaSafe disk filled ∧ UniqueNames disk)
      (C := fun s r => ShortNames r ∧ KeepsMetadata s r ∧ KeepsUnique s r)
      (fun s _ hC => hC.1.fits s)
      (fun _ _ _ _ _ _ hI hC he => ⟨hI.1.effect hC.1 hC.2.1 he,
        hI.2.effect hI.1 hC.1 hC.2.1 hC.2.2 he⟩)
      rs freshDisk 0 [] ⟨freshDisk_metaSafe, freshDisk_uniqueNames⟩ h
  exact ⟨_, hexec, hU⟩

/-- A file is created, opened again, written, linked and renamed to a new name. -/
theorem names_stay_unique_renamed :
    ∃ s, Run.exec step start [.fsOpen fileA 8 0, .fsOpen fileA 8 0, .fsWrite 0 5 Mem.zero,
        .fsLink fileA fileB, .fsRename fileA ⟨[99], by decide⟩] = some s ∧
      UniqueNames s.dev.disk :=
  names_stay_unique _ (by rw [start_eq]; decide +kernel)

/-- Two files are created and one is renamed to the name of the other: both records are used and
    hold the same name. -/
theorem rename_duplicates_name :
    ∃ s, Run.exec step start [.fsOpen fileA 8 0, .fsOpen fileB 8 0, .fsRename fileA fileB]
        = some s ∧ ¬ UniqueNames s.dev.disk := by
  have h : (Run.exec step start [.fsOpen fileA 8 0, .fsOpen fileB 8 0, .fsRename fileA fileB]).map
      (fun s => ((infoUsed (entry s.dev.disk 0), infoUsed (entry s.dev.disk 1)),
        (nameOf (entry s.dev.disk 0), nameOf (entry s.dev.disk 1))))
        = some ((1, 1), ([98], [98])) := by
    rw [start_eq]
    decide +kernel
  obtain ⟨s, hs, hpair⟩ := Option.map_eq_some_iff.1 h
  obtain ⟨hused, hnames⟩ := Prod.mk.inj hpair
  obtain ⟨hu0, hu1⟩ := Prod.mk.inj hused
  obtain ⟨hn0, hn1⟩ := Prod.mk.inj hnames
  refine ⟨s, hs, fun hU => ?_⟩
  exact hU 0 1 (by decide) (by decide) (by decide) (by rw [hu0]; decide) (by rw [hu1]; decide)
    (hn0.trans hn1.symm)

/-! ## Terminated names -/

theorem terminated_congr (h : p.AgreeOn q 1 118) (hq : Terminated q) : Terminated p := by
  obtain ⟨k, hk, hz⟩ := hq
  exact ⟨k, hk, by rw [h (1 + k) (by omega) (by omega), hz]⟩

theorem terminated_strcpy (filename : List UInt8) (h : filename.length ≤ 116) :
    Terminated (p.strcpy 1 filename) :=
  ⟨filename.length, by omega, Mem.strcpy_apply_nul ..⟩

theorem terminated_stamped (h : Terminated p) : Terminated (stamped p fd) :=
  terminated_congr ((stamped_agree p fd).mono (by omega) (by omega)) h

theorem TerminatedNames.replace (h : TerminatedNames disk) (hrep : Replaces disk disk' fd p)
    (hnew : Terminated p) : TerminatedNames disk' := by
  intro fd' hfd' hused
  by_cases he : fd' = fd
  · subst he
    rw [hrep.same]
    exact terminated_congr ((trim_agree p).mono (by omega) (by omega)) hnew
  · rw [hrep.other fd' hfd' he] at hused ⊢
    exact h fd' hfd' hused

/-- The requests that store a name. -/
def StoresName : Request → Prop
  | .fsOpen _ _ _ => True
  | .fsLink _ _ => True
  | .fsRename _ _ => True
  | _ => False

/-- What such a request must meet in the state before it for the names to stay terminated: a name
    that gets stored has at most 116 characters. -/
def NameFits (s : State) (r : Request) : Prop :=
  CopiedNameFits s r ∧
    match r with
    | .fsOpen filename flags _ => flags &&& 0x8 ≠ 0 → filename.chars.length ≠ 117
    | _ => True

instance : (r : Request) → Decidable (StoresName r)
  | .fsOpen _ _ _ => .isTrue trivial
  | .fsWrite _ _ _ => .isFalse id
  | .fsUnlink _ => .isFalse id
  | .fsLink _ _ => .isTrue trivial
  | .fsRename _ _ => .isTrue trivial
  | .fsTrunc _ _ => .isFalse id

instance (s : State) : (r : Request) → Decidable (NameFits s r)
  | .fsOpen _ _ _ => inferInstanceAs (Decidable (_ ∧ (_ → _ ≠ 117)))
  | .fsWrite _ _ _ => inferInstanceAs (Decidable (_ ∧ True))
  | .fsUnlink _ => inferInstanceAs (Decidable (_ ∧ True))
  | .fsLink _ _ => inferInstanceAs (Decidable (_ ∧ True))
  | .fsRename _ _ => inferInstanceAs (Decidable (_ ∧ True))
  | .fsTrunc _ _ => inferInstanceAs (Decidable (_ ∧ True))

theorem TerminatedNames.effect {seek : Int} (h : TerminatedNames disk) (hr : StoresName r)
    (hfits : NameFits ⟨reliable disk, seek, filled⟩ r) (he : Effect disk r disk' new) :
    TerminatedNames disk' := by
  cases he with
  | unchanged => exact h
  | create filename flags len fd hfd hfree hlen habsent hcreat =>
    have hne : filename.chars.length ≠ 117 := hfits.2 hcreat
    refine h.replace (.putEntry (fun _ _ => rfl) fd _) (terminated_stamped ?_)
    exact terminated_congr (createdInfo_agree _ _) (terminated_strcpy _ (by omega))
  | write => exact hr.elim
  | unlink => exact hr.elim
  | unlinkStopped => exact hr.elim
  | link filename newfilename fd fd' hfound hexist pNew hcopy hfd' hfree =>
    have hlen := hfits.1
    simp only [CopiedNameFits, hfound.lookup, Int.natCast_nonneg, true_imp_iff] at hlen
    subst hcopy
    exact h.replace ((Replaces.putEntry (fun _ _ => rfl) fd' _).updateFlags hfd'
      (reachedLen_range _)) (terminated_stamped (terminated_strcpy _ hlen))
  | rename filenames newnames fd hfound =>
    have hlen := hfits.1
    simp only [CopiedNameFits, hfound.lookup, Int.natCast_nonneg, true_imp_iff] at hlen
    exact h.replace (.putEntry (fun _ _ => rfl) fd _) (terminated_strcpy _ hlen)
  | truncate => exact hr.elim

/-- The fields of a record behind the name. -/
def fieldsOf (p : Mem) : Nat × Nat × UInt8 := (infoIndex p, infoSize p, infoFlags p)

/-- A rename that fits leaves the fields behind the name of every record. -/
theorem rename_keeps_fields {seek : Int} {filenames newnames : CName}
    (hfits : CopiedNameFits ⟨reliable disk, seek, filled⟩ (.fsRename filenames newnames))
    (he : Effect disk (.fsRename filenames newnames) disk' new) (fd' : Nat) :
    fieldsOf (entry disk' fd') = fieldsOf (entry disk fd') := by
  cases he with
  | unchanged => rfl
  | rename _ _ fd hfound =>
    simp only [CopiedNameFits, hfound.lookup, Int.natCast_nonneg, true_imp_iff] at hfits
    by_cases hne : fd' = fd
    · subst hne
      have hflags : infoFlags ((entry disk fd').strcpy 1 newnames.chars)
          = infoFlags (entry disk fd') := strcpy_agree _ _ hfits 125 (by omega) (by omega)
      rw [entry_putEntry_same]
      unfold fieldsOf
      simp only [infoIndex_trim, infoSize_trim, infoFlags_trim, infoIndex_strcpy _ _ hfits,
        infoSize_strcpy _ _ hfits, hflags]
    · rw [entry_putEntry_ne _ _ _ _ hne]

/-- **From storage whose names are terminated, along every run of open, link and rename requests
    with names of any length that store names of at most 116 characters only, no request runs over
    a record, every used record keeps a terminated name, and in the state reached such a rename
    changes the index, size and flags of no record.** -/
theorem names_stay_terminated (s₀ : State) (hio : s₀.dev.script = [])
    (hterm : TerminatedNames s₀.dev.disk) (rs : List Request)
    (h : Run.AlongExec step (fun s r => StoresName r ∧ NameFits s r) s₀ rs) :
    ∃ s, Run.exec step s₀ rs = some s ∧ TerminatedNames s.dev.disk ∧
      ∀ filenames newnames s', NameFits s (.fsRename filenames newnames) →
        step s (.fsRename filenames newnames) = some s' →
        ∀ fd, fieldsOf (entry s'.dev.disk fd) = fieldsOf (entry s.dev.disk fd) := by
  obtain ⟨⟨disk₀, script⟩, seek₀, filled₀⟩ := s₀
  obtain rfl : script = [] := hio
  obtain ⟨disk, seek, filled, hexec, hT⟩ :=
    run_invariant (I := fun disk _ => TerminatedNames disk)
      (C := fun s r => StoresName r ∧ NameFits s r) (fun _ _ hC => hC.2.1)
      (fun _ _ _ _ _ _ hI hC he => TerminatedNames.effect hI hC.1 hC.2 he)
      rs disk₀ seek₀ filled₀ hterm h
  refine ⟨_, hexec, hT, ?_⟩
  intro filenames newnames s' hfits hs'
  obtain ⟨disk', seek', new, rfl, he⟩ := step_effect hs'
  exact rename_keeps_fields hfits.1 he

theorem freshDisk_terminatedNames : TerminatedNames freshDisk :=
  fun fd hfd hused => absurd (infoUsed_freshDisk fd hfd) hused

/-- From formatted zeros: a name of 116 characters is stored, one of 118 is refused, a link and a
    rename follow. -/
theorem names_stay_terminated_boundary :
    ∃ s, Run.exec step start [.fsOpen ⟨List.replicate 116 97, by decide⟩ 8 0,
        .fsOpen ⟨List.replicate 118 97, by decide⟩ 8 0, .fsOpen fileA 8 0, .fsLink fileA fileB,
        .fsRename fileA ⟨List.replicate 115 98, by decide⟩] = some s ∧
      TerminatedNames s.dev.disk ∧
      ∀ filenames newnames s', NameFits s (.fsRename filenames newnames) →
        step s (.fsRename filenames newnames) = some s' →
        ∀ fd, fieldsOf (entry s'.dev.disk fd) = fieldsOf (entry s.dev.disk fd) :=
  names_stay_terminated start (by rw [start_eq]) (by rw [start_eq]; exact freshDisk_terminatedNames)
    _ (by rw [start_eq]; decide +kernel)

/-- A name of 117 characters passes the length test of `tee_fs_open` and fills the name field
    without a terminator. -/
theorem open_stores_unterminated_name :
    ∃ s, Run.exec step start [.fsOpen ⟨List.replicate 117 97, by decide⟩ 8 0] = some s ∧
      infoUsed (entry s.dev.disk 0) ≠ 0 ∧ ¬ Terminated (entry s.dev.disk 0) := by
  have h : (Run.exec step start [.fsOpen ⟨List.replicate 117 97, by decide⟩ 8 0]).map
      (fun s => (infoUsed (entry s.dev.disk 0), (entry s.dev.disk 0).bytes 1 117))
        = some (1, List.replicate 117 97) := by
    rw [start_eq]
    decide +kernel
  obtain ⟨s, hs, hpair⟩ := Option.map_eq_some_iff.1 h
  obtain ⟨hused, hchars⟩ := Prod.mk.inj hpair
  refine ⟨s, hs, by rw [hused]; decide, ?_⟩
  rintro ⟨k, hk, hz⟩
  have hmem : (0 : UInt8) ∈ (entry s.dev.disk 0).bytes 1 117 :=
    List.mem_map.2 ⟨k, List.mem_range.2 hk, hz⟩
  rw [hchars] at hmem
  cases List.eq_of_mem_replicate hmem

end Rkss
