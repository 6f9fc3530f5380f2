import RkUboot.Rkss.Runs

set_option autoImplicit false

/-! # File data stays off the metadata

`tee_fs_write` takes sections whose flag is zero, so what protects the table and the used-flags
section is that their own flags never drop to zero. `tee_fs_unlink` can make them drop: a file that
was created but never written has index 0, and unlinking it releases sections 0, 1, … of the table.
`KeepsMetadata` is what a request must meet for the flags to stay; along runs that meet it file data
goes to sections from 129 on. -/

namespace Rkss

/-- The metadata flags are set, every file is either unwritten or has its data behind the metadata,
    and so far no data went to a metadata section. -/
structure MetaSafe (disk : Mem) (filled : List Nat) : Prop where
  flags : ∀ s, s ≤ 128 → 1 ≤ flag disk s
  index : ∀ fd, fd < 512 → infoUsed (entry disk fd) ≠ 0 →
    infoIndex (entry disk fd) = 0 ∨ 129 ≤ infoIndex (entry disk fd)
  filled : ∀ s ∈ filled, 129 ≤ s

/-- What a request must meet in the state before it: a descriptor is one of the table (or is
    refused), and a file is unlinked only when the metadata sections its record claims are
    referenced once more than by that file. -/
def KeepsMetadata (s : State) : Request → Prop
  | .fsWrite fd _ _ => TableFd s fd
  | .fsTrunc fd _ => TableFd s fd
  | .fsUnlink filename =>
    0 ≤ (rkssGetFileinfoByName s.dev filename.chars).1 →
      ∀ i, i < 129 → infoIndex (rkssGetFileinfoByName s.dev filename.chars).2.1 ≤ i →
        i < infoIndex (rkssGetFileinfoByName s.dev filename.chars).2.1
          + extentLen (rkssGetFileinfoByName s.dev filename.chars).2.1 →
        2 ≤ flag s.dev.disk i
  | _ => True

instance (s : State) : (r : Request) → Decidable (KeepsMetadata s r)
  | .fsOpen _ _ _ => .isTrue trivial
  | .fsWrite fd _ _ => inferInstanceAs (Decidable (TableFd s fd))
  | .fsUnlink _ => inferInstanceAs (Decidable (_ → ∀ i, i < 129 → _))
  | .fsLink _ _ => .isTrue trivial
  | .fsRename _ _ => .isTrue trivial
  | .fsTrunc fd _ => inferInstanceAs (Decidable (TableFd s fd))

/-- The changes of the disk that are updates of the table or of the flags. -/
inductive TableUpdates (disk : Mem) : Mem → Prop
  | refl : TableUpdates disk disk
  | entry (d : Mem) (fd : Nat) (p : Mem) (hfd : fd < 512) (h : TableUpdates disk d) :
      TableUpdates disk (putEntry d fd p)
  | flags (d : Mem) (f : Nat → Nat) (num index : Nat) (hrange : index + num ≤ 1024)
      (h : TableUpdates disk d) : TableUpdates disk (updateFlags f num index d)

variable {disk disk' : Mem} {filled new : List Nat} {r : Request}

/-- A free run starts behind the metadata as long as the metadata flags are set. -/
theorem free_run_behind_metadata (hflags : ∀ s, s ≤ 128 → flag disk s ≠ 0) {index num : Nat}
    (hnum : 0 < num) (hfree : ∀ s, index ≤ s → s < index + num → flag disk s = 0) :
    129 ≤ index := by
  by_contra hlt
  exact hflags index (by omega) (hfree index le_rfl (by omega))

theorem MetaSafe.free_index (h : MetaSafe disk filled) {index num : Nat} (hnum : 0 < num)
    (hfree : ∀ s, index ≤ s → s < index + num → flag disk s = 0) : 129 ≤ index :=
  free_run_behind_metadata (fun s hs => Nat.ne_of_gt (h.flags s hs)) hnum hfree

/-! ## The primitives keep the invariant -/

theorem MetaSafe.putEntry (h : MetaSafe disk filled) {fd : Nat} (hfd : fd < 512) {p : Mem}
    (hp : infoUsed p ≠ 0 → infoIndex p = 0 ∨ 129 ≤ infoIndex p) :
    MetaSafe (putEntry disk fd p) filled := by
  refine ⟨?_, ?_, h.filled⟩
  · intro s hs
    rw [flag_putEntry _ _ _ _ hfd (by omega)]
    exact h.flags s hs
  · intro fd' hfd' hused
    by_cases he : fd' = fd
    · subst he
      rw [entry_putEntry_same] at hused ⊢
      exact hp hused
    · rw [entry_putEntry_ne _ _ _ _ he] at hused ⊢
      exact h.index fd' hfd' hused

theorem MetaSafe.updateFlags (h : MetaSafe disk filled) {f : Nat → Nat} (hf : Keeps4Bits f)
    {num index : Nat} (hrange : index + num ≤ 1024 ∨ num = 0)
    (hpos : ∀ s, s ≤ 128 → index ≤ s → s < index + num → 1 ≤ f (flag disk s)) :
    MetaSafe (updateFlags f num index disk) filled := by
  refine ⟨?_, ?_, h.filled⟩
  · intro s hs
    rw [flag_updateFlags _ _ _ _ hf]
    split
    · next hin => exact hpos s hs hin.1 hin.2
    · exact h.flags s hs
  · intro fd hfd
    rw [entry_updateFlags _ _ _ _ _ hrange hfd]
    exact h.index fd hfd

theorem MetaSafe.storeData (h : MetaSafe disk filled) {index : Nat} (hi : 129 ≤ index) (data : Mem)
    (num lastw left : Nat) : MetaSafe (storeData data num index lastw left disk) filled := by
  refine ⟨?_, ?_, h.filled⟩
  · intro s hs
    rw [flag_storeData _ _ _ _ _ _ hi s (by omega)]
    exact h.flags s hs
  · intro fd hfd
    rw [entry_storeData _ _ _ _ _ _ _ hi hfd]
    exact h.index fd hfd

theorem incref_pos (v : Nat) : 1 ≤ incref v := by
  unfold incref
  split <;> omega

theorem decref_pos (v : Nat) (h : 2 ≤ v) : 1 ≤ decref v := by
  unfold decref
  omega

/-! ## A request keeps the invariant -/

theorem MetaSafe.effect {seek : Int} (h : MetaSafe disk filled) (hshort : ShortNames r)
    (hkeep : KeepsMetadata ⟨reliable disk, seek, filled⟩ r) (he : Effect disk r disk' new) :
    MetaSafe disk' (new ++ filled) := by
  cases he with
  | unchanged => exact h
  | create filename flags len fd hfd hfree hlen habsent hcreat =>
    exact h.putEntry hfd (fun _ => .inl (by simp))
  | write fd len data index hused hempty hrun =>
    have hfd := fd_lt_of_used hused hkeep
    have hi := h.free_index (Nat.succ_pos _) hrun.2
    have hrange := hrun.1
    obtain ⟨-, hindex, -⟩ := writtenInfo_fields (entry disk fd) len index
    have hstore := ((h.updateFlags keeps4Bits_incref (.inl hrange)
      (fun _ _ _ _ => incref_pos _)).putEntry hfd (p := writtenInfo (entry disk fd) len index)
      (fun _ => .inr (by omega))).storeData hi data (len / 512 + 1) 0 (len % 65536)
    refine ⟨hstore.flags, hstore.index, ?_⟩
    intro s hs
    rcases List.mem_append.1 hs with hs | hs
    · rw [List.mem_reverse, List.mem_range'_1] at hs
      omega
    · exact h.filled s hs
  | unlink filename fd hfound hrange =>
    simp only [KeepsMetadata, hfound.lookup] at hkeep
    refine (h.updateFlags keeps4Bits_decref (.inl hrange) ?_).putEntry hfound.lt (fun hz => ?_)
    · intro s hs hlo hhi
      exact decref_pos _ (hkeep (by omega) s (by omega) hlo hhi)
    · exact absurd rfl hz
  | unlinkStopped filename fd hfound hrange =>
    simp only [KeepsMetadata, hfound.lookup] at hkeep
    refine h.updateFlags keeps4Bits_decref (reachedLen_range _) ?_
    intro s hs hlo hhi
    exact decref_pos _ (hkeep (by omega) s (by omega) hlo (by omega))
  | link filename newfilename fd fd' hfound hexist pNew hcopy hfd' hfree =>
    have hlen := hshort.link
    subst hcopy
    refine (h.putEntry hfd' (fun _ => ?_)).updateFlags keeps4Bits_incref (reachedLen_range _)
      (fun _ _ _ _ => incref_pos _)
    rw [infoIndex_stamped, infoIndex_strcpy _ _ hlen]
    exact h.index fd hfound.lt hfound.used
  | rename filenames newnames fd hfound =>
    have hlen := hshort.rename
    refine h.putEntry hfound.lt (fun _ => ?_)
    rw [infoIndex_strcpy _ _ hlen]
    exact h.index fd hfound.lt hfound.used
  | truncate fd arg hused =>
    have hfd := fd_lt_of_used hused hkeep
    refine h.putEntry hfd (fun hu => ?_)
    rw [infoUsed_truncated] at hu
    rw [infoIndex_truncated]
    exact h.index fd hfd hu

theorem TableUpdates.reached {d : Mem} (h : TableUpdates disk d) (f : Nat → Nat) (p : Mem) :
    TableUpdates disk (Rkss.updateFlags f (reachedLen p) (infoIndex p) d) := by
  rcases reachedLen_range p with hr | hr
  · exact .flags _ _ _ _ hr h
  · rw [hr]
    exact h

/-- Up to the end of the used-flags section, a request only updates the table and the flags. -/
theorem MetaSafe.table_updates {seek : Int} (h : MetaSafe disk filled)
    (hkeep : KeepsMetadata ⟨reliable disk, seek, filled⟩ r) (he : Effect disk r disk' new) :
    ∃ d, TableUpdates disk d ∧ disk'.AgreeOn d 0 66048 := by
  cases he with
  | unchanged => exact ⟨_, .refl, fun _ _ _ => rfl⟩
  | create filename flags len fd hfd hfree hlen habsent hcreat =>
    exact ⟨_, .entry _ _ _ hfd .refl, fun _ _ _ => rfl⟩
  | write fd len data index hused hempty hrun =>
    have hi := h.free_index (Nat.succ_pos _) hrun.2
    exact ⟨_, .entry _ _ _ (fd_lt_of_used hused hkeep) (.flags _ _ _ _ hrun.1 .refl),
      fun x _ hx => storeData_apply_out _ _ _ _ _ _ _ (by omega)⟩
  | unlink filename fd hfound hrange =>
    exact ⟨_, .entry _ _ _ hfound.lt (.flags _ _ _ _ hrange .refl), fun _ _ _ => rfl⟩
  | unlinkStopped filename fd hfound hrange =>
    exact ⟨_, TableUpdates.refl.reached _ _, fun _ _ _ => rfl⟩
  | link filename newfilename fd fd' hfound hexist pNew hcopy hfd' hfree =>
    exact ⟨_, (TableUpdates.entry _ _ _ hfd' .refl).reached _ _, fun _ _ _ => rfl⟩
  | rename filenames newnames fd hfound =>
    exact ⟨_, .entry _ _ _ hfound.lt .refl, fun _ _ _ => rfl⟩
  | truncate fd arg hused =>
    exact ⟨_, .entry _ _ _ (fd_lt_of_used hused hkeep) .refl, fun _ _ _ => rfl⟩

theorem freshDisk_metaSafe : MetaSafe freshDisk [] := by
  refine ⟨?_, ?_, ?_⟩
  · decide
  · intro fd hfd hused
    exact absurd (infoUsed_freshDisk fd hfd) hused
  · intro s hs
    cases hs

/-! ## Whole runs -/

/-- **Along every run of requests with names of at most 116 characters that keep the metadata
    flags, file data goes to sections from 129 on only, and in the state reached the next such
    request changes sections 0 to 128 through table and flag updates only.** -/
theorem data_off_metadata (rs : List Request)
    (h : Run.AlongExec step (fun s r => ShortNames r ∧ KeepsMetadata s r) start rs) :
    ∃ s, Run.exec step start rs = some s ∧ (∀ sec ∈ s.filled, 129 ≤ sec) ∧
      ∀ r, ShortNames r → KeepsMetadata s r → ∀ s', step s r = some s' →
        ∃ d, TableUpdates s.dev.disk d ∧ s'.dev.disk.AgreeOn d 0 66048 := by
  rw [start_eq] at h ⊢
  obtain ⟨disk, seek, filled, hexec, hI⟩ :=
    run_invariant (C := fun s r => ShortNames r ∧ KeepsMetadata s r) (fun s _ hC => hC.1.fits s)
      (fun _ _ _ _ _ _ hI hC he => MetaSafe.effect hI hC.1 hC.2 he)
      rs freshDisk 0 [] freshDisk_metaSafe h
  refine ⟨_, hexec, hI.filled, ?_⟩
  intro r _ hkeep s' hs'
  obtain ⟨disk', seek', new, rfl, he⟩ := step_effect hs'
  exact hI.table_updates hkeep he

/-- A file of two sections is written, linked and unlinked again, and another one is written. -/
theorem data_off_metadata_linked :
    ∃ s, Run.exec step start [.fsOpen fileA 8 0, .fsWrite 0 600 Mem.zero, .fsLink fileA fileB,
        .fsUnlink fileA, .fsOpen fileA 8 0, .fsWrite 0 5 Mem.zero] = some s ∧
      (∀ sec ∈ s.filled, 129 ≤ sec) ∧
      ∀ r, ShortNames r → KeepsMetadata s r → ∀ s', step s r = some s' →
        ∃ d, TableUpdates s.dev.disk d ∧ s'.dev.disk.AgreeOn d 0 66048 :=
  data_off_metadata _ (by rw [start_eq]; decide +kernel)

/-- Unlinking a file that was never written releases section 0, and the next write of a file puts
    its data there. -/
theorem unlink_unwritten_releases_table :
    ∃ s, Run.exec step start [.fsOpen fileA 8 0, .fsUnlink fileA, .fsOpen fileA 8 0,
        .fsWrite 0 1 Mem.zero] = some s ∧ 0 ∈ s.filled := by
  have h : (Run.exec step start [.fsOpen fileA 8 0, .fsUnlink fileA, .fsOpen fileA 8 0,
      .fsWrite 0 1 Mem.zero]).map State.filled = some [0] := by
    rw [start_eq]
    decide +kernel
  obtain ⟨s, hs, hfilled⟩ := Option.map_eq_some_iff.1 h
  exact ⟨s, hs, by rw [hfilled]; exact List.mem_singleton.2 rfl⟩

end Rkss
