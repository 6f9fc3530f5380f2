import RkUboot.Rkss.Metadata

set_option autoImplicit false

/-! # The used flags count references

The flag of a data section is meant to be the number of used records whose extent contains it.
Every request that keeps the two in step replaces one record and moves the flags by the difference
between the extents of the new and the old record; `Counted.replace` is that argument, once.

Three requests get them out of step: a write to a file that has data allocates a new extent and
never releases the old one, a truncation that changes the number of sections moves no flag, and the
unlinking of an unwritten file releases metadata sections (see `KeepsMetadata`). -/

namespace Rkss

/-- The record is used and its extent contains section `s`. -/
def Covers (p : Mem) (s : Nat) : Prop :=
  infoUsed p ≠ 0 ∧ infoIndex p ≤ s ∧ s ≤ infoIndex p + infoSize p / 512
  deriving Decidable

/-- The number of used records whose extent contains section `s`. -/
def refs (disk : Mem) (s : Nat) : Nat :=
  ((Finset.range 512).filter (fun fd => Covers (entry disk fd) s)).card

/-- The flags of the data sections count the references, and the extents are on the partition. -/
structure Counted (disk : Mem) (filled : List Nat) : Prop extends MetaSafe disk filled where
  extent : ∀ fd, fd < 512 → infoUsed (entry disk fd) ≠ 0 → 129 ≤ infoIndex (entry disk fd) →
    infoIndex (entry disk fd) + infoSize (entry disk fd) / 512 ≤ 1023
  count : ∀ s, 129 ≤ s → s < 1024 → flag disk s = refs disk s

/-! ## Replacing one record -/

/-- Changing a predicate at one element of a finite set changes the number of elements that satisfy
    it by that element. -/
theorem card_filter_change {α : Type*} [DecidableEq α] (S : Finset α) (P Q : α → Prop)
    [DecidablePred P] [DecidablePred Q] (a : α) (ha : a ∈ S) (h : ∀ b ∈ S, b ≠ a → (P b ↔ Q b)) :
    (S.filter Q).card + (if P a then 1 else 0) = (S.filter P).card + (if Q a then 1 else 0) := by
  have hrest : ((S.erase a).filter Q).card = ((S.erase a).filter P).card := by
    apply congrArg
    apply Finset.filter_congr
    intro b hb
    exact (h b (Finset.mem_of_mem_erase hb) (Finset.ne_of_mem_erase hb)).symm
  have hsplit : ∀ (R : α → Prop) [DecidablePred R],
      (S.filter R).card = (if R a then 1 else 0) + ((S.erase a).filter R).card := by
    intro R _
    rw [Finset.card_filter, Finset.card_filter]
    exact (Finset.add_sum_erase S (fun i => if R i then 1 else 0) ha).symm
  rw [hsplit Q, hsplit P, hrest]
  omega

variable {disk disk' : Mem} {filled new : List Nat} {r : Request} {fd : Nat} {p : Mem}

theorem covers_trim (s : Nat) : Covers (trim p) s ↔ Covers p s := by
  unfold Covers
  simp

theorem refs_replace (h : Replaces disk disk' fd p) (hfd : fd < 512) (s : Nat) :
    refs disk' s + (if Covers (entry disk fd) s then 1 else 0)
      = refs disk s + (if Covers p s then 1 else 0) := by
  have hchange := card_filter_change (Finset.range 512) (fun fd => Covers (entry disk fd) s)
    (fun fd => Covers (entry disk' fd) s) fd (Finset.mem_range.2 hfd)
    (fun fd' hfd' hne => by rw [h.other fd' (Finset.mem_range.1 hfd') hne])
  unfold refs
  rw [hchange, h.same, if_congr (covers_trim s) rfl rfl]

variable {filled' : List Nat}

/-- **A replaced record keeps the counts when the flags move by the difference of the extents.** -/
theorem Counted.replace (h : Counted disk filled)
    (hmeta : MetaSafe disk' filled') (hrep : Replaces disk disk' fd p) (hfd : fd < 512)
    (hextent : infoUsed p ≠ 0 → 129 ≤ infoIndex p → infoIndex p + infoSize p / 512 ≤ 1023)
    (hflag : ∀ s, 129 ≤ s → s < 1024 → flag disk' s + (if Covers (entry disk fd) s then 1 else 0)
      = flag disk s + (if Covers p s then 1 else 0)) :
    Counted disk' filled' := by
  refine ⟨hmeta, ?_, ?_⟩
  · intro fd' hfd' hused hi
    by_cases he : fd' = fd
    · subst he
      rw [hrep.same] at hused hi ⊢
      exact hextent hused hi
    · rw [hrep.other fd' hfd' he] at hused hi ⊢
      exact h.extent fd' hfd' hused hi
  · intro s hs hs'
    have hrefs := refs_replace hrep hfd s
    have hf := hflag s hs hs'
    rw [h.count s hs hs'] at hf
    omega

/-! ## What each extent covers -/

theorem covers_iff (hused : infoUsed p ≠ 0) (s : Nat) :
    Covers p s ↔ infoIndex p ≤ s ∧ s < infoIndex p + extentLen p := by
  unfold Covers extentLen
  constructor
  · omega
  · rintro ⟨h1, h2⟩
    exact ⟨hused, h1, by omega⟩

theorem not_covers_unused (h : infoUsed p = 0) (s : Nat) : ¬ Covers p s :=
  fun hc => hc.1 h

variable {s : Nat}

/-- An unwritten file claims metadata sections only. -/
theorem not_covers_unwritten (h : infoIndex p = 0) (hs : 129 ≤ s) : ¬ Covers p s := by
  have hsize : infoSize p < 65536 := Mem.u16_lt _ _
  rintro ⟨-, -, hle⟩
  omega

theorem refs_pos (hfd : fd < 512) (h : Covers (entry disk fd) s) : 0 < refs disk s :=
  Finset.card_pos.2 ⟨fd, Finset.mem_filter.2 ⟨Finset.mem_range.2 hfd, h⟩⟩

/-- Under the invariant the extent of a used record ends on the partition. -/
theorem Counted.range (h : Counted disk filled) (hfd : fd < 512)
    (hused : infoUsed (entry disk fd) ≠ 0) :
    infoIndex (entry disk fd) + extentLen (entry disk fd) ≤ 1024 := by
  have hsize : infoSize (entry disk fd) < 65536 := Mem.u16_lt _ _
  unfold extentLen
  rcases h.index fd hfd hused with hi | hi
  · omega
  · have := h.extent fd hfd hused hi
    omega

/-! ## Requests -/

/-- The limits on requests: names of at most 116 characters, data shorter than 65536 bytes, and no
    link to an extent that has 15 links. -/
def WithinLimits (s : State) (r : Request) : Prop :=
  ShortNames r ∧
    match r with
    | .fsWrite _ len _ => len < 65536
    | .fsLink filename _ =>
      0 ≤ (rkssGetFileinfoByName s.dev filename.chars).1 →
        ∀ sec, sec < 1024 → 129 ≤ sec →
          Covers (rkssGetFileinfoByName s.dev filename.chars).2.1 sec → refs s.dev.disk sec < 15
    | _ => True

/-- What a request must meet in the state before it for the flags to stay in step: the metadata
    flags are kept, a file is written once only (or there is no room), and a truncation leaves the
    number of sections of a written file as it is. -/
def KeepsCounts (s : State) (r : Request) : Prop :=
  KeepsMetadata s r ∧
    match r with
    | .fsWrite fd len _ =>
      ∀ p ∈ (rkssGetFileinfoByIndex s.dev fd.toNat).1,
        infoIndex p = 0 ∨ (rkssGetEmptySectionFromUsedflags s.dev (len / 512 + 1)).1 < 0
    | .fsTrunc fd arg =>
      ∀ p ∈ (rkssGetFileinfoByIndex s.dev fd.toNat).1,
        infoIndex p = 0 ∨ (arg % 65536).toNat / 512 = infoSize p / 512
    | _ => True

instance (s : State) : (r : Request) → Decidable (WithinLimits s r)
  | .fsOpen _ _ _ => inferInstanceAs (Decidable (_ ∧ True))
  | .fsWrite _ len _ => inferInstanceAs (Decidable (_ ∧ len < 65536))
  | .fsUnlink _ => inferInstanceAs (Decidable (_ ∧ True))
  | .fsLink _ _ => inferInstanceAs (Decidable (_ ∧ (_ → ∀ sec, sec < 1024 → _)))
  | .fsRename _ _ => inferInstanceAs (Decidable (_ ∧ True))
  | .fsTrunc _ _ => inferInstanceAs (Decidable (_ ∧ True))

instance (s : State) : (r : Request) → Decidable (KeepsCounts s r)
  | .fsOpen _ _ _ => inferInstanceAs (Decidable (_ ∧ True))
  | .fsWrite _ _ _ => inferInstanceAs (Decidable (_ ∧ ∀ p ∈ _, (_ ∨ _)))
  | .fsUnlink _ => inferInstanceAs (Decidable (_ ∧ True))
  | .fsLink _ _ => inferInstanceAs (Decidable (_ ∧ True))
  | .fsRename _ _ => inferInstanceAs (Decidable (_ ∧ True))
  | .fsTrunc _ _ => inferInstanceAs (Decidable (_ ∧ ∀ p ∈ _, (_ ∨ _)))

theorem fileinfo_of_used {disk : Mem} {fd : Nat} (hused : infoUsed (entry disk fd) = 1) :
    (rkssGetFileinfoByIndex (reliable disk) (fd : Int).toNat).1 = some (entry disk fd) := by
  rw [Int.toNat_natCast, rkssGetFileinfoByIndex_reliable, if_pos hused]

/-! ## One lemma a request -/

/-- A record stored over one that covers the same data sections. -/
theorem Counted.sameCovers (h : Counted disk filled) (hfd : fd < 512)
    (hmeta : MetaSafe (putEntry disk fd p) filled')
    (hextent : infoUsed p ≠ 0 → 129 ≤ infoIndex p → infoIndex p + infoSize p / 512 ≤ 1023)
    (hcovers : ∀ s, 129 ≤ s → (Covers p s ↔ Covers (entry disk fd) s)) :
    Counted (putEntry disk fd p) filled' := by
  refine h.replace hmeta (.putEntry (fun _ _ => rfl) _ _) hfd hextent ?_
  intro s hs hs'
  rw [flag_putEntry _ _ _ _ hfd hs', if_congr (hcovers s hs) rfl rfl]

/-- An unwritten file stored over a record that covers no data section. -/
theorem Counted.unwritten (h : Counted disk filled) (hfd : fd < 512)
    (hmeta : MetaSafe (putEntry disk fd p) filled') (hindex : infoIndex p = 0)
    (hold : ∀ s, 129 ≤ s → ¬ Covers (entry disk fd) s) :
    Counted (putEntry disk fd p) filled' := by
  refine h.sameCovers hfd hmeta (fun _ hi => ?_) ?_
  · omega
  · intro s hs
    exact iff_of_false (not_covers_unwritten hindex hs) (hold s hs)

/-- A write to an unwritten file takes free sections, whose flags become 1. -/
theorem Counted.write (h : Counted disk filled) {len index : Nat} {data : Mem}
    (hlen : len < 65536) (hfd : fd < 512) (hold : infoIndex (entry disk fd) = 0)
    (hi : 129 ≤ index) (hrun : FreeRun disk (len / 512 + 1) index)
    (hmeta : MetaSafe (writtenDisk disk fd len index data) filled') :
    Counted (writtenDisk disk fd len index data) filled' := by
  have hrange := hrun.1
  obtain ⟨hused, hindex, hsize⟩ := writtenInfo_fields (entry disk fd) len index
  rw [Nat.mod_eq_of_lt (by omega)] at hindex hsize
  refine h.replace hmeta ((Replaces.putEntry_updateFlags hrange fd _).storeData hfd hi ..) hfd
    (fun _ _ => ?_) ?_
  · omega
  intro s hs hs'
  rw [writtenDisk, flag_storeData _ _ _ _ _ _ hi s hs', flag_putEntry _ _ _ _ hfd hs',
    flag_updateFlags _ _ _ _ keeps4Bits_incref, if_neg (not_covers_unwritten hold hs),
    if_congr (covers_iff (by rw [hused]; decide) s) rfl rfl, extentLen, hindex, hsize]
  split
  · next hin =>
    rw [hrun.2 s hin.1 hin.2]
    rfl
  · rfl

/-- An unlinked file is one of those its sections count. -/
theorem Counted.unlink (h : Counted disk filled) (hfd : fd < 512)
    (hused : infoUsed (entry disk fd) ≠ 0)
    (hmeta : MetaSafe (putEntry (updateFlags decref (extentLen (entry disk fd))
      (infoIndex (entry disk fd)) disk) fd Mem.zero) filled') :
    Counted (putEntry (updateFlags decref (extentLen (entry disk fd))
      (infoIndex (entry disk fd)) disk) fd Mem.zero) filled' := by
  refine h.replace hmeta (.putEntry_updateFlags (h.range hfd hused) fd _) hfd
    (fun hz => absurd rfl hz) ?_
  intro s hs hs'
  have hcount := h.count s hs hs'
  rw [flag_putEntry _ _ _ _ hfd hs', flag_updateFlags _ _ _ _ keeps4Bits_decref,
    if_neg (not_covers_unused infoUsed_zero s), if_congr (covers_iff hused s) rfl rfl]
  split
  · next hin =>
    have hpos := refs_pos hfd ((covers_iff hused s).2 hin)
    unfold decref
    omega
  · rfl

/-- A link adds a record with the extent of an existing one, whose flags have room. -/
theorem Counted.link (h : Counted disk filled) {fd' : Nat} (hfd : fd < 512)
    (hused : infoUsed (entry disk fd) ≠ 0) (hfd' : fd' < 512)
    (hfree : infoUsed (entry disk fd') = 0) (hindex : infoIndex p = infoIndex (entry disk fd))
    (hsize : infoSize p = infoSize (entry disk fd))
    (hlinks : ∀ s, s < 1024 → 129 ≤ s → Covers (entry disk fd) s → refs disk s < 15)
    (hmeta : MetaSafe (updateFlags incref (reachedLen p) (infoIndex p)
      (putEntry disk fd' (stamped p fd'))) filled') :
    Counted (updateFlags incref (reachedLen p) (infoIndex p)
      (putEntry disk fd' (stamped p fd'))) filled' := by
  have hrange := h.range hfd hused
  have hlen : extentLen p = extentLen (entry disk fd) := by
    unfold extentLen
    rw [hsize]
  have hreached : reachedLen p = extentLen (entry disk fd) := by
    unfold reachedLen
    rw [hlen, hindex]
    exact Nat.min_eq_left (by omega)
  have hcovers : ∀ s, Covers (stamped p fd') s ↔ Covers (entry disk fd) s := by
    intro s
    rw [covers_iff (by simp), covers_iff hused, infoIndex_stamped, hindex, extentLen,
      infoSize_stamped, hsize, extentLen]
  refine h.replace hmeta ((Replaces.putEntry (fun _ _ => rfl) fd' _).updateFlags hfd'
    (reachedLen_range _)) hfd' (fun _ hi => ?_) ?_
  · rw [infoIndex_stamped, hindex] at hi ⊢
    rw [infoSize_stamped, hsize]
    exact h.extent fd hfd hused hi
  intro s hs hs'
  rw [flag_updateFlags _ _ _ _ keeps4Bits_incref, flag_putEntry _ _ _ _ hfd' hs', hreached,
    hindex, if_neg (not_covers_unused hfree s), if_congr (hcovers s) rfl rfl,
    if_congr (covers_iff hused s) rfl rfl]
  split
  · next hin =>
    have hlt := hlinks s hs' hs ((covers_iff hused s).2 hin)
    have hcount := h.count s hs hs'
    unfold incref
    rw [if_neg (by omega)]
  · rfl

theorem Counted.rename (h : Counted disk filled) (hfd : fd < 512)
    (hused : infoUsed (entry disk fd) ≠ 0) {newnames : List UInt8} (hlen : newnames.length ≤ 116)
    (hmeta : MetaSafe (putEntry disk fd ((entry disk fd).strcpy 1 newnames)) filled') :
    Counted (putEntry disk fd ((entry disk fd).strcpy 1 newnames)) filled' := by
  have hindex := infoIndex_strcpy (entry disk fd) _ hlen
  have hsize := infoSize_strcpy (entry disk fd) _ hlen
  refine h.sameCovers hfd hmeta (fun _ hi => ?_) ?_
  · rw [hindex] at hi ⊢
    rw [hsize]
    exact h.extent fd hfd hused hi
  · intro s _
    unfold Covers
    rw [hindex, hsize, infoUsed_strcpy]

theorem Counted.truncate (h : Counted disk filled) (hfd : fd < 512)
    (hused : infoUsed (entry disk fd) ≠ 0) {v : Nat} (hv : v < 65536)
    (hkeep : infoIndex (entry disk fd) = 0 ∨ v / 512 = infoSize (entry disk fd) / 512)
    (hmeta : MetaSafe (putEntry disk fd ((entry disk fd).set16 120 v)) filled') :
    Counted (putEntry disk fd ((entry disk fd).set16 120 v)) filled' := by
  have hsize : infoSize ((entry disk fd).set16 120 v) = v :=
    (Mem.u16_set16_same ..).trans (Nat.mod_eq_of_lt hv)
  rcases hkeep with h0 | hsame
  · exact h.unwritten hfd hmeta (by rw [infoIndex_truncated, h0])
      (fun s hs => not_covers_unwritten h0 hs)
  refine h.sameCovers hfd hmeta (fun _ hi => ?_) ?_
  · rw [infoIndex_truncated] at hi ⊢
    rw [hsize, hsame]
    exact h.extent fd hfd hused hi
  · intro s _
    unfold Covers
    rw [infoUsed_truncated, infoIndex_truncated, hsize, hsame]

theorem Counted.effect {seek : Int} (h : Counted disk filled)
    (hlim : WithinLimits ⟨reliable disk, seek, filled⟩ r)
    (hkeep : KeepsCounts ⟨reliable disk, seek, filled⟩ r) (he : Effect disk r disk' new) :
    Counted disk' (new ++ filled) := by
  have hmeta := h.toMetaSafe.effect hlim.1 hkeep.1 he
  cases he with
  | unchanged => exact h
  | create filename flags len fd hfd hfree hlen habsent hcreat =>
    exact h.unwritten hfd hmeta (by simp) (fun s _ => not_covers_unused hfree s)
  | write fd len data index hused hempty hrun =>
    have hold : infoIndex (entry disk fd) = 0 := by
      rcases hkeep.2 _ (fileinfo_of_used hused) with h0 | hneg
      · exact h0
      · rw [hempty] at hneg
        omega
    exact h.write hlim.2 (fd_lt_of_used hused hkeep.1) hold
      (h.free_index (Nat.succ_pos _) hrun.2) hrun hmeta
  | unlink filename fd hfound hrange => exact h.unlink hfound.lt hfound.used hmeta
  | unlinkStopped filename fd hfound hrange =>
    exact absurd (h.range hfound.lt hfound.used) (not_le.2 hrange)
  | link filename newfilename fd fd' hfound hexist pNew hcopy hfd' hfree =>
    have hlen := hlim.1.link
    subst hcopy
    have hlinks := hlim.2
    simp only [hfound.lookup] at hlinks
    exact h.link hfound.lt hfound.used hfd' hfree (infoIndex_strcpy _ _ hlen)
      (infoSize_strcpy _ _ hlen) (hlinks (Int.natCast_nonneg fd)) hmeta
  | rename filenames newnames fd hfound =>
    exact h.rename hfound.lt hfound.used hlim.1.rename hmeta
  | truncate fd arg hused =>
    exact h.truncate (fd_lt_of_used hused hkeep.1) (by rw [hused]; decide) (by omega)
      (hkeep.2 _ (fileinfo_of_used hused)) hmeta

theorem freshDisk_counted : Counted freshDisk [] := by
  refine ⟨freshDisk_metaSafe, ?_, ?_⟩
  · intro fd hfd hused
    exact absurd (infoUsed_freshDisk fd hfd) hused
  intro s hs hs'
  rw [flag_freshDisk s hs', if_neg (by omega)]
  refine (Finset.card_eq_zero.2 ?_).symm
  apply Finset.filter_eq_empty_iff.2
  intro fd hfd
  exact not_covers_unused (infoUsed_freshDisk fd (Finset.mem_range.1 hfd)) s

/-! ## Whole runs -/

theorem run_counted (rs : List Request)
    (h : Run.AlongExec step (fun s r => WithinLimits s r ∧ KeepsCounts s r) start rs) :
    ∃ disk seek filled, Run.exec step start rs = some ⟨reliable disk, seek, filled⟩ ∧
      Counted disk filled := by
  rw [start_eq] at h ⊢
  exact run_invariant (C := fun s r => WithinLimits s r ∧ KeepsCounts s r) (fun s _ hC => hC.1.1.fits s)
    (fun _ _ _ _ _ _ hI hC he => Counted.effect hI hC.1 hC.2 he)
    rs freshDisk 0 [] freshDisk_counted h

/-- **Along every run within the limits whose requests meet `KeepsCounts`, the flag of every data
    section is the number of used records whose extent contains it.** -/
theorem flags_count_references (rs : List Request)
    (h : Run.AlongExec step (fun s r => WithinLimits s r ∧ KeepsCounts s r) start rs) :
    ∃ s, Run.exec step start rs = some s ∧
      ∀ sec, 129 ≤ sec → sec ≤ 1023 → flag s.dev.disk sec = refs s.dev.disk sec := by
  obtain ⟨disk, seek, filled, hexec, hI⟩ := run_counted rs h
  exact ⟨_, hexec, fun sec hs hs' => hI.count sec hs (by omega)⟩

/-- A file of two sections is written, linked, renamed, shortened within its last section and
    unlinked under its second name. -/
theorem flags_count_references_linked :
    ∃ s, Run.exec step start [.fsOpen fileA 8 0, .fsWrite 0 600 Mem.zero, .fsLink fileA fileB,
        .fsRename fileA ⟨[99], by decide⟩, .fsTrunc 0 520, .fsUnlink fileB] = some s ∧
      ∀ sec, 129 ≤ sec → sec ≤ 1023 → flag s.dev.disk sec = refs s.dev.disk sec :=
  flags_count_references _ (by rw [start_eq]; decide +kernel)

/-- A file is written twice: the flag of its first section stays 1, though no record refers to
    that section any more. -/
theorem rewrite_leaks_section :
    ∃ s, Run.exec step start [.fsOpen fileA 8 0, .fsWrite 0 1 Mem.zero, .fsWrite 0 1 Mem.zero]
        = some s ∧ flag s.dev.disk 129 = 1 ∧ refs s.dev.disk 129 = 0 := by
  have h : (Run.exec step start [.fsOpen fileA 8 0, .fsWrite 0 1 Mem.zero,
      .fsWrite 0 1 Mem.zero]).map (fun s => (flag s.dev.disk 129, refs s.dev.disk 129))
        = some (1, 0) := by
    rw [start_eq]
    decide +kernel
  obtain ⟨s, hs, hpair⟩ := Option.map_eq_some_iff.1 h
  exact ⟨s, hs, Prod.mk.inj hpair⟩

end Rkss
