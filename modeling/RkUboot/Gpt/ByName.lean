import RkUboot.Gpt.RoundTrip

set_option autoImplicit false

/-! # Partitions by name (`get_partition_info_efi_by_name`)

The loop asks for the entries one after the other and takes the first that it cannot get for the end
of the table. A table may have unused entries anywhere, and the loop leaves out the last one, so what
is found depends on where the unused entries are. -/

namespace Gpt

section Model

variable (crc32 : List UInt8 → UInt32) (memalign : Nat → Bool) (before : Mem)

/-- The loop of `get_partition_info_efi_by_name`, `k` entries to go from `i`, on a device that gives
    the same answer each time. -/
def byNameLoop (d : BlockDevDesc) (name : List UInt8) : Nat → Nat → Int × Option PartitionInfo
  | 0, _ => (-2, none)
  | k + 1, i =>
    match getPartitionInfoEfi crc32 memalign before d i with
    | none => (-1, none)  -- no more entries in table
    | some info => if name = info.name then (0, some info) else byNameLoop d name k (i + 1)

/-- Model of `get_partition_info_efi_by_name`. -/
def getPartitionInfoEfiByName (d : BlockDevDesc) (name : List UInt8) : Int × Option PartitionInfo :=
  byNameLoop crc32 memalign before d name (gptEntryNumbers - 1) 1

end Model

/-- Entry `i` of a table in memory. -/
def tableEntry (pte : Mem) (i : Nat) : GptEntry := .ofMem pte (128 * i)

/-- The entry has a name of at most 31 printable characters. -/
def Readable (e : GptEntry) : Prop :=
  ∃ n, n.length ≤ 31 ∧ (∀ c ∈ n, isprint c = true) ∧ HasName e n

theorem Readable.printEfiname_eq_iff {e : GptEntry} (he : Readable e) (name : List UInt8) :
    name = printEfiname e ↔ HasName e name := by
  obtain ⟨n, -, hprint, hn⟩ := he
  rw [printEfiname_of_hasName hn hprint]
  constructor
  · rintro rfl
    exact hn
  intro hname
  have hinj : Function.Injective UInt8.toUInt16 := fun a b h => by
    have h' := congrArg UInt16.toUInt8 h
    simpa using h'
  exact List.map_injective_iff.mpr hinj (hname.symm.trans hn)

/-- Entry `i` is the first one in use that has the name. -/
def FirstNamed (pte : Mem) (name : List UInt8) (i : Nat) : Prop :=
  (isPteValid (tableEntry pte i) = true ∧ HasName (tableEntry pte i) name) ∧
    ∀ j < i, ¬ (isPteValid (tableEntry pte j) = true ∧ HasName (tableEntry pte j) name)

variable {crc32 : List UInt8 → UInt32} {memalign : Nat → Bool} {before : Mem} {d : BlockDevDesc}
  {h : GptHeader} {pte : Mem}

/-- The loop passes over entries in use with another name, up to one with the name or to the first
    that is not in use. -/
theorem byNameLoop_spec (name : List UInt8)
    (hread : readTable crc32 memalign before d = some (h, pte)) (hnum : h.numPartitionEntries = 128)
    (hnames : ∀ i < 128, isPteValid (tableEntry pte i) = true → Readable (tableEntry pte i))
    (k i : Nat) (hk : i + k ≤ 128) :
    ∃ m, i ≤ m ∧ m ≤ i + k ∧
      (∀ j, i ≤ j → j < m → isPteValid (tableEntry pte j) = true ∧ ¬ HasName (tableEntry pte j) name) ∧
      ((byNameLoop crc32 memalign before d name k (i + 1)).1 ≠ 0 ∧
          (m = i + k ∨ isPteValid (tableEntry pte m) = false) ∨
        m < i + k ∧ isPteValid (tableEntry pte m) = true ∧ HasName (tableEntry pte m) name ∧
          byNameLoop crc32 memalign before d name k (i + 1) = (0, some (.ofEntry (tableEntry pte m)))) := by
  induction k generalizing i with
  | zero => exact ⟨i, le_rfl, le_rfl, fun j hj hj' => by omega, .inl ⟨by simp [byNameLoop], .inl rfl⟩⟩
  | succ k ih =>
    have hget : getPartitionInfoEfi crc32 memalign before d (i + 1)
        = if isPteValid (tableEntry pte i) = false then none else some (.ofEntry (tableEntry pte i)) := by
      rw [getPartitionInfoEfi, if_neg (by omega), hread]
      simp only [hnum, Nat.add_sub_cancel]
      exact if_congr (or_iff_right (by simp; omega)) rfl rfl
    rw [byNameLoop, hget]
    cases hvalid : isPteValid (tableEntry pte i) with
    | false =>
      rw [if_pos rfl]
      exact ⟨i, le_rfl, by omega, fun j hj hj' => by omega, .inl ⟨by simp, .inr hvalid⟩⟩
    | true =>
      rw [if_neg (by simp)]
      have hname : name = (PartitionInfo.ofEntry (tableEntry pte i)).name ↔ _ :=
        (hnames i (by omega) hvalid).printEfiname_eq_iff name
      dsimp only
      by_cases heq : name = (PartitionInfo.ofEntry (tableEntry pte i)).name
      · rw [if_pos heq]
        exact ⟨i, le_rfl, by omega, fun j hj hj' => by omega,
          .inr ⟨by omega, hvalid, hname.mp heq, rfl⟩⟩
      rw [if_neg heq]
      obtain ⟨m, him, hmk, hpassed, hend⟩ := ih (i + 1) (by omega)
      rw [show i + 1 + k = i + (k + 1) by omega] at hmk hend
      refine ⟨m, by omega, hmk, fun j hj hj' => ?_, hend⟩
      by_cases hji : j = i
      · rw [hji]
        exact ⟨hvalid, fun hn => heq (hname.mpr hn)⟩
      · exact hpassed j (by omega) hj'

/-- **What is found by name.** For every device with a valid primary table of 128 entries, whichever
    are in use: with 0 the first entry in use with the name is returned; and 0 is returned exactly if
    there is one, if and only if the first one is not entry 128 and no unused entry stands before it. -/
theorem getPartitionInfoEfiByName_iff {disk : Mem} (name : List UInt8)
    (hvalid : (isGptValid crc32 memalign before (d.quiet disk) 1).1 = some (h, pte))
    (hnum : h.numPartitionEntries = 128)
    (hnames : ∀ i < 128, isPteValid (tableEntry pte i) = true → Readable (tableEntry pte i)) :
    ((getPartitionInfoEfiByName crc32 memalign before (d.quiet disk) name).1 = 0 →
      ∃ i < 128, FirstNamed pte name i ∧
        getPartitionInfoEfiByName crc32 memalign before (d.quiet disk) name
          = (0, some (.ofEntry (tableEntry pte i)))) ∧
    (((getPartitionInfoEfiByName crc32 memalign before (d.quiet disk) name).1 = 0 ↔
        ∃ i < 128, isPteValid (tableEntry pte i) = true ∧ HasName (tableEntry pte i) name) ↔
      ∀ i < 128, FirstNamed pte name i → i < 127 ∧ ∀ j < i, isPteValid (tableEntry pte j) = true) := by
  have hread : readTable crc32 memalign before (d.quiet disk) = some (h, pte) := by
    rw [readTable]
    split
    · next heq =>
      rw [heq] at hvalid
      exact hvalid
    · next heq =>
      rw [heq] at hvalid
      cases hvalid
  obtain ⟨m, -, hm, hpassed, hend⟩ := byNameLoop_spec name hread hnum hnames 127 0 (by decide)
  have hfirst : ∀ i, FirstNamed pte name i → m ≤ i := fun i hi => by
    by_contra hlt
    exact (hpassed i (Nat.zero_le i) (by omega)).2 hi.1.2
  rcases hend with ⟨hret, hstop⟩ | ⟨hlt, hused, hname, hres⟩
  · -- nothing is found: the condition says that there is no entry with the name
    refine ⟨fun hzero => absurd hzero hret, fun hiff i hi hfi => ?_, fun hcond => ?_⟩
    · exact absurd (hiff.mpr ⟨i, hi, hfi.1⟩) hret
    refine ⟨fun hzero => absurd hzero hret, fun hex => ?_⟩
    classical
    have hmin : FirstNamed pte name (Nat.find hex) :=
      ⟨(Nat.find_spec hex).2, fun j hj hj' => Nat.find_min hex hj
        ⟨hj.trans (Nat.find_spec hex).1, hj'⟩⟩
    obtain ⟨hlast, hbefore⟩ := hcond _ (Nat.find_spec hex).1 hmin
    have hle := hfirst _ hmin
    rcases hstop with hstop | hunused
    · omega
    · rcases Nat.lt_or_eq_of_le hle with hlt | heq
      · exact absurd (hbefore m hlt) (by rw [hunused]; decide)
      · exact absurd hmin.1.1 (by rw [← heq, hunused]; decide)
  · have hmfirst : FirstNamed pte name m :=
      ⟨⟨hused, hname⟩, fun j hj hj' => (hpassed j (Nat.zero_le j) hj).2 hj'.2⟩
    refine ⟨fun _ => ⟨m, by omega, hmfirst, hres⟩, fun _ i hi hfi => ?_, fun _ => ?_⟩
    · obtain rfl : i = m := by
        refine le_antisymm ?_ (hfirst i hfi)
        by_contra hgt
        exact hfi.2 m (by omega) ⟨hused, hname⟩
      exact ⟨by omega, fun j hj => (hpassed j (Nat.zero_le j) hj).1⟩
    · exact ⟨fun _ => ⟨m, by omega, hused, hname⟩, fun _ => congrArg Prod.fst hres⟩

/-- A device with one entry in use, entry `i`, with the name boot. -/
def bootAt (i : Nat) : BlockDevDesc :=
  emptyDevice.quiet (match gptFillHeader emptyDevice sampleUuid, gptFillPte 66 34 bootAndData with
    | some h, some (e :: _) =>
      (Mem.zero.copy 512 (Mem.ofList (primaryGptHeader (fun _ => 7) h []).bytes) 0 92).copy
        (1024 + 128 * i) (Mem.ofList e.bytes) 0 128
    | _, _ => Mem.zero)

/-- Its table, as it is read. -/
theorem bootAt_table (i : Nat) (hi : i < 2) :
    ∃ t, (isGptValid (fun _ => 7) (fun _ => true) Mem.zero (bootAt i) 1).1 = some t ∧
      t.1.numPartitionEntries = 128 ∧ (∀ j < 128, isPteValid (tableEntry t.2 j) = decide (j = i)) ∧
      HasName (tableEntry t.2 i) (Fastboot.ascii "boot") := by
  have hany : ∀ i < 2, (isGptValid (fun _ => 7) (fun _ => true) Mem.zero (bootAt i) 1).1.any (fun t =>
      decide (t.1.numPartitionEntries = 128 ∧
        (∀ j < 128, isPteValid (tableEntry t.2 j) = decide (j = i)) ∧
        HasName (tableEntry t.2 i) (Fastboot.ascii "boot"))) = true := by decide +kernel
  obtain ⟨t, ht, hdec⟩ := (Option.any_eq_true _ _).mp (hany i hi)
  exact ⟨t, ht, of_decide_eq_true hdec⟩

theorem getPartitionInfoEfiByName_iff_first :
    (getPartitionInfoEfiByName (fun _ => 7) (fun _ => true) Mem.zero (bootAt 0)
      (Fastboot.ascii "boot")).1 = 0 := by
  obtain ⟨⟨h, pte⟩, hvalid, hnum, hused, hname⟩ := bootAt_table 0 (by decide)
  have hzero : ∀ i < 128, isPteValid (tableEntry pte i) = true → i = 0 := fun i hi hi' =>
    of_decide_eq_true ((hused i hi).symm.trans hi')
  have hiff := getPartitionInfoEfiByName_iff (Fastboot.ascii "boot") hvalid hnum fun i hi hi' => by
    obtain rfl := hzero i hi hi'
    exact ⟨Fastboot.ascii "boot", by decide, by decide +kernel, hname⟩
  exact (hiff.2.mpr fun i hi hfirst => by
    obtain rfl := hzero i hi hfirst.1.1
    exact ⟨by decide, nofun⟩).mpr ⟨0, by decide, hused 0 (by decide), hname⟩

/-- The only entry in use is the second one. -/
theorem getPartitionInfoEfiByName_misses :
    ∃ h pte, (isGptValid (fun _ => 7) (fun _ => true) Mem.zero (bootAt 1) 1).1 = some (h, pte) ∧
      isPteValid (tableEntry pte 1) = true ∧ HasName (tableEntry pte 1) (Fastboot.ascii "boot") ∧
      (getPartitionInfoEfiByName (fun _ => 7) (fun _ => true) Mem.zero (bootAt 1)
        (Fastboot.ascii "boot")).1 = -1 := by
  obtain ⟨⟨h, pte⟩, hvalid, -, hused, hname⟩ := bootAt_table 1 (by decide)
  exact ⟨h, pte, hvalid, hused 1 (by decide), hname, by decide +kernel⟩

end Gpt
