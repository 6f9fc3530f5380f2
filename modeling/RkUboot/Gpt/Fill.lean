import RkUboot.Gpt.Basic

set_option autoImplicit false

/-! # The entries that `gpt_fill_pte` fills

Each entry starts where its partition asked for, or else at the running offset, and the offset then
moves behind it. Both steps are 64-bit additions, and a size of 0 means "the rest" only in the last
place. -/

namespace Gpt

variable {last offset : UInt64} {p : DiskPartition} {ps : List DiskPartition} {es : List GptEntry}

/-- Where a partition starts when the running offset is `offset`. -/
def DiskPartition.startAt (p : DiskPartition) (offset : UInt64) : UInt64 :=
  if p.start ≠ 0 then p.start else offset

/-- One pass of the loop. -/
theorem gptFillPte_cons (h : gptFillPte last offset (p :: ps) = some es) :
    ∃ uuid rest, offset ≤ p.startAt offset ∧ p.startAt offset + p.size < last ∧
      gptFillPte last (p.startAt offset + p.size) ps = some rest ∧
      es = fillEntry p (p.startAt offset)
        (if ps.isEmpty ∧ p.size = 0 then last else p.startAt offset + p.size - 1) uuid :: rest := by
  rw [gptFillPte] at h
  split at h
  · nomatch h
  next hstart =>
  dsimp only at h
  rw [show (if p.start ≠ 0 then p.start else offset) = p.startAt offset from rfl] at h
  split at h
  · nomatch h
  next hend =>
  split at h
  · nomatch h
  next uuid _ =>
  obtain ⟨rest, hrest, rfl⟩ := Option.map_eq_some_iff.mp h
  refine ⟨uuid, rest, ?_, UInt64.not_le.mp hend, hrest, rfl⟩
  unfold DiskPartition.startAt
  split
  · next hne => exact UInt64.not_lt.mp fun hlt => hstart ⟨hne, hlt⟩
  · exact UInt64.le_refl _

/-- Where the partitions start: where it was requested, or else behind the one before. -/
def starts : UInt64 → List DiskPartition → List UInt64
  | _, [] => []
  | free, p :: ps =>
    let start := if p.start ≠ 0 then p.start else free
    start :: starts (start + p.size) ps

/-- The entry of every partition. -/
theorem gptFillPte_entries (hes : gptFillPte last offset ps = some es) :
    es.length = ps.length ∧ ∀ (i : Nat) (p : DiskPartition), ps[i]? = some p → ∃ start uuid,
      (starts offset ps)[i]? = some start ∧ (p.start ≠ 0 → start = p.start) ∧ start + p.size < last ∧
      es[i]? = some (fillEntry p start
        (if i + 1 = ps.length ∧ p.size = 0 then last else start + p.size - 1) uuid) := by
  induction ps generalizing offset es with
  | nil =>
    obtain rfl := Option.some.inj hes
    exact ⟨rfl, fun i p hp => nomatch hp⟩
  | cons p ps ih =>
    obtain ⟨uuid, rest, -, hend, hrest, rfl⟩ := gptFillPte_cons hes
    obtain ⟨hlength, hentries⟩ := ih hrest
    refine ⟨congrArg (· + 1) hlength, fun i q hq => ?_⟩
    cases i with
    | zero =>
      obtain rfl := Option.some.inj hq
      refine ⟨p.startAt offset, uuid, rfl, fun hne => if_pos hne, hend, ?_⟩
      cases ps <;> simp
    | succ i =>
      obtain ⟨start, uuid, hstart, hasked, hlt, hentry⟩ := hentries i q hq
      refine ⟨start, uuid, hstart, hasked, hlt, ?_⟩
      simpa using hentry

/-! ## Entries that do not overlap -/

/-- The entries are inside the usable blocks. -/
def InUsable (first last : UInt64) (es : List GptEntry) : Prop :=
  ∀ e ∈ es, first ≤ e.startingLba ∧ e.startingLba ≤ e.endingLba ∧ e.endingLba ≤ last
  deriving Decidable

/-- Every entry ends before the next one starts. -/
def EndsBeforeNext (es : List GptEntry) : Prop :=
  es.IsChain fun e e' => e.endingLba < e'.startingLba

/-- No partition but the last one is empty, and none ends behind the 64-bit blocks. The last one may
    end with block `2 ^ 64 - 1` if that is usable. -/
def LayoutOk (last : UInt64) : UInt64 → List DiskPartition → Prop
  | _, [] => True
  | offset, p :: ps =>
    let stop := (p.startAt offset).toNat + p.size.toNat
    if ps = [] then p.size = 0 ∨ stop < 2 ^ 64 ∨ stop = 2 ^ 64 ∧ last.toNat = 2 ^ 64 - 1
    else p.size ≠ 0 ∧ stop < 2 ^ 64 ∧ LayoutOk last (p.startAt offset + p.size) ps

theorem offset_le_head (h : gptFillPte last offset ps = some es) :
    ∀ e ∈ es.head?, offset ≤ e.startingLba := by
  cases ps with
  | nil =>
    obtain rfl := Option.some.inj h
    exact fun e he => nomatch he
  | cons p ps =>
    obtain ⟨uuid, rest, hle, -, -, rfl⟩ := gptFillPte_cons h
    rintro e ⟨⟩
    exact hle

variable {first size start : UInt64}

theorem size_ne_zero_iff : size ≠ 0 ↔ size.toNat ≠ 0 :=
  not_congr UInt64.toNat_inj.symm

/-- The number of the last block. -/
theorem toNat_ending (start size : UInt64) : (start + size).toNat = (start.toNat + size.toNat) % 2 ^ 64 ∧
    (start + size - 1).toNat = (2 ^ 64 - 1 + (start + size).toNat) % 2 ^ 64 :=
  ⟨UInt64.toNat_add .., UInt64.toNat_sub ..⟩

/-- The last partition alone. -/
theorem last_iff (hfirst : first ≤ start) (hlt : start + size < last) :
    (first ≤ start ∧ start ≤ (if size = 0 then last else start + size - 1) ∧
      (if size = 0 then last else start + size - 1) ≤ last) ↔
    size = 0 ∨ start.toNat + size.toNat < 2 ^ 64 ∨
      start.toNat + size.toNat = 2 ^ 64 ∧ last.toNat = 2 ^ 64 - 1 := by
  by_cases hsize : size = 0
  · subst hsize
    rw [UInt64.add_zero] at hlt
    simp [hfirst, UInt64.le_of_lt hlt]
  · obtain ⟨hstop, hending⟩ := toNat_ending start size
    have hne := size_ne_zero_iff.mp hsize
    have := size.toNat_lt
    have := last.toNat_lt
    simp only [hsize, if_false, false_or, hfirst, true_and, UInt64.le_iff_toNat_le,
      UInt64.lt_iff_toNat_lt] at *
    omega

/-- A partition before another one, whose entry starts at `next`. -/
theorem inner_iff {next : UInt64} (hfirst : first ≤ start) (hlt : start + size < last)
    (hnext : start + size ≤ next) :
    (first ≤ start ∧ start ≤ start + size - 1 ∧ start + size - 1 ≤ last) ∧ start + size - 1 < next ↔
    size ≠ 0 ∧ start.toNat + size.toNat < 2 ^ 64 := by
  obtain ⟨hstop, hending⟩ := toNat_ending start size
  have := size.toNat_lt
  have := next.toNat_lt
  simp only [size_ne_zero_iff, hfirst, true_and, UInt64.le_iff_toNat_le, UInt64.lt_iff_toNat_lt] at *
  omega

theorem le_add_of_lt (h : start.toNat + size.toNat < 2 ^ 64) :
    start ≤ start + size := by
  rw [UInt64.le_iff_toNat_le, (toNat_ending start size).1]
  omega

/-- **What is filled without an error does not overlap if and only if the layout has no empty partition
    before the last and no end behind the 64-bit blocks.** -/
theorem gptFillPte_disjoint_iff {first : UInt64} (h : gptFillPte last first ps = some es) :
    InUsable first last es ∧ EndsBeforeNext es ↔ LayoutOk last first ps := by
  suffices hrun : ∀ offset, first ≤ offset → gptFillPte last offset ps = some es →
      (InUsable first last es ∧ EndsBeforeNext es ↔ LayoutOk last offset ps) from
    hrun first (UInt64.le_refl _) h
  clear h
  induction ps generalizing es with
  | nil =>
    intro offset _ h
    obtain rfl := Option.some.inj h
    simp [InUsable, EndsBeforeNext, LayoutOk]
  | cons p ps ih =>
    intro offset hfirst h
    obtain ⟨uuid, rest, hle, hlt, hrest, rfl⟩ := gptFillPte_cons h
    have hfirst' := UInt64.le_trans hfirst hle
    have hhead := offset_le_head hrest
    cases ps with
    | nil =>
      obtain rfl := Option.some.inj hrest
      simpa [InUsable, EndsBeforeNext, LayoutOk, fillEntry] using last_iff hfirst' hlt
    | cons q qs =>
      obtain ⟨uuid', rest, -, -, -, rfl⟩ := gptFillPte_cons hrest
      have hinner := inner_iff hfirst' hlt (hhead _ rfl)
      have hih : (p.startAt offset).toNat + p.size.toNat < 2 ^ 64 → _ := fun hstop =>
        ih _ (UInt64.le_trans hfirst' (le_add_of_lt hstop)) hrest
      generalize fillEntry q _ _ uuid' = e at hinner hih ⊢
      constructor
      · rintro ⟨hin, hends⟩
        obtain ⟨hplace, hin⟩ := List.forall_mem_cons.mp hin
        obtain ⟨hbefore, hends⟩ := List.isChain_cons_cons.mp hends
        obtain ⟨hsize, hstop⟩ := hinner.mp ⟨hplace, hbefore⟩
        exact ⟨hsize, hstop, (hih hstop).mp ⟨hin, hends⟩⟩
      · rintro ⟨hsize, hstop, hrest⟩
        obtain ⟨hplace, hbefore⟩ := hinner.mpr ⟨hsize, hstop⟩
        obtain ⟨hin, hends⟩ := (hih hstop).mpr hrest
        exact ⟨List.forall_mem_cons.mpr ⟨hplace, hin⟩, List.isChain_cons_cons.mpr ⟨hbefore, hends⟩⟩

def sampleUuid : List UInt8 := Fastboot.ascii "00112233-4455-6677-8899-aabbccddeeff"

def unnamed (start size : UInt64) : DiskPartition where
  start := start
  size := size
  name := List.replicate 32 0
  bootable := false
  uuid := sampleUuid
  length_name := rfl

theorem gptFillPte_disjoint_rest : ∃ es, gptFillPte 66 34 [unnamed 40 4, unnamed 0 0] = some es ∧
    InUsable 34 66 es ∧ EndsBeforeNext es := by
  obtain ⟨es, hes⟩ := Option.isSome_iff_exists.mp
    (show (gptFillPte 66 34 [unnamed 40 4, unnamed 0 0]).isSome from by decide)
  exact ⟨es, hes, (gptFillPte_disjoint_iff hes).mpr ⟨by decide, by decide, .inl rfl⟩⟩

/-- An empty partition before another one ends before it starts, and so does one whose end wraps. -/
theorem gptFillPte_ends_before_start :
    (∃ es, gptFillPte 66 34 [unnamed 40 0, unnamed 0 4] = some es ∧ ¬InUsable 34 66 es) ∧
    ∃ es, gptFillPte 66 34 [unnamed 40 (0 - 30)] = some es ∧ ¬InUsable 34 66 es :=
  ⟨⟨_, rfl, by decide⟩, _, rfl, by decide⟩

end Gpt
